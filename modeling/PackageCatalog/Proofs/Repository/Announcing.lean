import PackageCatalog.Proofs.Repository.Filling
import PackageCatalog.Proofs.Repository.Provenance
import PackageCatalog.Query

/-!
# What repositories announce

A repository announces what its IDs might support by its kind alone, and a filter for an action
that is not announced skips the repository. An ID that was loaded, or made by the repository
itself, supports nothing else. One that was put in ready-made may (`Reached.announces`), and then
such a filter hides it (`hides_only_ready`, `hides_ready_config`).
-/

namespace PackageCatalog

def Request.ready : Request → List PackageId
  | .insert id => [id]
  | _ => []

namespace Repository

variable {r : Repository} {ready : List PackageId} {id : PackageId}

/-- The repository announces whatever the ID supports. -/
def Announces (r : Repository) (id : PackageId) : Prop :=
  ∀ a, id.supports a = true → r.mightSupport a = true

/-- The repository was loaded, and has taken in requests since if it is filled by hand. Among these
were the IDs in `ready`. -/
inductive Reached : List PackageId → Repository → Prop
  | loaded {r : Repository} : r.Loaded → Reached [] r
  | request {ready : List PackageId} {r : Repository} (request : Request) :
      Reached ready r → r.isManual = true → Reached (request.ready ++ ready) (request.take r)

/-! ## One request -/

theorem kind_take (r : Repository) (request : Request) : (request.take r).kind = r.kind := by
  rw [Request.take_eq]
  cases request.change r <;> rfl

theorem announces_congr {r' : Repository} (h : r'.kind = r.kind) :
    r'.Announces id ↔ r.Announces id := by
  unfold Announces mightSupport
  rw [h]

theorem isManual_take (r : Repository) (request : Request) :
    (request.take r).isManual = r.isManual := by
  unfold isManual
  rw [kind_take]

theorem exists_kind_of_isManual (h : r.isManual = true) :
    ∃ installed, r.kind = .manual installed := by
  unfold isManual at h
  split at h
  · next installed hkind => exact ⟨installed, hkind⟩
  · cases h

/-- An ID that the repository makes itself supports only what is announced. -/
theorem announces_defaultId (h : r.isManual = true) (name : QualifiedName) (v : Version) :
    r.Announces (r.defaultId name v) := by
  obtain ⟨installed, hkind⟩ := exists_kind_of_isManual h
  exact (belongs_defaultId hkind name v).announced

/-- A change that a request asks for puts in an announced ID, or the one brought along. -/
theorem announces_of_change {request : Request} (h : r.isManual = true)
    (hchange : request.change r = .ok (.insert id)) : r.Announces id ∨ id ∈ request.ready := by
  cases request with
  | addCategory text =>
    obtain ⟨_, -, hchange⟩ := Result.bind_eq_ok_iff.mp hchange
    cases hchange
  | addPackage text =>
    obtain ⟨_, -, hchange⟩ := Result.bind_eq_ok_iff.mp hchange
    cases hchange
  | addVersion name version =>
    obtain ⟨_, -, hchange⟩ := Result.bind_eq_ok_iff.mp hchange
    obtain ⟨_, -, hchange⟩ := Result.bind_eq_ok_iff.mp hchange
    cases hchange
    exact .inl (announces_defaultId h _ _)
  | addVersionOfParts category package version =>
    obtain ⟨_, -, hchange⟩ := Result.bind_eq_ok_iff.mp hchange
    obtain ⟨_, -, hchange⟩ := Result.bind_eq_ok_iff.mp hchange
    cases hchange
    exact .inl (announces_defaultId h _ _)
  | insert new =>
    cases hchange
    exact .inr (List.mem_singleton_self _)

/-! ## All requests -/

/-- What holds of the index of a repository as it takes in requests. -/
abbrev Holds (r : Repository) (ready : List PackageId) (index : PackageIndex) : Prop :=
  index.WellFormed fun id => r.Announces id ∨ id ∈ ready

theorem Holds.apply {index : PackageIndex} {change : Change} (h : r.Holds ready index)
    (hchange : ∀ id, change = .insert id → r.Announces id ∨ id ∈ ready) :
    r.Holds ready (change.apply index) := by
  cases change with
  | addCategory c => exact h.addCategory c
  | addPackage name => exact h.addPackage name
  | insert id => exact h.insert (hchange id rfl)

theorem Holds.mono {r' : Repository} {ready' : List PackageId} {index : PackageIndex}
    (h : r.Holds ready index) (hkind : r'.kind = r.kind) (hready : ready ⊆ ready') :
    r'.Holds ready' index where
  categories := h.categories
  names := h.names
  listed := h.listed
  held entry hentry id hid := by
    refine (h.held entry hentry id hid).imp_right (Or.imp (announces_congr hkind).mpr ?_)
    exact fun hmem => hready hmem

theorem Holds.take (h : r.Holds ready r.index) (hmanual : r.isManual = true) (request : Request) :
    r.Holds (request.ready ++ ready) (request.take r).index := by
  have hbefore : r.Holds (request.ready ++ ready) r.index :=
    h.mono rfl (List.subset_append_right _ _)
  rw [Request.take_eq]
  cases hchange : request.change r with
  | error e => exact hbefore
  | ok change =>
    refine hbefore.apply fun id heq => ?_
    rw [heq] at hchange
    exact (announces_of_change hmanual hchange).imp_right (List.mem_append_left _)

theorem Reached.holds (h : Reached ready r) : r.Holds ready r.index := by
  induction h with
  | loaded h =>
    have hconsistent := h.consistent
    exact
      { categories := hconsistent.categories
        names := hconsistent.names
        listed := hconsistent.listed
        held := fun entry hentry id hid =>
          (hconsistent.held entry hentry id hid).imp_right fun hid => .inl hid.announced }
  | request request _ hmanual ih =>
    exact (ih.take hmanual request).mono (kind_take _ _) (List.Subset.refl _)

theorem Reached.isManual (h : Reached ready r) (hid : id ∈ ready) : r.isManual = true := by
  cases h with
  | loaded h => exact absurd hid List.not_mem_nil
  | request request _ hmanual => rw [isManual_take, hmanual]

/-- An ID supports something that is not announced only if it was put in ready-made. -/
theorem Reached.announces (h : Reached ready r) {name : QualifiedName}
    (hid : id ∈ r.packageIds name) : r.Announces id ∨ r.isManual = true ∧ id ∈ ready :=
  (h.holds.of_mem_packageIds hid).2.imp_right fun hready => ⟨h.isManual hready, hready⟩

end Repository

/-! ## What a filter hides -/

theorem Repository.exists_of_mem_ids {r : Repository} {id : PackageId} (h : id ∈ r.ids) :
    ∃ name, id ∈ r.packageIds name := by
  obtain ⟨c, -, h⟩ := List.mem_flatMap.mp h
  obtain ⟨name, -, h⟩ := List.mem_flatMap.mp h
  exact ⟨name, h⟩

theorem Scope.exists_of_mem_candidates {r : Repository} {id : PackageId} {scope : Scope}
    (h : id ∈ scope.candidates r) : ∃ name, id ∈ r.packageIds name := by
  cases scope with
  | all => exact Repository.exists_of_mem_ids h
  | category c =>
    obtain ⟨name, -, h⟩ := List.mem_flatMap.mp h
    exact ⟨name, h⟩
  | package name => exact ⟨name, h⟩
  | repository name =>
    dsimp only [candidates] at h
    split at h
    · exact Repository.exists_of_mem_ids h
    · exact absurd h List.not_mem_nil
  | matching a =>
    dsimp only [candidates] at h
    split at h
    · exact absurd h List.not_mem_nil
    · have hmem := (List.mem_filter.mp h).1
      split at hmem
      · next name _ => exact ⟨name, hmem⟩
      · exact Repository.exists_of_mem_ids hmem

namespace Query

variable {e : Environment} {q : Query} {r : Repository} {rank : Nat} {a : Action} {hit : Hit}

def supporting (q : Query) (a : Action) : Query := { q with filters := .supports a :: q.filters }

theorem exists_of_mem_hitsIn (h : hit ∈ q.hitsIn e r rank) :
    ∃ name, hit.id ∈ r.packageIds name := by
  unfold hitsIn at h
  split at h
  · obtain ⟨id, hid, rfl⟩ := List.mem_map.mp h
    exact Scope.exists_of_mem_candidates (List.mem_filter.mp hid).1
  · exact absurd h List.not_mem_nil

theorem hitsIn_supporting_of_announced (h : r.mightSupport a = true) :
    (q.supporting a).hitsIn e r rank = (q.hitsIn e r rank).filter (·.id.supports a) := by
  have hmight : (q.supporting a).filters.all (·.mightPass r) = q.filters.all (·.mightPass r) :=
    (congrArg (· && q.filters.all (·.mightPass r)) h).trans (Bool.true_and _)
  unfold hitsIn
  rw [hmight]
  split
  · rw [List.filter_map, List.filter_filter]
    rfl
  · rfl

theorem hitsIn_supporting_of_not_announced (h : r.mightSupport a = false) :
    (q.supporting a).hitsIn e r rank = [] := by
  have hmight : (q.supporting a).filters.all (·.mightPass r) = false :=
    (congrArg (· && q.filters.all (·.mightPass r)) h).trans (Bool.false_and _)
  unfold hitsIn
  rw [hmight]
  exact if_neg Bool.false_ne_true

/-- A filter for an action keeps the hits that support it, but for IDs that were put in ready-made
and support what their repository does not announce. If there are none, it keeps all of them. -/
theorem hides_only_ready {ready : List PackageId} (h : Repository.Reached ready r) :
    (∀ name, ∀ id ∈ r.packageIds name, r.Announces id ∨ r.isManual = true ∧ id ∈ ready) ∧
    (∀ e q rank a, ∀ hit ∈ hitsIn e q r rank, hit.id.supports a = true →
      hit ∈ (q.supporting a).hitsIn e r rank ∨
        r.isManual = true ∧ hit.id ∈ ready ∧ r.mightSupport a = false) ∧
    ((∀ id ∈ ready, r.Announces id) → ∀ e q rank a,
      (q.supporting a).hitsIn e r rank = (hitsIn e q r rank).filter (·.id.supports a)) := by
  refine ⟨fun name id hid => h.announces hid, fun e q rank a hit hhit hsupports => ?_,
    fun hready e q rank a => ?_⟩
  · cases hmight : r.mightSupport a with
    | true =>
      rw [hitsIn_supporting_of_announced hmight]
      exact .inl (List.mem_filter.mpr ⟨hhit, hsupports⟩)
    | false =>
      obtain ⟨name, hname⟩ := exists_of_mem_hitsIn hhit
      rcases h.announces hname with hannounces | ⟨hmanual, hmem⟩
      · exact absurd (hannounces a hsupports) (by rw [hmight]; exact Bool.false_ne_true)
      · exact .inr ⟨hmanual, hmem, rfl⟩
  · cases hmight : r.mightSupport a with
    | true => exact hitsIn_supporting_of_announced hmight
    | false =>
      rw [hitsIn_supporting_of_not_announced hmight]
      refine (List.filter_eq_nil_iff.mpr fun hit hhit hsupports => ?_).symm
      obtain ⟨name, hname⟩ := exists_of_mem_hitsIn hhit
      have hannounces : r.Announces hit.id :=
        (h.announces hname).elim id fun hid => hready _ hid.2
      rw [hannounces a hsupports] at hmight
      cases hmight

def blank : Repository :=
  ⟨⟨"main", RepositoryName.accepts_main⟩, [Repository.formatKey "fake"], .empty, .manual false⟩

theorem manual_main : Repository.manual "main" false = .ok blank :=
  Result.bind_eq_ok_iff.mpr
    ⟨⟨"main", RepositoryName.accepts_main⟩, Name.parse_eq_ok_iff.mpr rfl, rfl⟩

theorem reached_blank : Repository.Reached [] blank := .loaded (.filled (.manual manual_main))

/-- The ID of version 1 of `app/kit` as a repository makes it, but for the actions that it supports
besides. -/
def readyKit (more : List Action) : PackageId :=
  (blank.defaultId (PackageId.sample (.numbered 1 [] none)).name (.numbered 1 [] none)).withActions
    more

def kitShelf (more : List Action) : Repository := (Request.insert (readyKit more)).take blank

theorem reached_kitShelf (more : List Action) :
    Repository.Reached [readyKit more] (kitShelf more) :=
  .request (.insert (readyKit more)) reached_blank rfl

/-- An ID put in ready-made that supports an announced action besides is found. -/
theorem finds_ready_info :
    Repository.Reached [readyKit [.info]] (kitShelf [.info]) ∧
    (kitShelf [.info]).Announces (readyKit [.info]) ∧
    (((Query.mk .all .all []).supporting .info).hitsIn ⟨.test, ⟨[]⟩⟩ (kitShelf [.info]) 0).map
      (·.id.text) = ["app/kit-1:0::main"] := by
  have hannounces : (kitShelf [.info]).Announces (readyKit [.info]) := by
    intro a
    cases a <;> decide +kernel
  have hfinds := (hides_only_ready (reached_kitShelf [.info])).2.2
    (List.forall_mem_singleton.mpr hannounces)
  refine ⟨reached_kitShelf _, hannounces, ?_⟩
  rw [hfinds]
  decide +kernel

/-- An ID put in ready-made that can be configured is hidden from a query for what can be. -/
theorem hides_ready_config :
    Repository.Reached [readyKit [.config]] (kitShelf [.config]) ∧
    readyKit [.config] ∈ (kitShelf [.config]).packageIds (readyKit [.config]).name ∧
    (readyKit [.config]).supports .config = true ∧
    (kitShelf [.config]).mightSupport .config = false ∧
    ((Query.mk .all .all []).hitsIn ⟨.test, ⟨[]⟩⟩ (kitShelf [.config]) 0).map
      (·.id.supports .config) = [true] ∧
    ((Query.mk .all .all []).supporting .config).hitsIn ⟨.test, ⟨[]⟩⟩ (kitShelf [.config]) 0 =
      [] := by
  refine ⟨reached_kitShelf _, List.mem_singleton_self _, ?_, ?_, ?_, ?_⟩
  · decide +kernel
  · decide +kernel
  · decide +kernel
  · rfl

end Query

end PackageCatalog
