import PackageCatalog.Proofs.Catalog
import PackageCatalog.Proofs.Query.Choosing
import PackageCatalog.Proofs.Query.Pruning
import PackageCatalog.Proofs.Repository.Announcing

/-!
# The order of all hits

A query for all IDs finds the same ones sorted and unsorted. Sorted, names and then versions rise,
and of equal versions the one of the more important repository comes last, since hits carry the rank
of the repository that they were found in. The only hit is the only one of the sorted list
(`sorted_best_last`).
-/

namespace PackageCatalog

/-- Two hits are in order: the second has the higher name, or the same name and the higher version,
or an equal version from the more important of two repositories. -/
structure Hit.Ascends (c : Catalog) (a b : Hit) : Prop where
  name : (QualifiedName.compare a.id.name b.id.name).isLE = true
  version : a.id.name = b.id.name → (a.id.version.compare b.id.version).isLE = true
  importance : a.id.name = b.id.name → a.id.version.equals b.id.version = true →
    ∀ r s, c.repositories[a.rank]? = some r → c.repositories[b.rank]? = some s →
      r.name ≠ s.name → c.moreImportant s.name r.name = true

namespace Hit

variable {c : Catalog} {a b : Hit}

theorem ascends_of_isLE (hnodup : c.names.Nodup) (h : (compare a b).isLE = true) :
    a.Ascends c b := by
  rcases isLE_compare_iff.mp h with hlt | ⟨hname, h⟩
  · have hne : a.id.name ≠ b.id.name := by
      intro heq
      have hself : QualifiedName.compare b.id.name b.id.name = .eq := Std.ReflCmp.compare_self
      rw [heq, hself] at hlt
      cases hlt
    exact ⟨by rw [hlt]; rfl, fun heq => absurd heq hne, fun heq => absurd heq hne⟩
  · refine ⟨?_, fun _ => ?_, fun _ hequals r s hr hs hdiffer => ?_⟩
    · rw [hname]
      exact Std.ReflCmp.isLE_rfl
    · rcases h with hlt | ⟨heq, -⟩
      · rw [hlt]; rfl
      · rw [heq]; rfl
    · rcases h with hlt | ⟨-, hrank⟩
      · rw [Version.equals_iff.mp hequals] at hlt
        cases hlt
      · refine c.moreImportant_of_lt hnodup hs hr (Nat.lt_of_le_of_ne hrank fun heq => hdiffer ?_)
        rw [heq, hr] at hs
        exact congrArg Repository.name (Option.some.inj hs)

/-- Of two hits of one version the more important one is put last. -/
theorem sort_pair (hname : a.id.name = b.id.name) (hversion : a.id.version = b.id.version)
    (hrank : a.rank < b.rank) : Sorted.sort compare [a, b] = [b, a] := by
  have hids : compareIds a.id b.id = .eq := by
    rw [compareIds, hname, hversion]
    exact Ordering.then_eq_eq.mpr ⟨Std.ReflCmp.compare_self, Std.ReflCmp.compare_self⟩
  have hgt : compare a b = .gt := by
    rw [compare, hids]
    exact Nat.compare_eq_gt.mpr hrank
  simp [Sorted.sort, List.mergeSort, hgt]

end Hit

/-- The IDs of every repository carry its name. -/
def Catalog.Labelled (c : Catalog) : Prop :=
  ∀ r ∈ c.repositories, ∀ name, ∀ id ∈ r.packageIds name, id.repository = r.name

theorem Catalog.labelled_of_loaded {c : Catalog} (h : ∀ r ∈ c.repositories, r.Loaded) :
    c.Labelled := fun r hr _ _ hid => ((h r hr).consistent.of_mem_packageIds hid).2.repository

namespace Query

variable {e : Environment} {q : Query} {hit : Hit}

theorem sort_perm : (Sorted.sort Hit.compare (q.hits e)).Perm (q.hits e) :=
  List.mergeSort_perm _ _

theorem sorted_ascends (hnodup : e.catalog.names.Nodup) :
    (Sorted.sort Hit.compare (q.hits e)).Pairwise (Hit.Ascends e.catalog) :=
  Sorted.pairwise_sort.imp (Hit.ascends_of_isLE hnodup)

theorem exists_repository_of_mem_hits (hlabelled : e.catalog.Labelled) (h : hit ∈ q.hits e) :
    ∃ r, e.catalog.repositories[hit.rank]? = some r ∧ hit.id.repository = r.name := by
  obtain ⟨r, hr, hcandidate, -⟩ := mem_hits.mp h
  obtain ⟨name, hid⟩ := Scope.exists_of_mem_candidates hcandidate
  exact ⟨r, hr, hlabelled r (List.mem_of_getElem? hr) name hit.id hid⟩

/-- Where IDs carry the names of their repositories, these names tell which of two IDs of an equal
version comes last. -/
theorem sortedIds_important (hnodup : e.catalog.names.Nodup) (hlabelled : e.catalog.Labelled) :
    (q.sortedIds e).Pairwise fun a b => a.name = b.name → a.version.equals b.version = true →
      a.repository ≠ b.repository → e.catalog.moreImportant b.repository a.repository = true := by
  refine List.pairwise_map.mpr ((sorted_ascends hnodup).imp_of_mem fun {a b} ha hb h => ?_)
  intro hname hequals hdiffer
  obtain ⟨r, hr, har⟩ := exists_repository_of_mem_hits hlabelled (sort_perm.mem_iff.mp ha)
  obtain ⟨s, hs, hbs⟩ := exists_repository_of_mem_hits hlabelled (sort_perm.mem_iff.mp hb)
  rw [har, hbs] at hdiffer ⊢
  exact h.importance hname hequals r s hr hs hdiffer

theorem run_exactlyOne (e : Environment) (q : Query) :
    run e { q with choice := .exactlyOne } =
      if (q.sortedIds e).length = 1 then .ok (q.sortedIds e)
      else .error
        (.notExactlyOne (text { q with choice := .exactlyOne }) (q.sortedIds e).length) := by
  have hsorted : sortedIds e { q with choice := .exactlyOne } = q.sortedIds e := rfl
  unfold run
  rw [hsorted]
  dsimp only
  rcases q.sortedIds e with _ | ⟨id, _ | ⟨id', ids⟩⟩
  · rfl
  · rfl
  · exact (if_neg (by simp)).symm

/-- In any environment: all hits, and the same ones in order. Exactly one is found if that list has
one element, and otherwise its length is told. -/
theorem sorted_best_last (policy : Policy) (additions : List (Int × Repository)) (q : Query) :
    let e : Environment := ⟨policy, Catalog.empty.takeAll additions⟩
    ∃ found sorted : List Hit,
      run e { q with choice := .all } = .ok (found.map Hit.id) ∧
      run e { q with choice := .allSorted } = .ok (sorted.map Hit.id) ∧
      sorted.Perm found ∧
      (∀ hit ∈ sorted, ∃ r, e.catalog.repositories[hit.rank]? = some r ∧
        hit.id ∈ q.scope.candidates r) ∧
      sorted.Pairwise (Hit.Ascends e.catalog) ∧
      (e.catalog.Labelled → (sorted.map Hit.id).Pairwise fun a b =>
        a.name = b.name → a.version.equals b.version = true → a.repository ≠ b.repository →
          e.catalog.moreImportant b.repository a.repository = true) ∧
      (∀ ids, run e { q with choice := .exactlyOne } = .ok ids ↔
        ids = sorted.map Hit.id ∧ sorted.length = 1) ∧
      (sorted.length ≠ 1 → run e { q with choice := .exactlyOne } =
        .error (.notExactlyOne (text { q with choice := .exactlyOne }) sorted.length)) := by
  intro e
  have hnodup : e.catalog.names.Nodup := Catalog.nodup_names_takeAll additions
  have hlength : (q.sortedIds e).length = (Sorted.sort Hit.compare (q.hits e)).length :=
    List.length_map _
  refine ⟨q.hits e, Sorted.sort Hit.compare (q.hits e), rfl, rfl, sort_perm, fun hit hhit => ?_,
    sorted_ascends hnodup, sortedIds_important hnodup, fun ids => ?_, fun hne => ?_⟩
  · obtain ⟨r, hr, hcandidate, -⟩ := mem_hits.mp (sort_perm.mem_iff.mp hhit)
    exact ⟨r, hr, hcandidate⟩
  · rw [run_exactlyOne, hlength]
    split
    · next hone => exact ⟨fun h => ⟨(Except.ok.inj h).symm, hone⟩, fun h => congrArg _ h.1.symm⟩
    · next hne => exact iff_of_false (fun h => by cases h) fun h => hne h.2
  · rw [run_exactlyOne, hlength, if_neg hne]

/-- Of one version in two repositories, that of the more important one comes last, and it is not the
only one. -/
theorem sorted_shelves : ∃ low high : Repository,
    shelf "low" false ["app/kit"] = .ok low ∧ shelf "high" false ["app/kit"] = .ok high ∧
    let e : Environment := ⟨.test, Catalog.empty.takeAll [(0, low), (5, high)]⟩
    e.catalog.Labelled ∧
    ∃ ids, run e ⟨.allSorted, .all, []⟩ = .ok ids ∧
      ids.map PackageId.text = ["app/kit-1.0:0::low", "app/kit-1.0:0::high"] ∧
      (ids.Pairwise fun a b => a.name = b.name → a.version.equals b.version = true →
        a.repository ≠ b.repository →
          e.catalog.moreImportant b.repository a.repository = true) ∧
      run e ⟨.exactlyOne, .all, []⟩ =
        .error (.notExactlyOne "exactly one version of all packages" 2) := by
  obtain ⟨low, hlow, hlowLoaded⟩ := exists_shelf
    (show (shelf "low" false ["app/kit"]).toOption.isSome = true by decide +kernel)
  obtain ⟨high, hhigh, hhighLoaded⟩ := exists_shelf
    (show (shelf "high" false ["app/kit"]).toOption.isSome = true by decide +kernel)
  refine ⟨low, high, hlow, hhigh, ?_⟩
  intro e
  have hlabelled : e.catalog.Labelled := by
    have hloaded : ∀ r ∈ [low, high], r.Loaded :=
      List.forall_mem_cons.mpr ⟨hlowLoaded, List.forall_mem_singleton.mpr hhighLoaded⟩
    exact Catalog.labelled_of_loaded fun r hr => hloaded r (Catalog.mem_additions_of_mem hr)
  have htexts : (sortedIds e ⟨.allSorted, .all, []⟩).map PackageId.text =
      ["app/kit-1.0:0::low", "app/kit-1.0:0::high"] := by
    have hvalue : ((hits ⟨.test, Catalog.empty.takeAll [(0, low), (5, high)]⟩
        ⟨.allSorted, .all, []⟩).map fun hit =>
          (hit.rank, hit.id.name, hit.id.version, hit.id.text)) =
        [(0, (readyKit []).name, .numbered 1 [⟨0, []⟩] none, "app/kit-1.0:0::high"),
          (1, (readyKit []).name, .numbered 1 [⟨0, []⟩] none, "app/kit-1.0:0::low")] := by
      apply Result.eq_of_both hlow hhigh
      decide +kernel
    obtain ⟨first, rest, hhits, hfirst, hrest⟩ := List.map_eq_cons_iff.mp hvalue
    obtain ⟨second, _, rfl, hsecond, hnil⟩ := List.map_eq_cons_iff.mp hrest
    cases List.map_eq_nil_iff.mp hnil
    simp only [Prod.mk.injEq] at hfirst hsecond
    obtain ⟨hrank₁, hname₁, hversion₁, htext₁⟩ := hfirst
    obtain ⟨hrank₂, hname₂, hversion₂, htext₂⟩ := hsecond
    rw [sortedIds, hhits, Hit.sort_pair (hname₁.trans hname₂.symm) (hversion₁.trans hversion₂.symm)
      (by rw [hrank₁, hrank₂]; decide)]
    simp only [List.map_cons, List.map_nil, htext₁, htext₂]
  obtain ⟨-, sorted, -, hsorted, -, -, -, himportant, -, hcount⟩ :=
    sorted_best_last .test [(0, low), (5, high)] ⟨.allSorted, .all, []⟩
  have hids : sorted.map Hit.id = sortedIds e ⟨.allSorted, .all, []⟩ :=
    (Except.ok.inj hsorted).symm
  have hlength : sorted.length = 2 := by
    have h := congrArg List.length htexts
    rwa [← hids, List.length_map, List.length_map] at h
  refine ⟨hlabelled, _, hsorted, hids ▸ htexts, himportant hlabelled, ?_⟩
  rw [hcount (by rw [hlength]; decide), hlength]
  rfl

end Query

end PackageCatalog
