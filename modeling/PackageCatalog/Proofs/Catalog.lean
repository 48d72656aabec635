import Mathlib.Data.List.Nodup
import PackageCatalog.Repository.Basic

/-!
# The order of a catalog

A catalog comes about by additions, of which those fail whose name is taken. It lists the
repositories of the others, each in its place (`Catalog.Lists`), and the answers about names read
off that list: which names are known, and which of two comes first (`Catalog.Ranks`).
-/

namespace PackageCatalog

namespace Catalog

variable {α : Type}

/-! ## Pairs in a list -/

theorem sublist_pair_or {xs : List α} {a b : α} (ha : a ∈ xs) (hb : b ∈ xs) (hne : a ≠ b) :
    [a, b].Sublist xs ∨ [b, a].Sublist xs := by
  obtain ⟨front, back, rfl⟩ := List.append_of_mem ha
  rw [List.mem_append, List.mem_cons] at hb
  rcases hb with hb | rfl | hb
  · exact .inr ((List.singleton_sublist.mpr hb).append
      (List.singleton_sublist.mpr List.mem_cons_self))
  · exact absurd rfl hne
  · exact .inl ((List.cons_sublist_cons.mpr (List.singleton_sublist.mpr hb)).trans
      (List.sublist_append_right front _))

theorem idxOf_lt_of_sublist [DecidableEq α] {xs : List α} {a b : α} (hnodup : xs.Nodup)
    (h : [a, b].Sublist xs) : xs.idxOf a < xs.idxOf b := by
  have hordered : xs.Pairwise fun x y => xs.idxOf x < xs.idxOf y := by
    refine List.pairwise_iff_getElem.mpr fun i j hi hj hij => ?_
    rw [hnodup.idxOf_getElem i hi, hnodup.idxOf_getElem j hj]
    exact hij
  exact List.pairwise_iff_forall_sublist.mp hordered h

/-- An element comes before another just when both stand in the list in this order, or the other
is not in it. -/
theorem idxOf_lt_idxOf_iff [DecidableEq α] {xs : List α} {a b : α} (hnodup : xs.Nodup) :
    xs.idxOf a < xs.idxOf b ↔ [a, b].Sublist xs ∨ a ∈ xs ∧ b ∉ xs := by
  constructor
  · intro hlt
    have ha : a ∈ xs := List.idxOf_lt_length_iff.mp (Nat.lt_of_lt_of_le hlt List.idxOf_le_length)
    by_cases hb : b ∈ xs
    · have hne : a ≠ b := fun heq => Nat.lt_irrefl _ (heq ▸ hlt)
      refine .inl ((sublist_pair_or ha hb hne).resolve_right fun h => ?_)
      exact Nat.lt_asymm hlt (idxOf_lt_of_sublist hnodup h)
    · exact .inr ⟨ha, hb⟩
  · rintro (h | ⟨ha, hb⟩)
    · exact idxOf_lt_of_sublist hnodup h
    · rw [List.idxOf_eq_length_iff.mpr hb]
      exact List.idxOf_lt_length_iff.mpr ha

/-! ## Placing a member -/

theorem place_perm (i : Int) (a : α) (xs : List (Int × α)) :
    (place i a xs).Perm ((i, a) :: xs) := by
  induction xs with
  | nil => exact .refl _
  | cons x xs ih =>
    rw [place]
    split
    · exact .refl _
    · exact (ih.cons x).trans (.swap (i, a) x xs)

/-- What stands before the place is more important than the new item, and what stands behind it
is not. -/
theorem pairwise_place {R : Int × α → Int × α → Prop} {i : Int} {a : α} {xs : List (Int × α)}
    (hfalling : xs.Pairwise fun x y => y.1 ≤ x.1) (h : xs.Pairwise R)
    (hbefore : ∀ x ∈ xs, i < x.1 → R x (i, a)) (hbehind : ∀ x ∈ xs, x.1 ≤ i → R (i, a) x) :
    (place i a xs).Pairwise R := by
  induction xs with
  | nil => exact List.pairwise_singleton R (i, a)
  | cons x xs ih =>
    obtain ⟨hx, hxs⟩ := List.pairwise_cons.mp h
    obtain ⟨hxle, hfalling⟩ := List.pairwise_cons.mp hfalling
    obtain ⟨hxbefore, hbefore⟩ := List.forall_mem_cons.mp hbefore
    obtain ⟨hxbehind, hbehind⟩ := List.forall_mem_cons.mp hbehind
    rw [place]
    split
    · next hle =>
      refine List.pairwise_cons.mpr ⟨List.forall_mem_cons.mpr ⟨hxbehind hle, fun y hy => ?_⟩, h⟩
      exact hbehind y hy (Int.le_trans (hxle y hy) hle)
    · next hlt =>
      refine List.pairwise_cons.mpr ⟨fun y hy => ?_, ih hfalling hxs hbefore hbehind⟩
      rcases List.mem_cons.mp ((place_perm i a xs).mem_iff.mp hy) with rfl | hy
      · exact hxbefore (Int.not_le.mp hlt)
      · exact hx y hy

/-! ## Additions -/

variable {c : Catalog} {made : List (Int × Repository)} {name : RepositoryName}

/-- Makes an addition; if it fails, the catalog stays as it is. -/
def take (c : Catalog) (addition : Int × Repository) : Catalog :=
  match c.add addition.1 addition.2 with
  | .ok changed => changed
  | .error _ => c

def takeAll (c : Catalog) (additions : List (Int × Repository)) : Catalog := additions.foldl take c

/-- The additions that do not fail, in the order in which they are made. -/
def accepted (c : Catalog) : List (Int × Repository) → List (Int × Repository)
  | [] => []
  | addition :: rest =>
    match c.add addition.1 addition.2 with
    | .ok changed => addition :: changed.accepted rest
    | .error _ => c.accepted rest

/-- The catalog lists the additions, under names of their own: the more important first, and of
equally important ones the later first. -/
structure Lists (c : Catalog) (additions : List (Int × Repository)) : Prop where
  members : c.members.Perm additions
  names : c.names.Nodup
  order : c.members.Pairwise fun x y => y.1 < x.1 ∨ x.1 = y.1 ∧ [y, x].Sublist additions

/-- The order of names is that of the list, and one that is not known comes last. -/
structure Ranks (c : Catalog) : Prop where
  irrefl : ∀ a, c.moreImportant a a = false
  trans : ∀ a b d, c.moreImportant a b = true → c.moreImportant b d = true →
    c.moreImportant a d = true
  total : ∀ a ∈ c.names, ∀ b ∈ c.names, a ≠ b →
    c.moreImportant a b = true ∨ c.moreImportant b a = true
  agrees : ∀ a b, c.moreImportant a b = true ↔
    [a, b].Sublist c.names ∨ a ∈ c.names ∧ b ∉ c.names
  importance : ∀ a b i j, c.importance a = .ok i → c.importance b = .ok j → j < i →
    c.moreImportant a b = true

theorem has_iff : c.has name = true ↔ name ∈ c.names := List.contains_iff_mem

theorem add_of_mem {r : Repository} (h : r.name ∈ c.names) (i : Int) :
    c.add i r = .error (.duplicateRepository r.name.text) := if_pos (has_iff.mpr h)

theorem add_of_not_mem {r : Repository} (h : r.name ∉ c.names) (i : Int) :
    c.add i r = .ok ⟨place i r c.members⟩ := if_neg (mt has_iff.mp h)

theorem lists_empty : Lists empty [] := ⟨.nil, .nil, .nil⟩

theorem names_place_perm (c : Catalog) (i : Int) (r : Repository) :
    (names ⟨Catalog.place i r c.members⟩).Perm (r.name :: c.names) :=
  ((place_perm i r c.members).map Prod.snd).map Repository.name

theorem Lists.place (h : c.Lists made) {r : Repository} (hr : r.name ∉ c.names) (i : Int) :
    Lists ⟨place i r c.members⟩ (made ++ [(i, r)]) where
  members := (place_perm i r c.members).trans
    ((h.members.cons (i, r)).trans (List.perm_append_singleton (i, r) made).symm)
  names := (c.names_place_perm i r).nodup_iff.mpr (List.nodup_cons.mpr ⟨hr, h.names⟩)
  order := by
    refine pairwise_place (h.order.imp ?_) (h.order.imp ?_) (fun x _ hx => .inl hx) fun x hx hle => ?_
    · rintro x y (hlt | ⟨heq, -⟩)
      · exact Int.le_of_lt hlt
      · exact Int.le_of_eq heq.symm
    · rintro x y (hlt | ⟨heq, hsub⟩)
      · exact .inl hlt
      · exact .inr ⟨heq, hsub.trans (List.sublist_append_left _ _)⟩
    · refine (Int.lt_or_eq_of_le hle).imp_right fun heq => ⟨heq.symm, ?_⟩
      exact (List.singleton_sublist.mpr (h.members.mem_iff.mp hx)).append (.refl [(i, r)])

theorem Lists.takeAll (h : c.Lists made) (additions : List (Int × Repository)) :
    (c.takeAll additions).Lists (made ++ c.accepted additions) := by
  induction additions generalizing c made with
  | nil =>
    rw [Catalog.accepted, List.append_nil]
    exact h
  | cons addition rest ih =>
    obtain ⟨i, r⟩ := addition
    have hcons : c.takeAll ((i, r) :: rest) = (c.take (i, r)).takeAll rest := rfl
    rw [hcons, Catalog.accepted, take]
    dsimp only
    by_cases hr : r.name ∈ c.names
    · rw [add_of_mem hr]
      exact ih h
    · rw [add_of_not_mem hr, List.append_cons]
      exact ih (h.place hr i)

theorem nodup_names_takeAll (additions : List (Int × Repository)) :
    (empty.takeAll additions).names.Nodup := (lists_empty.takeAll additions).names

theorem accepted_sublist (c : Catalog) (additions : List (Int × Repository)) :
    (c.accepted additions).Sublist additions := by
  induction additions generalizing c with
  | nil => exact .slnil
  | cons addition rest ih =>
    rw [accepted]
    split
    · exact (ih _).cons_cons addition
    · exact (ih c).cons addition

/-- No addition fails if all names are new. -/
theorem accepted_eq_self {additions : List (Int × Repository)}
    (hdistinct : (additions.map (·.2.name)).Nodup)
    (hnew : ∀ addition ∈ additions, addition.2.name ∉ c.names) :
    c.accepted additions = additions := by
  induction additions generalizing c with
  | nil => rfl
  | cons addition rest ih =>
    obtain ⟨i, r⟩ := addition
    obtain ⟨hother, hdistinct⟩ := List.nodup_cons.mp hdistinct
    obtain ⟨hr, hrest⟩ := List.forall_mem_cons.mp hnew
    rw [accepted, add_of_not_mem hr]
    refine congrArg (_ :: ·) (ih hdistinct fun other hmem => ?_)
    rw [(c.names_place_perm i r).mem_iff, List.mem_cons, not_or]
    refine ⟨fun heq => hother ?_, hrest other hmem⟩
    exact List.mem_map.mpr ⟨other, hmem, heq⟩

/-- Under distinct names all repositories are listed that are added. -/
theorem repositories_takeAll_perm {additions : List (Int × Repository)}
    (hdistinct : (additions.map (·.2.name)).Nodup) :
    (empty.takeAll additions).repositories.Perm (additions.map Prod.snd) := by
  have hlists := (lists_empty.takeAll additions).members
  rw [accepted_eq_self hdistinct fun _ _ => List.not_mem_nil] at hlists
  exact hlists.map Prod.snd

/-- A listed repository was added. -/
theorem mem_additions_of_mem {additions : List (Int × Repository)} {r : Repository}
    (h : r ∈ (empty.takeAll additions).repositories) : r ∈ additions.map Prod.snd := by
  obtain ⟨member, hmember, rfl⟩ := List.mem_map.mp h
  have hadded := (lists_empty.takeAll additions).members.mem_iff.mp hmember
  exact List.mem_map_of_mem ((accepted_sublist empty additions).subset hadded)

/-! ## Answers about names -/

/-- A repository that is listed before another is more important. -/
theorem moreImportant_of_lt (hnodup : c.names.Nodup) {r s : Repository} {i j : Nat}
    (hr : c.repositories[i]? = some r) (hs : c.repositories[j]? = some s) (h : i < j) :
    c.moreImportant r.name s.name = true := by
  have hplace {t : Repository} {k : Nat} (ht : c.repositories[k]? = some t) :
      c.names.idxOf t.name = k := by
    obtain ⟨hk, rfl⟩ := List.getElem?_eq_some_iff.mp ht
    have hlt : k < c.names.length := by rwa [names, List.length_map]
    have hname : c.names[k] = c.repositories[k].name := List.getElem_map _
    rw [← hname, hnodup.idxOf_getElem k hlt]
  rw [moreImportant, hplace hr, hplace hs]
  exact decide_eq_true h

/-- All answers tell the same names as known. -/
theorem known_or_unknown (c : Catalog) (name : RepositoryName) :
    (name ∈ c.names ∧ c.has name = true ∧ ∃ i r, (i, r) ∈ c.members ∧ r.name = name ∧
      c.fetch name = .ok r ∧ c.importance name = .ok i) ∨
    (name ∉ c.names ∧ c.has name = false ∧ c.fetch name = .error (.noSuchRepository name.text) ∧
      c.importance name = .error (.noSuchRepository name.text)) := by
  unfold fetch importance
  cases hfind : c.find? name with
  | some member =>
    have hmem := List.mem_of_find?_eq_some hfind
    have hpassed := List.find?_some (show c.members.find? (·.2.name = name) = some member from hfind)
    have hname : member.2.name = name := of_decide_eq_true hpassed
    have hknown : name ∈ c.names := hname ▸ List.mem_map_of_mem (List.mem_map_of_mem hmem)
    exact .inl ⟨hknown, has_iff.mpr hknown, member.1, member.2, hmem, hname, rfl, rfl⟩
  | none =>
    have hunknown : name ∉ c.names := by
      intro h
      obtain ⟨r, hr, rfl⟩ := List.mem_map.mp h
      obtain ⟨member, hmember, rfl⟩ := List.mem_map.mp hr
      exact List.find?_eq_none.mp hfind member hmember (decide_eq_true rfl)
    exact .inr ⟨hunknown, Bool.eq_false_iff.mpr (mt has_iff.mp hunknown), rfl, rfl⟩

theorem exists_member_of_importance {i : Int} (h : c.importance name = .ok i) :
    ∃ r, (i, r) ∈ c.members ∧ r.name = name := by
  rcases known_or_unknown c name with ⟨-, -, j, r, hmem, hname, -, hj⟩ | ⟨-, -, -, herror⟩
  · cases h.symm.trans hj
    exact ⟨r, hmem, hname⟩
  · cases h.symm.trans herror

theorem Lists.ranks (h : c.Lists made) : c.Ranks := by
  have hagrees (a b : RepositoryName) : c.moreImportant a b = true ↔
      [a, b].Sublist c.names ∨ a ∈ c.names ∧ b ∉ c.names :=
    decide_eq_true_iff.trans (idxOf_lt_idxOf_iff h.names)
  refine ⟨fun a => decide_eq_false (Nat.lt_irrefl _), fun a b d hab hbd => ?_, ?_, hagrees, ?_⟩
  · exact decide_eq_true (Nat.lt_trans (of_decide_eq_true hab) (of_decide_eq_true hbd))
  · intro a ha b hb hne
    exact (sublist_pair_or ha hb hne).imp (fun h => (hagrees a b).mpr (.inl h))
      fun h => (hagrees b a).mpr (.inl h)
  · intro a b i j ha hb hlt
    obtain ⟨r, hr, rfl⟩ := exists_member_of_importance ha
    obtain ⟨s, hs, rfl⟩ := exists_member_of_importance hb
    have hne : (i, r) ≠ (j, s) := fun heq => Int.ne_of_gt hlt (congrArg Prod.fst heq)
    have hpair : [(i, r), (j, s)].Sublist c.members := by
      refine (sublist_pair_or hr hs hne).resolve_right fun hwrong => ?_
      -- the list would fall from `j` to `i`
      rcases List.pairwise_iff_forall_sublist.mp h.order hwrong with hgt | ⟨heq, -⟩
      · exact Int.lt_asymm hlt hgt
      · exact Int.ne_of_lt hlt heq
    exact (hagrees _ _).mpr (.inl ((hpair.map Prod.snd).map Repository.name))

/-- However a catalog came about, it lists the repositories whose addition succeeded, an addition
fails just when its name is taken, and all answers about names read off that list. -/
theorem lists_what_was_added (additions : List (Int × Repository)) :
    (empty.takeAll additions).Lists (empty.accepted additions) ∧
    (∀ i r, r.name ∈ (empty.takeAll additions).names →
      (empty.takeAll additions).add i r = .error (.duplicateRepository r.name.text) ∧
      ∀ rest, empty.takeAll (additions ++ (i, r) :: rest) = empty.takeAll (additions ++ rest)) ∧
    (∀ i r, r.name ∉ (empty.takeAll additions).names →
      (empty.takeAll additions).add i r = .ok (empty.takeAll (additions ++ [(i, r)]))) ∧
    (empty.takeAll additions).Ranks ∧
    ∀ name,
      (name ∈ (empty.takeAll additions).names ∧ (empty.takeAll additions).has name = true ∧
        ∃ i r, (i, r) ∈ (empty.takeAll additions).members ∧ r.name = name ∧
          (empty.takeAll additions).fetch name = .ok r ∧
          (empty.takeAll additions).importance name = .ok i) ∨
      (name ∉ (empty.takeAll additions).names ∧ (empty.takeAll additions).has name = false ∧
        (empty.takeAll additions).fetch name = .error (.noSuchRepository name.text) ∧
        (empty.takeAll additions).importance name = .error (.noSuchRepository name.text)) := by
  have hlists : (empty.takeAll additions).Lists (empty.accepted additions) :=
    lists_empty.takeAll additions
  have htake (i : Int) (r : Repository) (rest : List (Int × Repository)) :
      empty.takeAll (additions ++ (i, r) :: rest) =
        ((empty.takeAll additions).take (i, r)).takeAll rest := List.foldl_append
  refine ⟨hlists, fun i r hr => ⟨add_of_mem hr i, fun rest => ?_⟩, fun i r hr => ?_, hlists.ranks,
    known_or_unknown _⟩
  · rw [htake, take, add_of_mem hr]
    exact List.foldl_append.symm
  · rw [htake, take, add_of_not_mem hr]
    rfl

def bareRepository (name : RepositoryName) : Repository := ⟨name, [], .empty, .manual false⟩

/-- Repositories of equal importance, of which one has a namesake. -/
def additionsOfEqual : List (Int × Repository) :=
  [(0, bareRepository ⟨"low", by decide⟩), (5, bareRepository ⟨"older", by decide⟩),
    (7, bareRepository ⟨"low", by decide⟩), (5, bareRepository ⟨"newer", by decide⟩)]

/-- The later of two equally important repositories comes first, and the first of two of one name
keeps it. -/
theorem lists_newer_before_older :
    (empty.takeAll additionsOfEqual).names.map Name.text = ["newer", "older", "low"] ∧
    (empty.takeAll additionsOfEqual).add 9 (bareRepository ⟨"low", by decide⟩) =
      .error (.duplicateRepository "low") ∧
    (empty.takeAll additionsOfEqual).moreImportant ⟨"older", by decide⟩ ⟨"low", by decide⟩ = true ∧
    (empty.takeAll additionsOfEqual).moreImportant ⟨"low", by decide⟩ ⟨"lost", by decide⟩ = true := by
  obtain ⟨-, hrefuses, -, hranks, -⟩ := lists_what_was_added additionsOfEqual
  refine ⟨by decide +kernel, (hrefuses 9 _ (by decide +kernel)).1, ?_, ?_⟩
  · exact hranks.importance _ _ 5 0 rfl rfl (by decide)
  · exact (hranks.agrees _ _).mpr (.inr (by decide +kernel))

end Catalog

end PackageCatalog
