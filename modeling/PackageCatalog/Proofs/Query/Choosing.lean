import Mathlib.Data.Option.Basic
import PackageCatalog.Proofs.Name
import PackageCatalog.Proofs.Sorted
import PackageCatalog.Proofs.Version.Order
import PackageCatalog.Query

/-!
# What is chosen from the hits

The best of each package, the best in each of its slots and the first of each package are one hit
from each group of hits, where a group is formed by a key (`Query.OneOfEach`). The first two take
the last of a group in the order of `Hit.compare`, so that the best of a package is also the best
in its slot; the third takes the first in the order of the repositories.
-/

namespace PackageCatalog

/-- The package of an ID and the slot that it is in. -/
def PackageId.slotted (id : PackageId) : QualifiedName × Option String :=
  (id.name, id.slot?.map Slot.name)

/-! ## Orders -/

instance : Std.TransOrd QualifiedName := inferInstanceAs (Std.TransCmp QualifiedName.compare)

instance : Std.TransOrd Version := inferInstanceAs (Std.TransCmp Version.compare)

namespace Query

theorem compareSlots_eq : compareSlots = compare := by
  funext a b
  cases a <;> cases b <;> rfl

theorem compareSlotted_eq :
    compareSlotted = compareLex (compareOn Prod.fst) (compareOn Prod.snd) := by
  funext a b
  show (QualifiedName.compare a.1 b.1).then (compareSlots a.2 b.2) = _
  rw [compareSlots_eq]
  rfl

instance : Std.TransCmp compareSlotted := by
  rw [compareSlotted_eq]
  infer_instance

instance : Std.LawfulEqCmp compareSlotted where
  eq_of_compare {a b} h := by
    obtain ⟨hname, hslot⟩ := Ordering.then_eq_eq.mp h
    rw [compareSlots_eq] at hslot
    exact Prod.ext (Std.LawfulEqCmp.eq_of_compare hname) (Std.LawfulEqCmp.eq_of_compare hslot)

end Query

namespace Hit

instance : Std.TransCmp compareIds :=
  inferInstanceAs
    (Std.TransCmp (compareLex (compareOn PackageId.name) (compareOn PackageId.version)))

instance : Std.TransCmp compare :=
  have : Std.TransCmp fun a b : Hit => compareOn rank b a := .opposite
  inferInstanceAs (Std.TransCmp (compareLex
    (compareLex (compareOn (·.id.name)) (compareOn (·.id.version))) fun a b => compareOn rank b a))

/-- The name decides first, then the version, and then the rank, the other way round. -/
theorem isLE_compare_iff {a b : Hit} : (compare a b).isLE = true ↔
    QualifiedName.compare a.id.name b.id.name = .lt ∨ a.id.name = b.id.name ∧
      (a.id.version.compare b.id.version = .lt ∨
        a.id.version.compare b.id.version = .eq ∧ b.rank ≤ a.rank) := by
  have hname : QualifiedName.compare a.id.name b.id.name = .eq ↔ a.id.name = b.id.name :=
    Std.LawfulEqCmp.compare_eq_iff_eq
  rw [← hname, compare, compareIds, Ordering.then_assoc, Ordering.isLE_then_iff_or,
    Ordering.isLE_then_iff_or, Nat.isLE_compare]

end Hit

/-! ## The best and the first of a group -/

namespace Hit

variable {κ : Type} {key : PackageId → κ} {hits : List Hit} {best : Hit}

/-- No hit of its group has a higher version, and those of an equal version come from no more
important repository. -/
structure IsBest (key : PackageId → κ) (hits : List Hit) (best : Hit) : Prop where
  mem : best ∈ hits
  highest : ∀ hit ∈ hits, key hit.id = key best.id →
    (hit.id.version.compare best.id.version).isLE
  foremost : ∀ hit ∈ hits, key hit.id = key best.id →
    hit.id.version.equals best.id.version = true → best.rank ≤ hit.rank

/-- No hit of its group comes from a more important repository. -/
structure IsForemost (key : PackageId → κ) (hits : List Hit) (first : Hit) : Prop where
  mem : first ∈ hits
  foremost : ∀ hit ∈ hits, key hit.id = key first.id → first.rank ≤ hit.rank

/-- The last of a group is the best, if the packages of a group have one name. -/
theorem IsBest.of_last (hname : ∀ a b, key a = key b → a.name = b.name) (hmem : best ∈ hits)
    (hlast : ∀ hit ∈ hits, key hit.id = key best.id → (compare hit best).isLE) :
    IsBest key hits best := by
  have horder : ∀ hit ∈ hits, key hit.id = key best.id →
      hit.id.version.compare best.id.version = .lt ∨
        hit.id.version.compare best.id.version = .eq ∧ best.rank ≤ hit.rank := by
    intro hit hhit hkey
    rcases isLE_compare_iff.mp (hlast hit hhit hkey) with hlt | ⟨-, h⟩
    · have hself : QualifiedName.compare best.id.name best.id.name = .eq :=
        Std.ReflCmp.compare_self
      rw [hname _ _ hkey, hself] at hlt
      cases hlt
    · exact h
  refine ⟨hmem, fun hit hhit hkey => ?_, fun hit hhit hkey hequals => ?_⟩
  · rcases horder hit hhit hkey with hlt | ⟨heq, -⟩
    · rw [hlt]
      rfl
    · rw [heq]
      rfl
  · rcases horder hit hhit hkey with hlt | ⟨-, hrank⟩
    · rw [Version.equals_iff.mp hequals] at hlt
      cases hlt
    · exact hrank

end Hit

namespace Query

open PackageId

/-! ## One of each group -/

section Groups

variable {κ : Type} {key : PackageId → κ} {chosen : Hit → Prop} {hits ordered : List Hit}
  {ids : List PackageId}

/-- The IDs are those of one hit from each group, chosen from it. -/
structure OneOfEach (key : PackageId → κ) (chosen : Hit → Prop) (hits : List Hit)
    (ids : List PackageId) : Prop where
  nodup : (ids.map key).Nodup
  keys : ∀ k, k ∈ ids.map key ↔ ∃ hit ∈ hits, key hit.id = k
  chosen : ∀ id ∈ ids, ∃ hit, chosen hit ∧ hit.id = id

theorem OneOfEach.of_find? [DecidableEq κ] (hperm : ordered.Perm hits)
    (hnodup : (ids.map key).Nodup)
    (hids : ∀ id, id ∈ ids ↔ (ordered.map Hit.id).find? (key · = key id) = some id)
    (hchosen : ∀ hit, ordered.find? (key ·.id = key hit.id) = some hit → chosen hit) :
    OneOfEach key chosen hits ids where
  nodup := hnodup
  keys k := by
    constructor
    · intro hk
      obtain ⟨id, hid, rfl⟩ := List.mem_map.mp hk
      have hmem := List.mem_of_find?_eq_some ((hids id).mp hid)
      obtain ⟨hit, hhit, rfl⟩ := List.mem_map.mp hmem
      exact ⟨hit, hperm.mem_iff.mp hhit, rfl⟩
    · rintro ⟨hit, hhit, rfl⟩
      have hsome : ((ordered.map Hit.id).find? (key · = key hit.id)).isSome :=
        List.find?_isSome.mpr
          ⟨hit.id, List.mem_map_of_mem (hperm.mem_iff.mpr hhit), decide_eq_true rfl⟩
      obtain ⟨id, hfind⟩ := Option.isSome_iff_exists.mp hsome
      have hkey : key id = key hit.id := by
        have hfound := List.find?_some hfind
        exact of_decide_eq_true hfound
      rw [← hkey] at hfind ⊢
      exact List.mem_map_of_mem ((hids id).mpr hfind)
  chosen id hid := by
    have hfind := (hids id).mp hid
    rw [List.find?_map] at hfind
    obtain ⟨hit, hhit, rfl⟩ := Option.map_eq_some_iff.mp hfind
    exact ⟨hit, hchosen hit hhit, rfl⟩

end Groups

/-! ## What the choices keep -/

variable {ids : List PackageId} {id : PackageId}

theorem holds_last : Sorted.Holds QualifiedName.compare name
    (fun n => ids.reverse.find? (name · = n))
    (ids.foldl (fun kept id => Sorted.alter QualifiedName.compare id.name (fun _ => id) kept) []) :=
  .last

theorem mem_lastOfEach :
    id ∈ lastOfEach ids ↔ ids.reverse.find? (name · = id.name) = some id :=
  holds_last.mem_values_iff

theorem strict_lastOfEach : Sorted.Strict QualifiedName.compare ((lastOfEach ids).map name) :=
  holds_last.strict_values

theorem holds_slotted : Sorted.Holds compareSlotted slotted
    (fun k => ids.reverse.find? (slotted · = k))
    (ids.foldl (fun kept id => Sorted.alter compareSlotted (slotted id) (fun _ => id) kept) []) :=
  .last

theorem lastInEachSlot_perm : (lastInEachSlot ids).Perm
    ((ids.foldl (fun kept id => Sorted.alter compareSlotted (slotted id) (fun _ => id) kept)
      []).map Prod.snd) := List.mergeSort_perm _ _

theorem mem_lastInEachSlot :
    id ∈ lastInEachSlot ids ↔ ids.reverse.find? (slotted · = id.slotted) = some id :=
  lastInEachSlot_perm.mem_iff.trans holds_slotted.mem_values_iff

theorem nodup_lastInEachSlot : ((lastInEachSlot ids).map slotted).Nodup :=
  (lastInEachSlot_perm.map slotted).nodup_iff.mpr
    (Sorted.nodup_of_strict holds_slotted.strict_values)

theorem holds_first : Sorted.Holds QualifiedName.compare name (fun n => ids.find? (name · = n))
    (ids.foldl (fun kept id => Sorted.alter QualifiedName.compare id.name (·.getD id) kept) []) :=
  .first

theorem mem_firstOfEach : id ∈ firstOfEach ids ↔ ids.find? (name · = id.name) = some id :=
  holds_first.mem_values_iff

theorem strict_firstOfEach : Sorted.Strict QualifiedName.compare ((firstOfEach ids).map name) :=
  holds_first.strict_values

/-- The last of a package is the last in its slot. -/
theorem lastOfEach_subset : lastOfEach ids ⊆ lastInEachSlot ids := by
  intro id hid
  have hlast := mem_lastOfEach.mp hid
  refine mem_lastInEachSlot.mpr (Sorted.find?_of_imp hlast (decide_eq_true rfl) ?_)
  intro other hslotted
  exact decide_eq_true (congrArg Prod.fst (of_decide_eq_true hslotted))

/-! ## What is found -/

variable {e : Environment} {q : Query} {hit : Hit}

theorem mem_hitsIn {r : Repository} {rank : Nat} : hit ∈ q.hitsIn e r rank ↔
    rank = hit.rank ∧ hit.id ∈ q.scope.candidates r ∧
      ∀ f ∈ q.filters, f.mightPass r = true ∧ f.passes e r hit.id = true := by
  have hfilters : (∀ f ∈ q.filters, f.mightPass r = true ∧ f.passes e r hit.id = true) ↔
      q.filters.all (·.mightPass r) = true ∧ q.filters.all (·.passes e r hit.id) = true := by
    rw [List.all_eq_true, List.all_eq_true, ← forall₂_and]
  rw [hfilters, hitsIn]
  split
  · next hmight =>
    rw [List.mem_map]
    constructor
    · rintro ⟨id, hid, rfl⟩
      obtain ⟨hcandidate, hpasses⟩ := List.mem_filter.mp hid
      exact ⟨rfl, hcandidate, hmight, hpasses⟩
    · rintro ⟨rfl, hcandidate, -, hpasses⟩
      exact ⟨hit.id, List.mem_filter.mpr ⟨hcandidate, hpasses⟩, rfl⟩
  · next hnot => exact iff_of_false List.not_mem_nil fun h => hnot h.2.2.1

theorem mem_hits : hit ∈ q.hits e ↔
    ∃ r, e.catalog.repositories[hit.rank]? = some r ∧ hit.id ∈ q.scope.candidates r ∧
      ∀ f ∈ q.filters, f.mightPass r = true ∧ f.passes e r hit.id = true := by
  rw [hits, List.mem_flatMap]
  constructor
  · rintro ⟨⟨r, rank⟩, hr, hhit⟩
    obtain ⟨rfl, hfound⟩ := mem_hitsIn.mp hhit
    exact ⟨r, List.mk_mem_zipIdx_iff_getElem?.mp hr, hfound⟩
  · rintro ⟨r, hr, hfound⟩
    exact ⟨(r, hit.rank), List.mk_mem_zipIdx_iff_getElem?.mpr hr, mem_hitsIn.mpr ⟨rfl, hfound⟩⟩

/-- Hits are listed in the order of the repositories that they come from. -/
theorem hits_sorted : (q.hits e).Pairwise (·.rank ≤ ·.rank) := by
  refine List.pairwise_flatMap.mpr ⟨fun (r, rank) _ => ?_, ?_⟩
  · have hall : (q.hitsIn e r rank).Pairwise fun _ _ => True :=
      List.pairwise_of_forall fun _ _ => trivial
    refine hall.imp_of_mem fun ha hb _ => ?_
    exact Nat.le_of_eq ((mem_hitsIn.mp ha).1.symm.trans (mem_hitsIn.mp hb).1)
  · have hrising : (e.catalog.repositories.zipIdx.map Prod.snd).Pairwise (· < ·) := by
      rw [List.zipIdx_map_snd]
      exact List.pairwise_lt_range'
    refine (List.pairwise_map.mp hrising).imp fun hlt a ha b hb => ?_
    rw [← (mem_hitsIn.mp ha).1, ← (mem_hitsIn.mp hb).1]
    exact Nat.le_of_lt hlt

/-! ## The chosen ones -/

theorem sortedIds_reverse : (q.sortedIds e).reverse =
    (Sorted.sort Hit.compare (q.hits e)).reverse.map Hit.id := List.map_reverse.symm

theorem reverse_sort_perm : (Sorted.sort Hit.compare (q.hits e)).reverse.Perm (q.hits e) :=
  (List.reverse_perm _).trans (List.mergeSort_perm _ _)

/-- The last of a group in the order of hits is its best. -/
theorem isBest_of_last {κ : Type} [DecidableEq κ] {key : PackageId → κ}
    (hname : ∀ a b, key a = key b → a.name = b.name)
    (h : (Sorted.sort Hit.compare (q.hits e)).reverse.find? (key ·.id = key hit.id) = some hit) :
    hit.IsBest key (q.hits e) := by
  refine .of_last hname (reverse_sort_perm.mem_iff.mp (List.mem_of_find?_eq_some h)) ?_
  intro other hother hkey
  exact Sorted.rel_of_find? (R := fun a b => (Hit.compare b a).isLE)
    (List.pairwise_reverse.mpr Sorted.pairwise_sort) (fun _ => Std.ReflCmp.isLE_rfl) h
    (reverse_sort_perm.mem_iff.mpr hother) (decide_eq_true hkey)

theorem isForemost_of_first (h : (q.hits e).find? (name ·.id = name hit.id) = some hit) :
    hit.IsForemost name (q.hits e) where
  mem := List.mem_of_find?_eq_some h
  foremost _ hother hname :=
    Sorted.rel_of_find? (R := fun a b : Hit => a.rank ≤ b.rank) hits_sorted
      (fun _ => Nat.le_refl _) h hother (decide_eq_true hname)

theorem oneOfEach_best :
    OneOfEach name (Hit.IsBest name (q.hits e)) (q.hits e) (lastOfEach (q.sortedIds e)) := by
  refine .of_find? reverse_sort_perm (Sorted.nodup_of_strict strict_lastOfEach) (fun id => ?_)
    fun _ => isBest_of_last fun _ _ hname => hname
  rw [mem_lastOfEach, sortedIds_reverse]

theorem oneOfEach_bestInEachSlot :
    OneOfEach slotted (Hit.IsBest slotted (q.hits e)) (q.hits e)
      (lastInEachSlot (q.sortedIds e)) := by
  refine .of_find? reverse_sort_perm nodup_lastInEachSlot (fun id => ?_)
    fun _ => isBest_of_last fun _ _ hslotted => congrArg Prod.fst hslotted
  rw [mem_lastInEachSlot, sortedIds_reverse]

theorem oneOfEach_first :
    OneOfEach name (Hit.IsForemost name (q.hits e)) (q.hits e)
      (firstOfEach ((q.hits e).map Hit.id)) :=
  .of_find? (.refl _) (Sorted.nodup_of_strict strict_firstOfEach) (fun _ => mem_firstOfEach)
    fun _ => isForemost_of_first

/-- The best of each package, in the order of names, the best in each of its slots, in the order
of names and versions, and the first of each package. -/
theorem one_of_each_group (e : Environment) (q : Query) :
    (∀ hit, hit ∈ q.hits e ↔
      ∃ r, e.catalog.repositories[hit.rank]? = some r ∧ hit.id ∈ q.scope.candidates r ∧
        ∀ f ∈ q.filters, f.mightPass r = true ∧ f.passes e r hit.id = true) ∧
    ∃ best slotted first,
      run e { q with choice := .best } = .ok best ∧
      run e { q with choice := .bestInEachSlot } = .ok slotted ∧
      run e { q with choice := .first } = .ok first ∧
      OneOfEach name (Hit.IsBest name (q.hits e)) (q.hits e) best ∧
      best.Pairwise (fun a b => QualifiedName.compare a.name b.name = .lt) ∧
      OneOfEach PackageId.slotted (Hit.IsBest PackageId.slotted (q.hits e)) (q.hits e) slotted ∧
      slotted.Pairwise (fun a b => (Hit.compareIds a b).isLE) ∧
      best ⊆ slotted ∧
      OneOfEach name (Hit.IsForemost name (q.hits e)) (q.hits e) first :=
  ⟨fun _ => mem_hits, lastOfEach (q.sortedIds e), lastInEachSlot (q.sortedIds e),
    firstOfEach ((q.hits e).map Hit.id), rfl, rfl, rfl, oneOfEach_best,
    List.pairwise_map.mp strict_lastOfEach, oneOfEach_bestInEachSlot, Sorted.pairwise_sort,
    lastOfEach_subset, oneOfEach_first⟩

end Query

end PackageCatalog
