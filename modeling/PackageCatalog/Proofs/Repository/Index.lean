import PackageCatalog.Proofs.Name
import PackageCatalog.Proofs.Sorted
import PackageCatalog.Repository.Basic

/-!
# Well-formed indexes

In a well-formed index every ID stands under its own name, and every name in its own category.
However an index is filled, it is well formed; so the IDs of a category, or of a name, are the
IDs of the index that have it.
-/

namespace PackageCatalog

theorem filter_flatMap_of_key {α κ : Type} [DecidableEq κ] {f : κ → List α} {key : α → κ}
    {xs : List κ} (hkey : ∀ x ∈ xs, ∀ a ∈ f x, key a = x) (hnodup : xs.Nodup) (k : κ) :
    (xs.flatMap f).filter (key · = k) = if k ∈ xs then f k else [] := by
  induction xs with
  | nil => rfl
  | cons x xs ih =>
    obtain ⟨hx, hxs⟩ := List.forall_mem_cons.mp hkey
    obtain ⟨hnew, hnodup⟩ := List.nodup_cons.mp hnodup
    rw [List.flatMap_cons, List.filter_append, ih hxs hnodup]
    by_cases hk : k = x
    · subst hk
      have hall : (f k).filter (key · = k) = f k :=
        List.filter_eq_self.mpr fun a ha => decide_eq_true (hx a ha)
      rw [hall, if_neg hnew, if_pos List.mem_cons_self, List.append_nil]
    · have hnone : (f x).filter (key · = k) = [] :=
        List.filter_eq_nil_iff.mpr fun a ha h => hk ((of_decide_eq_true h).symm.trans (hx a ha))
      have hmem : k ∈ x :: xs ↔ k ∈ xs := by
        rw [List.mem_cons, or_iff_right hk]
      rw [hnone, List.nil_append]
      simp only [hmem]

namespace PackageIndex

/-- Categories and names increase strictly, the categories of the names are there, and what
stands under a name has that name and satisfies `P`. -/
structure WellFormed (P : PackageId → Prop) (index : PackageIndex) : Prop where
  categories : Sorted.Strict compare index.categories
  names : Sorted.Strict QualifiedName.compare (index.packages.map Prod.fst)
  listed : ∀ entry ∈ index.packages, entry.1.category ∈ index.categories
  held : ∀ entry ∈ index.packages, ∀ id ∈ entry.2, id.name = entry.1 ∧ P id

variable {P : PackageId → Prop} {index : PackageIndex} {c : CategoryName} {name : QualifiedName}

/-! ## Filling -/

theorem wellFormed_empty : WellFormed P empty :=
  ⟨.nil, .nil, fun _ h => absurd h List.not_mem_nil, fun _ h => absurd h List.not_mem_nil⟩

theorem WellFormed.addCategory (h : index.WellFormed P) (c : CategoryName) :
    (index.addCategory c).WellFormed P where
  categories := Sorted.strict_insert h.categories
  names := h.names
  listed entry hentry := Sorted.mem_insert.mpr (.inr (h.listed entry hentry))
  held := h.held

theorem WellFormed.alter {f : List PackageId → List PackageId} (h : index.WellFormed P)
    (hf : ∀ ids, ∀ id ∈ f ids, id ∈ ids ∨ id.name = name ∧ P id) :
    (index.alter name f).WellFormed P where
  categories := Sorted.strict_insert h.categories
  names := by
    unfold PackageIndex.alter
    rw [Sorted.map_fst_alter]
    exact Sorted.strict_insert h.names
  listed entry hentry := by
    refine Sorted.mem_insert.mpr ?_
    rcases Sorted.mem_alter hentry with hold | rfl | ⟨_, _, rfl⟩
    · exact .inr (h.listed entry hold)
    · exact .inl rfl
    · exact .inl rfl
  held entry hentry := by
    rcases Sorted.mem_alter hentry with hold | rfl | ⟨ids, hids, rfl⟩
    · exact h.held entry hold
    · exact fun id hid => (hf _ id hid).resolve_left List.not_mem_nil
    · exact fun id hid => (hf _ id hid).elim (h.held _ hids id) fun h => h

theorem WellFormed.addPackage (h : index.WellFormed P) (name : QualifiedName) :
    (index.addPackage name).WellFormed P :=
  h.alter fun _ _ hid => .inl hid

theorem WellFormed.insert (h : index.WellFormed P) {id : PackageId} (hid : P id) :
    (index.insert id).WellFormed P := by
  refine h.alter fun ids other hother => ?_
  rcases Sorted.mem_of_mem_insert hother with rfl | hold
  · exact .inr ⟨rfl, hid⟩
  · exact .inl hold

/-! ## Asking -/

theorem WellFormed.of_mem_packageIds (h : index.WellFormed P) {id : PackageId}
    (hid : id ∈ index.packageIds name) : id.name = name ∧ P id := by
  unfold packageIds at hid
  cases hfound : Sorted.find? QualifiedName.compare name index.packages with
  | none =>
    rw [hfound] at hid
    exact absurd hid List.not_mem_nil
  | some ids =>
    rw [hfound] at hid
    exact h.held (name, ids) ((Sorted.find?_eq_some_iff h.names).mp hfound) id hid

theorem mem_packageNames_iff :
    name ∈ index.packageNames c ↔ name ∈ index.packages.map Prod.fst ∧ name.category = c := by
  rw [packageNames, List.mem_filter, decide_eq_true_eq]

theorem WellFormed.nodup_packageNames (h : index.WellFormed P) (c : CategoryName) :
    (index.packageNames c).Nodup :=
  (Sorted.nodup_of_strict h.names).filter _

theorem WellFormed.packageNames_eq_nil (h : index.WellFormed P) (hc : c ∉ index.categories) :
    index.packageNames c = [] := by
  refine List.eq_nil_iff_forall_not_mem.mpr fun name hname => hc ?_
  obtain ⟨hmem, rfl⟩ := mem_packageNames_iff.mp hname
  obtain ⟨entry, hentry, rfl⟩ := List.mem_map.mp hmem
  exact h.listed entry hentry

theorem WellFormed.packageIds_eq_nil (h : index.WellFormed P)
    (hname : name ∉ index.packageNames name.category) : index.packageIds name = [] := by
  unfold packageIds
  cases hfound : Sorted.find? QualifiedName.compare name index.packages with
  | none => rfl
  | some ids =>
    have hentry := (Sorted.find?_eq_some_iff h.names).mp hfound
    exact absurd (mem_packageNames_iff.mpr ⟨List.mem_map_of_mem hentry, rfl⟩) hname

end PackageIndex

namespace Repository

variable {P : PackageId → Prop} {r : Repository}

/-- The IDs of a category, among all IDs. -/
theorem filter_category (h : r.index.WellFormed P) (c : CategoryName) :
    r.ids.filter (·.name.category = c) = (r.packageNames c).flatMap r.packageIds := by
  have hkey : ∀ c ∈ r.categoryNames, ∀ id ∈ (r.packageNames c).flatMap r.packageIds,
      id.name.category = c := by
    intro c _ id hid
    obtain ⟨name, hname, hid⟩ := List.mem_flatMap.mp hid
    rw [(h.of_mem_packageIds hid).1]
    exact (PackageIndex.mem_packageNames_iff.mp hname).2
  have hnodup : r.categoryNames.Nodup := Sorted.nodup_of_strict h.categories
  rw [ids, filter_flatMap_of_key hkey hnodup]
  by_cases hc : c ∈ r.categoryNames
  · exact if_pos hc
  · have hnone : r.packageNames c = [] := h.packageNames_eq_nil hc
    rw [if_neg hc, hnone]
    rfl

/-- The IDs of a name, among all IDs. -/
theorem filter_name (h : r.index.WellFormed P) (name : QualifiedName) :
    r.ids.filter (·.name = name) = r.packageIds name := by
  have hkey : ∀ name' ∈ r.packageNames name.category, ∀ id ∈ r.packageIds name',
      id.name = name' := fun _ _ _ hid => (h.of_mem_packageIds hid).1
  -- the IDs of a name are all in its category
  have hwithin : r.ids.filter (·.name = name) =
      (r.ids.filter (·.name.category = name.category)).filter (·.name = name) := by
    rw [List.filter_filter]
    refine List.filter_congr fun id _ => ?_
    by_cases hid : id.name = name
    · simp only [hid, decide_true, Bool.and_self]
    · simp only [hid, decide_false, Bool.false_and]
  rw [hwithin, filter_category h, filter_flatMap_of_key hkey (h.nodup_packageNames name.category)]
  by_cases hname : name ∈ r.packageNames name.category
  · exact if_pos hname
  · rw [if_neg hname]
    exact (h.packageIds_eq_nil hname).symm

theorem mem_ids_iff (h : r.index.WellFormed P) {id : PackageId} :
    id ∈ r.ids ↔ id ∈ r.packageIds id.name := by
  rw [← filter_name h id.name, List.mem_filter, decide_eq_true_iff, and_iff_left rfl]

theorem of_mem_ids (h : r.index.WellFormed P) {id : PackageId} (hid : id ∈ r.ids) : P id := by
  obtain ⟨c, _, hid⟩ := List.mem_flatMap.mp hid
  obtain ⟨name, _, hid⟩ := List.mem_flatMap.mp hid
  exact (h.of_mem_packageIds hid).2

end Repository

end PackageCatalog
