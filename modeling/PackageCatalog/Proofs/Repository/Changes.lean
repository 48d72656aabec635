import Mathlib.Data.List.Induction
import Mathlib.Data.List.Sort
import PackageCatalog.Proofs.Repository.Index
import PackageCatalog.Proofs.Version.Order

/-!
# What an index shows

An index that starts out empty and is changed step by step (`PackageIndex.ofChanges`) shows what
its changes say and nothing else (`PackageIndex.Reflects`): every category and name that a change
mentions, and of the IDs of a name those that no later one of an equal version replaced.
`reflects_ofChanges` derives this from what one change does to each answer.
-/

namespace PackageCatalog

namespace Sorted

variable {α : Type} {cmp : α → α → Ordering} {xs ys : List α}

theorem eq_of_mem_iff [Std.TransCmp cmp] (hx : Strict cmp xs) (hy : Strict cmp ys)
    (h : ∀ a, a ∈ xs ↔ a ∈ ys) : xs = ys := by
  have hirrefl (a : α) : ¬ cmp a a = .lt := by
    have hself : cmp a a = .eq := Std.ReflCmp.compare_self
    rw [hself]
    nofun
  have : Std.Irrefl (cmp · · = .lt) := ⟨hirrefl⟩
  have : Std.Antisymm (cmp · · = .lt) :=
    ⟨fun a _ hab hba => absurd (Std.TransCmp.lt_trans hab hba) (hirrefl a)⟩
  exact hx.eq_of_mem_iff hy h

theorem eq_of_strict [Std.OrientedCmp cmp] (h : Strict cmp xs) {a b : α} (ha : a ∈ xs) (hb : b ∈ xs)
    (heq : cmp a b = .eq) : a = b := by
  have hpairs : xs.Pairwise fun a b => cmp a b = .eq → a = b := by
    refine h.imp fun {a b} hlt heq => ?_
    rw [hlt] at heq
    cases heq
  have hflipped : xs.Pairwise (flip fun a b => cmp a b = .eq → a = b) := by
    refine hpairs.imp fun {a b} hab hba => ?_
    exact (hab (Std.OrientedCmp.eq_symm hba)).symm
  exact hpairs.forall_of_forall_of_flip (fun _ _ _ => rfl) hflipped ha hb heq

end Sorted

/-- A change to an index. -/
inductive Change where
  | addCategory (c : CategoryName)
  | addPackage (name : QualifiedName)
  | insert (id : PackageId)

namespace Change

def category : Change → CategoryName
  | addCategory c => c
  | addPackage name => name.category
  | insert id => id.name.category

def name? : Change → Option QualifiedName
  | addCategory _ => none
  | addPackage name => some name
  | insert id => some id.name

def apply (index : PackageIndex) : Change → PackageIndex
  | addCategory c => index.addCategory c
  | addPackage name => index.addPackage name
  | insert id => index.insert id

/-- The change puts an ID in the place of `old`. -/
def Replaces (change : Change) (old : PackageId) : Prop :=
  ∃ new, change = insert new ∧ new.name = old.name ∧ new.version.equals old.version = true

end Change

/-- The ID was put in, and nothing has replaced it since. -/
def PackageId.Remains (changes : List Change) (id : PackageId) : Prop :=
  ∃ before after, changes = before ++ .insert id :: after ∧ ∀ change ∈ after, ¬ change.Replaces id

namespace PackageId

variable {changes : List Change} {change : Change} {id : PackageId}

theorem not_remains_nil : ¬ id.Remains [] := by
  rintro ⟨before, after, h, -⟩
  cases before <;> cases h

theorem remains_concat_iff : id.Remains (changes ++ [change]) ↔
    change = .insert id ∨ id.Remains changes ∧ ¬ change.Replaces id := by
  constructor
  · rintro ⟨before, after, h, hafter⟩
    rcases List.eq_nil_or_concat after with rfl | ⟨after, last, rfl⟩
    · exact .inl (List.singleton_inj.mp (List.append_inj' h rfl).2)
    · rw [List.concat_eq_append] at h hafter
      rw [List.forall_mem_append, List.forall_mem_singleton] at hafter
      rw [← List.cons_append, ← List.append_assoc] at h
      obtain ⟨hchanges, hlast⟩ := List.append_inj' h rfl
      cases hlast
      exact .inr ⟨⟨before, after, hchanges, hafter.1⟩, hafter.2⟩
  · rintro (rfl | ⟨⟨before, after, rfl, hafter⟩, hchange⟩)
    · exact ⟨changes, [], rfl, fun _ h => absurd h List.not_mem_nil⟩
    · refine ⟨before, after ++ [change], List.append_assoc _ _ _, ?_⟩
      exact List.forall_mem_append.mpr ⟨hafter, List.forall_mem_singleton.mpr hchange⟩

end PackageId

namespace PackageIndex

variable {index : PackageIndex} {changes : List Change} {c : CategoryName} {name : QualifiedName}
  {id : PackageId}

def ofChanges (changes : List Change) : PackageIndex := changes.foldl Change.apply empty

def compareIds (a b : PackageId) : Ordering :=
  (QualifiedName.compare a.name b.name).then (compareVersions a b)

/-- The index shows what the changes say: the categories and names that they mention, and the IDs
that remain, each in its place in the order. -/
structure Reflects (index : PackageIndex) (changes : List Change) : Prop where
  categories : Sorted.Strict compare index.categoryNames
  mem_categories : ∀ c, c ∈ index.categoryNames ↔ ∃ change ∈ changes, change.category = c
  names : ∀ c, Sorted.Strict QualifiedName.compare (index.packageNames c)
  mem_names : ∀ c name, name ∈ index.packageNames c ↔
    name.category = c ∧ ∃ change ∈ changes, change.name? = some name
  versions : ∀ name, Sorted.Strict compareVersions (index.packageIds name)
  mem_versions : ∀ name id, id ∈ index.packageIds name ↔ id.name = name ∧ id.Remains changes
  ids : index.ids =
    index.categoryNames.flatMap fun c => (index.packageNames c).flatMap index.packageIds
  once : Sorted.Strict compareIds index.ids

/-! ## One change -/

instance : Std.TransCmp compareVersions where
  eq_swap {a b} := by
    show a.version.compare b.version = (b.version.compare a.version).swap
    exact Std.OrientedCmp.eq_swap
  isLE_trans {a b c} hab hbc := by
    show (a.version.compare c.version).isLE
    exact Std.TransCmp.isLE_trans hab hbc

theorem categories_apply (change : Change) :
    (change.apply index).categories = Sorted.insert compare change.category index.categories := by
  cases change <;> rfl

theorem names_apply (change : Change) : (change.apply index).packages.map Prod.fst =
    match change.name? with
    | none => index.packages.map Prod.fst
    | some name => Sorted.insert QualifiedName.compare name (index.packages.map Prod.fst) := by
  cases change with
  | addCategory c => rfl
  | addPackage name => exact Sorted.map_fst_alter
  | insert id => exact Sorted.map_fst_alter

theorem packageIds_alter (key : QualifiedName) (f : List PackageId → List PackageId) :
    (index.alter key f).packageIds name =
      if name = key then f (index.packageIds key) else index.packageIds name := by
  unfold packageIds alter
  rw [Sorted.find?_alter]
  by_cases h : name = key
  · rw [if_pos h, if_pos h]
    rfl
  · rw [if_neg h, if_neg h]

theorem strict_packageIds_apply (h : Sorted.Strict compareVersions (index.packageIds name))
    (change : Change) : Sorted.Strict compareVersions ((change.apply index).packageIds name) := by
  cases change with
  | addCategory c => exact h
  | addPackage key =>
    rw [Change.apply, addPackage, packageIds_alter]
    split
    · next heq => rwa [← heq]
    · exact h
  | insert new =>
    rw [Change.apply, insert, packageIds_alter]
    split
    · next heq =>
      rw [← heq]
      exact Sorted.strict_insert h
    · exact h

/-- Under a name stands what was there and is not replaced, and what is put in. -/
theorem mem_packageIds_apply (hname : ∀ id ∈ index.packageIds name, id.name = name)
    (hstrict : Sorted.Strict compareVersions (index.packageIds name)) (change : Change) :
    id ∈ (change.apply index).packageIds name ↔
      id.name = name ∧ change = .insert id ∨ id ∈ index.packageIds name ∧ ¬ change.Replaces id := by
  have hkept (hother : ∀ new, change = .insert new → new.name ≠ name) :
      id ∈ index.packageIds name ↔
        id.name = name ∧ change = .insert id ∨ id ∈ index.packageIds name ∧ ¬ change.Replaces id := by
    constructor
    · refine fun hid => .inr ⟨hid, ?_⟩
      rintro ⟨new, hnew, hsame, -⟩
      exact hother new hnew (hsame.trans (hname id hid))
    · rintro (⟨hid, hnew⟩ | ⟨hid, -⟩)
      · exact absurd hid (hother id hnew)
      · exact hid
  cases change with
  | addCategory c => exact hkept fun _ hnew => by cases hnew
  | addPackage key =>
    rw [Change.apply, addPackage, packageIds_alter]
    split
    · next heq =>
      subst heq
      exact hkept fun _ hnew => by cases hnew
    · exact hkept fun _ hnew => by cases hnew
  | insert new =>
    rw [Change.apply, insert, packageIds_alter]
    split
    · next heq =>
      subst heq
      rw [Sorted.mem_insert_of_strict hstrict]
      constructor
      · rintro (rfl | ⟨hid, hne⟩)
        · exact .inl ⟨rfl, rfl⟩
        · refine .inr ⟨hid, ?_⟩
          rintro ⟨_, ⟨⟩, -, hequals⟩
          exact hne (Version.equals_iff.mp hequals)
      · rintro (⟨-, ⟨⟩⟩ | ⟨hid, hkept⟩)
        · exact .inl rfl
        · refine .inr ⟨hid, fun heq => hkept ⟨new, rfl, (hname id hid).symm, ?_⟩⟩
          exact Version.equals_iff.mpr heq
    · next hne =>
      refine hkept fun other hother => ?_
      cases hother
      exact Ne.symm hne

theorem WellFormed.apply (h : index.WellFormed fun _ => True) (change : Change) :
    (change.apply index).WellFormed fun _ => True := by
  cases change with
  | addCategory c => exact h.addCategory c
  | addPackage name => exact h.addPackage name
  | insert id => exact h.insert trivial

/-! ## All changes -/

theorem ofChanges_map_insert (ids : List PackageId) :
    ofChanges (ids.map .insert) = ids.foldl insert empty :=
  List.foldl_map

theorem ofChanges_concat (changes : List Change) (change : Change) :
    ofChanges (changes ++ [change]) = change.apply (ofChanges changes) :=
  List.foldl_append

theorem wellFormed_ofChanges (changes : List Change) :
    (ofChanges changes).WellFormed fun _ => True :=
  List.foldlRecOn changes Change.apply wellFormed_empty fun _ h change _ => h.apply change

theorem exists_mem_concat_iff {p : Change → Prop} {change : Change} :
    (∃ last ∈ changes ++ [change], p last) ↔ p change ∨ ∃ change ∈ changes, p change := by
  simp only [List.mem_append, List.mem_singleton, or_and_right, exists_or, exists_eq_left, or_comm]

theorem mem_categories_ofChanges :
    c ∈ (ofChanges changes).categories ↔ ∃ change ∈ changes, change.category = c := by
  induction changes using List.reverseRecOn with
  | nil => exact iff_of_false List.not_mem_nil fun ⟨_, h, _⟩ => List.not_mem_nil h
  | append_singleton changes change ih =>
    rw [ofChanges_concat, categories_apply, Sorted.mem_insert, ih, exists_mem_concat_iff]
    exact or_congr_left eq_comm

theorem mem_names_ofChanges :
    name ∈ (ofChanges changes).packages.map Prod.fst ↔
      ∃ change ∈ changes, change.name? = some name := by
  induction changes using List.reverseRecOn with
  | nil => exact iff_of_false List.not_mem_nil fun ⟨_, h, _⟩ => List.not_mem_nil h
  | append_singleton changes change ih =>
    rw [ofChanges_concat, names_apply, exists_mem_concat_iff, ← ih]
    cases change.name? with
    | none => exact (or_iff_right nofun).symm
    | some key => exact Sorted.mem_insert.trans (or_congr_left (by rw [Option.some_inj, eq_comm]))

theorem versions_ofChanges (name : QualifiedName) :
    Sorted.Strict compareVersions ((ofChanges changes).packageIds name) ∧
      ∀ id, id ∈ (ofChanges changes).packageIds name ↔ id.name = name ∧ id.Remains changes := by
  induction changes using List.reverseRecOn with
  | nil =>
    exact ⟨.nil, fun id => iff_of_false List.not_mem_nil fun h => PackageId.not_remains_nil h.2⟩
  | append_singleton changes change ih =>
    obtain ⟨hstrict, hmem⟩ := ih
    rw [ofChanges_concat]
    refine ⟨strict_packageIds_apply hstrict change, fun id => ?_⟩
    rw [mem_packageIds_apply (fun id hid => ((hmem id).mp hid).1) hstrict, hmem,
      PackageId.remains_concat_iff, and_assoc, ← and_or_left]

/-! ## All IDs -/

theorem WellFormed.ids_eq {P : PackageId → Prop} (h : index.WellFormed P) :
    index.ids = (index.packages.map Prod.fst).flatMap index.packageIds := by
  rw [PackageIndex.ids, List.flatMap_map]
  refine List.flatMap_congr fun entry hentry => ?_
  rw [packageIds, (Sorted.find?_eq_some_iff h.names).mpr hentry]
  rfl

/-- Names are ordered by category first, so that those of a category stand together. -/
theorem WellFormed.flatMap_packageNames {P : PackageId → Prop} (h : index.WellFormed P) :
    index.categoryNames.flatMap index.packageNames = index.packages.map Prod.fst := by
  have hstrict : Sorted.Strict QualifiedName.compare
      (index.categoryNames.flatMap index.packageNames) := by
    refine List.pairwise_flatMap.mpr ⟨fun c _ => h.names.filter _, h.categories.imp ?_⟩
    intro c d hlt a ha b hb
    obtain ⟨-, rfl⟩ := mem_packageNames_iff.mp ha
    obtain ⟨-, rfl⟩ := mem_packageNames_iff.mp hb
    rw [QualifiedName.compare, hlt]
    rfl
  refine Sorted.eq_of_mem_iff hstrict h.names fun name => ?_
  rw [List.mem_flatMap]
  constructor
  · rintro ⟨c, -, hname⟩
    exact (mem_packageNames_iff.mp hname).1
  · intro hname
    obtain ⟨entry, hentry, rfl⟩ := List.mem_map.mp hname
    exact ⟨_, h.listed entry hentry, mem_packageNames_iff.mpr ⟨hname, rfl⟩⟩

theorem WellFormed.strict_ids {P : PackageId → Prop} (h : index.WellFormed P)
    (hversions : ∀ name, Sorted.Strict compareVersions (index.packageIds name)) :
    Sorted.Strict compareIds index.ids := by
  rw [h.ids_eq]
  refine List.pairwise_flatMap.mpr ⟨fun name _ => ?_, h.names.imp ?_⟩
  · refine (hversions name).imp_of_mem fun {a b} ha hb hlt => ?_
    have hself : QualifiedName.compare name name = .eq := Std.ReflCmp.compare_self
    rw [compareIds, (h.of_mem_packageIds ha).1, (h.of_mem_packageIds hb).1, hself]
    exact hlt
  · intro name name' hlt a ha b hb
    rw [compareIds, (h.of_mem_packageIds ha).1, (h.of_mem_packageIds hb).1, hlt]
    rfl

theorem reflects_ofChanges (changes : List Change) : (ofChanges changes).Reflects changes where
  categories := (wellFormed_ofChanges changes).categories
  mem_categories _ := mem_categories_ofChanges
  names _ := (wellFormed_ofChanges changes).names.filter _
  mem_names c name := by
    rw [mem_packageNames_iff, mem_names_ofChanges, and_comm]
  versions name := (versions_ofChanges name).1
  mem_versions name := (versions_ofChanges name).2
  ids := by
    have h := wellFormed_ofChanges changes
    rw [h.ids_eq, ← h.flatMap_packageNames, List.flatMap_assoc]
  once := (wellFormed_ofChanges changes).strict_ids fun name => (versions_ofChanges name).1

end PackageIndex

end PackageCatalog
