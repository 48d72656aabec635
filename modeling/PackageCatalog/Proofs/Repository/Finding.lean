import PackageCatalog.Proofs.Atom.Split
import PackageCatalog.Proofs.FileTree
import PackageCatalog.Proofs.Name
import PackageCatalog.Proofs.Repository.Filling

/-!
# What a scan finds

Going through the categories and packages of a tree finds names with versions
(`EbuildTree.found`), and the index is filled with the IDs that are built from them
(`Source.ids_eq`). A version is found just when its category is one, the package is a directory
and an ebuild of that version is in it (`mem_found_iff`).

An atom, an ebuild and the directory of an installed package are called by a name, a hyphen and a
version. Atoms and directories are split at the one hyphen that a version may follow
(`Atom.PartsAt`); the scan for ebuilds knows the name and takes it off. They agree on what they
find (`Atom.splits_at_one_hyphen`).
-/

namespace PackageCatalog

/-! ## Names as steps of a path -/

namespace Path

theorem isStep_of_chars {x : String} (hne : x.toList ≠ []) (hdot : x.toList.head? ≠ some '.')
    (hslash : '/' ∉ x.toList) : isStep x = true := by
  refine isStep_iff.mpr ⟨?_, ?_, ?_, hslash⟩ <;> rintro rfl
  · exact hne rfl
  · exact hdot rfl
  · exact hdot rfl

end Path

namespace Name

theorem isStep_of_category (c : CategoryName) : Path.isStep c.text = true :=
  Path.isStep_of_chars c.text_ne_nil c.head?_ne_dot_of_category (c.slash_not_mem rfl)

theorem isStep_of_package (p : PackageName) : Path.isStep p.text = true :=
  Path.isStep_of_chars p.text_ne_nil
    (fun h => p.dot_not_mem_of_package (List.mem_of_mem_head? h)) (p.slash_not_mem rfl)

theorem head?_append_of_package (p : PackageName) (s : String) :
    (p.text ++ s).toList.head? ≠ some '.' := by
  obtain ⟨c, rest, hp⟩ := List.exists_cons_of_ne_nil p.text_ne_nil
  rw [String.toList_append, hp]
  rintro h
  refine p.dot_not_mem_of_package ?_
  rw [hp, ← Option.some.inj h]
  exact List.mem_cons_self

end Name

namespace FileTree

variable {files : FileTree} {base : Path} {x : String}

theorem isHidden_eq_false (h : x.toList.head? ≠ some '.') :
    Text.startsWithChar (· == '.') x = false := by
  unfold Text.startsWithChar
  cases hx : x.toList.head? with
  | none => rfl
  | some c =>
    rw [Option.any_some, beq_eq_false_iff_ne]
    rintro rfl
    exact h hx

theorem sorted_visibleNames {names : List String} (hnames : files.visibleNames base = .ok names) :
    names.Pairwise (· ≤ ·) := by
  unfold visibleNames at hnames
  split at hnames
  · next listed hlisted =>
    obtain ⟨d, -, -, rfl⟩ := list_eq_ok_iff.mp hlisted
    cases hnames
    exact (files.sorted_namesUnder d).filter _
  · cases hnames
    exact .nil
  · cases hnames

/-- What stands in a directory is among its names. -/
theorem mem_visibleNames_of_resolve {names q : List String} {node : FileNode}
    (hbase : base.text ≠ "") (hx : Path.isStep x = true) (hdot : x.toList.head? ≠ some '.')
    (hq : files.resolve (base / x) = .ok q) (hnode : files.node? q = some node)
    (hnames : files.visibleNames base = .ok names) : x ∈ names := by
  obtain ⟨d, hd, hdirectory, rfl⟩ := resolve_join hbase hx hq
  unfold visibleNames at hnames
  rw [list_eq_ok_iff.mpr ⟨d, hd, hdirectory, rfl⟩] at hnames
  cases hnames
  refine List.mem_filter.mpr ⟨mem_namesUnder.mpr (mem_map_fst_of_node? hnode), ?_⟩
  rw [isHidden_eq_false hdot]
  rfl

theorem mem_visibleNames {names : List String} (hbase : base.text ≠ "")
    (hx : Path.isStep x = true) (hdot : x.toList.head? ≠ some '.')
    (h : files.isDirectory (base / x) = true) (hnames : files.visibleNames base = .ok names) :
    x ∈ names := by
  obtain ⟨q, hq, hnode⟩ := isDirectory_iff.mp h
  exact mem_visibleNames_of_resolve hbase hx hdot hq hnode hnames

end FileTree

/-! ## The names of ebuilds -/

theorem Text.beforeTail_eq_some_iff {tail s t : String} :
    Text.beforeTail tail s = some t ↔ s = t ++ tail := by
  unfold Text.beforeTail
  constructor
  · intro h
    split at h
    · next hsuffix =>
      obtain ⟨front, hfront⟩ := List.isSuffixOf_iff_suffix.mp hsuffix
      cases h
      rw [← String.toList_inj, String.toList_append, String.toList_ofList, ← hfront,
        List.length_append, Nat.add_sub_cancel, List.take_left]
    · cases h
  · rintro rfl
    rw [String.toList_append, if_pos (List.isSuffixOf_iff_suffix.mpr (List.suffix_append _ _)),
      List.length_append, Nat.add_sub_cancel, List.take_left, String.ofList_toList]

theorem Text.afterLead_eq_some_iff {lead s t : String} :
    Text.afterLead lead s = some t ↔ s = lead ++ t := by
  unfold Text.afterLead
  constructor
  · intro h
    split at h
    · next hprefix =>
      obtain ⟨rest, hrest⟩ := List.isPrefixOf_iff_prefix.mp hprefix
      cases h
      rw [← String.toList_inj, String.toList_append, String.toList_ofList, ← hrest, List.drop_left]
    · cases h
  · rintro rfl
    rw [String.toList_append, if_pos (List.isPrefixOf_iff_prefix.mpr (List.prefix_append _ _)),
      List.drop_left, String.ofList_toList]

theorem Version.ofChars?_text_eq_some_iff {s : String} {v : Version} :
    Version.ofChars? s.toList = some v ↔ s = v.text := by
  rw [Version.ofChars?_eq_some_iff, Version.text, ← String.toList_inj, String.toList_ofList]
  exact eq_comm

namespace EbuildTree

theorem toList_versioned (name : String) (v : Version) :
    (name ++ "-" ++ v.text).toList = name.toList ++ '-' :: v.chars := by
  simp only [String.toList_append, Version.text, String.toList_ofList, List.append_assoc]
  rfl

def ebuildName (p : PackageName) (v : Version) : String := p.text ++ "-" ++ v.text ++ ".ebuild"

theorem ebuildVersion?_eq_some_iff {p : PackageName} {entry : String} {v : Version} :
    ebuildVersion? p entry = some v ↔ entry = ebuildName p v := by
  unfold ebuildVersion? ebuildName
  simp only [Option.bind_eq_bind, Option.bind_eq_some_iff, Text.beforeTail_eq_some_iff,
    Text.afterLead_eq_some_iff, Version.ofChars?_text_eq_some_iff]
  constructor
  · rintro ⟨_, rfl, _, rfl, rfl⟩
    rfl
  · rintro rfl
    exact ⟨_, rfl, _, rfl, rfl⟩

theorem head?_ebuildName (p : PackageName) (v : Version) :
    (ebuildName p v).toList.head? ≠ some '.' := by
  rw [ebuildName, String.append_assoc, String.append_assoc]
  exact p.head?_append_of_package _

end EbuildTree

/-! ## Names with a version -/

namespace Atom

open EbuildTree

/-- The scan for ebuilds takes off the name that the text is split at. -/
theorem ebuildVersion?_eq_some_iff_splitVersion? {p : PackageName} {stem : String} {v : Version} :
    ebuildVersion? p (stem ++ ".ebuild") = some v ↔
      splitVersion? stem.toList = some (p.text.toList, v) := by
  rw [ebuildVersion?_eq_some_iff, splitVersion?_eq_some_iff, ebuildName, ← toList_versioned,
    String.toList_inj]
  constructor
  · intro h
    refine ⟨isVersionable_of_package p, ?_⟩
    rw [← String.toList_inj, String.toList_append, String.toList_append (t := ".ebuild")] at h
    exact String.toList_inj.mp (List.append_cancel_right h)
  · rintro ⟨-, rfl⟩
    rfl

/-- At most one hyphen of a text parts a name from a version, and there the text is split: a package
name, alone or in its category, and a version are found as they were put together, and the scan for
ebuilds finds the same. A package name by itself is not split. -/
theorem splits_at_one_hyphen :
    (∀ s i j v w, PartsAt s i v → PartsAt s j w → i = j) ∧
      (∀ s a v, splitVersion? s = some (a, v) ↔ ∃ i, PartsAt s i v ∧ a = s.take i) ∧
      (∀ (p : PackageName) (v : Version),
        splitVersion? (p.text ++ "-" ++ v.text).toList = some (p.text.toList, v) ∧
          ∀ c : CategoryName, splitVersion? (c.text ++ "/" ++ p.text ++ "-" ++ v.text).toList =
            some ((c.text ++ "/" ++ p.text).toList, v)) ∧
      (∀ (p : PackageName) (v : Version) (stem : String),
        ebuildVersion? p (stem ++ ".ebuild") = some v ↔
          splitVersion? stem.toList = some (p.text.toList, v)) ∧
      ∀ p : PackageName, splitVersion? p.text.toList = none := by
  refine ⟨fun s i j v w => PartsAt.unique, fun s a v => splitVersion?_eq_some_iff_partsAt,
    fun p v => ⟨?_, fun c => ?_⟩, fun p v stem => ebuildVersion?_eq_some_iff_splitVersion?,
    splitVersion?_of_package⟩
  · rw [toList_versioned]
    exact splitVersion?_append (isVersionable_of_package p) v
  · rw [toList_versioned]
    exact splitVersion?_append (isVersionable_of_name ⟨c, p⟩) v

/-- Of the four hyphens of `gtk-doc-2.0-scm-r1`, the second one parts a name from a version. -/
theorem splits_at_second_hyphen :
    ∃ v, PartsAt "gtk-doc-2.0-scm-r1".toList 7 v ∧
      ∀ j w, PartsAt "gtk-doc-2.0-scm-r1".toList j w → j = 7 := by
  have hparts : ∃ v, PartsAt "gtk-doc-2.0-scm-r1".toList 7 v :=
    ⟨⟨.release ⟨⟨2, []⟩, [⟨0, []⟩], none, [], none, true⟩, some (.numbered ⟨1, []⟩ [])⟩,
      by decide +kernel, by decide +kernel, by decide +kernel⟩
  obtain ⟨v, hv⟩ := hparts
  exact ⟨v, hv, fun j w hj => splits_at_one_hyphen.1 _ j 7 w v hj hv⟩

end Atom

namespace EbuildTree

/-! ## What is found -/

variable {files : FileTree} {location : Path} {c : CategoryName} {name : QualifiedName} {v : Version}

/-- The versions of the package in a directory, none if it does not hold one. -/
def foundInPackage (files : FileTree) (location : Path) (c : CategoryName) (dirName : String) :
    Except Error (List (QualifiedName × Version)) :=
  let dir := location / c.text / dirName
  if files.isDirectory dir then
    match Name.ofText? .package dirName with
    | none => .ok []
    | some p => do return (← scanVersions files p dir).map (⟨c, p⟩, ·)
  else .ok []

def foundInCategory (files : FileTree) (location : Path) (c : CategoryName) :
    Except Error (List (QualifiedName × Version)) := do
  let found ← (← files.visibleNames (location / c.text)).mapM (foundInPackage files location c)
  return found.flatten

/-- All names and versions, in the order in which the tree is gone through. -/
def found (files : FileTree) (location : Path) : Except Error (List (QualifiedName × Version)) := do
  let found ← (← scanCategories files location).mapM (foundInCategory files location)
  return found.flatten

namespace Source

theorem idsOfPackage_eq (s : Source) (c : CategoryName) (dirName : String) :
    s.idsOfPackage files c dirName =
      (foundInPackage files s.location c dirName).map fun found =>
        found.map fun x => s.buildId files x.1 x.2 := by
  unfold idsOfPackage foundInPackage
  dsimp only
  split
  · cases Name.ofText? .package dirName with
    | none => rfl
    | some p =>
      dsimp only
      cases scanVersions files p (s.location / c.text / dirName) with
      | error e => rfl
      | ok versions =>
        refine congrArg Except.ok ?_
        dsimp only
        rw [List.map_map]
        rfl
  · rfl

theorem idsOfCategory_eq (s : Source) (c : CategoryName) : s.idsOfCategory files c =
    (foundInCategory files s.location c).map fun found =>
      found.map fun x => s.buildId files x.1 x.2 := by
  unfold idsOfCategory foundInCategory
  cases files.visibleNames (s.location / c.text) with
  | error e => rfl
  | ok names =>
    dsimp only [bind, Except.bind]
    rw [Result.mapM_eq_map_mapM (s.idsOfPackage_eq c)]
    cases names.mapM (foundInPackage files s.location c) with
    | error e => rfl
    | ok found => exact congrArg Except.ok List.map_flatten.symm

/-- The IDs are built from what is found. -/
theorem ids_eq (s : Source) (files : FileTree) : s.ids files =
    (found files s.location).map fun found => found.map fun x => s.buildId files x.1 x.2 := by
  unfold ids EbuildTree.found
  cases scanCategories files s.location with
  | error e => rfl
  | ok categories =>
    dsimp only [bind, Except.bind]
    rw [Result.mapM_eq_map_mapM s.idsOfCategory_eq]
    cases categories.mapM (foundInCategory files s.location) with
    | error e => rfl
    | ok found => exact congrArg Except.ok List.map_flatten.symm

end Source

/-- The category is listed, or, where none is, the name of a directory that can be one. -/
def IsCategory (files : FileTree) (location : Path) (c : CategoryName) : Prop :=
  ∃ lines, files.readLines (location / "profiles" / "categories") = .ok lines ∧
    if lines = [] then c.text ∉ notCategories ∧ files.isDirectory (location / c.text) = true
    else c.text ∈ lines

/-- The package is a directory, and the ebuild of the version is in it. -/
def HoldsEbuild (files : FileTree) (location : Path) (name : QualifiedName) (v : Version) : Prop :=
  files.isDirectory (location / name.category.text / name.package.text) = true ∧
  ∃ entries, files.list (location / name.category.text / name.package.text) = .ok entries ∧
    ebuildName name.package v ∈ entries

theorem mem_filterMap_ofText? {kind : NameKind} {n : Name kind} {texts : List String} :
    n ∈ texts.filterMap (Name.ofText? kind) ↔ n.text ∈ texts := by
  simp only [List.mem_filterMap, Name.ofText?_eq_some_iff, exists_eq_right]

theorem mem_scanCategories {categories : List CategoryName} (hlocation : location.text ≠ "")
    (h : scanCategories files location = .ok categories) :
    c ∈ categories ↔ IsCategory files location c := by
  obtain ⟨lines, hlines, h⟩ := Result.bind_eq_ok_iff.mp h
  unfold IsCategory
  rw [hlines]
  simp only [Except.ok.injEq, exists_eq_left']
  split at h
  · next hempty =>
    obtain ⟨names, hnames, h⟩ := Result.bind_eq_ok_iff.mp h
    cases h
    rw [if_pos (List.isEmpty_iff.mp hempty), mem_filterMap_ofText?, List.mem_filter,
      Bool.and_eq_true, Bool.not_eq_true', List.contains_eq_mem, decide_eq_false_iff_not]
    refine and_iff_right_of_imp fun h => ?_
    exact FileTree.mem_visibleNames hlocation c.isStep_of_category c.head?_ne_dot_of_category h.2
      hnames
  · next hlisted =>
    cases h
    rw [if_neg fun hnil => hlisted (List.isEmpty_iff.mpr hnil), mem_filterMap_ofText?]

/-- The versions that are read off the names in a directory. -/
theorem scanVersions_eq_ok {p : PackageName} {dir : Path} {entries : List String}
    (hentries : files.list dir = .ok entries) :
    scanVersions files p dir = .ok (entries.filterMap (ebuildVersion? p)) := by
  unfold scanVersions FileTree.visibleNames
  rw [hentries]
  dsimp only [bind, Except.bind]
  refine congrArg Except.ok ?_
  rw [List.filterMap_filter]
  refine List.filterMap_congr fun entry _ => ?_
  cases hentry : ebuildVersion? p entry with
  | none => exact ite_self _
  | some v =>
    rw [ebuildVersion?_eq_some_iff.mp hentry, FileTree.isHidden_eq_false (head?_ebuildName p v)]
    rfl

/-- What is found in a directory: its ebuilds, if it is one that a package is named for. -/
theorem foundInPackage_cases {dirName : String} {l : List (QualifiedName × Version)}
    (h : foundInPackage files location c dirName = .ok l) :
    l = [] ∧ (files.isDirectory (location / c.text / dirName) = false ∨
      ∀ p : PackageName, dirName ≠ p.text) ∨
    ∃ p : PackageName, dirName = p.text ∧ files.isDirectory (location / c.text / dirName) = true ∧
      ∃ entries, files.list (location / c.text / dirName) = .ok entries ∧
        l = (entries.filterMap (ebuildVersion? p)).map (⟨c, p⟩, ·) := by
  unfold foundInPackage at h
  dsimp only at h
  split at h
  · next hdirectory =>
    split at h
    · next hnone =>
      cases h
      refine .inl ⟨rfl, .inr fun p hp => ?_⟩
      rw [Name.ofText?_eq_some_iff.mpr hp] at hnone
      cases hnone
    · next p hp =>
      obtain ⟨d, hd, hnode⟩ := FileTree.isDirectory_iff.mp hdirectory
      have hentries := FileTree.list_eq_ok_iff.mpr ⟨d, hd, hnode, rfl⟩
      rw [scanVersions_eq_ok hentries] at h
      cases h
      exact .inr ⟨p, Name.ofText?_eq_some_iff.mp hp, hdirectory, _, hentries, rfl⟩
  · next hdirectory =>
    cases h
    exact .inl ⟨rfl, .inl (Bool.not_eq_true _ ▸ hdirectory)⟩

theorem mem_foundInPackage {dirName : String} {l : List (QualifiedName × Version)}
    (h : foundInPackage files location c dirName = .ok l) :
    (name, v) ∈ l ↔ name.category = c ∧ name.package.text = dirName ∧
      HoldsEbuild files location name v := by
  rcases foundInPackage_cases h with ⟨rfl, hnone⟩ | ⟨p, rfl, hdirectory, entries, hentries, rfl⟩
  · refine iff_of_false List.not_mem_nil ?_
    rintro ⟨rfl, rfl, hdirectory, -⟩
    rcases hnone with hfalse | hnone
    · exact absurd (hfalse.symm.trans hdirectory) Bool.false_ne_true
    · exact hnone name.package rfl
  · simp only [List.mem_map, List.mem_filterMap, ebuildVersion?_eq_some_iff, Prod.mk.injEq]
    constructor
    · rintro ⟨w, ⟨entry, hentry, rfl⟩, rfl, rfl⟩
      exact ⟨rfl, rfl, hdirectory, entries, hentries, hentry⟩
    · rintro ⟨rfl, hp, -, entries', hentries', hmem⟩
      rw [hp, hentries, Except.ok.injEq] at hentries'
      cases Name.eq_of_text hp
      exact ⟨v, ⟨_, hentries' ▸ hmem, rfl⟩, rfl, rfl⟩

theorem mem_foundInCategory {l : List (QualifiedName × Version)}
    (h : foundInCategory files location c = .ok l) :
    (name, v) ∈ l ↔ name.category = c ∧ HoldsEbuild files location name v := by
  obtain ⟨names, hnames, h⟩ := Result.bind_eq_ok_iff.mp h
  obtain ⟨blocks, hblocks, h⟩ := Result.bind_eq_ok_iff.mp h
  cases h
  rw [List.mem_flatten]
  constructor
  · rintro ⟨block, hblock, hmem⟩
    obtain ⟨dirName, -, hfound⟩ := Result.exists_of_mem_mapM hblocks hblock
    obtain ⟨hcategory, -, hholds⟩ := (mem_foundInPackage hfound).mp hmem
    exact ⟨hcategory, hholds⟩
  · rintro ⟨rfl, hholds⟩
    have hdir : name.package.text ∈ names :=
      FileTree.mem_visibleNames (Path.text_join_ne name.category.isStep_of_category)
        name.package.isStep_of_package (fun hdot =>
          name.package.dot_not_mem_of_package (List.mem_of_mem_head? hdot)) hholds.1 hnames
    obtain ⟨block, hblock, hfound⟩ := Result.exists_mem_of_mapM hblocks hdir
    exact ⟨block, hblock, (mem_foundInPackage hfound).mpr ⟨rfl, rfl, hholds⟩⟩

/-- A version is found just when its category is one and the package holds its ebuild. -/
theorem mem_found_iff {l : List (QualifiedName × Version)} (hlocation : location.text ≠ "")
    (h : found files location = .ok l) :
    (name, v) ∈ l ↔ IsCategory files location name.category ∧ HoldsEbuild files location name v := by
  obtain ⟨categories, hcategories, h⟩ := Result.bind_eq_ok_iff.mp h
  obtain ⟨blocks, hblocks, h⟩ := Result.bind_eq_ok_iff.mp h
  cases h
  rw [← mem_scanCategories hlocation hcategories, List.mem_flatten]
  constructor
  · rintro ⟨block, hblock, hmem⟩
    obtain ⟨c, hc, hfound⟩ := Result.exists_of_mem_mapM hblocks hblock
    obtain ⟨rfl, hholds⟩ := (mem_foundInCategory hfound).mp hmem
    exact ⟨hc, hholds⟩
  · rintro ⟨hc, hholds⟩
    obtain ⟨block, hblock, hfound⟩ := Result.exists_mem_of_mapM hblocks hc
    exact ⟨block, hblock, (mem_foundInCategory hfound).mpr ⟨rfl, hholds⟩⟩

end EbuildTree

end PackageCatalog
