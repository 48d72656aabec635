import PackageCatalog.Proofs.Repository.Isolation
import PackageCatalog.Proofs.Repository.Provenance

/-!
# What a database of installed packages lists

The entries of a category's directory that are directories and part into the name of a package and a
version are found (`InstalledDatabase.mem_found_iff`), and of equal versions the one of the last
entry stays. The ID of a directory is read off its variables: which actions it supports and whether
it has a slot depend on two files (`Repository.lists_installed`).
-/

namespace PackageCatalog

open EbuildTree (LastOf)

namespace InstalledDatabase

variable {files : FileTree} {location dir : Path} {options : InstalledOptions} {c : CategoryName}
  {name : QualifiedName} {v w : Version} {l : List (QualifiedName × Version)}

/-! ## What is found -/

/-- How the directory of a version is called. Like the name of the package, it starts with no dot,
so that it is not hidden. -/
def entryName (p : PackageName) (v : Version) : String := p.text ++ "-" ++ v.text

def directoryOf (location : Path) (name : QualifiedName) (v : Version) : Path :=
  location / name.category.text / entryName name.package v

def HoldsPackage (files : FileTree) (location : Path) (name : QualifiedName) (v : Version) : Prop :=
  files.isDirectory (directoryOf location name v) = true

def foundAt? (files : FileTree) (c : CategoryName) (dir : Path) (entry : String) :
    Option (QualifiedName × Version) :=
  if files.isDirectory (dir / entry) then (packageOf? entry).map fun x => (⟨c, x.1⟩, x.2) else none

def foundInCategory (files : FileTree) (location : Path) (dirName : String) :
    Except Error (List (QualifiedName × Version)) :=
  let dir := location / dirName
  if files.isDirectory dir then
    match Name.ofText? .category dirName with
    | none => .ok []
    | some c => do return (← files.visibleNames dir).filterMap (foundAt? files c dir)
  else .ok []

/-- All names and versions, in the order in which the database is gone through. -/
def found (files : FileTree) (location : Path) : Except Error (List (QualifiedName × Version)) := do
  let found ← (← files.visibleNames location).mapM (foundInCategory files location)
  return found.flatten

theorem packageOf?_eq_some_iff {entry : String} {p : PackageName} :
    packageOf? entry = some (p, v) ↔ entry = entryName p v := by
  refine ⟨eq_of_packageOf?, ?_⟩
  rintro rfl
  unfold packageOf? entryName
  rw [EbuildTree.toList_versioned, Atom.splitVersion?_append (Atom.isVersionable_of_package p) v]
  dsimp only [Option.bind_eq_bind, Option.bind_some]
  rw [String.ofList_toList, Name.ofText?_eq_some_iff.mpr rfl]
  rfl

theorem foundAt?_eq_some_iff {entry : String} :
    foundAt? files c (location / c.text) entry = some (name, v) ↔
      name.category = c ∧ entry = entryName name.package v ∧ HoldsPackage files location name v := by
  unfold foundAt? HoldsPackage directoryOf
  constructor
  · intro h
    split at h
    · next hdirectory =>
      obtain ⟨⟨p, u⟩, hpackage, hpair⟩ := Option.map_eq_some_iff.mp h
      cases hpair
      cases packageOf?_eq_some_iff.mp hpackage
      exact ⟨rfl, rfl, hdirectory⟩
    · cases h
  · rintro ⟨rfl, rfl, hdirectory⟩
    rw [if_pos hdirectory, packageOf?_eq_some_iff.mpr rfl]
    rfl

/-- What is found in an entry of the database: what is in the directory of a category. -/
theorem foundInCategory_cases {dirName : String}
    (h : foundInCategory files location dirName = .ok l) :
    l = [] ∧ (∀ c : CategoryName, dirName = c.text → files.isDirectory (location / c.text) = false) ∨
    ∃ c : CategoryName, dirName = c.text ∧ ∃ names,
      files.visibleNames (location / c.text) = .ok names ∧
      l = names.filterMap (foundAt? files c (location / c.text)) := by
  unfold foundInCategory at h
  dsimp only at h
  split at h
  · split at h
    · next hnone =>
      cases h
      refine .inl ⟨rfl, fun c hc => ?_⟩
      rw [Name.ofText?_eq_some_iff.mpr hc] at hnone
      cases hnone
    · next c hc =>
      cases Name.ofText?_eq_some_iff.mp hc
      obtain ⟨names, hnames, h⟩ := Result.bind_eq_ok_iff.mp h
      cases h
      exact .inr ⟨c, rfl, names, hnames, rfl⟩
  · next hno =>
    cases h
    exact .inl ⟨rfl, fun c hc => hc ▸ Bool.not_eq_true _ ▸ hno⟩

theorem HoldsPackage.isDirectory_category (h : HoldsPackage files location name v) :
    files.isDirectory (location / name.category.text) = true := by
  obtain ⟨q, hq, -⟩ := FileTree.isDirectory_iff.mp h
  obtain ⟨d, hd, hnode, -⟩ := FileTree.resolve_join
    (Path.text_join_ne name.category.isStep_of_category)
    (EbuildTree.isStep_versioned name.package v) hq
  exact FileTree.isDirectory_iff.mpr ⟨d, hd, hnode⟩

theorem HoldsPackage.mem_visibleNames {names : List String}
    (h : HoldsPackage files location name v)
    (hnames : files.visibleNames (location / name.category.text) = .ok names) :
    entryName name.package v ∈ names :=
  FileTree.mem_visibleNames (Path.text_join_ne name.category.isStep_of_category)
    (EbuildTree.isStep_versioned name.package v) (EbuildTree.head?_versioned name.package v) h hnames

theorem mem_foundInCategory {dirName : String}
    (h : foundInCategory files location dirName = .ok l) :
    (name, v) ∈ l ↔ name.category.text = dirName ∧ HoldsPackage files location name v := by
  rcases foundInCategory_cases h with ⟨rfl, hnone⟩ | ⟨c, rfl, names, hnames, rfl⟩
  · refine iff_of_false List.not_mem_nil ?_
    rintro ⟨rfl, hholds⟩
    have hdirectory := hholds.isDirectory_category
    exact absurd ((hnone _ rfl).symm.trans hdirectory) Bool.false_ne_true
  · simp only [List.mem_filterMap, foundAt?_eq_some_iff]
    constructor
    · rintro ⟨entry, -, hc, -, hholds⟩
      exact ⟨congrArg Name.text hc, hholds⟩
    · rintro ⟨hc, hholds⟩
      cases Name.eq_of_text hc
      exact ⟨_, hholds.mem_visibleNames hnames, rfl, rfl, hholds⟩

/-- A version is found just when there is a directory for it. -/
theorem mem_found_iff (hlocation : location.text ≠ "") (h : found files location = .ok l) :
    (name, v) ∈ l ↔ HoldsPackage files location name v := by
  obtain ⟨names, hnames, h⟩ := Result.bind_eq_ok_iff.mp h
  obtain ⟨blocks, hblocks, h⟩ := Result.bind_eq_ok_iff.mp h
  cases h
  rw [List.mem_flatten]
  constructor
  · rintro ⟨block, hblock, hmem⟩
    obtain ⟨dirName, -, hfound⟩ := Result.exists_of_mem_mapM hblocks hblock
    exact ((mem_foundInCategory hfound).mp hmem).2
  · intro hholds
    have hdirName : name.category.text ∈ names :=
      FileTree.mem_visibleNames hlocation name.category.isStep_of_category
        name.category.head?_ne_dot_of_category (hholds.isDirectory_category) hnames
    obtain ⟨block, hblock, hfound⟩ := Result.exists_mem_of_mapM hblocks hdirName
    exact ⟨block, hblock, (mem_foundInCategory hfound).mpr ⟨rfl, hholds⟩⟩

/-- The last of equal versions is the one whose directory has the last name. -/
theorem le_of_lastOf_found (hl : found files location = .ok l) (h : LastOf l name v)
    (hw : HoldsPackage files location name w) (hequals : w.equals v = true) :
    entryName name.package w ≤ entryName name.package v := by
  obtain ⟨categories, -, hl⟩ := Result.bind_eq_ok_iff.mp hl
  obtain ⟨blocks, hblocks, hl⟩ := Result.bind_eq_ok_iff.mp hl
  cases hl
  obtain ⟨block, hblock, hlast⟩ := h.of_mapM name.category.text hblocks
    fun dirName block u hblock hu => ((mem_foundInCategory hblock).mp hu).1.symm
  rcases foundInCategory_cases hblock with ⟨rfl, -⟩ | ⟨c, hc, names, hnames, rfl⟩
  · exact absurd hlast.mem List.not_mem_nil
  · cases Name.eq_of_text hc
    refine hlast.le_of_sorted (FileTree.sorted_visibleNames hnames) (fun entry u hu => ?_) ?_
      hequals
    · exact (foundAt?_eq_some_iff.mp hu).2.1
    · exact List.mem_filterMap.mpr
        ⟨_, hw.mem_visibleNames hnames, foundAt?_eq_some_iff.mpr ⟨rfl, rfl, hw⟩⟩

/-! ## The IDs of what is found -/

theorem exists_visibleNames (h : files.isDirectory dir = true) :
    ∃ names, files.visibleNames dir = .ok names := by
  obtain ⟨d, hd, hnode⟩ := FileTree.isDirectory_iff.mp h
  unfold FileTree.visibleNames
  rw [FileTree.list_eq_ok_iff.mpr ⟨d, hd, hnode, rfl⟩]
  exact ⟨_, rfl⟩

def idOf (files : FileTree) (options : InstalledOptions) (x : QualifiedName × Version) :
    PackageId :=
  let id := .bare x.1 x.2 options.name
  (buildId files (directoryOf options.location x.1 x.2) id).toOption.getD id

theorem buildId_eq_idOf (h : HoldsPackage files options.location name v) :
    buildId files (directoryOf options.location name v) (.bare name v options.name) =
      .ok (idOf files options (name, v)) := by
  obtain ⟨id, hid⟩ := exists_buildId_iff.mpr (exists_visibleNames h)
  rw [idOf, hid]
  rfl

theorem identity_idOf (x : QualifiedName × Version) :
    (idOf files options x).name = x.1 ∧ (idOf files options x).version = x.2 := by
  unfold idOf
  dsimp only
  cases hid : buildId files (directoryOf options.location x.1 x.2) (.bare x.1 x.2 options.name) with
  | ok id => exact identity_of_buildId hid
  | error e => exact ⟨rfl, rfl⟩

theorem idAt?_eq (files : FileTree) (options : InstalledOptions) (c : CategoryName)
    (entry : String) : idAt? files options.name c (options.location / c.text) entry =
      (foundAt? files c (options.location / c.text) entry).map (idOf files options) := by
  unfold idAt? foundAt?
  split
  · next hdirectory =>
    cases hpackage : packageOf? entry with
    | none => rfl
    | some x =>
      obtain ⟨p, v⟩ := x
      cases packageOf?_eq_some_iff.mp hpackage
      have hholds : HoldsPackage files options.location ⟨c, p⟩ v := hdirectory
      exact congrArg Except.toOption (buildId_eq_idOf hholds)
  · rfl

theorem idsOfCategory_eq (files : FileTree) (options : InstalledOptions) (dirName : String) :
    idsOfCategory files options dirName =
      (foundInCategory files options.location dirName).map fun l => l.map (idOf files options) := by
  unfold idsOfCategory foundInCategory
  dsimp only
  split
  · cases hc : Name.ofText? .category dirName with
    | none => rfl
    | some c =>
      cases Name.ofText?_eq_some_iff.mp hc
      dsimp only
      cases files.visibleNames (options.location / c.text) with
      | error e => rfl
      | ok names =>
        refine congrArg Except.ok ?_
        dsimp only
        rw [List.map_filterMap]
        exact List.filterMap_congr fun entry _ => idAt?_eq files options c entry
  · rfl

/-- The IDs are built from what is found. -/
theorem ids_eq (files : FileTree) (options : InstalledOptions) : ids files options =
    (found files options.location).map fun l => l.map (idOf files options) := by
  unfold ids InstalledDatabase.found
  cases files.visibleNames options.location with
  | error e => rfl
  | ok names =>
    dsimp only [bind, Except.bind]
    rw [Result.mapM_eq_map_mapM (idsOfCategory_eq files options)]
    cases names.mapM (foundInCategory files options.location) with
    | error e => rfl
    | ok blocks => exact congrArg Except.ok List.map_flatten.symm

/-! ## What the variables say -/

variable {id id' : PackageId} {names : List String} {values : List (String × String)}

def addVariables (id : PackageId) (values : List (String × String)) : PackageId :=
  values.foldl (fun id x => addVariable id x.1 x.2) id

/-- A variable is a slot or a key, and no more of the ID depends on it. -/
theorem addVariable_eq (id : PackageId) (x value : String) :
    ∃ slot? keys, addVariable id x value = { id with slot? := slot?, keys := keys } := by
  unfold addVariable
  split
  · cases Slot.parse value with
    | ok slot => exact ⟨some slot, id.keys, rfl⟩
    | error e => exact ⟨id.slot?, id.keys, rfl⟩
  · split
    · exact ⟨id.slot?, id.keys, rfl⟩
    · exact ⟨id.slot?, _, rfl⟩

theorem addVariables_eq (id : PackageId) (values : List (String × String)) :
    ∃ slot? keys, addVariables id values = { id with slot? := slot?, keys := keys } := by
  induction values generalizing id with
  | nil => exact ⟨id.slot?, id.keys, rfl⟩
  | cons x values ih =>
    obtain ⟨slot?, keys, hfirst⟩ := addVariable_eq id x.1 x.2
    obtain ⟨slot?', keys', hrest⟩ := ih (addVariable id x.1 x.2)
    refine ⟨slot?', keys', hrest.trans ?_⟩
    rw [hfirst]

theorem isSome_slot_addVariable {x value : String} :
    (addVariable id x value).slot?.isSome = true ↔
      id.slot?.isSome = true ∨ x = "SLOT" ∧ (Text.trim value).isEmpty = false := by
  unfold addVariable
  split
  · next hslot =>
    have hparse : (Slot.parse value).toOption.isSome = !(Text.trim value).isEmpty := by
      unfold Slot.parse
      dsimp only
      cases (Text.trim value).isEmpty with
      | true => rfl
      | false => cases Text.splitOnce '/' (Text.trim value) <;> rfl
    cases hread : Slot.parse value with
    | ok slot =>
      rw [hread] at hparse
      exact iff_of_true rfl (.inr ⟨hslot, (Bool.not_eq_true' _).mp hparse.symm⟩)
    | error e =>
      rw [hread] at hparse
      refine (or_iff_left fun h => ?_).symm
      rw [h.2] at hparse
      cases hparse
  · next hother =>
    have hkept : ∀ key, (id.withKey key).slot? = id.slot? := fun _ => rfl
    rw [or_iff_left fun h => hother h.1]
    split
    · rfl
    · rw [hkept]

theorem isSome_slot_addVariables :
    (addVariables id values).slot?.isSome = true ↔
      id.slot?.isSome = true ∨
        ∃ value, ("SLOT", value) ∈ values ∧ (Text.trim value).isEmpty = false := by
  induction values generalizing id with
  | nil =>
    refine (or_iff_left ?_).symm
    rintro ⟨value, hmem, -⟩
    exact List.not_mem_nil hmem
  | cons x values ih =>
    have hcons : addVariables id (x :: values) = addVariables (addVariable id x.1 x.2) values := rfl
    rw [hcons, ih, isSome_slot_addVariable, or_assoc]
    refine or_congr_right ?_
    constructor
    · rintro (⟨hx, hvalue⟩ | ⟨value, hmem, hvalue⟩)
      · exact ⟨x.2, by rw [← hx]; exact List.mem_cons_self, hvalue⟩
      · exact ⟨value, List.mem_cons_of_mem x hmem, hvalue⟩
    · rintro ⟨value, hmem, hvalue⟩
      rcases List.mem_cons.mp hmem with rfl | hmem
      · exact .inl ⟨rfl, hvalue⟩
      · exact .inr ⟨value, hmem, hvalue⟩

/-- The ID of a directory is what its variables say, with further keys and the actions. -/
theorem eq_of_buildId (h : buildId files dir id = .ok id') :
    ∃ names, files.visibleNames dir = .ok names ∧ ∃ keys,
      id' = ({ addVariables id (readVariables files dir names) with
          keys := keys }.withActions Action.ofInstalled).withActions
        (if hasConfig (readVariables files dir names) then [.config] else []) := by
  have hconfig (filled : PackageId) (configs : Bool) :
      filled.withActions (if configs then [.config] else []) =
        if configs then filled.withActions [.config] else filled := by
    cases configs <;> rfl
  obtain ⟨names, hnames, h⟩ := Result.bind_eq_ok_iff.mp h
  refine ⟨names, hnames, ?_⟩
  simp only [hconfig]
  cases h
  cases files.isFile (dir / "CONTENTS") <;> cases installedTime? files dir <;> exact ⟨_, rfl⟩

theorem masks_of_buildId (h : buildId files dir id = .ok id') : id'.masks = id.masks := by
  obtain ⟨names, -, keys, rfl⟩ := eq_of_buildId h
  obtain ⟨slot?, keys', hfilled⟩ := addVariables_eq id (readVariables files dir names)
  rw [hfilled]
  rfl

/-- A variable that can be read is among the variables, trimmed. -/
theorem mem_readVariables {x value : String} (hdir : dir.text ≠ "")
    (hnames : files.visibleNames dir = .ok names) (hx : Path.isStep x = true)
    (hdot : x.toList.head? ≠ some '.') (hvariable : isVariableFile x = true) :
    (x, value) ∈ readVariables files dir names ↔
      ∃ text, files.read (dir / x) = .ok text ∧ value = Text.trim text := by
  unfold readVariables
  rw [List.mem_filterMap]
  constructor
  · rintro ⟨y, -, hy⟩
    obtain ⟨text, htext, hpair⟩ := Option.map_eq_some_iff.mp hy
    cases hpair
    cases hread : files.read (dir / x) with
    | error e =>
      rw [hread] at htext
      cases htext
    | ok found =>
      rw [hread] at htext
      cases htext
      exact ⟨text, rfl, rfl⟩
  · rintro ⟨text, hread, rfl⟩
    obtain ⟨q, hq, hnode⟩ := FileTree.read_eq_ok_iff.mp hread
    have hmem := FileTree.mem_visibleNames_of_resolve hdir hx hdot hq hnode hnames
    refine ⟨x, List.mem_filter.mpr ⟨hmem, hvariable⟩, ?_⟩
    rw [hread]
    rfl

theorem hasConfig_readVariables_iff (hdir : dir.text ≠ "")
    (hnames : files.visibleNames dir = .ok names) :
    hasConfig (readVariables files dir names) = true ↔
      ∀ text, files.read (dir / "DEFINED_PHASES") = .ok text → "config" ∈ Text.words text := by
  have hmem (value : String) : ("DEFINED_PHASES", value) ∈ readVariables files dir names ↔
      ∃ text, files.read (dir / "DEFINED_PHASES") = .ok text ∧ value = Text.trim text :=
    mem_readVariables hdir hnames (by decide) (by decide) (by decide)
  unfold hasConfig
  cases hlookup : (readVariables files dir names).lookup "DEFINED_PHASES" with
  | none =>
    refine iff_of_true rfl fun text htext => ?_
    have hnone := List.lookup_eq_none_iff.mp hlookup _ ((hmem _).mpr ⟨text, htext, rfl⟩)
    exact absurd hnone (by simp)
  | some phases =>
    obtain ⟨before, after, hvalues, -⟩ := List.lookup_eq_some_iff.mp hlookup
    obtain ⟨text, htext, rfl⟩ := (hmem phases).mp (hvalues ▸ by simp)
    dsimp only
    rw [List.contains_iff_mem, Text.words_trim, htext]
    simp only [Except.ok.injEq, forall_eq']

/-- The actions of an ID, and whether it has a slot, go by the files of its directory. -/
structure ReadsAs (files : FileTree) (dir : Path) (id : PackageId) : Prop where
  supports : ∀ a, id.supports a = true ↔ a ∈ [Action.installed, .uninstall, .info] ∨ a = .config ∧
    ∀ text, files.read (dir / "DEFINED_PHASES") = .ok text → "config" ∈ Text.words text
  slot : id.slot?.isSome = true ↔ ∃ text, files.read (dir / "SLOT") = .ok text ∧
    ∃ c ∈ text.toList, Text.isBlank c = false

theorem readsAs_of_buildId {repository : RepositoryName} (hdir : dir.text ≠ "")
    (h : buildId files dir (.bare name v repository) = .ok id) : ReadsAs files dir id := by
  obtain ⟨names, hnames, keys, rfl⟩ := eq_of_buildId h
  have hmem (value : String) : ("SLOT", value) ∈ readVariables files dir names ↔
      ∃ text, files.read (dir / "SLOT") = .ok text ∧ value = Text.trim text :=
    mem_readVariables hdir hnames (by decide) (by decide) (by decide)
  refine ⟨fun a => ?_, isSome_slot_addVariables.trans ((or_iff_right ?_).trans ?_)⟩
  · have hnone : ¬ ({ addVariables (.bare name v repository) (readVariables files dir names) with
        keys := keys } : PackageId).supports a = true := by
      obtain ⟨slot?, keys', hfilled⟩ :=
        addVariables_eq (.bare name v repository) (readVariables files dir names)
      rw [hfilled]
      exact Bool.false_ne_true
    rw [PackageId.supports_withActions, PackageId.supports_withActions, or_iff_right hnone,
      ← hasConfig_readVariables_iff hdir hnames]
    refine or_congr_right ?_
    cases hasConfig (readVariables files dir names) with
    | true => simp only [↓reduceIte, List.mem_singleton, and_true]
    | false => simp only [Bool.false_eq_true, ↓reduceIte, List.not_mem_nil, and_false]
  · exact Bool.false_ne_true
  · constructor
    · rintro ⟨value, hvalue, hfilled⟩
      obtain ⟨text, htext, rfl⟩ := (hmem value).mp hvalue
      exact ⟨text, htext, Text.exists_mem_trim_iff.mp (Text.isEmpty_trim_eq_false_iff.mp hfilled)⟩
    · rintro ⟨text, htext, hfilled⟩
      refine ⟨Text.trim text, (hmem _).mpr ⟨text, htext, rfl⟩, ?_⟩
      exact Text.isEmpty_trim_eq_false_iff.mpr (Text.exists_mem_trim_iff.mpr hfilled)

end InstalledDatabase

/-! ## Opening the database -/

namespace Repository

open InstalledDatabase PackageIndex

variable {files : FileTree} {options : InstalledOptions} {r : Repository} {id : PackageId}

/-- The index is filled with the IDs of what is found. -/
theorem exists_found_installed (h : openInstalled files options = .ok r) :
    ∃ l, options.location.text ≠ "" ∧ InstalledDatabase.found files options.location = .ok l ∧
      r.index = ofChanges ((l.map (idOf files options)).map .insert) := by
  rw [openInstalled_eq] at h
  split at h
  · next hdirectory =>
    rw [InstalledDatabase.ids_eq] at h
    obtain ⟨ids, hids, h⟩ := Result.bind_eq_ok_iff.mp h
    cases h
    cases hfound : InstalledDatabase.found files options.location with
    | error e =>
      rw [hfound] at hids
      cases hids
    | ok l =>
      rw [hfound] at hids
      cases hids
      exact ⟨l, FileTree.text_ne_of_isDirectory hdirectory, rfl, rfl⟩
  · cases h

theorem mem_ids_iff_lastOf {l : List (QualifiedName × Version)}
    (hindex : r.index = ofChanges ((l.map (idOf files options)).map .insert)) :
    id ∈ r.ids ↔ ∃ v, id = idOf files options (id.name, v) ∧ LastOf l id.name v := by
  have hwell : r.index.WellFormed fun _ => True := hindex ▸ wellFormed_ofChanges _
  have hreflects := reflects_ofChanges ((l.map (idOf files options)).map .insert)
  rw [← hindex] at hreflects
  rw [mem_ids_iff hwell, ← EbuildTree.remains_iff identity_idOf]
  exact (hreflects.mem_versions id.name id).trans (and_iff_right rfl)

/-- Every ID is read off the directory of its version. -/
theorem buildId_of_mem_ids (h : openInstalled files options = .ok r) (hid : id ∈ r.ids) :
    HoldsPackage files options.location id.name id.version ∧
      buildId files (directoryOf options.location id.name id.version)
        (.bare id.name id.version options.name) = .ok id := by
  obtain ⟨l, hlocation, hl, hindex⟩ := exists_found_installed h
  obtain ⟨v, hbuild, hlast⟩ := (mem_ids_iff_lastOf hindex).mp hid
  have hholds := (mem_found_iff hlocation hl).mp hlast.mem
  have hversion : id.version = v := (congrArg PackageId.version hbuild).trans (identity_idOf _).2
  rw [hversion]
  refine ⟨hholds, ?_⟩
  rw [buildId_eq_idOf hholds, ← hbuild]

/-- A version of a package is listed just if a category's directory has a directory of that name and
of an equal version. There is one ID for equal versions, read off the directory with the last name.
It supports what all installed packages do, and configuring unless its phases leave that out; it has
a slot just if its variable says something. -/
theorem lists_installed (h : openInstalled files options = .ok r) :
    (∀ name V, (∃ id ∈ r.ids, id.name = name ∧ id.version.equals V = true) ↔
      ∃ v, v.equals V = true ∧ HoldsPackage files options.location name v) ∧
    Sorted.Strict compareIds r.ids ∧
    ∀ id ∈ r.ids,
      (∀ id' ∈ r.ids, id'.name = id.name → id'.version.equals id.version = true → id' = id) ∧
      HoldsPackage files options.location id.name id.version ∧
      (∀ w, HoldsPackage files options.location id.name w → w.equals id.version = true →
        entryName id.name.package w ≤ entryName id.name.package id.version) ∧
      buildId files (directoryOf options.location id.name id.version)
        (.bare id.name id.version options.name) = .ok id ∧
      ReadsAs files (directoryOf options.location id.name id.version) id := by
  obtain ⟨l, hlocation, hl, hindex⟩ := exists_found_installed h
  have hmem {id : PackageId} : id ∈ r.ids ↔
      ∃ v, id = idOf files options (id.name, v) ∧ LastOf l id.name v := mem_ids_iff_lastOf hindex
  have hwell : r.index.WellFormed fun _ => True := hindex ▸ wellFormed_ofChanges _
  have hreflects := reflects_ofChanges ((l.map (idOf files options)).map .insert)
  rw [← hindex] at hreflects
  have hstrict : Sorted.Strict compareIds r.ids := by
    have hall : r.ids = r.index.ids := hreflects.ids.symm
    rw [hall]
    exact hreflects.once
  refine ⟨fun name V => ⟨?_, ?_⟩, hstrict, fun id hid => ?_⟩
  · rintro ⟨id, hid, rfl, hequals⟩
    exact ⟨id.version, hequals, (buildId_of_mem_ids h hid).1⟩
  · rintro ⟨w, hequals, hholds⟩
    obtain ⟨v, hvw, hlast⟩ := EbuildTree.exists_lastOf ((mem_found_iff hlocation hl).mpr hholds)
    have hname : (idOf files options (name, v)).name = name := (identity_idOf _).1
    refine ⟨idOf files options (name, v), hmem.mpr ⟨v, by rw [hname], by rwa [hname]⟩, hname, ?_⟩
    rw [(identity_idOf _).2]
    exact Version.equals_equivalence.trans hvw hequals
  · obtain ⟨v, hbuild, hlast⟩ := hmem.mp hid
    obtain ⟨hholds, hread⟩ := buildId_of_mem_ids h hid
    have hversion : id.version = v := (congrArg PackageId.version hbuild).trans (identity_idOf _).2
    refine ⟨fun id' hid' hname hequals => ?_, hholds, fun w hw hequals => ?_, hread,
      readsAs_of_buildId (Path.text_join_ne (EbuildTree.isStep_versioned _ _)) hread⟩
    · rw [mem_ids_iff hwell] at hid hid'
      rw [hname] at hid'
      exact Sorted.eq_of_strict (hreflects.versions id.name) hid' hid
        (Version.equals_iff.mp hequals)
    · rw [hversion] at hequals ⊢
      exact le_of_lastOf_found hl hlast hw hequals

/-- A database with two equal versions of a package, a directory without a version and a file. -/
def equalKits : FileTree where
  entries := [(["v"], .directory), (["v", "app"], .directory), (["v", "app", "bag-2"], .text ""),
    (["v", "app", "kit"], .directory), (["v", "app", "kit-1.0"], .directory),
    (["v", "app", "kit-1.0", "SLOT"], .text "0"), (["v", "app", "kit-1.00-r0"], .directory),
    (["v", "app", "kit-1.00-r0", "DEFINED_PHASES"], .text "config install"),
    (["v", "app", "kit-1.00-r0", "SLOT"], .text " \n")]
  workingDirectory := []
  modified := fun _ => 0

def shortOne : Version := .numbered 1 [⟨0, []⟩] none

def longOne : Version := .numbered 1 [⟨0, [0]⟩] (some (.numbered ⟨0, []⟩ []))

/-- Of the entries, one behind all others is called as the long one is. -/
theorem eq_longOne {v : Version} (h : HoldsPackage equalKits ⟨"/v"⟩ kit v)
    (hlast : entryName kit.package longOne ≤ entryName kit.package v) : v = longOne := by
  have hdirectory : equalKits.resolve ((⟨"/v"⟩ : Path) / kit.category.text) = .ok ["v", "app"] := by
    decide
  obtain ⟨q, hq, hnode⟩ := FileTree.isDirectory_iff.mp h
  obtain ⟨d, hd, -, rfl⟩ := FileTree.resolve_join (Path.text_join_ne kit.category.isStep_of_category)
    (EbuildTree.isStep_versioned kit.package v) hq
  cases hdirectory.symm.trans hd
  have hentry := FileTree.mem_map_fst_of_node? hnode
  simp only [equalKits, List.map_cons, List.map_nil, List.mem_cons, List.cons_append,
    List.nil_append, List.cons.injEq, true_and, and_true, reduceCtorEq, and_false, false_or,
    List.not_mem_nil, or_false] at hentry
  unfold entryName at hlast
  rcases hentry with hname | hname | hname | hname
  · rw [hname] at hlast
    exact absurd hlast (by decide)
  · rw [hname] at hlast
    exact absurd hlast (by decide)
  · rw [hname] at hlast
    exact absurd hlast (by decide)
  · have hsame : kit = kit ∧ v = longOne := eq_of_versioned rfl hname
    exact hsame.2

/-- The last of the two directories is read: the package can be configured and has no slot. -/
theorem lists_equalKits : ∃ r, openInstalled equalKits (.at ⟨"/v"⟩) = .ok r ∧
    ∃ id, (∀ other, other ∈ r.ids ∧ other.name = kit ∧ other.version.equals shortOne = true ↔
        other = id) ∧
      id.version = longOne ∧ id.supports .config = true ∧ id.slot?.isSome = false := by
  obtain ⟨r, hr⟩ := Result.exists_ok_of_isSome
    (show (openInstalled equalKits (.at ⟨"/v"⟩)).toOption.isSome = true by decide +kernel)
  obtain ⟨hlisted, -, hread⟩ := lists_installed hr
  have hshort : HoldsPackage equalKits ⟨"/v"⟩ kit shortOne := by
    unfold HoldsPackage
    decide
  have hlong : HoldsPackage equalKits ⟨"/v"⟩ kit longOne := by
    unfold HoldsPackage
    decide
  have hsame : longOne.equals shortOne = true :=
    Version.equals_iff_padded.mpr (by decide)
  obtain ⟨id, hid, hname, hequals⟩ :=
    (hlisted kit shortOne).mpr ⟨shortOne, Version.equals_equivalence.refl _, hshort⟩
  obtain ⟨hunique, hholds, hlast, -, hreads⟩ := hread id hid
  rw [hname] at hholds hlast hreads
  have hversion : id.version = longOne := eq_longOne hholds (hlast longOne hlong
    (Version.equals_equivalence.trans hsame (Version.equals_equivalence.symm hequals)))
  rw [hversion] at hreads
  have hphases : equalKits.read (directoryOf ⟨"/v"⟩ kit longOne / "DEFINED_PHASES") =
      .ok "config install" := FileTree.read_eq_ok_iff.mpr
    ⟨["v", "app", "kit-1.00-r0", "DEFINED_PHASES"], by decide, by decide⟩
  have hslot : equalKits.read (directoryOf ⟨"/v"⟩ kit longOne / "SLOT") = .ok " \n" :=
    FileTree.read_eq_ok_iff.mpr ⟨["v", "app", "kit-1.00-r0", "SLOT"], by decide, by decide⟩
  refine ⟨r, hr, id, fun other => ⟨?_, ?_⟩, hversion, ?_, ?_⟩
  · rintro ⟨hother, hname', hequals'⟩
    exact hunique other hother (hname'.trans hname.symm)
      (Version.equals_equivalence.trans hequals' (Version.equals_equivalence.symm hequals))
  · rintro rfl
    exact ⟨hid, hname, hequals⟩
  · refine (hreads.supports .config).mpr (.inr ⟨rfl, fun text htext => ?_⟩)
    cases hphases.symm.trans htext
    have hwords : Text.words "config install" = ["config", "install"] := by decide +kernel
    rw [hwords]
    exact List.mem_cons_self
  · rw [Bool.eq_false_iff, ne_eq, hreads.slot]
    rintro ⟨text, htext, hfilled⟩
    cases hslot.symm.trans htext
    have hblank : ∀ c ∈ " \n".toList, Text.isBlank c = true := List.all_eq_true.mp (by decide)
    obtain ⟨c, hc, hfilled⟩ := hfilled
    exact absurd (hblank c hc) (Bool.eq_false_iff.mp hfilled)

end Repository

end PackageCatalog
