import PackageCatalog.Proofs.Result
import PackageCatalog.Profile.Load

/-!
# Applying one profile directory

The files of a directory are read whatever the profile before them holds, so that a directory
can be applied depends on its files alone (`exists_applyDirectory_iff`).
-/

namespace PackageCatalog

variable {files : FileTree} {path : Path}

namespace FileTree

theorem exists_readLines_iff :
    (∃ lines, files.readLines path = .ok lines) ↔ ∃ text?, files.readOptional path = .ok text? :=
  Result.exists_bind_eq_ok_iff fun text? => by cases text? <;> exact ⟨_, rfl⟩

end FileTree

theorem FlagLine.exists_load_iff :
    (∃ lines, load files path = .ok lines) ↔ ∃ text?, files.readOptional path = .ok text? :=
  Result.exists_map_eq_ok_iff.trans FileTree.exists_readLines_iff

theorem MaskList.exists_loadInto_iff {list : MaskList} :
    (∃ list', list.loadInto files path = .ok list') ↔
      ∃ text?, files.readOptional path = .ok text? :=
  Result.exists_bind_eq_ok_iff fun text? => by cases text? <;> exact ⟨_, rfl⟩

namespace Settings

/-- The assignments of a file, none if there is no such file. -/
def assignmentsOf (files : FileTree) (path : Path) :
    Except Error (List (String × List Char)) := do
  match ← files.readOptional path with
  | none => return []
  | some text =>
    match assignments none (Text.lines text) with
    | .ok found => return found
    | .error fault => .error (.badConfig path.text fault)

theorem loadInto_eq (accumulates : String → Bool) (settings : Settings) :
    settings.loadInto accumulates files path = (do
      return (← assignmentsOf files path).foldl (assign accumulates) settings) := by
  rw [loadInto, assignmentsOf]
  cases files.readOptional path with
  | error e => rfl
  | ok text? =>
    cases text? with
    | none => rfl
    | some text =>
      show settings.applyText accumulates path text = _
      rw [applyText]
      dsimp only [bind, Except.bind]
      cases assignments none (Text.lines text) <;> rfl

theorem exists_assignmentsOf_iff :
    (∃ found, assignmentsOf files path = .ok found) ↔
      (∃ text?, files.readOptional path = .ok text?) ∧
        ∀ text, files.readOptional path = .ok (some text) →
          ∃ found, assignments none (Text.lines text) = .ok found := by
  rw [assignmentsOf]
  cases files.readOptional path with
  | error e =>
    exact iff_of_false Result.not_exists_error_eq_ok fun h => Result.not_exists_error_eq_ok h.1
  | ok text? =>
    cases text? with
    | none => exact iff_of_true ⟨[], rfl⟩ ⟨⟨none, rfl⟩, fun text h => by cases h⟩
    | some text =>
      dsimp only [bind, Except.bind]
      constructor
      · rintro ⟨found, h⟩
        refine ⟨⟨some text, rfl⟩, fun text' htext => ?_⟩
        cases htext
        cases hfound : assignments none (Text.lines text) with
        | error fault =>
          rw [hfound] at h
          cases h
        | ok found => exact ⟨found, rfl⟩
      · rintro ⟨-, h⟩
        obtain ⟨found, hfound⟩ := h text rfl
        rw [hfound]
        exact ⟨found, rfl⟩

end Settings

namespace Profile

theorem exists_applyFlagFile_iff {flags : List UseFlag} :
    (∃ flags', applyFlagFile files flags path = .ok flags') ↔
      ∃ text?, files.readOptional path = .ok text? :=
  Result.exists_map_eq_ok_iff.trans FileTree.exists_readLines_iff

/-- The files of a profile directory besides its `parent` file. -/
def fileNames : List String :=
  ["make.defaults", "use.mask", "use.force", "package.use", "package.use.mask",
    "package.use.force", "package.mask", "packages"]

/-- Each file of a profile directory can be read or is missing, and the assignments of
`make.defaults` are well formed. -/
structure Readable (files : FileTree) (dir : Path) : Prop where
  readable : ∀ name ∈ fileNames, ∃ text?, files.readOptional (dir / name) = .ok text?
  wellFormed : ∀ text, files.readOptional (dir / "make.defaults") = .ok (some text) →
    ∃ found, Settings.assignments none (Text.lines text) = .ok found

variable {dir : Path} {p q : Profile}

theorem applyDirectory_eq_ok_iff :
    p.applyDirectory files dir = .ok q ↔
      ∃ settings useMask useForce packageUse packageUseMask packageUseForce packageMask lines,
        p.settings.loadInto accumulating.contains files (dir / "make.defaults") = .ok settings ∧
        applyFlagFile files p.useMask (dir / "use.mask") = .ok useMask ∧
        applyFlagFile files p.useForce (dir / "use.force") = .ok useForce ∧
        FlagLine.load files (dir / "package.use") = .ok packageUse ∧
        FlagLine.load files (dir / "package.use.mask") = .ok packageUseMask ∧
        FlagLine.load files (dir / "package.use.force") = .ok packageUseForce ∧
        p.packageMask.loadInto files (dir / "package.mask") = .ok packageMask ∧
        files.readLines (dir / "packages") = .ok lines ∧
        q = ⟨p.directories ++ [dir], settings, p.useFlags, useMask, useForce,
          p.packageUse ++ packageUse, p.packageUseMask ++ packageUseMask,
          p.packageUseForce ++ packageUseForce, packageMask,
          lines.foldl applySystemLine p.system⟩ := by
  constructor
  · intro h
    rw [applyDirectory] at h
    obtain ⟨settings, hsettings, h⟩ := Result.bind_eq_ok_iff.mp h
    obtain ⟨useMask, huseMask, h⟩ := Result.bind_eq_ok_iff.mp h
    obtain ⟨useForce, huseForce, h⟩ := Result.bind_eq_ok_iff.mp h
    obtain ⟨packageUse, hpackageUse, h⟩ := Result.bind_eq_ok_iff.mp h
    obtain ⟨packageUseMask, hpackageUseMask, h⟩ := Result.bind_eq_ok_iff.mp h
    obtain ⟨packageUseForce, hpackageUseForce, h⟩ := Result.bind_eq_ok_iff.mp h
    obtain ⟨packageMask, hpackageMask, h⟩ := Result.bind_eq_ok_iff.mp h
    obtain ⟨lines, hlines, h⟩ := Result.bind_eq_ok_iff.mp h
    cases h
    exact ⟨settings, useMask, useForce, packageUse, packageUseMask, packageUseForce, packageMask,
      lines, hsettings, huseMask, huseForce, hpackageUse, hpackageUseMask, hpackageUseForce,
      hpackageMask, hlines, rfl⟩
  · rintro ⟨settings, useMask, useForce, packageUse, packageUseMask, packageUseForce, packageMask,
      lines, hsettings, huseMask, huseForce, hpackageUse, hpackageUseMask, hpackageUseForce,
      hpackageMask, hlines, rfl⟩
    rw [applyDirectory, hsettings, huseMask, huseForce, hpackageUse, hpackageUseMask,
      hpackageUseForce, hpackageMask, hlines]
    rfl

theorem exists_applyDirectory_iff (p : Profile) :
    (∃ q, p.applyDirectory files dir = .ok q) ↔ Readable files dir := by
  constructor
  · rintro ⟨q, h⟩
    obtain ⟨settings, useMask, useForce, packageUse, packageUseMask, packageUseForce, packageMask,
      lines, hsettings, huseMask, huseForce, hpackageUse, hpackageUseMask, hpackageUseForce,
      hpackageMask, hlines, -⟩ := applyDirectory_eq_ok_iff.mp h
    rw [Settings.loadInto_eq] at hsettings
    obtain ⟨hdefaults, hwellFormed⟩ :=
      Settings.exists_assignmentsOf_iff.mp (Result.exists_map_eq_ok_iff.mp ⟨_, hsettings⟩)
    refine ⟨?_, hwellFormed⟩
    simp only [fileNames, List.forall_mem_cons]
    exact ⟨hdefaults, exists_applyFlagFile_iff.mp ⟨_, huseMask⟩,
      exists_applyFlagFile_iff.mp ⟨_, huseForce⟩, FlagLine.exists_load_iff.mp ⟨_, hpackageUse⟩,
      FlagLine.exists_load_iff.mp ⟨_, hpackageUseMask⟩,
      FlagLine.exists_load_iff.mp ⟨_, hpackageUseForce⟩,
      MaskList.exists_loadInto_iff.mp ⟨_, hpackageMask⟩, FileTree.exists_readLines_iff.mp ⟨_, hlines⟩,
      fun _ h => absurd h List.not_mem_nil⟩
  · rintro ⟨hreadable, hwellFormed⟩
    simp only [fileNames, List.forall_mem_cons] at hreadable
    obtain ⟨hdefaults, huseMask, huseForce, hpackageUse, hpackageUseMask, hpackageUseForce,
      hpackageMask, hlines, -⟩ := hreadable
    obtain ⟨found, hfound⟩ := Settings.exists_assignmentsOf_iff.mpr ⟨hdefaults, hwellFormed⟩
    obtain ⟨useMask, huseMask⟩ := exists_applyFlagFile_iff.mpr huseMask
    obtain ⟨useForce, huseForce⟩ := exists_applyFlagFile_iff.mpr huseForce
    obtain ⟨packageUse, hpackageUse⟩ := FlagLine.exists_load_iff.mpr hpackageUse
    obtain ⟨packageUseMask, hpackageUseMask⟩ := FlagLine.exists_load_iff.mpr hpackageUseMask
    obtain ⟨packageUseForce, hpackageUseForce⟩ := FlagLine.exists_load_iff.mpr hpackageUseForce
    obtain ⟨packageMask, hpackageMask⟩ := MaskList.exists_loadInto_iff.mpr hpackageMask
    obtain ⟨lines, hlines⟩ := FileTree.exists_readLines_iff.mpr hlines
    have hsettings : p.settings.loadInto accumulating.contains files (dir / "make.defaults") =
        .ok (found.foldl (Settings.assign accumulating.contains) p.settings) := by
      rw [Settings.loadInto_eq, hfound]
      rfl
    exact ⟨_, applyDirectory_eq_ok_iff.mpr ⟨_, useMask, useForce, packageUse, packageUseMask,
      packageUseForce, packageMask, lines, hsettings, huseMask, huseForce, hpackageUse,
      hpackageUseMask, hpackageUseForce, hpackageMask, hlines, rfl⟩⟩

theorem directories_of_applyDirectory (h : p.applyDirectory files dir = .ok q) :
    q.directories = p.directories ++ [dir] := by
  obtain ⟨_, _, _, _, _, _, _, _, _, _, _, _, _, _, _, _, rfl⟩ := applyDirectory_eq_ok_iff.mp h
  rfl

theorem settings_of_applyDirectory (h : p.applyDirectory files dir = .ok q) :
    ∃ found, Settings.assignmentsOf files (dir / "make.defaults") = .ok found ∧
      q.settings = found.foldl (Settings.assign accumulating.contains) p.settings := by
  obtain ⟨settings, _, _, _, _, _, _, _, hsettings, _, _, _, _, _, _, _, rfl⟩ :=
    applyDirectory_eq_ok_iff.mp h
  rw [Settings.loadInto_eq] at hsettings
  obtain ⟨found, hfound, hresult⟩ := Result.bind_eq_ok_iff.mp hsettings
  cases hresult
  exact ⟨found, hfound, rfl⟩

end Profile

end PackageCatalog
