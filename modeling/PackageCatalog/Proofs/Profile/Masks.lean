import PackageCatalog.Proofs.MaskList
import PackageCatalog.Proofs.Profile.Load

/-!
# The masks of a profile

The masks of a profile are what the `package.mask` files of its directories leave, applied in the
order of the directories (`Profile.packageMask_of_load`).
-/

namespace PackageCatalog

namespace Profile

variable {files : FileTree} {path dir : Path} {p q : Profile}

/-- The `package.mask` files of directories, where there is one. -/
def maskFiles (files : FileTree) (dirs : List Path) : List (Path × String) :=
  dirs.filterMap fun dir =>
    match files.readOptional (dir / "package.mask") with
    | .ok (some text) => some (dir / "package.mask", text)
    | _ => none

theorem packageMask_of_applyDirectory (h : p.applyDirectory files dir = .ok q) :
    q.packageMask = p.packageMask.applyAll (maskFiles files [dir]) := by
  obtain ⟨_, _, _, _, _, _, packageMask, _, _, _, _, _, _, _, hmask, _, rfl⟩ :=
    applyDirectory_eq_ok_iff.mp h
  rw [MaskList.loadInto] at hmask
  obtain ⟨text?, hread, hmask⟩ := Result.bind_eq_ok_iff.mp hmask
  rw [maskFiles, List.filterMap_cons, hread]
  cases text? <;> cases hmask <;> rfl

theorem maskFiles_cons (dir : Path) (dirs : List Path) :
    maskFiles files (dir :: dirs) = maskFiles files [dir] ++ maskFiles files dirs :=
  List.filterMap_append (l := [dir])

theorem packageMask_of_foldlM {dirs : List (List String)}
    (h : dirs.foldlM (applyNames files) p = .ok q) :
    q.packageMask = p.packageMask.applyAll (maskFiles files (dirs.map Path.ofNames)) := by
  induction dirs generalizing p with
  | nil =>
    cases h
    rfl
  | cons dir dirs ih =>
    obtain ⟨applied, hdir, hdirs⟩ := Result.foldlM_cons_eq_ok_iff.mp h
    rw [ih hdirs, packageMask_of_applyDirectory hdir, List.map_cons,
      maskFiles_cons _ (dirs.map Path.ofNames)]
    exact List.foldl_append.symm

theorem packageMask_of_load (h : load files path = .ok p) :
    p.packageMask = MaskList.empty.applyAll (maskFiles files p.directories) := by
  obtain ⟨_, t, applied, -, -, hdirectories, hflat, rfl⟩ := exists_parentTree_of_load h
  rw [hdirectories]
  exact packageMask_of_foldlM hflat

end Profile

namespace MaskList

/-- The masks of files are the lines that stand, under the comments that they would have in one
file with empty lines in between; the first that describes a package ID masks it. Those of a
profile are the masks of its files. -/
theorem masks_of_files (files : List (Path × String)) :
    (empty.applyAll files).entries.map shown = standing (linesOf files) ∧
    (∀ file, (empty.applyAll files).movedTo file =
      empty.apply file (Text.joinWithEmptyLines (files.map Prod.snd))) ∧
    (∀ id info, (empty.applyAll files).find? id = some info ↔
      ∃ before e after, (empty.applyAll files).entries = before ++ e :: after ∧ e.info = info ∧
        e.atom.describes id = true ∧ ∀ earlier ∈ before, earlier.atom.describes id = false) ∧
    (∀ id, (empty.applyAll files).find? id = none ↔
      ∀ e ∈ (empty.applyAll files).entries, e.atom.describes id = false) ∧
    ∀ tree path p, Profile.load tree path = .ok p →
      p.packageMask = empty.applyAll (Profile.maskFiles tree p.directories) :=
  ⟨shown_applyAll files, movedTo_applyAll empty files, fun _ _ => find?_eq_some_iff,
    fun _ => find?_eq_none_iff, fun _ _ _ => Profile.packageMask_of_load⟩

/-- Two files, of which the second takes back a mask of the first. -/
def parentAndChild : List (Path × String) :=
  [(⟨"/base/package.mask"⟩, "# too old\ncat/a\ncat/b\n"),
    (⟨"/top/package.mask"⟩, "-cat/a\ncat/c")]

def masking : FileTree where
  entries := [(["base"], .directory),
    (["base", "package.mask"], .text "# too old\ncat/a\ncat/b\n"), (["top"], .directory),
    (["top", "parent"], .text "../base"), (["top", "package.mask"], .text "-cat/a\ncat/c")]
  workingDirectory := []
  modified := fun _ => 0

/-- The comment of the first file does not reach into the second. -/
theorem masks_of_parentAndChild : ∃ p, Profile.load masking ⟨"/top"⟩ = .ok p ∧
    p.packageMask.entries.map shown = standing (linesOf parentAndChild) ∧
    p.packageMask.entries.map MaskEntry.info =
      [⟨⟨"/base/package.mask"⟩, ["too old"], "cat/b"⟩, ⟨⟨"/top/package.mask"⟩, [], "cat/c"⟩] := by
  have hwithin : (Profile.loadWithin masking 7 ⟨"/top"⟩).map
      (fun r => r.toOption.map Profile.directories) = some (some [⟨"/base"⟩, ⟨"/top"⟩]) := by
    decide +kernel
  rw [Profile.loadWithin_eq (by decide), Option.map_some, Option.some.injEq] at hwithin
  obtain ⟨p, hload, hdirectories⟩ := Result.exists_of_map_toOption hwithin
  obtain ⟨hstanding, -, -, -, hprofile⟩ := masks_of_files parentAndChild
  have hfiles : Profile.maskFiles masking [⟨"/base"⟩, ⟨"/top"⟩] = parentAndChild := by
    decide +kernel
  have hmasks := hprofile masking ⟨"/top"⟩ p hload
  rw [hdirectories, hfiles] at hmasks
  refine ⟨p, hload, ?_, ?_⟩
  · rw [hmasks]
    exact hstanding
  · rw [hmasks]
    decide +kernel

end MaskList

end PackageCatalog
