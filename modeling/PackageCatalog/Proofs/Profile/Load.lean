import PackageCatalog.Proofs.Profile.Directory
import PackageCatalog.Proofs.Profile.ParentTree

/-!
# Loading a profile

`loadDirectoryWithin` is loading by plain recursion on the depth of nesting, with no result
where the depth runs out. It agrees with `loadDirectory` as soon as the depth exceeds the number
of places that the chain has not come to, so loading comes to an end whatever the `parent` files
hold. What it comes to is said by the parent tree (`exists_parentTree_of_load`, `exists_load_iff`);
`load_terminates_flat` puts the three together.
-/

namespace PackageCatalog

open Relation

namespace Profile

variable {files : FileTree}

/-! ## Loading within a depth -/

/-- Applies the parents of `dir` in turn, each by `step`. -/
def loadParentsBy (step : Profile → Path → Option (Except Error Profile)) (p : Profile)
    (dir : Path) : List String → Option (Except Error Profile)
  | [] => some (.ok p)
  | line :: lines =>
    match step p (dir / line) with
    | some (.ok applied) => loadParentsBy step applied dir lines
    | other => other

def loadDirectoryBy (files : FileTree)
    (below : List (List String) → Profile → Path → Option (Except Error Profile))
    (chain : List (List String)) (p : Profile) (path : Path) : Option (Except Error Profile) :=
  match files.resolve path with
  | .error _ => some (.error (.noSuchProfile path.text))
  | .ok dir =>
    if chain.contains dir then some (.error (.badConfig (Path.ofNames dir).text .profileCycle))
    else
      match files.readLines (Path.ofNames dir / "parent") with
      | .error e => some (.error e)
      | .ok lines =>
        (loadParentsBy (below (dir :: chain)) p (Path.ofNames dir) lines).map fun result =>
          result >>= fun inherited => applyNames files inherited dir

/-- Loads a directory with at most `depth` directories nested in each other. -/
def loadDirectoryWithin (files : FileTree) : Nat → List (List String) → Profile → Path →
    Option (Except Error Profile)
  | 0 => fun _ _ _ => none
  | depth + 1 => loadDirectoryBy files (loadDirectoryWithin files depth)

/-- The profile at a path, if loading it nests no deeper than `depth`. -/
def loadWithin (files : FileTree) (depth : Nat) (path : Path) : Option (Except Error Profile) :=
  (loadDirectoryWithin files depth [] empty path).map (Except.map finish)

theorem loadParentsBy_eq {chain : List (List String)}
    {step : Profile → Path → Option (Except Error Profile)}
    (hstep : ∀ p path, step p path = some (loadDirectory files chain p path))
    (p : Profile) (dir : Path) (lines : List String) :
    loadParentsBy step p dir lines = some (loadParents files chain p dir lines) := by
  induction lines generalizing p with
  | nil => rw [loadParentsBy, loadParents]
  | cons line lines ih =>
    rw [loadParentsBy, loadParents, hstep]
    cases loadDirectory files chain p (dir / line) with
    | error e => rfl
    | ok applied => exact ih applied

/-- A chain one longer leaves one place less to come to, so one level less of depth will do. -/
theorem loadDirectoryWithin_eq {depth : Nat} {chain : List (List String)} (p : Profile)
    (path : Path) (h : (files.unvisited chain).length < depth) :
    loadDirectoryWithin files depth chain p path = some (loadDirectory files chain p path) := by
  induction depth generalizing chain p path with
  | zero => omega
  | succ depth ih =>
    rw [loadDirectoryWithin, loadDirectoryBy]
    cases hresolve : files.resolve path with
    | error fault => rw [loadDirectory_of_missing hresolve]
    | ok dir =>
      by_cases hmem : dir ∈ chain
      · rw [loadDirectory_of_mem hresolve hmem]
        exact if_pos (List.contains_iff_mem.mpr hmem)
      · -- the chain grows by a directory that was not on it, so fewer places are left
        have hless := FileTree.length_unvisited_cons_lt
          (FileTree.mem_places_of_resolve hresolve) hmem
        have hstep : ∀ p path, loadDirectoryWithin files depth (dir :: chain) p path =
            some (loadDirectory files (dir :: chain) p path) := fun p path =>
          ih p path (by omega)
        rw [loadDirectory_of_resolve hresolve hmem]
        dsimp only
        rw [if_neg fun h => hmem (List.contains_iff_mem.mp h)]
        cases files.readLines (Path.ofNames dir / "parent") with
        | error e => rfl
        | ok lines =>
          dsimp only
          rw [loadParentsBy_eq hstep]
          rfl

theorem loadWithin_eq {depth : Nat} (h : files.places.length < depth) (path : Path) :
    loadWithin files depth path = some (load files path) := by
  have hunvisited : (files.unvisited []).length ≤ files.places.length := List.length_filter_le _ _
  rw [loadWithin, loadDirectoryWithin_eq empty path (by omega)]
  rfl

/-- Loading as plain recursion, which evaluates. -/
theorem load_eq_getD (files : FileTree) (path : Path) :
    load files path = (loadWithin files (files.places.length + 1) path).getD (.ok empty) := by
  rw [loadWithin_eq (Nat.lt_succ_self _), Option.getD_some]

/-! ## What loading comes to -/

variable {path : Path} {p : Profile}

theorem load_eq_ok_iff : load files path = .ok p ↔
    ∃ applied, loadDirectory files [] empty path = .ok applied ∧ p = applied.finish := by
  rw [load]
  cases loadDirectory files [] empty path with
  | error e =>
    constructor
    · intro h
      cases h
    · rintro ⟨_, h, -⟩
      cases h
  | ok applied =>
    constructor
    · intro h
      cases h
      exact ⟨applied, rfl, rfl⟩
    · rintro ⟨_, h, rfl⟩
      cases h
      rfl

theorem directories_of_foldlM {dirs : List (List String)} {q : Profile}
    (h : dirs.foldlM (applyNames files) p = .ok q) :
    q.directories = p.directories ++ dirs.map Path.ofNames := by
  induction dirs generalizing p with
  | nil =>
    cases h
    exact (List.append_nil _).symm
  | cons dir dirs ih =>
    obtain ⟨applied, hdir, hdirs⟩ := Result.foldlM_cons_eq_ok_iff.mp h
    rw [ih hdirs, directories_of_applyDirectory hdir, List.append_assoc]
    rfl

/-- A loaded profile is its directories, the postorder of its parent tree, applied in turn. -/
theorem exists_parentTree_of_load (h : load files path = .ok p) :
    ∃ dir t applied, files.resolve path = .ok dir ∧ ParentTree.Of files dir t ∧
      p.directories = t.postorder.map Path.ofNames ∧
      t.postorder.foldlM (applyNames files) empty = .ok applied ∧ p = applied.finish := by
  obtain ⟨applied, hload, rfl⟩ := load_eq_ok_iff.mp h
  obtain ⟨dir, t, hdir, ht⟩ := exists_parentTree hload
  have hflat := loadDirectory_eq_foldlM ht [] empty (fun _ h => absurd h List.not_mem_nil) hdir
  rw [hflat] at hload
  exact ⟨dir, t, applied, hdir, ht, directories_of_foldlM hload, hload, rfl⟩

theorem exists_foldlM_applyNames_iff (dirs : List (List String)) (p : Profile) :
    (∃ q, dirs.foldlM (applyNames files) p = .ok q) ↔
      ∀ d ∈ dirs, Readable files (Path.ofNames d) := by
  have hstep : ∀ (p : Profile) (d : List String),
      (∃ q, applyNames files p d = .ok q) ↔ Readable files (Path.ofNames d) := fun p _ =>
    exists_applyDirectory_iff p
  exact Result.exists_foldlM_eq_ok_iff hstep dirs p

/-- A profile loads just when no directory that it reaches is its own ancestor, what their
`parent` files name is there, and their other files can be read. -/
theorem exists_load_iff : (∃ p, load files path = .ok p) ↔
    ∃ dir, files.resolve path = .ok dir ∧ ∀ d, ReflTransGen (Inherits files) dir d →
      ¬ TransGen (Inherits files) d d ∧ ParentsExist files d ∧ Readable files (Path.ofNames d) := by
  constructor
  · rintro ⟨p, h⟩
    obtain ⟨dir, t, applied, hdir, ht, -, hflat, -⟩ := exists_parentTree_of_load h
    have hreadable := (exists_foldlM_applyNames_iff t.postorder empty).mp ⟨applied, hflat⟩
    refine ⟨dir, hdir, fun d hreach => ?_⟩
    obtain ⟨t', ht', -⟩ := ht.exists_tree_of_reached hreach
    exact ⟨ht'.not_transGen, ht'.parentsExist, hreadable d (ht.mem_postorder_iff.mpr hreach)⟩
  · rintro ⟨dir, hdir, h⟩
    obtain ⟨t, ht⟩ := ParentTree.exists_of_acyclic (fun d hreach => ⟨(h d hreach).2.1, (h d hreach).1⟩)
      [] (FileTree.mem_places_of_resolve hdir) .refl fun _ h => absurd h List.not_mem_nil
    have hreadable : ∀ d ∈ t.postorder, Readable files (Path.ofNames d) := fun d hd =>
      (h d (ht.mem_postorder_iff.mp hd)).2.2
    obtain ⟨applied, hflat⟩ := (exists_foldlM_applyNames_iff t.postorder empty).mpr hreadable
    have hload := loadDirectory_eq_foldlM ht [] empty (fun _ h => absurd h List.not_mem_nil) hdir
    exact ⟨applied.finish, load_eq_ok_iff.mpr ⟨applied, hload.trans hflat, rfl⟩⟩

/-- Loading nests no deeper than the tree has places. It succeeds just when the directories that
the profile reaches are there, can be read and are not their own ancestors; the profile is then
its parent tree in postorder, each directory applied in turn to the empty profile. -/
theorem load_terminates_flat (files : FileTree) (path : Path) :
    (∀ depth, files.places.length < depth →
      loadWithin files depth path = some (load files path)) ∧
    ((∃ p, load files path = .ok p) ↔
      ∃ dir, files.resolve path = .ok dir ∧ ∀ d, ReflTransGen (Inherits files) dir d →
        ¬ TransGen (Inherits files) d d ∧ ParentsExist files d ∧
          Readable files (Path.ofNames d)) ∧
    (∀ p, load files path = .ok p →
      ∃ dir t applied, files.resolve path = .ok dir ∧ ParentTree.Of files dir t ∧
        p.directories = t.postorder.map Path.ofNames ∧
        p.directories.foldlM (applyDirectory files) empty = .ok applied ∧ p = applied.finish) := by
  refine ⟨fun depth h => loadWithin_eq h path, exists_load_iff, fun p h => ?_⟩
  obtain ⟨dir, t, applied, hdir, ht, hdirectories, hflat, hfinish⟩ := exists_parentTree_of_load h
  refine ⟨dir, t, applied, hdir, ht, hdirectories, ?_, hfinish⟩
  rw [hdirectories, List.foldlM_map]
  exact hflat

def diamond : FileTree where
  entries := [(["base"], .directory), (["left"], .directory), (["left", "parent"], .text "../base"),
    (["right"], .directory), (["right", "parent"], .text "../left/../base"),
    (["top"], .directory), (["top", "parent"], .text "../left\n../right")]
  workingDirectory := []
  modified := fun _ => 0

theorem load_diamond : diamond.places.length < 9 ∧
    ∃ p applied, load diamond ⟨"/top"⟩ = .ok p ∧
      p.directories = [⟨"/base"⟩, ⟨"/left"⟩, ⟨"/base"⟩, ⟨"/right"⟩, ⟨"/top"⟩] ∧
      p.directories.foldlM (applyDirectory diamond) empty = .ok applied ∧ p = applied.finish := by
  obtain ⟨hdepth, -, hflat⟩ := load_terminates_flat diamond ⟨"/top"⟩
  have hlength : diamond.places.length < 9 := by decide
  have hwithin : (loadWithin diamond 9 ⟨"/top"⟩).map (fun r => r.toOption.map directories) =
      some (some [⟨"/base"⟩, ⟨"/left"⟩, ⟨"/base"⟩, ⟨"/right"⟩, ⟨"/top"⟩]) := by decide +kernel
  rw [hdepth 9 hlength, Option.map_some, Option.some.injEq] at hwithin
  obtain ⟨p, hload, hdirectories⟩ := Result.exists_of_map_toOption hwithin
  obtain ⟨_, _, applied, -, -, -, hfold, hfinish⟩ := hflat p hload
  exact ⟨hlength, p, applied, hload, hdirectories, hfold, hfinish⟩

end Profile

end PackageCatalog
