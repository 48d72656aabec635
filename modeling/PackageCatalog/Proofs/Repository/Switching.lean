import PackageCatalog.Proofs.Profile.Load
import PackageCatalog.Proofs.Repository.Opening

/-!
# Switching profiles

Switching an opened repository to another profile gives what opening it afresh with that profile
gives (`setProfile_eq_openEbuilds`), errors included. Over a run of requests
(`Switching.run`) the repository is therefore always the one that its last accepted profile
alone accounts for, whatever was asked for and refused in between.
-/

namespace PackageCatalog.Repository

variable {files : FileTree} {options : EbuildOptions} {r r' : Repository} {tree : EbuildTree}

theorem setProfile_eq_ok_iff {path : Path} :
    r.setProfile files tree path = .ok r' ↔
      ∃ profile index, Profile.load files path = .ok profile ∧
        EbuildTree.Source.index ⟨r.name, tree.location, tree.mask, profile.packageMask⟩ files =
          .ok index ∧
        r' = { r with index := index, kind := .ebuilds { tree with profile := profile } } := by
  constructor
  · intro h
    obtain ⟨profile, hprofile, h⟩ := Result.bind_eq_ok_iff.mp h
    obtain ⟨index, hindex, h⟩ := Result.bind_eq_ok_iff.mp h
    cases h
    exact ⟨profile, index, hprofile, hindex, rfl⟩
  · rintro ⟨profile, index, hprofile, hindex, rfl⟩
    unfold setProfile
    rw [hprofile]
    dsimp only [bind, Except.bind]
    rw [hindex]
    rfl

/-- What a repository is switched to does not depend on the profile that it had. -/
theorem setProfile_setProfile {files' : FileTree} {path path' : Path} {tree' : EbuildTree}
    (h : r.setProfile files tree path = .ok r') (htree : r'.tree? = some tree') :
    r'.setProfile files' tree' path' = r.setProfile files' tree path' := by
  obtain ⟨profile, index, -, -, rfl⟩ := setProfile_eq_ok_iff.mp h
  cases htree
  rfl

/-- The profile aside, everything that opening reads is in the opened repository already. -/
theorem Opened.openEbuilds_with (h : Opened files options r tree) (path : Path) :
    openEbuilds files { options with profile? := some path } = r.setProfile files tree path := by
  obtain ⟨location, syncUri?, profiles, descriptions, mirrors, mask, profile⟩ := tree
  obtain ⟨name, keys, index, kind⟩ := r
  obtain ⟨hdirectory, hname, rfl, rfl, rfl, rfl, hprofiles, hdescriptions, hmirrors, hmask, -, -⟩ := h
  rw [openEbuilds_of_directory { options with profile? := some path } hdirectory, setProfile]
  dsimp only at hname hprofiles hdescriptions hmirrors hmask ⊢
  -- a name that was given does not depend on the profile, nor does one that is read
  have hname' : chosenName files { options with profile? := some path } = .ok name := hname
  rw [hname', hprofiles, hdescriptions, hmirrors, hmask]
  rfl

theorem setProfile_eq_openEbuilds (h : openEbuilds files options = .ok r)
    (htree : r.tree? = some tree) (path : Path) :
    r.setProfile files tree path = openEbuilds files { options with profile? := some path } := by
  obtain ⟨tree', hopened⟩ := exists_opened h
  have hkind := kind_of_tree?_eq_some htree
  rw [hopened.kind] at hkind
  cases hkind
  exact (hopened.openEbuilds_with path).symm

/-! ## Runs of requests -/

/-- A repository and, of the requests to switch it, the last that it accepted. -/
structure Switching where
  repository : Repository
  accepted? : Option (FileTree × Path)

namespace Switching

/-- Takes in a request: to switch to the profile at a path, as the file tree now is. -/
def take (s : Switching) (request : FileTree × Path) : Switching :=
  match s.repository.tree? with
  | none => s
  | some tree =>
    match s.repository.setProfile request.1 tree request.2 with
    | .ok r => ⟨r, some request⟩
    | .error _ => s

def run (r : Repository) (requests : List (FileTree × Path)) : Switching :=
  requests.foldl take ⟨r, none⟩

end Switching

/-- A repository refuses a request if the profile or the index cannot be read. -/
def Refuses (r : Repository) (request : FileTree × Path) : Prop :=
  ∃ tree e, r.tree? = some tree ∧ r.setProfile request.1 tree request.2 = .error e

namespace Switching

/-- The repository is what the last accepted request makes of `r`. -/
def AccountedFor (r : Repository) (tree : EbuildTree) (s : Switching) : Prop :=
  match s.accepted? with
  | none => s.repository = r
  | some request => r.setProfile request.1 tree request.2 = .ok s.repository

theorem AccountedFor.setProfile {s : Switching} (htree : r.tree? = some tree)
    (h : AccountedFor r tree s) : ∃ tree', s.repository.tree? = some tree' ∧
      ∀ files path, s.repository.setProfile files tree' path = r.setProfile files tree path := by
  unfold AccountedFor at h
  split at h
  · rw [h]
    exact ⟨tree, htree, fun _ _ => rfl⟩
  · obtain ⟨profile, index, -, -, hresult⟩ := setProfile_eq_ok_iff.mp h
    have htree' : s.repository.tree? = some { tree with profile := profile } := by
      rw [hresult]
      rfl
    exact ⟨_, htree', fun _ _ => setProfile_setProfile h htree'⟩

theorem AccountedFor.take {s : Switching} (htree : r.tree? = some tree)
    (h : AccountedFor r tree s) (request : FileTree × Path) :
    AccountedFor r tree (s.take request) := by
  obtain ⟨tree', htree', hset⟩ := h.setProfile htree
  unfold Switching.take
  rw [htree']
  dsimp only
  rw [hset]
  cases haccepted : r.setProfile request.1 tree request.2 with
  | error e => exact h
  | ok r' => exact haccepted

/-- Whatever was asked for, the last accepted request alone accounts for the repository. -/
theorem accountedFor_run (htree : r.tree? = some tree) (requests : List (FileTree × Path)) :
    AccountedFor r tree (run r requests) := by
  have hrun : ∀ s, AccountedFor r tree s → AccountedFor r tree (requests.foldl Switching.take s) := by
    induction requests with
    | nil => exact fun s h => h
    | cons request requests ih => exact fun s h => ih _ (h.take htree request)
  exact hrun ⟨r, none⟩ rfl

theorem accepted?_take_eq_some {s : Switching} {request q : FileTree × Path}
    (h : (s.take request).accepted? = some q) : q = request ∨ s.accepted? = some q := by
  unfold take at h
  split at h
  · exact .inr h
  · split at h
    · exact .inl (Option.some.inj h).symm
    · exact .inr h

theorem mem_of_accepted? {requests : List (FileTree × Path)} {s : Switching}
    {q : FileTree × Path} (h : (requests.foldl Switching.take s).accepted? = some q) :
    q ∈ requests ∨ s.accepted? = some q := by
  induction requests generalizing s with
  | nil => exact .inr h
  | cons request requests ih =>
    rcases ih h with hmem | hnow
    · exact .inl (List.mem_cons_of_mem _ hmem)
    · rcases accepted?_take_eq_some hnow with rfl | hbefore
      · exact .inl List.mem_cons_self
      · exact .inr hbefore

/-- Over one file tree, the accepted requests concern it. -/
theorem accepted?_run_of_unchanged (files : FileTree) (paths : List Path) :
    (run r (paths.map fun path => (files, path))).accepted? = none ∨
      ∃ path, (run r (paths.map fun path => (files, path))).accepted? = some (files, path) := by
  cases haccepted : (run r (paths.map fun path => (files, path))).accepted? with
  | none => exact .inl rfl
  | some q =>
    rcases mem_of_accepted? haccepted with hmem | hnone
    · obtain ⟨path, -, rfl⟩ := List.mem_map.mp hmem
      exact .inr ⟨path, rfl⟩
    · cases hnone

theorem take_of_refuses {s : Switching} {request : FileTree × Path}
    (h : s.repository.Refuses request) : s.take request = s := by
  obtain ⟨tree, e, htree, hset⟩ := h
  unfold take
  rw [htree]
  dsimp only
  rw [hset]

/-- A refused request leaves no trace in a run. -/
theorem run_of_refuses {before after : List (FileTree × Path)} {request : FileTree × Path}
    (h : (run r before).repository.Refuses request) :
    run r (before ++ request :: after) = run r (before ++ after) := by
  unfold run at h ⊢
  rw [List.foldl_append, List.foldl_append, List.foldl_cons, take_of_refuses h]

end Switching

/-- After requests over an unchanged file tree the repository is the one that is opened with the
last accepted profile, or with the first one if none was accepted. A refused request leaves no
trace, nor does any but the last accepted one, however the file tree changes in between. -/
theorem run_eq_openEbuilds (h : openEbuilds files options = .ok r) :
    (∀ paths : List Path,
      let s := Switching.run r (paths.map fun path => (files, path))
      openEbuilds files
          { options with profile? := (s.accepted?.map Prod.snd).or options.profile? } =
        .ok s.repository) ∧
    (∀ before request after, (Switching.run r before).repository.Refuses request →
      (Switching.run r (before ++ [request])).repository = (Switching.run r before).repository ∧
      Switching.run r (before ++ request :: after) = Switching.run r (before ++ after)) ∧
    (∃ tree, r.tree? = some tree ∧
      ∀ requests, Switching.AccountedFor r tree (Switching.run r requests)) := by
  obtain ⟨tree, hopened⟩ := exists_opened h
  have htree : r.tree? = some tree := by
    unfold tree?
    rw [hopened.kind]
  refine ⟨fun paths => ?_, fun before request after hrefuses => ?_,
    tree, htree, Switching.accountedFor_run htree⟩
  · have haccounted := Switching.accountedFor_run htree (paths.map fun path => (files, path))
    unfold Switching.AccountedFor at haccounted
    dsimp only
    rcases Switching.accepted?_run_of_unchanged (r := r) files paths with hnone | ⟨path, hsome⟩
    · rw [hnone] at haccounted ⊢
      rw [haccounted]
      exact h
    · rw [hsome] at haccounted ⊢
      rw [← haccounted]
      exact (setProfile_eq_openEbuilds h htree path).symm
  · have hlast : Switching.run r (before ++ [request]) = Switching.run r (before ++ []) :=
      Switching.run_of_refuses hrefuses
    rw [List.append_nil] at hlast
    exact ⟨congrArg Switching.repository hlast, Switching.run_of_refuses hrefuses⟩

/-- A repository, and beside it a profile without parents, one with, and one that is its own
ancestor. -/
def threeProfiles : FileTree where
  entries := [(["r"], .directory), (["r", "profiles"], .directory),
    (["r", "profiles", "categories"], .text "app"), (["one"], .directory), (["two"], .directory),
    (["two", "parent"], .text "../one"), (["two", "packages"], .text "*app/kit"),
    (["loop"], .directory), (["loop", "parent"], .text "../two\n../loop")]
  workingDirectory := []
  modified := fun _ => 0

def startingAt (profile : String) : EbuildOptions :=
  { EbuildOptions.at ⟨"/r"⟩ with profile? := some ⟨profile⟩ }

theorem isSome_openEbuilds_threeProfiles :
    (openEbuilds threeProfiles (startingAt "/one")).toOption.isSome = true ∧
    (openEbuilds threeProfiles (startingAt "/two")).toOption.isSome = true ∧
    (openEbuilds threeProfiles (startingAt "/loop")).toOption.isSome = false := by
  have hdirectory : threeProfiles.isDirectory ⟨"/r"⟩ = true := by decide +kernel
  rw [openEbuilds_of_directory (startingAt "/one") hdirectory,
    openEbuilds_of_directory (startingAt "/two") hdirectory,
    openEbuilds_of_directory (startingAt "/loop") hdirectory]
  simp only [chosenProfile, Profile.load_eq_getD]
  decide +kernel

theorem run_two_then_loop : ∃ r, openEbuilds threeProfiles (startingAt "/one") = .ok r ∧
    openEbuilds threeProfiles (startingAt "/two") =
      .ok (Switching.run r [(threeProfiles, ⟨"/two"⟩), (threeProfiles, ⟨"/loop"⟩)]).repository := by
  obtain ⟨hone, htwo, hloop⟩ := isSome_openEbuilds_threeProfiles
  obtain ⟨r, hr⟩ := Result.exists_ok_of_isSome hone
  obtain ⟨r₂, hr₂⟩ := Result.exists_ok_of_isSome htwo
  obtain ⟨e, he⟩ := Result.exists_error_of_isSome hloop
  obtain ⟨hfresh, -, tree, htree, -⟩ := run_eq_openEbuilds hr
  have hset : r.setProfile threeProfiles tree ⟨"/two"⟩ = .ok r₂ :=
    (setProfile_eq_openEbuilds hr htree ⟨"/two"⟩).trans hr₂
  have htake : (⟨r, none⟩ : Switching).take (threeProfiles, ⟨"/two"⟩) =
      ⟨r₂, some (threeProfiles, ⟨"/two"⟩)⟩ := by
    unfold Switching.take
    rw [htree]
    dsimp only
    rw [hset]
  have hrefuses : r₂.Refuses (threeProfiles, ⟨"/loop"⟩) := by
    have haccounted : Switching.AccountedFor r tree ⟨r₂, some (threeProfiles, ⟨"/two"⟩)⟩ := hset
    obtain ⟨tree₂, htree₂, hagain⟩ := haccounted.setProfile htree
    exact ⟨tree₂, e, htree₂,
      (hagain _ _).trans ((setProfile_eq_openEbuilds hr htree ⟨"/loop"⟩).trans he)⟩
  have hrun : Switching.run r [(threeProfiles, ⟨"/two"⟩), (threeProfiles, ⟨"/loop"⟩)] =
      ⟨r₂, some (threeProfiles, ⟨"/two"⟩)⟩ := by
    unfold Switching.run
    rw [List.foldl_cons, htake]
    exact Switching.take_of_refuses hrefuses
  have hopen := hfresh [⟨"/two"⟩, ⟨"/loop"⟩]
  simp only [List.map_cons, List.map_nil, hrun] at hopen
  exact ⟨r, hr, by rw [hrun]; exact hopen⟩

end PackageCatalog.Repository
