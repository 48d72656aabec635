import PackageCatalog.Proofs.Result
import PackageCatalog.Repository.Ebuild

/-!
# Opening an ebuild repository

Opening is a chain of readings; `Opened` says what each of them came to.
-/

namespace PackageCatalog.Repository

variable {files : FileTree} {options : EbuildOptions} {r : Repository}

theorem kind_of_tree?_eq_some {tree : EbuildTree} (h : r.tree? = some tree) :
    r.kind = .ebuilds tree := by
  unfold tree? at h
  split at h
  · next hkind =>
    cases h
    exact hkind
  · cases h

def chosenName (files : FileTree) (options : EbuildOptions) : Except Error RepositoryName :=
  match options.name? with
  | some name => pure name
  | none => readName files options.location

def chosenProfile (files : FileTree) (options : EbuildOptions) (profiles : List ProfileListing) :
    Except Error Profile :=
  match options.profile?.or (profiles.head?.map ProfileListing.path) with
  | some path => Profile.load files path
  | none => pure .empty

/-- A profile that is chosen is loaded, or else is that of no directories. -/
theorem of_chosenProfile {profiles : List ProfileListing} {p : Profile}
    (h : chosenProfile files options profiles = .ok p) :
    (∃ path, Profile.load files path = .ok p) ∨ p = .empty := by
  unfold chosenProfile at h
  split at h
  · exact .inl ⟨_, h⟩
  · cases h
    exact .inr rfl

theorem openEbuilds_of_not_directory (h : files.isDirectory options.location = false) :
    openEbuilds files options =
      .error (.badConfig options.location.text .notRepositoryDirectory) := by
  unfold openEbuilds
  exact (if_pos (by rw [h]; rfl)).trans rfl

theorem openEbuilds_of_directory (options : EbuildOptions)
    (h : files.isDirectory options.location = true) :
    openEbuilds files options = (do
      let name ← chosenName files options
      let profiles ← ProfileListing.load files (options.location / "profiles")
      let profile ← chosenProfile files options profiles
      let descriptions ← FlagDescriptions.load files (options.location / "profiles")
      let mirrors ← MirrorList.load files (options.location / "profiles" / "thirdpartymirrors")
      let mask ← MaskList.load files (options.location / "profiles" / "package.mask")
      let index ←
        EbuildTree.Source.index ⟨name, options.location, mask, profile.packageMask⟩ files
      return ⟨name, ebuildKeys options, index, .ebuilds ⟨options.location, options.syncUri?,
        profiles, descriptions, mirrors, mask, profile⟩⟩) := by
  unfold openEbuilds chosenName chosenProfile
  refine (if_neg (by rw [h]; decide)).trans ?_
  cases options.name? <;> dsimp only <;> congr 1 <;> funext name <;> congr 1 <;> funext profiles <;>
    cases options.profile?.or (profiles.head?.map ProfileListing.path) <;> rfl

/-- What an opened repository was read from. -/
structure Opened (files : FileTree) (options : EbuildOptions) (r : Repository)
    (tree : EbuildTree) : Prop where
  isDirectory : files.isDirectory options.location = true
  name : chosenName files options = .ok r.name
  keys : r.keys = ebuildKeys options
  kind : r.kind = .ebuilds tree
  location : tree.location = options.location
  syncUri : tree.syncUri? = options.syncUri?
  profiles : ProfileListing.load files (options.location / "profiles") = .ok tree.profiles
  descriptions :
    FlagDescriptions.load files (options.location / "profiles") = .ok tree.descriptions
  mirrors :
    MirrorList.load files (options.location / "profiles" / "thirdpartymirrors") = .ok tree.mirrors
  mask : MaskList.load files (options.location / "profiles" / "package.mask") = .ok tree.mask
  profile : chosenProfile files options tree.profiles = .ok tree.profile
  index : EbuildTree.Source.index ⟨r.name, options.location, tree.mask, tree.profile.packageMask⟩
    files = .ok r.index

theorem Opened.tree?_eq {tree : EbuildTree} (h : Opened files options r tree) :
    r.tree? = some tree := by
  unfold tree?
  rw [h.kind]

theorem exists_opened (h : openEbuilds files options = .ok r) :
    ∃ tree, Opened files options r tree := by
  cases hdirectory : files.isDirectory options.location with
  | false =>
    rw [openEbuilds_of_not_directory hdirectory] at h
    cases h
  | true =>
    rw [openEbuilds_of_directory options hdirectory] at h
    obtain ⟨name, hname, h⟩ := Result.bind_eq_ok_iff.mp h
    obtain ⟨profiles, hprofiles, h⟩ := Result.bind_eq_ok_iff.mp h
    obtain ⟨profile, hprofile, h⟩ := Result.bind_eq_ok_iff.mp h
    obtain ⟨descriptions, hdescriptions, h⟩ := Result.bind_eq_ok_iff.mp h
    obtain ⟨mirrors, hmirrors, h⟩ := Result.bind_eq_ok_iff.mp h
    obtain ⟨mask, hmask, h⟩ := Result.bind_eq_ok_iff.mp h
    obtain ⟨index, hindex, h⟩ := Result.bind_eq_ok_iff.mp h
    cases h
    exact ⟨_, hdirectory, hname, rfl, rfl, rfl, rfl, hprofiles, hdescriptions, hmirrors, hmask,
      hprofile, hindex⟩

end PackageCatalog.Repository
