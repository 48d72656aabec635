import PackageCatalog.Proofs.Profile.Masks
import PackageCatalog.Proofs.Repository.Keys
import PackageCatalog.Proofs.Repository.Provenance
import PackageCatalog.Proofs.Repository.Switching

/-!
# The masks of an ebuild

An ID carries at most one mask because it cannot be used, then one if the masks of the repository
describe it, and one if those of the profile do (`EbuildTree.Source.exists_masks_buildId`). Two keys
say where these masks were written, whatever the cache entry calls its variables
(`EbuildTree.Source.maskedBy_buildId`). A repository that is switched to another profile builds its
IDs anew, so they agree in every state (`Repository.exists_tree_run`).
-/

namespace PackageCatalog

/-! ## What masks and keys say -/

namespace MaskList

/-- Whether a mask describes an ID does not depend on what an ebuild is decorated with last. -/
theorem find?_addMasks (list mask profileMask : MaskList) (id : PackageId) :
    list.find? (EbuildTree.addMasks mask profileMask id) = list.find? id := by
  unfold EbuildTree.addMasks
  dsimp only
  split <;> split <;> rfl

theorem isSome_find?_iff {list : MaskList} {id : PackageId} :
    (list.find? id).isSome = true ↔ ∃ e ∈ list.entries, e.atom.describes id = true := by
  rw [find?, Option.isSome_map, List.find?_isSome]

end MaskList

namespace PackageId

/-- The masks of one kind and the key of a name agree on the masks in a list: there is one just if
the key tells of one, and just if one in the list describes the ID. It is the first that does. -/
structure AgreesOn (id : PackageId) (letter : Char) (name : String) (list : MaskList) : Prop where
  value : (id.key? name).map Metadata.Key.value = some (.ok (.maskInfo (list.find? id)))
  iff_key : (∃ m ∈ id.masks, m.key = letter) ↔
    ∃ info, (id.key? name).map Metadata.Key.value = some (.ok (.maskInfo (some info)))
  iff_entry : (∃ m ∈ id.masks, m.key = letter) ↔ ∃ e ∈ list.entries, e.atom.describes id = true
  first : ∀ m ∈ id.masks, m.key = letter → ∃ before e after, list.entries = before ++ e :: after ∧
    e.atom.describes id = true ∧ (∀ earlier ∈ before, earlier.atom.describes id = false) ∧
    m.info? = some e.info ∧
    (id.key? name).map Metadata.Key.value = some (.ok (.maskInfo (some e.info)))
  once : (id.masks.filter (·.key = letter)).length ≤ 1

variable {id : PackageId} {letter : Char} {name : String} {list : MaskList}

/-- It is enough that the masks of the kind and the key are both made of what is found. -/
theorem AgreesOn.of_filter (wrap : MaskInfo → Mask)
    (hmasks : id.masks.filter (·.key = letter) = ((list.find? id).map wrap).toList)
    (hinfo : ∀ info, (wrap info).info? = some info)
    (hvalue : (id.key? name).map Metadata.Key.value = some (.ok (.maskInfo (list.find? id)))) :
    id.AgreesOn letter name list := by
  have hmem (m : Mask) : m ∈ id.masks ∧ m.key = letter ↔ ∃ info, list.find? id = some info ∧
      wrap info = m := by
    have hfilter : m ∈ id.masks ∧ m.key = letter ↔ m ∈ id.masks.filter (·.key = letter) := by
      simp
    rw [hfilter, hmasks, Option.mem_toList, Option.map_eq_some_iff]
  have hsome : (∃ m ∈ id.masks, m.key = letter) ↔ (list.find? id).isSome = true := by
    rw [Option.isSome_iff_exists]
    constructor
    · rintro ⟨m, hm⟩
      obtain ⟨info, hfind, -⟩ := (hmem m).mp hm
      exact ⟨info, hfind⟩
    · rintro ⟨info, hfind⟩
      exact ⟨wrap info, (hmem _).mpr ⟨info, hfind, rfl⟩⟩
  refine ⟨hvalue, ?_, hsome.trans MaskList.isSome_find?_iff, fun m hm hkey => ?_, ?_⟩
  · rw [hsome, hvalue, Option.isSome_iff_exists]
    simp
  · obtain ⟨info, hfind, rfl⟩ := (hmem m).mp ⟨hm, hkey⟩
    obtain ⟨before, e, after, hentries, rfl, hdescribes, hbefore⟩ :=
      MaskList.find?_eq_some_iff.mp hfind
    exact ⟨before, e, after, hentries, hdescribes, hbefore, hinfo e.info, by rw [hvalue, hfind]⟩
  · rw [hmasks]
    cases list.find? id <;> simp

/-- The masks of an ID are those that two lists give it, behind at most one mask because it cannot
be used, and its keys agree with them. -/
structure MaskedBy (id : PackageId) (mask profileMask : MaskList) : Prop where
  masks : ∃ reason? : Option String, id.masks = (reason?.map Mask.unsupported).toList ++
    ((mask.find? id).map .repository).toList ++ ((profileMask.find? id).map .profile).toList
  repository : id.AgreesOn 'R' "repository_mask" mask
  profile : id.AgreesOn 'P' "profile_mask" profileMask

end PackageId

/-! ## One ebuild -/

namespace EbuildTree

open Metadata

variable {s : Source} {files : FileTree} {n : QualifiedName} {v : Version}

theorem masks_foldl_addVariable (entry : CacheEntry) (eapi? : Option Eapi)
    (values : List (String × String)) (id : PackageId) :
    (values.foldl (addVariable entry eapi?) id).masks = id.masks := by
  induction values generalizing id with
  | nil => rfl
  | cons v values ih =>
    rw [List.foldl_cons, ih, addVariable_eq]
    split <;> rfl

/-- A cache entry adds a mask only for an unknown EAPI. -/
theorem masks_addEntry (id : PackageId) (entry : CacheEntry) :
    ∃ reason? : Option String,
      (addEntry id entry).masks = id.masks ++ (reason?.map Mask.unsupported).toList := by
  unfold addEntry
  dsimp only
  cases (Eapi.ofMetadata (eapiText entry)).toOption with
  | some eapi =>
    refine ⟨none, ?_⟩
    split <;> cases entry.slot <;>
      simp [PackageId.withKey, PackageId.withSlot, masks_foldl_addVariable]
  | none =>
    refine ⟨some s!"Unsupported EAPI '{eapiText entry}'", ?_⟩
    split <;> cases entry.slot <;>
      simp [PackageId.withKey, PackageId.withSlot, PackageId.withMask, masks_foldl_addVariable,
        Mask.unsupportedEapi]

theorem masks_addMasks (mask profileMask : MaskList) (id : PackageId) :
    (addMasks mask profileMask id).masks = id.masks ++
      ((mask.find? id).map .repository).toList ++ ((profileMask.find? id).map .profile).toList := by
  unfold addMasks
  dsimp only
  cases mask.find? id <;> cases profileMask.find? id <;>
    simp [PackageId.withKey, PackageId.withMask]

namespace Source

/-- At most one mask says that the ID cannot be used; those of the repository and the profile
follow. -/
theorem exists_masks_buildId (s : Source) (files : FileTree) (n : QualifiedName) (v : Version) :
    ∃ reason? : Option String, (s.buildId files n v).masks = (reason?.map Mask.unsupported).toList ++
      ((s.mask.find? (s.buildId files n v)).map .repository).toList ++
      ((s.profileMask.find? (s.buildId files n v)).map .profile).toList := by
  unfold buildId
  dsimp only
  rw [masks_addMasks, MaskList.find?_addMasks, MaskList.find?_addMasks]
  cases CacheEntry.load files (s.cachePath n v) with
  | ok entry =>
    obtain ⟨reason?, hreason⟩ :=
      masks_addEntry ((PackageId.bare n v s.repository).withActions Action.ofEbuilds) entry
    refine ⟨reason?, ?_⟩
    dsimp only [PackageId.withKey]
    rw [hreason]
    rfl
  | error e => exact ⟨some "No usable metadata cache entry", rfl⟩

/-- The two keys of masks take the place of variables of their names. -/
theorem value_maskKeys_buildId (s : Source) (files : FileTree) (n : QualifiedName) (v : Version) :
    ((s.buildId files n v).key? "repository_mask").map Key.value =
        some (.ok (.maskInfo (s.mask.find? (s.buildId files n v)))) ∧
      ((s.buildId files n v).key? "profile_mask").map Key.value =
        some (.ok (.maskInfo (s.profileMask.find? (s.buildId files n v)))) := by
  unfold buildId
  dsimp only
  rw [key?_addMasks, key?_addMasks, MaskList.find?_addMasks, MaskList.find?_addMasks]
  exact ⟨rfl, rfl⟩

theorem maskedBy_buildId (s : Source) (files : FileTree) (n : QualifiedName) (v : Version) :
    (s.buildId files n v).MaskedBy s.mask s.profileMask := by
  obtain ⟨reason?, hmasks⟩ := s.exists_masks_buildId files n v
  obtain ⟨hrepository, hprofile⟩ := s.value_maskKeys_buildId files n v
  generalize hid : s.buildId files n v = id at *
  refine ⟨⟨reason?, hmasks⟩, .of_filter .repository ?_ (fun _ => rfl) hrepository,
    .of_filter .profile ?_ (fun _ => rfl) hprofile⟩
  · rw [hmasks]
    cases reason? <;> cases s.mask.find? id <;> cases s.profileMask.find? id <;> rfl
  · rw [hmasks]
    cases reason? <;> cases s.mask.find? id <;> cases s.profileMask.find? id <;> rfl

end Source

end EbuildTree

/-! ## Every state -/

namespace Repository

variable {files : FileTree} {options : EbuildOptions} {r : Repository}

/-- The file tree that the present profile and index were read from. -/
def Switching.filesRead (s : Switching) (files : FileTree) : FileTree :=
  (s.accepted?.map Prod.fst).getD files

/-- The profile that the last accepted request asks for, or else the one chosen on opening. -/
def Switching.loadProfile (s : Switching) (files : FileTree) (options : EbuildOptions)
    (profiles : List ProfileListing) : Except Error Profile :=
  match s.accepted? with
  | none => chosenProfile files options profiles
  | some request => Profile.load request.1 request.2

/-- The present profile was loaded from the tree that was read last, or is that of no directories. -/
theorem Switching.of_loadProfile {s : Switching} {profiles : List ProfileListing} {p : Profile}
    (h : s.loadProfile files options profiles = .ok p) :
    (∃ path, Profile.load (s.filesRead files) path = .ok p) ∨ p = .empty := by
  unfold loadProfile at h
  unfold filesRead
  split at h
  · next hnone =>
    rw [hnone]
    exact of_chosenProfile h
  · next request hsome =>
    rw [hsome]
    exact .inl ⟨request.2, h⟩

/-- The profile and the index of a switched repository are those of its last accepted request;
the masks of the repository are those read on opening. -/
theorem exists_tree_run (h : openEbuilds files options = .ok r)
    (requests : List (FileTree × Path)) :
    let s := Switching.run r requests
    ∃ tree, s.repository.tree? = some tree ∧
      MaskList.load files (options.location / "profiles" / "package.mask") = .ok tree.mask ∧
      s.loadProfile files options tree.profiles = .ok tree.profile ∧
      EbuildTree.Source.index ⟨r.name, options.location, tree.mask, tree.profile.packageMask⟩
        (s.filesRead files) = .ok s.repository.index := by
  intro s
  obtain ⟨tree, hopened⟩ := exists_opened h
  have haccounted := Switching.accountedFor_run hopened.tree?_eq requests
  unfold Switching.AccountedFor at haccounted
  unfold Switching.filesRead Switching.loadProfile
  split at haccounted
  · next hnone =>
    rw [hnone, haccounted]
    exact ⟨tree, hopened.tree?_eq, hopened.mask, hopened.profile, hopened.index⟩
  · next request hsome =>
    obtain ⟨profile, index, hprofile, hindex, hr⟩ := setProfile_eq_ok_iff.mp haccounted
    rw [hopened.location] at hindex
    rw [hsome, hr]
    exact ⟨_, rfl, hopened.mask, hprofile, hindex⟩

/-- The masks of a profile are those of the directories it was read from. -/
theorem Switching.packageMask_of_loadProfile {s : Switching} {profiles : List ProfileListing}
    {profile : Profile} (h : s.loadProfile files options profiles = .ok profile) :
    profile.packageMask =
      MaskList.empty.applyAll (Profile.maskFiles (s.filesRead files) profile.directories) := by
  obtain ⟨path, hload⟩ | rfl := of_loadProfile h
  · exact Profile.packageMask_of_load hload
  · rfl

/-- In every state of an opened repository, the masks of an ID and its two keys of masks say what
the masks of the repository and those of the present profile say of it. -/
theorem masks_agree_with_keys (h : openEbuilds files options = .ok r)
    (requests : List (FileTree × Path)) :
    let s := Switching.run r requests
    ∃ tree, s.repository.tree? = some tree ∧
      MaskList.load files (options.location / "profiles" / "package.mask") = .ok tree.mask ∧
      s.loadProfile files options tree.profiles = .ok tree.profile ∧
      tree.profile.packageMask = MaskList.empty.applyAll
        (Profile.maskFiles (s.filesRead files) tree.profile.directories) ∧
      ∀ id ∈ s.repository.ids, id.MaskedBy tree.mask tree.profile.packageMask := by
  intro s
  obtain ⟨tree, htree, hmask, hprofile, hindex⟩ := exists_tree_run h requests
  refine ⟨tree, htree, hmask, hprofile, Switching.packageMask_of_loadProfile hprofile,
    fun id hid => ?_⟩
  have hmasked : s.repository.index.WellFormed
      fun id => id.MaskedBy tree.mask tree.profile.packageMask :=
    EbuildTree.Source.wellFormed_index (EbuildTree.Source.maskedBy_buildId _ _) hindex
  exact of_mem_ids hmasked hid

/-- A repository that masks its only package, whose cache entry has an EAPI that is not known and
variables with the names of the two keys, and beside it two profiles, of which one masks the
package too. -/
def masksEverywhere : FileTree where
  entries := [(["r"], .directory), (["r", "profiles"], .directory),
    (["r", "profiles", "categories"], .text "app"),
    (["r", "profiles", "package.mask"], .text "# broken\napp/kit"),
    (["r", "app"], .directory), (["r", "app", "kit"], .directory),
    (["r", "app", "kit", "kit-1.ebuild"], .text ""), (["r", "metadata"], .directory),
    (["r", "metadata", "md5-cache"], .directory), (["r", "metadata", "md5-cache", "app"], .directory),
    (["r", "metadata", "md5-cache", "app", "kit-1"],
      .text "DESCRIPTION=x\nSLOT=0\nEAPI=99\nrepository_mask=y\nprofile_mask=z"),
    (["one"], .directory), (["two"], .directory), (["two", "package.mask"], .text "app/kit")]
  workingDirectory := []
  modified := fun _ => 0

def maskLetters (r : Repository) : List (List Char) := r.ids.map fun id => id.masks.map Mask.key

theorem maskLetters_masksEverywhere :
    (openEbuilds masksEverywhere (startingAt "/one")).toOption.map maskLetters =
      some [['E', 'R']] ∧
    (openEbuilds masksEverywhere (startingAt "/two")).toOption.map maskLetters =
      some [['E', 'R', 'P']] := by
  have hdirectory : masksEverywhere.isDirectory ⟨"/r"⟩ = true := by decide +kernel
  rw [openEbuilds_of_directory (startingAt "/one") hdirectory,
    openEbuilds_of_directory (startingAt "/two") hdirectory]
  simp only [chosenProfile, Profile.load_eq_getD]
  decide +kernel

/-- The profile that is switched to adds its mask to that of the repository. -/
theorem maskedBy_both_after_switch : ∃ r, openEbuilds masksEverywhere (startingAt "/one") = .ok r ∧
    r.maskLetters = [['E', 'R']] ∧
    ∃ tree, (Switching.run r [(masksEverywhere, ⟨"/two"⟩)]).repository.tree? = some tree ∧
      (Switching.run r [(masksEverywhere, ⟨"/two"⟩)]).repository.maskLetters = [['E', 'R', 'P']] ∧
      ∀ id ∈ (Switching.run r [(masksEverywhere, ⟨"/two"⟩)]).repository.ids,
        id.MaskedBy tree.mask tree.profile.packageMask := by
  obtain ⟨hone, htwo⟩ := maskLetters_masksEverywhere
  obtain ⟨r, hr, hletters⟩ := Result.exists_of_map_toOption hone
  obtain ⟨r₂, hr₂, hletters₂⟩ := Result.exists_of_map_toOption htwo
  obtain ⟨tree, htree, -, -, -, hmasked⟩ :=
    masks_agree_with_keys hr [(masksEverywhere, ⟨"/two"⟩)]
  have hswitched : (Switching.run r [(masksEverywhere, ⟨"/two"⟩)]).repository = r₂ := by
    obtain ⟨tree₁, hopened⟩ := exists_opened hr
    have hset := (setProfile_eq_openEbuilds hr hopened.tree?_eq ⟨"/two"⟩).trans hr₂
    unfold Switching.run
    rw [List.foldl_cons, List.foldl_nil, Switching.take, hopened.tree?_eq]
    dsimp only
    rw [hset]
  exact ⟨r, hr, hletters, tree, htree, by rw [hswitched]; exact hletters₂, hmasked⟩

end Repository

end PackageCatalog
