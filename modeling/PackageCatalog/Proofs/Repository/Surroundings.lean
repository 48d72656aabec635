import PackageCatalog.Proofs.FileTree
import PackageCatalog.Proofs.Profile.Directory
import PackageCatalog.Proofs.Profile.ParentTree
import PackageCatalog.Proofs.Repository.Opening

/-!
# What surrounds the index

Opening an ebuild repository reads its name, profiles, descriptions, mirrors and masks
(`Repository.readTree`), and then fills the index. The former takes files of certain names only
(`EbuildTree.isLookedFor`). Two trees from which these are read alike, in the sense of a relation
that chains of results keep, have surroundings that are so related (`ReadsAlike.readTree`). Trees
that are alike outside places of other names have the same surroundings, if they have any
(`FileTree.Alike.reads`), and if no name comes or goes, the same errors as well
(`FileTree.Rewrites.reads`).
-/

namespace PackageCatalog

namespace EbuildTree

/-- Whether a file of a repository or a profile is looked for under a name. -/
def isLookedFor (name : String) : Bool :=
  (["repo_name", "categories", "thirdpartymirrors", "parent"] ++ Profile.fileNames).contains name ||
    ".desc".toList.isSuffixOf name.toList

theorem isStep_of_suffix {tail : List Char} {y : String} (htail : 2 < tail.length)
    (hslash : '/' ∉ y.toList) (h : tail <:+ y.toList) : Path.isStep y = true := by
  have hlength := h.length_le
  refine Path.isStep_iff.mpr ⟨?_, ?_, ?_, hslash⟩ <;> rintro rfl
  · exact absurd (htail.trans_le hlength) (by decide)
  · exact absurd (htail.trans_le hlength) (by decide)
  · exact absurd (htail.trans_le hlength) (by decide)

/-- A path to a name that is looked for ends in a piece that is. -/
theorem exists_getLast?_of_isLookedFor (base : Path) {name : String} (h : isLookedFor name = true) :
    ∃ y, (base / name).pieces.getLast? = some y ∧ Path.isStep y = true ∧ isLookedFor y = true := by
  rw [Path.getLast?_pieces_join]
  rw [isLookedFor, Bool.or_eq_true] at h
  rcases h with h | h
  · have hstep : Path.isStep name = true := by
      have hall : ∀ x ∈ ["repo_name", "categories", "thirdpartymirrors", "parent"] ++
          Profile.fileNames, Path.isStep x = true := by decide
      exact hall name (List.contains_iff_mem.mp h)
    refine ⟨name, ?_, hstep, by rw [isLookedFor, h, Bool.true_or]⟩
    rw [Path.splitAll_of_isStep hstep]
    rfl
  · have hdesc : '/' ∉ ".desc".toList := by decide
    obtain ⟨y, hy, hslash, htail⟩ :=
      Path.exists_getLast?_splitAll hdesc (List.isSuffixOf_iff_suffix.mp h)
    refine ⟨y, hy, isStep_of_suffix (by decide) hslash htail, ?_⟩
    rw [isLookedFor, List.isSuffixOf_iff_suffix.mpr htail, Bool.or_true]

end EbuildTree

open EbuildTree

/-! ## Reading two trees -/

/-- Elements that change nothing may be left out of a fold. -/
theorem Result.foldlM_filter {ε α β : Type} {f : β → α → Except ε β} {p : α → Bool}
    (hf : ∀ b a, p a = false → f b a = .ok b) (xs : List α) (b : β) :
    (xs.filter p).foldlM f b = xs.foldlM f b := by
  induction xs generalizing b with
  | nil => rfl
  | cons x xs ih =>
    cases hx : p x with
    | true =>
      rw [List.filter_cons_of_pos hx, List.foldlM_cons, List.foldlM_cons]
      exact Result.bind_congr_of_ok fun b' _ => ih b'
    | false =>
      rw [List.filter_cons_of_neg (Bool.not_eq_true _ ▸ hx), List.foldlM_cons, hf b x hx]
      exact ih b

namespace Profile

def findDirectory (files : FileTree) (path : Path) : Except Error (List String) :=
  match files.resolve path with
  | .ok dir => .ok dir
  | .error _ => .error (.noSuchProfile path.text)

/-- Loading a directory as one chain of results. -/
theorem loadDirectory_eq (files : FileTree) (chain : List (List String)) (p : Profile)
    (path : Path) : loadDirectory files chain p path = (do
      let dir ← findDirectory files path
      if dir ∈ chain then .error (.badConfig (Path.ofNames dir).text .profileCycle)
      else
        let lines ← files.readLines (Path.ofNames dir / "parent")
        let inherited ← loadParents files (dir :: chain) p (Path.ofNames dir) lines
        applyNames files inherited dir) := by
  unfold findDirectory
  cases hdir : files.resolve path with
  | error fault => exact loadDirectory_of_missing hdir
  | ok dir =>
    dsimp only [bind, Except.bind]
    split
    · next hmem => exact loadDirectory_of_mem hdir hmem
    · next hnew => exact loadDirectory_of_resolve hdir hnew

/-- Parents are loaded alike if directories are. -/
theorem loadParents_related {R : (α : Type) → Except Error α → Except Error α → Prop}
    {files files' : FileTree} (hR : Result.Congruence R) {chain : List (List String)} {dir : Path}
    (hload : ∀ p path, R _ (loadDirectory files chain p path)
      (loadDirectory files' chain p path)) (p : Profile) (lines : List String) :
    R _ (loadParents files chain p dir lines)
      (loadParents files' chain p dir lines) := by
  induction lines generalizing p with
  | nil =>
    rw [loadParents, loadParents]
    exact hR.refl _
  | cons line lines ih =>
    rw [loadParents_cons, loadParents_cons]
    exact hR.bind (hload p _) fun applied _ => ih applied

end Profile

namespace FlagDescriptions

def fileNames (files : FileTree) (dir : Path) : List String :=
  match files.list dir with
  | .ok names => names.filter fun name => ".desc".toList.isSuffixOf name.toList
  | .error _ => []

/-- Of the files in `desc` only those of the right names are read. -/
theorem load_eq (files : FileTree) (dir : Path) :
    load files dir = (do
      let d := (← files.readLines (dir / "use.desc")).foldl (addLine "") ⟨[], []⟩
      let d := (← files.readLines (dir / "use.local.desc")).foldl addPackageLine d
      (fileNames files (dir / "desc")).foldlM (addFile files (dir / "desc")) d) := by
  unfold load
  refine Result.bind_congr_of_ok fun lines _ => Result.bind_congr_of_ok fun packageLines _ => ?_
  dsimp only
  unfold fileNames
  cases files.list (dir / "desc") with
  | error fault => rfl
  | ok names =>
    refine (Result.foldlM_filter (fun d name hname => ?_) names _).symm
    unfold addFile Text.beforeTail
    rw [hname]
    rfl

end FlagDescriptions

/-- What surrounds an index is read alike from two trees, in the sense of the relation. -/
structure ReadsAlike (R : (α : Type) → Except Error α → Except Error α → Prop)
    (files files' : FileTree) : Prop where
  isDirectory : ∀ path, files'.isDirectory path = files.isDirectory path
  findDirectory : ∀ path,
    R _ (Profile.findDirectory files path) (Profile.findDirectory files' path)
  readOptional : ∀ (base : Path) (name : String), isLookedFor name = true →
    R _ (files.readOptional (base / name)) (files'.readOptional (base / name))
  fileNames : ∀ dir, FlagDescriptions.fileNames files' dir = FlagDescriptions.fileNames files dir

namespace ReadsAlike

variable {R : (α : Type) → Except Error α → Except Error α → Prop} {files files' : FileTree}
  (h : ReadsAlike R files files') (hR : Result.Congruence R) {dir : Path} {name : String}

include h hR

theorem readLines (hname : isLookedFor name = true) :
    R _ (files.readLines (dir / name)) (files'.readLines (dir / name)) :=
  hR.bind (h.readOptional dir name hname) fun _ _ => hR.refl _

/-! ### Profiles -/

theorem loadFlagLines (hname : isLookedFor name = true) :
    R _ (FlagLine.load files (dir / name)) (FlagLine.load files' (dir / name)) :=
  hR.bind (h.readLines hR hname) fun _ _ => hR.refl _

theorem loadMasks (hname : isLookedFor name = true) (list : MaskList) :
    R _ (list.loadInto files (dir / name)) (list.loadInto files' (dir / name)) :=
  hR.bind (h.readOptional dir name hname) fun _ _ => hR.refl _

theorem loadSettings (hname : isLookedFor name = true) (accumulates : String → Bool)
    (settings : Settings) :
    R _ (settings.loadInto accumulates files (dir / name))
      (settings.loadInto accumulates files' (dir / name)) :=
  hR.bind (h.readOptional dir name hname) fun _ _ => hR.refl _

theorem applyFlagFile (hname : isLookedFor name = true) (flags : List UseFlag) :
    R _ (Profile.applyFlagFile files flags (dir / name))
      (Profile.applyFlagFile files' flags (dir / name)) :=
  hR.bind (h.readLines hR hname) fun _ _ => hR.refl _

theorem applyDirectory (p : Profile) :
    R _ (p.applyDirectory files dir) (p.applyDirectory files' dir) := by
  unfold Profile.applyDirectory
  refine hR.bind (h.loadSettings hR (by decide) _ _) fun settings _ => ?_
  refine hR.bind (h.applyFlagFile hR (by decide) _) fun useMask _ => ?_
  refine hR.bind (h.applyFlagFile hR (by decide) _) fun useForce _ => ?_
  refine hR.bind (h.loadFlagLines hR (by decide)) fun packageUse _ => ?_
  refine hR.bind (h.loadFlagLines hR (by decide)) fun packageUseMask _ => ?_
  refine hR.bind (h.loadFlagLines hR (by decide)) fun packageUseForce _ => ?_
  refine hR.bind (h.loadMasks hR (by decide) _) fun packageMask _ => ?_
  exact hR.bind (h.readLines hR (by decide)) fun lines _ => hR.refl _

-- the induction is on the places of the first tree that the chain has not come to
theorem loadDirectory (chain : List (List String)) (p : Profile) (path : Path) :
    R _ (Profile.loadDirectory files chain p path) (Profile.loadDirectory files' chain p path) := by
  induction hn : (files.unvisited chain).length using Nat.strong_induction_on
    generalizing chain p path with
  | _ n ih =>
    rw [Profile.loadDirectory_eq, Profile.loadDirectory_eq]
    refine hR.bind (h.findDirectory path) fun dir hdir => ?_
    split
    · exact hR.refl _
    · next hnew =>
      have hmem : dir ∈ files.places := by
        unfold Profile.findDirectory at hdir
        split at hdir
        · next hresolve =>
          cases hdir
          exact FileTree.mem_places_of_resolve hresolve
        · cases hdir
      have hless := FileTree.length_unvisited_cons_lt hmem hnew
      refine hR.bind (h.readLines hR (by decide)) fun lines _ => ?_
      refine hR.bind (Profile.loadParents_related hR (fun p path => ?_) p lines) fun inherited _ => ?_
      · exact ih _ (hn ▸ hless) (dir :: chain) p path rfl
      · exact h.applyDirectory hR inherited

theorem loadProfile (path : Path) : R _ (Profile.load files path) (Profile.load files' path) := by
  have hload (files : FileTree) : Profile.load files path =
      (Profile.loadDirectory files [] .empty path >>= fun p => pure p.finish) := by
    rw [Profile.load]
    cases Profile.loadDirectory files [] .empty path <;> rfl
  rw [hload, hload]
  exact hR.bind (h.loadDirectory hR [] .empty path) fun _ _ => hR.refl _

/-! ### Descriptions -/

theorem loadDescriptions (dir : Path) :
    R _ (FlagDescriptions.load files dir) (FlagDescriptions.load files' dir) := by
  rw [FlagDescriptions.load_eq, FlagDescriptions.load_eq, h.fileNames]
  refine hR.bind (h.readLines hR (by decide)) fun lines _ => ?_
  refine hR.bind (h.readLines hR (by decide)) fun packageLines _ => ?_
  refine hR.foldlM (fun d name hname => ?_) _
  have htail : ".desc".toList.isSuffixOf name.toList = true := by
    unfold FlagDescriptions.fileNames at hname
    split at hname
    · exact (List.mem_filter.mp hname).2
    · exact absurd hname List.not_mem_nil
  have hlooked : isLookedFor name = true := by rw [isLookedFor, htail, Bool.or_true]
  unfold FlagDescriptions.addFile
  split
  · exact hR.refl _
  · exact hR.bind (h.readLines hR hlooked) fun _ _ => hR.refl _

/-! ### The repository -/

theorem chosenName (options : EbuildOptions) :
    R _ (Repository.chosenName files options) (Repository.chosenName files' options) := by
  unfold Repository.chosenName
  split
  · exact hR.refl _
  · exact hR.bind (h.readLines hR (by decide)) fun _ _ => hR.refl _

theorem chosenProfile (options : EbuildOptions) (profiles : List ProfileListing) :
    R _ (Repository.chosenProfile files options profiles)
      (Repository.chosenProfile files' options profiles) := by
  unfold Repository.chosenProfile
  split
  · exact h.loadProfile hR _
  · exact hR.refl _

end ReadsAlike

namespace Repository

variable {files files' : FileTree} {options : EbuildOptions}

/-- The name of a repository, and all that it holds besides its package IDs. -/
def readTree (files : FileTree) (options : EbuildOptions) :
    Except Error (RepositoryName × EbuildTree) :=
  let dir := options.location / "profiles"
  if files.isDirectory options.location then do
    let name ← chosenName files options
    let profiles ← ProfileListing.load files dir
    let profile ← chosenProfile files options profiles
    let descriptions ← FlagDescriptions.load files dir
    let mirrors ← MirrorList.load files (dir / "thirdpartymirrors")
    let mask ← MaskList.load files (dir / "package.mask")
    return (name,
      ⟨options.location, options.syncUri?, profiles, descriptions, mirrors, mask, profile⟩)
  else .error (.badConfig options.location.text .notRepositoryDirectory)

def source (name : RepositoryName) (tree : EbuildTree) : EbuildTree.Source :=
  ⟨name, tree.location, tree.mask, tree.profile.packageMask⟩

/-- Opening a repository is reading its surroundings and filling its index. -/
theorem openEbuilds_eq (files : FileTree) (options : EbuildOptions) :
    openEbuilds files options = (do
      let (name, tree) ← readTree files options
      let index ← (source name tree).index files
      return ⟨name, ebuildKeys options, index, .ebuilds tree⟩) := by
  unfold readTree
  cases hdirectory : files.isDirectory options.location with
  | false => exact openEbuilds_of_not_directory hdirectory
  | true =>
    rw [openEbuilds_of_directory options hdirectory, if_pos rfl]
    simp only [bind_assoc, pure_bind]
    rfl

theorem location_of_readTree {name : RepositoryName} {tree : EbuildTree}
    (h : readTree files options = .ok (name, tree)) : tree.location = options.location := by
  unfold readTree at h
  dsimp only at h
  split at h
  · obtain ⟨_, -, h⟩ := Result.bind_eq_ok_iff.mp h
    obtain ⟨_, -, h⟩ := Result.bind_eq_ok_iff.mp h
    obtain ⟨_, -, h⟩ := Result.bind_eq_ok_iff.mp h
    obtain ⟨_, -, h⟩ := Result.bind_eq_ok_iff.mp h
    obtain ⟨_, -, h⟩ := Result.bind_eq_ok_iff.mp h
    obtain ⟨_, -, h⟩ := Result.bind_eq_ok_iff.mp h
    cases h
    rfl
  · cases h

end Repository

theorem ReadsAlike.readTree {R : (α : Type) → Except Error α → Except Error α → Prop}
    {files files' : FileTree} (h : ReadsAlike R files files') (hR : Result.Congruence R)
    (options : EbuildOptions) :
    R _ (Repository.readTree files options) (Repository.readTree files' options) := by
  unfold Repository.readTree
  rw [h.isDirectory]
  split
  · refine hR.bind (h.chosenName hR options) fun name _ => ?_
    refine hR.bind (hR.bind (h.readLines hR (by decide)) fun _ _ => hR.refl _) fun profiles _ => ?_
    refine hR.bind (h.chosenProfile hR options profiles) fun profile _ => ?_
    refine hR.bind (h.loadDescriptions hR _) fun descriptions _ => ?_
    refine hR.bind (hR.bind (h.readLines hR (by decide)) fun _ _ => hR.refl _) fun mirrors _ => ?_
    exact hR.bind (h.loadMasks hR (by decide) _) fun mask _ => hR.refl _
  · exact hR.refl _

/-! ## Trees that are alike -/

/-- No place of a name that is looked for is changed. -/
def EbuildTree.Spares (changed : List String → Bool) : Prop :=
  ∀ place name, isLookedFor name = true → changed (place ++ [name]) = false

theorem EbuildTree.spares_of_last {changed : List String → Bool}
    (h : ∀ place, changed place = true →
      ∃ front entry, place = front ++ [entry] ∧ isLookedFor entry = false) : Spares changed := by
  intro place name hlooked
  cases hchanged : changed (place ++ [name]) with
  | false => rfl
  | true =>
    obtain ⟨front, entry, hplace, hnot⟩ := h _ hchanged
    cases (List.append_inj' hplace rfl).2
    rw [hlooked] at hnot
    cases hnot

namespace FileTree

variable {changed : List String → Bool} {files files' : FileTree}

theorem eq_false_of_resolve {tree : FileTree} {base : Path} {name : String} {q : List String}
    (hspares : Spares changed) (hname : isLookedFor name = true)
    (h : tree.resolve (base / name) = .ok q) : changed q = false := by
  obtain ⟨y, hlast, hstep, hlooked⟩ := exists_getLast?_of_isLookedFor base hname
  obtain ⟨d, rfl⟩ := exists_concat_of_resolve hlast hstep h
  exact hspares d y hlooked

theorem Rewrites.reads (h : Rewrites changed files files') (hspares : Spares changed) :
    ReadsAlike (fun _ x y => y = x) files files' where
  isDirectory := h.isDirectory
  findDirectory path := by
    unfold Profile.findDirectory
    rw [h.resolve]
  readOptional base name hname := by
    unfold readOptional
    rw [h.read fun q hq => eq_false_of_resolve hspares hname hq]
  fileNames dir := by
    unfold FlagDescriptions.fileNames
    rw [h.list]

theorem readOptional_eq_some_iff {tree : FileTree} {path : Path} {text : String} :
    tree.readOptional path = .ok (some text) ↔ tree.read path = .ok text := by
  unfold readOptional
  cases tree.read path with
  | error fault => cases fault <;> exact iff_of_false nofun nofun
  | ok content => simp only [Except.ok.injEq, Option.some.injEq]

theorem Alike.fileNames (h : Alike changed files files') (hspares : Spares changed) (dir : Path) :
    FlagDescriptions.fileNames files' dir = FlagDescriptions.fileNames files dir := by
  have hone : ∀ {files files'}, Alike changed files files' → ∀ {names},
      files.list dir = .ok names →
      FlagDescriptions.fileNames files' dir = FlagDescriptions.fileNames files dir := by
    intro files files' h names hnames
    obtain ⟨d, -, rfl, hlist⟩ := h.list hnames
    unfold FlagDescriptions.fileNames
    rw [hnames, hlist]
    refine h.filter_namesUnder fun name hchanged => Bool.eq_false_iff.mpr fun htail => ?_
    rw [hspares d name (by rw [isLookedFor, htail, Bool.or_true])] at hchanged
    cases hchanged
  cases hnames : files.list dir with
  | ok names => exact hone h hnames
  | error fault =>
    cases hnames' : files'.list dir with
    | ok names' => exact (hone h.symm hnames').symm
    | error fault' =>
      unfold FlagDescriptions.fileNames
      rw [hnames, hnames']

theorem Alike.reads (h : Alike changed files files') (hspares : Spares changed) :
    ReadsAlike Result.Agree files files' where
  isDirectory := h.isDirectory
  findDirectory path dir dir' hdir hdir' := by
    unfold Profile.findDirectory at hdir hdir'
    split at hdir
    · next hresolve =>
      split at hdir'
      · next hresolve' =>
        cases hdir
        cases hdir'
        exact h.eq_of_resolve hresolve hresolve'
      · cases hdir'
    · cases hdir
  readOptional base name hname text? text?' htext htext' := by
    have hread (text : String) : files'.readOptional (base / name) = .ok (some text) ↔
        files.readOptional (base / name) = .ok (some text) := by
      rw [readOptional_eq_some_iff, readOptional_eq_some_iff]
      exact h.read_eq_ok_iff fun q hq => hq.elim (eq_false_of_resolve hspares hname)
        (eq_false_of_resolve hspares hname)
    cases text? with
    | some text =>
      rw [(hread text).mpr htext] at htext'
      exact Except.ok.inj htext'
    | none =>
      cases text?' with
      | none => rfl
      | some text =>
        rw [(hread text).mp htext'] at htext
        exact Except.ok.inj htext.symm
  fileNames := h.fileNames hspares

end FileTree

end PackageCatalog
