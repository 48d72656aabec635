import Mathlib.Data.List.Forall2
import PackageCatalog.Proofs.Repository.Scanning
import PackageCatalog.Proofs.Version.Dots

/-!
# Files that concern one version

What is written to the files of a version, be it the entry of an ebuild in the metadata cache or
what is in the directory of an installed package, neither keeps a repository from opening nor shows
in the ID of another version (`Repository.opens_beyond`). The names that a repository is gone
through by are the same, so that the IDs are put in at the same places; an ID is built from the
files of its own version alone.
-/

namespace PackageCatalog

/-! ## IDs of the same versions -/

theorem Sorted.forall₂_insert {α : Type} {R : α → α → Prop} {cmp : α → α → Ordering}
    (hcmp : ∀ {a a' b b'}, R a a' → R b b' → cmp a' b' = cmp a b) {a a' : α} {xs xs' : List α}
    (ha : R a a') (h : List.Forall₂ R xs xs') :
    List.Forall₂ R (Sorted.insert cmp a xs) (Sorted.insert cmp a' xs') := by
  induction h with
  | nil => exact .cons ha .nil
  | cons hx hxs ih =>
    rw [insert, insert, hcmp ha hx]
    split
    · exact .cons ha (.cons hx hxs)
    · exact .cons ha hxs
    · exact .cons hx ih

/-- Where each step succeeds with a related result, all do. -/
theorem Result.exists_forall₂_mapM {ε α β : Type} {f g : α → Except ε β} {R : β → β → Prop}
    (h : ∀ x y, f x = .ok y → ∃ y', g x = .ok y' ∧ R y y') {xs : List α} {ys : List β}
    (hys : xs.mapM f = .ok ys) : ∃ ys', xs.mapM g = .ok ys' ∧ List.Forall₂ R ys ys' := by
  induction xs generalizing ys with
  | nil =>
    cases hys
    exact ⟨[], rfl, .nil⟩
  | cons x xs ih =>
    rw [List.mapM_cons] at hys
    obtain ⟨y, hy, hys⟩ := Result.bind_eq_ok_iff.mp hys
    obtain ⟨rest, hrest, hys⟩ := Result.bind_eq_ok_iff.mp hys
    cases hys
    obtain ⟨y', hy', hR⟩ := h x y hy
    obtain ⟨rest', hrest', hall⟩ := ih hrest
    refine ⟨y' :: rest', ?_, .cons hR hall⟩
    rw [List.mapM_cons, hy', hrest']
    rfl

/-- The IDs are of one version. Unless this is a version of the package equal to `v`, they are the
same, and so are the values of their keys in the two trees. -/
structure PackageId.SameBeyond (name : QualifiedName) (v : Version) (files files' : FileTree)
    (id id' : PackageId) : Prop where
  name_eq : id'.name = id.name
  version_eq : id'.version = id.version
  id_eq : ¬ (id.name = name ∧ id.version.equals v = true) → id' = id
  load_eq : ¬ (id.name = name ∧ id.version.equals v = true) →
    ∀ k ∈ id.keys, k.load files' = k.load files

variable {name : QualifiedName} {v : Version} {files files' : FileTree}

namespace PackageIndex

/-- The indexes list the same names, and under each IDs of the same versions. -/
structure SameBeyond (name : QualifiedName) (v : Version) (files files' : FileTree)
    (index index' : PackageIndex) : Prop where
  categories : index'.categories = index.categories
  names : index'.packages.map Prod.fst = index.packages.map Prod.fst
  packageIds : ∀ n, List.Forall₂ (PackageId.SameBeyond name v files files')
    (index.packageIds n) (index'.packageIds n)

variable {index index' : PackageIndex}

theorem SameBeyond.insert (h : SameBeyond name v files files' index index') {id id' : PackageId}
    (hid : id.SameBeyond name v files files' id') :
    SameBeyond name v files files' (index.insert id) (index'.insert id') where
  categories := by
    have hcategories (index : PackageIndex) (id : PackageId) :
        (index.insert id).categories = Sorted.insert compare id.name.category index.categories :=
      categories_apply (.insert id)
    rw [hcategories, hcategories, h.categories, hid.name_eq]
  names := by
    have hnames (index : PackageIndex) (id : PackageId) : (index.insert id).packages.map Prod.fst =
        Sorted.insert QualifiedName.compare id.name (index.packages.map Prod.fst) :=
      names_apply (.insert id)
    rw [hnames, hnames, h.names, hid.name_eq]
  packageIds n := by
    unfold PackageIndex.insert
    rw [packageIds_alter, packageIds_alter, hid.name_eq]
    split
    · refine Sorted.forall₂_insert (fun {a a' b b'} ha hb => ?_) hid (h.packageIds _)
      rw [compareVersions, compareVersions, ha.version_eq, hb.version_eq]
    · exact h.packageIds n

/-- IDs of the same versions, one after the other, fill indexes that list the same. -/
theorem sameBeyond_ofChanges {ids ids' : List PackageId}
    (h : List.Forall₂ (PackageId.SameBeyond name v files files') ids ids') :
    SameBeyond name v files files' (ofChanges (ids.map .insert))
      (ofChanges (ids'.map .insert)) := by
  rw [ofChanges_map_insert, ofChanges_map_insert]
  refine List.rel_foldl (fun _ _ hindex _ _ hid => hindex.insert hid) ?_ h
  exact ⟨rfl, rfl, fun _ => .nil⟩

end PackageIndex

/-- The repositories are the same but for what is known of versions of the package equal to `v`. -/
structure Repository.SameBeyond (name : QualifiedName) (v : Version) (files files' : FileTree)
    (r r' : Repository) : Prop where
  name_eq : r'.name = r.name
  keys_eq : r'.keys = r.keys
  kind_eq : r'.kind = r.kind
  index : r.index.SameBeyond name v files files' r'.index

/-! ## The places of the files -/

/-- The place of the cache entry of a version of the package equal to `v`. -/
def EbuildTree.IsEntry (files : FileTree) (location : Path) (name : QualifiedName) (v : Version)
    (place : List String) : Prop :=
  ∃ (root : List String) (w : Version), files.resolve location = .ok root ∧
    place = root ++ cacheNames name w ∧ w.equals v = true

/-- The place of a file in the directory of an installed version of the package equal to `v`. -/
def InstalledDatabase.IsFileOf (files : FileTree) (location : Path) (name : QualifiedName)
    (v : Version) (place : List String) : Prop :=
  ∃ (root : List String) (w : Version) (file : String), files.resolve location = .ok root ∧
    place = root ++ [name.category.text, name.package.text ++ "-" ++ w.text] ++ [file] ∧
    w.equals v = true

/-- The name and the version are determined by the names of a category and of an entry in it. -/
theorem eq_of_versioned {n n' : QualifiedName} {w w' : Version}
    (hcategory : n.category.text = n'.category.text)
    (hentry : n.package.text ++ "-" ++ w.text = n'.package.text ++ "-" ++ w'.text) :
    n = n' ∧ w = w' := by
  have hchars := congrArg String.toList hentry
  rw [EbuildTree.toList_versioned, EbuildTree.toList_versioned] at hchars
  obtain ⟨hp, hw⟩ := Atom.versionable_unique (Atom.isVersionable_of_package n.package)
    (Atom.isVersionable_of_package n'.package) hchars
  have hpackage := Name.eq_of_text (String.toList_inj.mp hp)
  exact ⟨congrArg₂ QualifiedName.mk (Name.eq_of_text hcategory) hpackage, hw⟩

variable {changed : List String → Bool} {location : Path}

/-! ## Entries of the metadata cache -/

namespace EbuildTree

theorem isLookedFor_versioned (p : PackageName) (w : Version) :
    isLookedFor (p.text ++ "-" ++ w.text) = false := by
  have hnames : ∀ x ∈ ["repo_name", "categories", "thirdpartymirrors", "parent"] ++
      Profile.fileNames, '-' ∉ x.toList := by decide
  rw [isLookedFor, Bool.or_eq_false_iff, Bool.eq_false_iff, Bool.eq_false_iff]
  refine ⟨fun hmem => hnames _ (List.contains_iff_mem.mp hmem) ?_, fun hdesc => ?_⟩
  · rw [toList_versioned]
    exact List.mem_append_right _ List.mem_cons_self
  · have hsuffix := List.isSuffixOf_iff_suffix.mp hdesc
    rw [toList_versioned] at hsuffix
    exact Version.not_suffix p w (by decide) hsuffix

theorem spares_of_isEntry
    (hentry : ∀ place, changed place = true → IsEntry files location name v place) :
    Spares changed := by
  refine spares_of_last fun place hplace => ?_
  obtain ⟨root, w, -, rfl, -⟩ := hentry place hplace
  exact ⟨root ++ ["metadata", "md5-cache", name.category.text], _,
    (List.append_assoc root ["metadata", "md5-cache", name.category.text] [_]).symm,
    isLookedFor_versioned name.package w⟩

theorem sameBeyond_buildId (s : Source) (hlocation : s.location.text ≠ "")
    (h : FileTree.Rewrites changed files files')
    (hentry : ∀ place, changed place = true → IsEntry files s.location name v place)
    (n : QualifiedName) (w : Version) :
    (s.buildId files n w).SameBeyond name v files files' (s.buildId files' n w) where
  name_eq := (identity_buildId _ _ _ _).1.trans (identity_buildId _ _ _ _).1.symm
  version_eq := (identity_buildId _ _ _ _).2.trans (identity_buildId _ _ _ _).2.symm
  id_eq hother := by
    rw [(identity_buildId _ _ _ _).1, (identity_buildId _ _ _ _).2] at hother
    refine s.buildId_congr fun content => ?_
    rw [h.read fun q hq => ?_]
    cases hchanged : changed q with
    | false => rfl
    | true =>
      obtain ⟨root, hroot, hq⟩ := Source.exists_of_resolve_cachePath hlocation hq
      obtain ⟨root', w', hroot', hq', hequals⟩ := hentry q hchanged
      cases hroot.symm.trans hroot'
      have hnames : cacheNames n w = cacheNames name w' :=
        List.append_cancel_left (hq.symm.trans hq')
      simp only [cacheNames, List.cons.injEq, true_and, and_true] at hnames
      obtain ⟨hname, rfl⟩ := eq_of_versioned hnames.1 hnames.2
      exact absurd ⟨hname, hequals⟩ hother
  load_eq _ k hk := by
    have hsources : (s.buildId files n w).ReadsOnly fun _ => False :=
      PackageId.kept_readsOnly.ofEbuild (fun _ _ => rfl) (by intro k hk; cases hk) files
    exact hsources.load_eq (fun _ => False.elim) hk

end EbuildTree

/-! ## Directories of installed packages -/

namespace InstalledDatabase

theorem isStep_of_variableFile {x : String} (h : isVariableFile x = true) :
    x = "" ∨ Path.isStep x = true := by
  by_cases hx : x.toList = []
  · exact .inl (String.toList_eq_nil_iff.mp hx)
  · have hall := List.all_eq_true.mp h
    refine .inr (Path.isStep_of_chars hx (fun hdot => ?_) fun hslash => ?_)
    · exact absurd (hall '.' (List.mem_of_mem_head? hdot)) (by decide)
    · exact absurd (hall '/' hslash) (by decide)

theorem eq_of_packageOf? {entry : String} {p : PackageName} {w : Version}
    (h : packageOf? entry = some (p, w)) : entry = p.text ++ "-" ++ w.text := by
  unfold packageOf? at h
  obtain ⟨⟨a, w⟩, hsplit, h⟩ := Option.bind_eq_some_iff.mp h
  obtain ⟨p, hp, h⟩ := Option.bind_eq_some_iff.mp h
  cases h
  have hchars := (Atom.splitVersion?_eq_some_iff.mp hsplit).2
  have hname := Name.ofText?_eq_some_iff.mp hp
  rw [← String.toList_inj, EbuildTree.toList_versioned, ← hname, String.toList_ofList, hchars]

/-- No file of the directory that can be asked for is changed. -/
def Untouched (changed : List String → Bool) (files : FileTree) (dir : Path) : Prop :=
  ∀ x q, x = "" ∨ Path.isStep x = true → files.resolve (dir / x) = .ok q → changed q = false

variable {dir : Path}

/-- Whether there is an ID for a directory depends on the names in it alone. -/
theorem exists_buildId_iff {id : PackageId} :
    (∃ id', buildId files dir id = .ok id') ↔ ∃ names, files.visibleNames dir = .ok names :=
  Result.exists_map_eq_ok_iff

theorem identity_of_buildId {id id' : PackageId} (h : buildId files dir id = .ok id') :
    id'.name = id.name ∧ id'.version = id.version :=
  (PackageId.kept_identity (fun _ => True) _ _).ofInstalled trivial (fun _ _ => rfl) rfl
    ⟨rfl, rfl⟩ h

section

variable (h : FileTree.Rewrites changed files files')

include h

theorem buildId_of_untouched (hdir : Untouched changed files dir) (id : PackageId) :
    buildId files' dir id = buildId files dir id := by
  have htext : Path.isStep "BUILD_TIME" = true := by decide
  have hcontents : Path.isStep "CONTENTS" = true := by decide
  have htime : installedTime? files' dir = installedTime? files dir := by
    unfold installedTime?
    rw [h.read fun q hq => hdir _ q (.inr htext) hq,
      h.modifiedAt? fun q hq => hdir _ q (.inr hcontents) hq]
  have hvariables (names : List String) :
      readVariables files' dir names = readVariables files dir names := by
    refine List.filterMap_congr fun x hx => ?_
    have hstep := isStep_of_variableFile (List.mem_filter.mp hx).2
    rw [h.read fun q hq => hdir x q hstep hq]
  unfold buildId
  rw [h.visibleNames]
  refine Result.bind_congr_of_ok fun names _ => ?_
  dsimp only
  rw [hvariables, h.isFile, htime]

theorem sameBeyond_buildId {n : QualifiedName} {w : Version} {repository : RepositoryName}
    {id id' : PackageId} (hother : ¬ (n = name ∧ w.equals v = true) → Untouched changed files dir)
    (hid : buildId files dir (.bare n w repository) = .ok id)
    (hid' : buildId files' dir (.bare n w repository) = .ok id') :
    id.SameBeyond name v files files' id' := by
  obtain ⟨hname, hversion⟩ : id.name = n ∧ id.version = w := identity_of_buildId hid
  obtain ⟨hname', hversion'⟩ : id'.name = n ∧ id'.version = w := identity_of_buildId hid'
  refine ⟨hname'.trans hname.symm, hversion'.trans hversion.symm, ?_, ?_⟩ <;>
    rw [hname, hversion] <;> intro hne
  · rw [buildId_of_untouched h (hother hne), hid] at hid'
    exact (Except.ok.inj hid').symm
  · intro k hk
    have hsources : id.ReadsOnly (· = dir / "CONTENTS") :=
      PackageId.kept_readsOnly.ofInstalled rfl (fun _ _ => rfl) rfl (by intro k hk; cases hk) hid
    refine hsources.load_eq (fun p hp => ?_) hk
    rw [hp]
    exact h.read fun q hq => hother hne _ q (.inr (by decide)) hq

theorem rel_buildId {n : QualifiedName} {w : Version} (repository : RepositoryName)
    (hother : ¬ (n = name ∧ w.equals v = true) → Untouched changed files dir) :
    Option.Rel (PackageId.SameBeyond name v files files')
      (buildId files dir (.bare n w repository)).toOption
      (buildId files' dir (.bare n w repository)).toOption := by
  have hiff : (∃ id, buildId files' dir (.bare n w repository) = .ok id) ↔
      ∃ id, buildId files dir (.bare n w repository) = .ok id := by
    rw [exists_buildId_iff, exists_buildId_iff, h.visibleNames]
  cases hid : buildId files dir (.bare n w repository) with
  | ok id =>
    obtain ⟨id', hid'⟩ := hiff.mpr ⟨id, hid⟩
    rw [hid']
    exact .some (sameBeyond_buildId h hother hid hid')
  | error e =>
    cases hid' : buildId files' dir (.bare n w repository) with
    | ok id' =>
      have hok := hiff.mp ⟨id', hid'⟩
      rw [hid] at hok
      exact absurd hok Result.not_exists_error_eq_ok
    | error e' => exact .none

variable {options : InstalledOptions} (hlocation : options.location.text ≠ "")
  (hfile : ∀ place, changed place = true → IsFileOf files options.location name v place)

include hlocation hfile

/-- Only the directories of versions of the package equal to `v` hold files that are changed. -/
theorem untouched_of_other {c : CategoryName} {p : PackageName} {w : Version}
    (hother : ¬ ((⟨c, p⟩ : QualifiedName) = name ∧ w.equals v = true)) :
    Untouched changed files (options.location / c.text / (p.text ++ "-" ++ w.text)) := by
  intro x q hx hq
  rcases hx with rfl | hx
  · -- the directory itself
    refine h.eq_false_of_directory (FileTree.directory_of_resolve ?_ hq)
    rw [Path.getLast?_pieces_join]
    rfl
  · obtain ⟨d, hd, -, rfl⟩ :=
      FileTree.resolve_join (Path.text_join_ne (EbuildTree.isStep_versioned p w)) hx hq
    obtain ⟨e, he, -, rfl⟩ := FileTree.resolve_join (Path.text_join_ne c.isStep_of_category)
      (EbuildTree.isStep_versioned p w) hd
    obtain ⟨root, hroot, -, rfl⟩ := FileTree.resolve_join hlocation c.isStep_of_category he
    cases hchanged : changed (root ++ [c.text] ++ [p.text ++ "-" ++ w.text] ++ [x]) with
    | false => rfl
    | true =>
      obtain ⟨root', w', file, hroot', hplace, hequals⟩ := hfile _ hchanged
      cases hroot.symm.trans hroot'
      obtain ⟨hnames, -⟩ := List.append_inj' hplace rfl
      rw [List.append_assoc] at hnames
      have hparts := List.append_cancel_left hnames
      simp only [List.cons_append, List.nil_append, List.cons.injEq, and_true] at hparts
      obtain ⟨hname, rfl⟩ := eq_of_versioned (n := ⟨c, p⟩) hparts.1 hparts.2
      exact absurd ⟨hname, hequals⟩ hother

theorem rel_idAt? (repository : RepositoryName) (c : CategoryName) (entry : String) :
    Option.Rel (PackageId.SameBeyond name v files files')
      (idAt? files repository c (options.location / c.text) entry)
      (idAt? files' repository c (options.location / c.text) entry) := by
  unfold idAt?
  rw [h.isDirectory]
  split
  · cases hpackage : packageOf? entry with
    | none => exact .none
    | some found =>
      cases eq_of_packageOf? hpackage
      exact rel_buildId h repository (untouched_of_other h hlocation hfile)
  · exact .none

theorem exists_idsOfCategory (dirName : String) (ids : List PackageId)
    (hids : idsOfCategory files options dirName = .ok ids) :
    ∃ ids', idsOfCategory files' options dirName = .ok ids' ∧
      List.Forall₂ (PackageId.SameBeyond name v files files') ids ids' := by
  unfold idsOfCategory at hids ⊢
  dsimp only at hids ⊢
  rw [h.isDirectory]
  split at hids
  · next hdirectory =>
    rw [if_pos hdirectory]
    cases hc : Name.ofText? .category dirName with
    | none =>
      rw [hc] at hids
      cases hids
      exact ⟨[], rfl, .nil⟩
    | some c =>
      cases Name.ofText?_eq_some_iff.mp hc
      rw [hc] at hids
      obtain ⟨names, hnames, hids⟩ := Result.bind_eq_ok_iff.mp hids
      cases hids
      refine ⟨names.filterMap (idAt? files' options.name c (options.location / c.text)), ?_, ?_⟩
      · dsimp only
        rw [h.visibleNames, hnames]
        rfl
      · refine List.rel_filterMap (R := Eq) (fun entry _ heq => ?_) (List.forall₂_refl names)
        cases heq
        exact rel_idAt? h hlocation hfile options.name c entry
  · next hno =>
    cases hids
    rw [if_neg hno]
    exact ⟨[], rfl, .nil⟩

/-- The same directories hold IDs of the same versions. -/
theorem exists_ids {found : List PackageId} (hids : ids files options = .ok found) :
    ∃ found', ids files' options = .ok found' ∧
      List.Forall₂ (PackageId.SameBeyond name v files files') found found' := by
  obtain ⟨names, hnames, hids⟩ := Result.bind_eq_ok_iff.mp hids
  obtain ⟨blocks, hblocks, hids⟩ := Result.bind_eq_ok_iff.mp hids
  cases hids
  obtain ⟨blocks', hblocks', hall⟩ :=
    Result.exists_forall₂_mapM (exists_idsOfCategory h hlocation hfile) hblocks
  refine ⟨blocks'.flatten, ?_, List.rel_flatten hall⟩
  unfold ids
  rw [h.visibleNames, hnames]
  exact congrArg (· >>= fun found => pure found.flatten) hblocks'

end

end InstalledDatabase

/-! ## Opening both trees -/

namespace Repository

open EbuildTree InstalledDatabase PackageIndex

/-- Opening a database is finding all IDs and putting them in. -/
theorem openInstalled_eq (files : FileTree) (options : InstalledOptions) :
    openInstalled files options =
      if files.isDirectory options.location then do
        let found ← InstalledDatabase.ids files options
        return ⟨options.name,
          [formatKey "vdb", locationKey options.location, rootKey options.root],
          ofChanges (found.map .insert), .installed options.location⟩
      else .error (.badConfig options.location.text .notInstalledDirectory) := by
  unfold openInstalled
  rw [InstalledDatabase.index_eq]
  cases files.isDirectory options.location with
  | false => rfl
  | true => cases InstalledDatabase.ids files options <;> rfl

/-- Where the files that a version has to itself are rewritten, a repository that opens still does,
and lists the same versions, with the same IDs but for those of the versions equal to that one. -/
theorem opens_beyond (h : FileTree.Rewrites changed files files') (name : QualifiedName)
    (v : Version) :
    (∀ options r, openEbuilds files options = .ok r →
      (∀ place, changed place = true → IsEntry files options.location name v place) →
      ∃ r', openEbuilds files' options = .ok r' ∧ r.SameBeyond name v files files' r') ∧
    (∀ options r, openInstalled files options = .ok r →
      (∀ place, changed place = true → IsFileOf files options.location name v place) →
      ∃ r', openInstalled files' options = .ok r' ∧ r.SameBeyond name v files files' r') := by
  refine ⟨fun options r hr hentry => ?_, fun options r hr hfile => ?_⟩
  · obtain ⟨repository, tree, l, htree, hlocation, hl, -⟩ := exists_found hr
    cases Except.ok.inj (hr.symm.trans (openEbuilds_of_found htree hl))
    have hreads := h.reads (spares_of_isEntry hentry)
    have htree' : readTree files' options = .ok (repository, tree) :=
      (hreads.readTree Result.congruence_eq options).trans htree
    have hl' : found files' options.location = .ok l := by
      refine .trans (found_related Result.congruence_eq hreads (h.visibleNames _)
        (fun c => h.visibleNames _) fun c p => ?_) hl
      unfold scanVersions
      rw [h.visibleNames]
    have hplace : (source repository tree).location = options.location := location_of_readTree htree
    rw [← hplace] at hlocation hentry
    refine ⟨_, openEbuilds_of_found htree' hl', rfl, rfl, rfl, sameBeyond_ofChanges ?_⟩
    rw [List.forall₂_map_left_iff, List.forall₂_map_right_iff, List.forall₂_same]
    exact fun x _ => EbuildTree.sameBeyond_buildId _ hlocation h hentry x.1 x.2
  · rw [openInstalled_eq] at hr ⊢
    rw [h.isDirectory]
    split at hr
    · next hdirectory =>
      rw [if_pos hdirectory]
      have hlocation := FileTree.text_ne_of_isDirectory hdirectory
      obtain ⟨ids, hids, hr⟩ := Result.bind_eq_ok_iff.mp hr
      cases hr
      obtain ⟨ids', hids', hall⟩ := exists_ids h hlocation hfile hids
      refine ⟨_, Result.bind_eq_ok_iff.mpr ⟨ids', hids', rfl⟩, rfl, rfl, rfl, ?_⟩
      exact sameBeyond_ofChanges hall
    · cases hr

/-- A repository of ebuilds and a database, each with two versions of a package. -/
def twoKits : FileTree where
  entries := [(["r"], .directory), (["r", "profiles"], .directory),
    (["r", "profiles", "categories"], .text "app"), (["r", "app"], .directory),
    (["r", "app", "kit"], .directory), (["r", "app", "kit", "kit-1.ebuild"], .text ""),
    (["r", "app", "kit", "kit-2.ebuild"], .text ""), (["r", "metadata"], .directory),
    (["r", "metadata", "md5-cache"], .directory),
    (["r", "metadata", "md5-cache", "app"], .directory),
    (["r", "metadata", "md5-cache", "app", "kit-1"], .text "SLOT=0"),
    (["r", "metadata", "md5-cache", "app", "kit-2"], .text "SLOT=0"),
    (["v"], .directory), (["v", "app"], .directory), (["v", "app", "kit-1"], .directory),
    (["v", "app", "kit-1", "SLOT"], .text "0"), (["v", "app", "kit-2"], .directory),
    (["v", "app", "kit-2", "SLOT"], .text "0")]
  workingDirectory := []
  modified := fun _ => 0

/-- Neither a cache entry nor a file of an installed package has to be text. -/
theorem opens_with_binary_files : ∃ r r' s s',
    openEbuilds twoKits (.at ⟨"/r"⟩) = .ok r ∧
    openEbuilds (twoKits.put ["r", "metadata", "md5-cache", "app", "kit-1"] .binary) (.at ⟨"/r"⟩) =
      .ok r' ∧
    r.SameBeyond kit (.numbered 1 [] none) twoKits
      (twoKits.put ["r", "metadata", "md5-cache", "app", "kit-1"] .binary) r' ∧
    openInstalled twoKits (.at ⟨"/v"⟩) = .ok s ∧
    openInstalled (twoKits.put ["v", "app", "kit-1", "SLOT"] .binary) (.at ⟨"/v"⟩) = .ok s' ∧
    s.SameBeyond kit (.numbered 1 [] none) twoKits
      (twoKits.put ["v", "app", "kit-1", "SLOT"] .binary) s' := by
  obtain ⟨r, hr⟩ := Result.exists_ok_of_isSome
    (show (openEbuilds twoKits (.at ⟨"/r"⟩)).toOption.isSome = true by
      rw [openEbuilds_of_directory _ (by decide)]
      decide +kernel)
  obtain ⟨s, hs⟩ := Result.exists_ok_of_isSome
    (show (openInstalled twoKits (.at ⟨"/v"⟩)).toOption.isSome = true by decide +kernel)
  have hentry : FileTree.Rewrites (· == ["r", "metadata", "md5-cache", "app", "kit-1"]) twoKits
      (twoKits.put ["r", "metadata", "md5-cache", "app", "kit-1"] .binary) :=
    FileTree.rewrites_put (by decide) (by decide) (by decide) (by decide)
  have hslot : FileTree.Rewrites (· == ["v", "app", "kit-1", "SLOT"]) twoKits
      (twoKits.put ["v", "app", "kit-1", "SLOT"] .binary) :=
    FileTree.rewrites_put (by decide) (by decide) (by decide) (by decide)
  obtain ⟨r', hr', hsame⟩ := (opens_beyond hentry kit (.numbered 1 [] none)).1 _ r hr
    fun place hplace => ⟨["r"], .numbered 1 [] none, by decide, eq_of_beq hplace,
      Version.equals_equivalence.refl _⟩
  obtain ⟨s', hs', hsame'⟩ := (opens_beyond hslot kit (.numbered 1 [] none)).2 _ s hs
    fun place hplace => ⟨["v"], .numbered 1 [] none, "SLOT", by decide, eq_of_beq hplace,
      Version.equals_equivalence.refl _⟩
  exact ⟨r, r', s, s', hr, hr', hsame, hs, hs', hsame'⟩

end Repository

end PackageCatalog
