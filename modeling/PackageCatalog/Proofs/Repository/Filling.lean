import PackageCatalog.Proofs.Identity
import PackageCatalog.Proofs.Repository.Changes
import PackageCatalog.Proofs.Result
import PackageCatalog.Repository.Ebuild
import PackageCatalog.Repository.Installed
import PackageCatalog.Repository.Manual

/-!
# How indexes are filled

Every index comes about by changes to an empty one. In a repository that is filled by hand these
are the changes of the requests whose texts can be read, and a refused request leaves no trace
(`Repository.fill_eq`). Loading a tree first finds all IDs, from its files alone, and puts them in
one after the other (`EbuildTree.Source.index_eq`, `InstalledDatabase.index_eq`).
-/

namespace PackageCatalog

/-! ## By hand -/

/-- A request to a repository that is filled by hand. -/
inductive Request where
  | addCategory (text : String)
  | addPackage (text : String)
  | addVersion (name version : String)
  | addVersionOfParts (category package version : String)
  | insert (id : PackageId)

namespace Request

def answer (r : Repository) : Request → Except Error Repository
  | addCategory text => (r.addCategory text).map Prod.snd
  | addPackage text => (r.addPackage text).map Prod.snd
  | addVersion name version => (r.addVersion name version).map Prod.snd
  | addVersionOfParts category package version =>
    (r.addVersionOfParts category package version).map Prod.snd
  | insert id => .ok (r.insert id)

/-- The repository after the request, the same one if the request is refused. -/
def take (r : Repository) (request : Request) : Repository :=
  match request.answer r with
  | .ok changed => changed
  | .error _ => r

/-- The change that the request asks for, if its texts can be read. -/
def change (r : Repository) : Request → Except Error Change
  | addCategory text => do return .addCategory (← Name.parse .category text)
  | addPackage text => do return .addPackage (← QualifiedName.parse text)
  | addVersion name version => do
    let name ← QualifiedName.parse name
    let v ← Version.parse version
    return .insert (r.defaultId name v)
  | addVersionOfParts category package version => do
    let name ← QualifiedName.ofParts category package
    let v ← Version.parse version
    return .insert (r.defaultId name v)
  | insert id => .ok (.insert id)

end Request

namespace Repository

variable {r : Repository}

def fill (r : Repository) (requests : List Request) : Repository := requests.foldl Request.take r

def withIndex (r : Repository) (index : PackageIndex) : Repository := { r with index := index }

end Repository

namespace Request

variable {r : Repository} {request : Request}

/-- A request is refused just when its texts cannot be read, and otherwise changes the index
alone. -/
theorem answer_eq (r : Repository) (request : Request) :
    request.answer r = (request.change r).map fun change =>
      r.withIndex (change.apply r.index) := by
  cases request with
  | addCategory text =>
    dsimp only [answer, change, Repository.addCategory]
    cases Name.parse .category text <;> rfl
  | addPackage text =>
    dsimp only [answer, change, Repository.addPackage]
    cases QualifiedName.parse text <;> rfl
  | addVersion name version =>
    dsimp only [answer, change, Repository.addVersion, Repository.addDefault]
    cases QualifiedName.parse name with
    | error e => rfl
    | ok name => cases Version.parse version <;> rfl
  | addVersionOfParts category package version =>
    dsimp only [answer, change, Repository.addVersionOfParts, Repository.addDefault]
    cases QualifiedName.ofParts category package with
    | error e => rfl
    | ok name => cases Version.parse version <;> rfl
  | insert id => rfl

/-- What a request asks for does not depend on what is in the repository. -/
theorem change_withIndex (r : Repository) (index : PackageIndex) (request : Request) :
    request.change (r.withIndex index) = request.change r := by
  cases request <;> rfl

theorem take_of_refused {e : Error} (h : request.answer r = .error e) : request.take r = r := by
  unfold take
  rw [h]

theorem take_eq (r : Repository) (request : Request) :
    request.take r = match request.change r with
      | .ok change => r.withIndex (change.apply r.index)
      | .error _ => r := by
  unfold take
  rw [answer_eq]
  cases request.change r <;> rfl

end Request

namespace Repository

variable {r : Repository}

/-- The changes that requests ask for, those left out whose texts cannot be read. -/
def changes (r : Repository) (requests : List Request) : List Change :=
  requests.filterMap fun request => (request.change r).toOption

theorem changes_withIndex (r : Repository) (index : PackageIndex) (requests : List Request) :
    (r.withIndex index).changes requests = r.changes requests := by
  unfold changes
  simp only [Request.change_withIndex]

theorem fill_eq (r : Repository) (requests : List Request) :
    r.fill requests = r.withIndex ((r.changes requests).foldl Change.apply r.index) := by
  induction requests generalizing r with
  | nil => rfl
  | cons request requests ih =>
    have hcons : r.fill (request :: requests) = (request.take r).fill requests := rfl
    have hchanges : r.changes (request :: requests) =
        (request.change r).toOption.toList ++ r.changes requests := by
      unfold changes
      rw [List.filterMap_cons]
      cases request.change r <;> rfl
    rw [hcons, hchanges, Request.take_eq]
    cases request.change r with
    | error e => exact ih r
    | ok change =>
      refine (ih _).trans ?_
      rw [changes_withIndex]
      rfl

theorem fill_of_refused {before : List Request} {request : Request} {e : Error}
    (h : request.answer (r.fill before) = .error e) (after : List Request) :
    r.fill (before ++ request :: after) = r.fill (before ++ after) := by
  unfold fill at h ⊢
  rw [List.foldl_append, List.foldl_append, List.foldl_cons, Request.take_of_refused h]

end Repository

/-! ## From a tree of ebuilds -/

namespace EbuildTree.Source

variable {s : Source} {files : FileTree}

/-- The IDs of the package in a directory, none if it does not hold one. -/
def idsOfPackage (s : Source) (files : FileTree) (c : CategoryName) (dirName : String) :
    Except Error (List PackageId) :=
  let dir := s.location / c.text / dirName
  if files.isDirectory dir then
    match Name.ofText? .package dirName with
    | none => .ok []
    | some p => do return (← scanVersions files p dir).map (s.buildId files ⟨c, p⟩)
  else .ok []

def idsOfCategory (s : Source) (files : FileTree) (c : CategoryName) :
    Except Error (List PackageId) := do
  let found ← (← files.visibleNames (s.location / c.text)).mapM (s.idsOfPackage files c)
  return found.flatten

/-- All IDs, in the order in which the tree is gone through. -/
def ids (s : Source) (files : FileTree) : Except Error (List PackageId) := do
  let found ← (← scanCategories files s.location).mapM (s.idsOfCategory files)
  return found.flatten

theorem addPackage_eq (c : CategoryName) (index : PackageIndex) (dirName : String) :
    s.addPackage files c index dirName =
      (s.idsOfPackage files c dirName).map (·.foldl PackageIndex.insert index) := by
  unfold addPackage idsOfPackage
  dsimp only
  split
  · cases Name.ofText? .package dirName with
    | none => rfl
    | some p =>
      dsimp only
      cases scanVersions files p (s.location / c.text / dirName) with
      | error e => rfl
      | ok versions => exact congrArg Except.ok List.foldl_map.symm
  · rfl

theorem addCategory_eq (index : PackageIndex) (c : CategoryName) :
    s.addCategory files index c =
      (s.idsOfCategory files c).map (·.foldl PackageIndex.insert index) := by
  unfold addCategory idsOfCategory
  cases files.visibleNames (s.location / c.text) with
  | error e => rfl
  | ok names =>
    refine (Result.foldlM_eq_map_mapM (addPackage_eq c) names index).trans ?_
    dsimp only [bind, Except.bind]
    cases names.mapM (s.idsOfPackage files c) <;> rfl

theorem index_eq (s : Source) (files : FileTree) : s.index files =
    (s.ids files).map fun found => PackageIndex.ofChanges (found.map .insert) := by
  unfold index ids
  simp only [PackageIndex.ofChanges_map_insert]
  cases scanCategories files s.location with
  | error e => rfl
  | ok categories =>
    refine (Result.foldlM_eq_map_mapM addCategory_eq categories .empty).trans ?_
    dsimp only [bind, Except.bind]
    cases categories.mapM (s.idsOfCategory files) <;> rfl

end EbuildTree.Source

/-! ## From a database of installed packages -/

namespace InstalledDatabase

variable {files : FileTree} {options : InstalledOptions}

/-- The ID of the package in an entry of a category's directory, if it holds one that can be
read. -/
def idAt? (files : FileTree) (repository : RepositoryName) (c : CategoryName) (dir : Path)
    (entry : String) : Option PackageId :=
  if files.isDirectory (dir / entry) then
    (packageOf? entry).bind fun (p, v) =>
      (buildId files (dir / entry) (.bare ⟨c, p⟩ v repository)).toOption
  else none

def idsOfCategory (files : FileTree) (options : InstalledOptions) (name : String) :
    Except Error (List PackageId) :=
  let dir := options.location / name
  if files.isDirectory dir then
    match Name.ofText? .category name with
    | none => .ok []
    | some c => do
      return (← files.visibleNames dir).filterMap (idAt? files options.name c dir)
  else .ok []

/-- All IDs, in the order in which the database is gone through. -/
def ids (files : FileTree) (options : InstalledOptions) : Except Error (List PackageId) := do
  let found ← (← files.visibleNames options.location).mapM (idsOfCategory files options)
  return found.flatten

theorem addEntry_eq (repository : RepositoryName) (c : CategoryName) (dir : Path)
    (index : PackageIndex) (entry : String) :
    addEntry files repository c dir index entry =
      match idAt? files repository c dir entry with
      | some id => index.insert id
      | none => index := by
  unfold addEntry idAt?
  split
  · cases packageOf? entry with
    | none => rfl
    | some found =>
      dsimp only [Option.bind]
      cases buildId files (dir / entry) (.bare ⟨c, found.1⟩ found.2 repository) <;> rfl
  · rfl

theorem addCategory_eq (index : PackageIndex) (name : String) :
    addCategory files options index name =
      (idsOfCategory files options name).map (·.foldl PackageIndex.insert index) := by
  unfold addCategory idsOfCategory
  dsimp only
  split
  · cases Name.ofText? .category name with
    | none => rfl
    | some c =>
      dsimp only
      cases files.visibleNames (options.location / name) with
      | error e => rfl
      | ok entries =>
        refine congrArg Except.ok (.trans ?_ List.foldl_filterMap.symm)
        refine List.foldl_ext _ _ _ fun index entry _ => ?_
        rw [addEntry_eq]
        cases idAt? files options.name c (options.location / name) entry <;> rfl
  · rfl

theorem index_eq (files : FileTree) (options : InstalledOptions) : index files options =
    (ids files options).map fun found => PackageIndex.ofChanges (found.map .insert) := by
  unfold index ids
  simp only [PackageIndex.ofChanges_map_insert]
  cases files.visibleNames options.location with
  | error e => rfl
  | ok names =>
    refine (Result.foldlM_eq_map_mapM addCategory_eq names .empty).trans ?_
    dsimp only [bind, Except.bind]
    cases names.mapM (idsOfCategory files options) <;> rfl

end InstalledDatabase

/-! ## However it was filled -/

namespace PackageIndex

/-- However an index was filled, it shows what the changes say that were made to it, and a request
that is refused is none of them. -/
theorem reflects_however_filled :
    (∀ changes, (ofChanges changes).Reflects changes) ∧
    (∀ name installed r, Repository.manual name installed = .ok r → ∀ requests,
      (r.fill requests).index = ofChanges (r.changes requests) ∧
      (∀ request e, Request.answer (r.fill requests) request = .error e ↔
        Request.change r request = .error e) ∧
      ∀ request e after, Request.answer (r.fill requests) request = .error e →
        r.fill (requests ++ request :: after) = r.fill (requests ++ after)) ∧
    (∀ (s : EbuildTree.Source) files,
      s.index files = (s.ids files).map fun found => ofChanges (found.map .insert)) ∧
    (∀ files options, InstalledDatabase.index files options =
      (InstalledDatabase.ids files options).map fun found => ofChanges (found.map .insert)) := by
  refine ⟨reflects_ofChanges, fun name installed r hr requests => ⟨?_, fun request e => ?_, ?_⟩,
    EbuildTree.Source.index_eq, InstalledDatabase.index_eq⟩
  · obtain ⟨_, -, hempty⟩ := Result.bind_eq_ok_iff.mp hr
    cases hempty
    rw [Repository.fill_eq]
    rfl
  · rw [Request.answer_eq, Repository.fill_eq, Request.change_withIndex]
    cases request.change r with
    | error e' => simp only [Except.map, Except.error.injEq]
    | ok change => exact iff_of_false nofun nofun
  · exact fun request e after h => Repository.fill_of_refused h after

def firstRequests : List Request := [.addVersion "app/kit" "1.0", .addPackage "app/bag"]

def laterRequests : List Request := [.addVersionOfParts "app" "kit" "1.00-r0", .addCategory "zoo"]

/-- The last of equal versions stays, and a name that cannot be read leaves no trace. -/
theorem reflects_equal_versions : ∃ r, Repository.manual "main" false = .ok r ∧
    (r.fill (firstRequests ++ .addVersion "app" "2" :: laterRequests)).index.Reflects
      (r.changes (firstRequests ++ laterRequests)) ∧
    (r.fill (firstRequests ++ .addVersion "app" "2" :: laterRequests)).ids.map PackageId.text =
      ["app/kit-1.00-r0:0::main"] := by
  obtain ⟨r, hr⟩ := Result.exists_ok_of_isSome
    (show (Repository.manual "main" false).toOption.isSome = true by decide +kernel)
  obtain ⟨hreflects, hfilled, -⟩ := reflects_however_filled
  have hrefused : ((Repository.manual "main" false).toOption.map fun r =>
      (Request.answer (r.fill firstRequests) (.addVersion "app" "2")).toOption.isSome) =
        some false := by decide +kernel
  -- the equal versions meet in the index, so that their comparison has to be opened
  have hids : ((Repository.manual "main" false).toOption.map fun r =>
      (r.fill (firstRequests ++ .addVersion "app" "2" :: laterRequests)).ids.map
        PackageId.text) = some ["app/kit-1.00-r0:0::main"] := by
    simp only [Repository.fill_eq]
    unfold Change.apply insert compareVersions
    simp only [Version.compare_eq_padded]
    decide +kernel
  rw [hr] at hrefused hids
  obtain ⟨e, hanswer⟩ := Result.exists_error_of_isSome (Option.some.inj hrefused)
  refine ⟨r, hr, ?_, Option.some.inj hids⟩
  rw [(hfilled _ _ r hr firstRequests).2.2 _ e laterRequests hanswer, (hfilled _ _ r hr _).1]
  exact hreflects _

end PackageIndex

end PackageCatalog
