import PackageCatalog.CacheEntry
import PackageCatalog.Eapi
import PackageCatalog.Profile.Load
import PackageCatalog.Repository.Basic

/-!
# Ebuild repositories

An ebuild repository is a directory of categories and packages. Metadata comes from the
cache under `metadata/md5-cache`; ebuilds are only named, never run. The repository is
indexed when it is opened, and again whenever its profile changes, as the profile's masks are
part of each ID.
-/

namespace PackageCatalog

/-- How to open an ebuild repository. -/
structure EbuildOptions where
  location : Path
  name? : Option RepositoryName
  profile? : Option Path
  syncUri? : Option String

def EbuildOptions.at (location : Path) : EbuildOptions := ⟨location, none, none, none⟩

namespace EbuildTree

/-- The version in the name of an ebuild of a package. -/
def ebuildVersion? (package : PackageName) (file : String) : Option Version := do
  let stem ← Text.beforeTail ".ebuild" file
  let version ← Text.afterLead (package.text ++ "-") stem
  Version.ofChars? version.toList

def scanVersions (files : FileTree) (package : PackageName) (dir : Path) :
    Except Error (List Version) := do
  return (← files.visibleNames dir).filterMap (ebuildVersion? package)

/-! ## Package IDs -/

/-- The EAPI that a cache entry names. -/
def eapiText (entry : CacheEntry) : String :=
  let text := Text.trim ((entry.get? "EAPI").getD "")
  if text.isEmpty then "0" else text

/-- Adds the key of a variable, unless it has a place of its own or the EAPI lacks it. -/
def addVariable (entry : CacheEntry) (eapi? : Option Eapi) (id : PackageId)
    (v : String × String) : PackageId :=
  if eapi?.any fun e => !e.definesVariable v.1 then id
  else if v.1 = "SLOT" ∨ v.1 = "EAPI" then id
  else if v.1 = "SRC_URI" then id.withKey (.fetches v.2 ((entry.get? "RESTRICT").getD ""))
  else id.withKey (.ofVariable v.1 v.2)

def addEntry (id : PackageId) (entry : CacheEntry) : PackageId :=
  let id := match entry.slot with
    | .ok slot => id.withSlot slot
    | .error _ => id
  let eapi := eapiText entry
  let eapi? := (Eapi.ofMetadata eapi).toOption
  let id := id.withKey (.ofVariable "EAPI" eapi)
  let id := if eapi?.isSome then id else id.withMask (.unsupportedEapi eapi)
  let id := entry.values.foldl (addVariable entry eapi?) id
  if (entry.get? "INHERITED").isNone && !entry.eclasses.isEmpty then
    id.withKey (.ofVariable "INHERITED" (Text.join " " entry.inherited))
  else id

def noEntryMask : Mask := .unsupported "No usable metadata cache entry"

/-- Adds the masks that describe an ID, and the keys that say where they are written. -/
def addMasks (mask profileMask : MaskList) (id : PackageId) : PackageId :=
  let ofRepository := mask.find? id
  let ofProfile := profileMask.find? id
  let id := id.withKey (.ofMaskInfo "repository_mask" ofRepository)
  let id := id.withKey (.ofMaskInfo "profile_mask" ofProfile)
  let id := match ofRepository with
    | some info => id.withMask (.repository info)
    | none => id
  match ofProfile with
  | some info => id.withMask (.profile info)
  | none => id

/-- What is needed to build the IDs of a repository. -/
structure Source where
  repository : RepositoryName
  location : Path
  mask : MaskList
  profileMask : MaskList

def Source.cachePath (s : Source) (name : QualifiedName) (v : Version) : Path :=
  s.location / "metadata" / "md5-cache" / name.category.text / (name.package.text ++ "-" ++ v.text)

def Source.packageDir (s : Source) (name : QualifiedName) : Path :=
  s.location / name.category.text / name.package.text

def Source.buildId (s : Source) (files : FileTree) (name : QualifiedName) (v : Version) :
    PackageId :=
  let id := (PackageId.bare name v s.repository).withActions Action.ofEbuilds
  let id := match CacheEntry.load files (s.cachePath name v) with
    | .ok entry => addEntry id entry
    | .error _ => id.withMask noEntryMask
  let ebuild := s.packageDir name / (name.package.text ++ "-" ++ v.text ++ ".ebuild")
  addMasks s.mask s.profileMask
    (id.withKey (.ofPath "EBUILD" "Ebuild location" .internal ebuild))

def Source.addPackage (s : Source) (files : FileTree) (c : CategoryName) (index : PackageIndex)
    (dirName : String) : Except Error PackageIndex :=
  let dir := s.location / c.text / dirName
  if files.isDirectory dir then
    match Name.ofText? .package dirName with
    | none => .ok index
    | some p => do
      let versions ← scanVersions files p dir
      return versions.foldl (fun index v => index.insert (s.buildId files ⟨c, p⟩ v)) index
  else .ok index

def Source.addCategory (s : Source) (files : FileTree) (index : PackageIndex) (c : CategoryName) :
    Except Error PackageIndex := do
  (← files.visibleNames (s.location / c.text)).foldlM (s.addPackage files c) index

def Source.index (s : Source) (files : FileTree) : Except Error PackageIndex := do
  (← scanCategories files s.location).foldlM (s.addCategory files) .empty

end EbuildTree

namespace Repository

def ebuildKeys (options : EbuildOptions) : List Metadata.Key :=
  [formatKey "ebuild", locationKey options.location] ++
    (options.syncUri?.map fun uri => .ofString "sync" "Sync URI" .normal uri).toList

/-- Opens an ebuild repository. Unless another is asked for, its profile is the first that it
lists. -/
def openEbuilds (files : FileTree) (options : EbuildOptions) : Except Error Repository := do
  let location := options.location
  let dir := location / "profiles"
  if !files.isDirectory location then
    throw (.badConfig location.text .notRepositoryDirectory)
  let name ← match options.name? with
    | some name => pure name
    | none => readName files location
  let profiles ← ProfileListing.load files dir
  let profile ← match options.profile?.or (profiles.head?.map ProfileListing.path) with
    | some path => Profile.load files path
    | none => pure .empty
  let descriptions ← FlagDescriptions.load files dir
  let mirrors ← MirrorList.load files (dir / "thirdpartymirrors")
  let mask ← MaskList.load files (dir / "package.mask")
  let index ← EbuildTree.Source.index ⟨name, location, mask, profile.packageMask⟩ files
  return ⟨name, ebuildKeys options, index,
    .ebuilds ⟨location, options.syncUri?, profiles, descriptions, mirrors, mask, profile⟩⟩

/-- Switches an ebuild tree to the profile at a path; on an error nothing changes. -/
def setProfile (files : FileTree) (r : Repository) (tree : EbuildTree) (path : Path) :
    Except Error Repository := do
  let profile ← Profile.load files path
  let index ←
    EbuildTree.Source.index ⟨r.name, tree.location, tree.mask, profile.packageMask⟩ files
  return { r with index := index, kind := .ebuilds { tree with profile := profile } }

end Repository

end PackageCatalog
