import PackageCatalog.Mirrors
import PackageCatalog.PackageId
import PackageCatalog.Profile.Basic
import PackageCatalog.Profile.Descriptions
import PackageCatalog.Profile.Listing
import PackageCatalog.Sorted

/-!
# Repositories

A repository is an ebuild tree, the database of installed packages, or filled by hand. All
have a name, keys that describe them and an index of their package IDs; what else they can
answer depends on their kind. A catalog holds repositories by importance.
-/

namespace PackageCatalog

/-!
## Package indexes

The package IDs of a repository in order: categories and names increase strictly, and so do
the versions under each name. An ID takes the place of one of an equal version.
-/

/-- Categories, and package IDs by name. Categories and names may be empty. -/
structure PackageIndex where
  categories : List CategoryName
  packages : List (QualifiedName × List PackageId)

namespace PackageIndex

def empty : PackageIndex := ⟨[], []⟩

/-! ### Filling an index -/

def addCategory (index : PackageIndex) (c : CategoryName) : PackageIndex :=
  { index with categories := Sorted.insert compare c index.categories }

/-- Changes the IDs of a name, which is added together with its category if need be. -/
def alter (index : PackageIndex) (name : QualifiedName)
    (f : List PackageId → List PackageId) : PackageIndex :=
  { index.addCategory name.category with
    packages :=
      Sorted.alter QualifiedName.compare name (fun ids => f (ids.getD [])) index.packages }

/-- Adds a name without versions. -/
def addPackage (index : PackageIndex) (name : QualifiedName) : PackageIndex :=
  index.alter name id

def compareVersions (a b : PackageId) : Ordering := a.version.compare b.version

def insert (index : PackageIndex) (id : PackageId) : PackageIndex :=
  index.alter id.name (Sorted.insert compareVersions id)

/-! ### Asking an index -/

def categoryNames (index : PackageIndex) : List CategoryName := index.categories

/-- The names in a category, in order. -/
def packageNames (index : PackageIndex) (c : CategoryName) : List QualifiedName :=
  (index.packages.map Prod.fst).filter (·.category = c)

/-- The IDs of a name, in the order of their versions. -/
def packageIds (index : PackageIndex) (name : QualifiedName) : List PackageId :=
  (Sorted.find? QualifiedName.compare name index.packages).getD []

def ids (index : PackageIndex) : List PackageId := index.packages.flatMap Prod.snd

end PackageIndex

/-- What an ebuild tree holds besides its package IDs. -/
structure EbuildTree where
  location : Path
  syncUri? : Option String
  profiles : List ProfileListing
  descriptions : FlagDescriptions
  mirrors : MirrorList
  mask : MaskList
  profile : Profile

namespace EbuildTree

/-- The profile at a path, if it is listed. -/
def findProfile? (tree : EbuildTree) (path : Path) : Option ProfileListing :=
  tree.profiles.find? (·.path.same path)

/-- A variable of the current profile, empty if it is not set. -/
def profileVariable (tree : EbuildTree) (name : String) : String :=
  (tree.profile.settings.get? name).getD ""

end EbuildTree

/-- The kinds of repositories. One that is filled by hand may stand for installed packages. -/
inductive RepositoryKind where
  | manual (installed : Bool)
  | ebuilds (tree : EbuildTree)
  | installed (location : Path)

/-- A source of package IDs. -/
structure Repository where
  name : RepositoryName
  keys : List Metadata.Key
  index : PackageIndex
  kind : RepositoryKind

namespace Repository

def formatKey (format : String) : Metadata.Key :=
  .ofString "format" "Format" .significant format

def locationKey (location : Path) : Metadata.Key :=
  .ofPath "location" "Location" .significant location

def rootKey (root : Path) : Metadata.Key := .ofPath "root" "Root" .normal root

/-! ## Package IDs -/

def categoryNames (r : Repository) : List CategoryName := r.index.categoryNames

def packageNames (r : Repository) (c : CategoryName) : List QualifiedName := r.index.packageNames c

def packageIds (r : Repository) (name : QualifiedName) : List PackageId := r.index.packageIds name

/-- All IDs, category by category and name by name. -/
def ids (r : Repository) : List PackageId :=
  r.categoryNames.flatMap fun c => (r.packageNames c).flatMap r.packageIds

def hasCategory (r : Repository) (c : CategoryName) : Bool := r.categoryNames.contains c

def hasPackage (r : Repository) (name : QualifiedName) : Bool :=
  (r.packageNames name.category).contains name

def categoriesContaining (r : Repository) (p : PackageName) : List CategoryName :=
  r.categoryNames.filter fun c => (r.packageNames c).any (·.package = p)

/-- The ID of a name and an equal version. -/
def find? (r : Repository) (name : QualifiedName) (v : Version) : Option PackageId :=
  (r.packageIds name).find? (·.version.equals v)

/-! ## The repository itself -/

def key? (r : Repository) (name : String) : Option Metadata.Key := r.keys.find? (·.name = name)

/-- The root under which the packages are installed, if they are. -/
def installedRoot? (r : Repository) : Option Metadata.Key := r.key? "root"

/-- Whether an ID could support an action, judged by the kind of repository alone. -/
def mightSupport (r : Repository) (a : Action) : Bool :=
  match r.kind with
  | .manual false => Action.ofEbuilds.contains a
  | .ebuilds _ => Action.ofEbuilds.contains a
  | .manual true => Action.ofInstalled.contains a || a = .config
  | .installed _ => Action.ofInstalled.contains a || a = .config

def tree? (r : Repository) : Option EbuildTree :=
  match r.kind with
  | .ebuilds tree => some tree
  | _ => none

def isInstalledDatabase (r : Repository) : Bool :=
  match r.kind with
  | .installed _ => true
  | _ => false

def isManual (r : Repository) : Bool :=
  match r.kind with
  | .manual _ => true
  | _ => false

/-- The set of a name that the repository defines: the system set of an ebuild tree. -/
def packageSet? (r : Repository) (name : SetName) : Option PackageSet :=
  if name.text = "system" then r.tree?.map fun tree => ⟨name, tree.profile.system⟩ else none

/-! ## USE flags -/

/-- Whether the repository says anything about USE flags. -/
def knowsUse (r : Repository) : Bool :=
  match r.kind with
  | .manual _ => false
  | .ebuilds _ => true
  | .installed _ => true

/-- The state that `IUSE` gives a flag of a package ID. -/
def declaredState (flag : UseFlag) (id : PackageId) : UseState :=
  match (id.key? "IUSE").map Metadata.Key.value with
  | some (.ok (.declaredFlagSet set)) =>
    match DeclaredFlag.find? set flag with
    | some d => d.state
    | none => .unspecified
  | _ => .unspecified

/-- The words of a key whose value is a set, none if there is no such key or it is
malformed. -/
def setWords (id : PackageId) (name : String) : List String :=
  match (id.key? name).map Metadata.Key.value with
  | some (.ok (.stringSet words)) => words
  | some (.ok (.useFlagSet flags)) => flags.map Name.text
  | some (.ok (.declaredFlagSet flags)) => flags.map fun d => d.name.text
  | _ => []

/-- The state of a flag when the package was installed: what it was built with is on, and
what it declares besides is off. -/
def installedState (flag : UseFlag) (id : PackageId) : UseState :=
  if (setWords id "USE").contains flag.text then .enabled
  else if (setWords id "IUSE").contains flag.text then .disabled
  else .unspecified

def useState (r : Repository) (flag : UseFlag) (id : PackageId) : UseState :=
  match r.kind with
  | .manual _ => .unspecified
  | .installed _ => installedState flag id
  | .ebuilds tree =>
    match tree.profile.useState flag id with
    | .unspecified => declaredState flag id
    | state => state

def masksUse (r : Repository) (flag : UseFlag) (id : PackageId) : Bool :=
  r.tree?.any fun tree => tree.profile.masksUse flag id

def forcesUse (r : Repository) (flag : UseFlag) (id : PackageId) : Bool :=
  r.tree?.any fun tree => tree.profile.forcesUse flag id

/-- The state of a flag for a package ID once masks and forces have had their say. -/
def effectiveUse (r : Repository) (flag : UseFlag) (id : PackageId) : UseState :=
  if r.masksUse flag id then .disabled
  else if r.forcesUse flag id then .enabled
  else r.useState flag id

def describeUse? (r : Repository) (flag : UseFlag) (id : PackageId) : Option String :=
  r.tree?.bind fun tree => tree.descriptions.describe? flag id.name

/-! ## Virtual packages -/

/-- The names that installed packages provide, each with the ID that does. -/
def provided (r : Repository) : List (QualifiedName × PackageId) :=
  r.index.ids.flatMap fun id =>
    (setWords id "PROVIDE").filterMap fun word =>
      (QualifiedName.parse word).toOption.map fun name => (name, id)

end Repository

/-!
## Catalogs

The repositories of an environment, the most important first. Of two repositories of equal
importance the one that was added later comes first.
-/

/-- Repositories with their importance, the most important first. -/
structure Catalog where
  members : List (Int × Repository)

namespace Catalog

def empty : Catalog := ⟨[]⟩

def repositories (c : Catalog) : List Repository := c.members.map Prod.snd

def names (c : Catalog) : List RepositoryName := c.repositories.map Repository.name

def has (c : Catalog) (name : RepositoryName) : Bool := c.names.contains name

/-- Puts an item in front of the first that is not more important. -/
def place {α : Type} (importance : Int) (a : α) : List (Int × α) → List (Int × α)
  | [] => [(importance, a)]
  | (i, b) :: rest =>
    if i ≤ importance then (importance, a) :: (i, b) :: rest else (i, b) :: place importance a rest

/-- Adds a repository, unless its name is taken. -/
def add (c : Catalog) (importance : Int) (r : Repository) : Except Error Catalog :=
  if c.has r.name then .error (.duplicateRepository r.name.text)
  else .ok ⟨place importance r c.members⟩

/-- The repository of a name, with its importance. -/
def find? (c : Catalog) (name : RepositoryName) : Option (Int × Repository) :=
  c.members.find? (·.2.name = name)

def fetch (c : Catalog) (name : RepositoryName) : Except Error Repository :=
  match c.find? name with
  | some (_, r) => .ok r
  | none => .error (.noSuchRepository name.text)

def importance (c : Catalog) (name : RepositoryName) : Except Error Int :=
  match c.find? name with
  | some (i, _) => .ok i
  | none => .error (.noSuchRepository name.text)

/-- Whether the repository `a` comes before `b`; a name that is not known comes after all
others. -/
def moreImportant (c : Catalog) (a b : RepositoryName) : Bool :=
  c.names.idxOf a < c.names.idxOf b

def qualifiedNames (c : Catalog) (p : PackageName) : List QualifiedName :=
  Sorted.distinct QualifiedName.compare <|
    c.repositories.flatMap fun r => (r.categoriesContaining p).map fun category => ⟨category, p⟩

end Catalog

end PackageCatalog
