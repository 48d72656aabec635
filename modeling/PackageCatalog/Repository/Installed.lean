import PackageCatalog.Repository.Basic

/-!
# Installed packages

The database of installed packages has a directory for each package, named for category,
package and version, with one file per variable. A file that cannot be read is left out.
-/

namespace PackageCatalog

/-- How to open the database of installed packages. -/
structure InstalledOptions where
  location : Path
  name : RepositoryName
  root : Path

def InstalledOptions.at (location : Path) : InstalledOptions :=
  ⟨location, ⟨"installed", by decide⟩, ⟨"/"⟩⟩

namespace InstalledDatabase

/-- Variables that do not become keys. -/
def notKeys : List String := ["SLOT", "CONTENTS", "BUILD_TIME"]

def isVariableFile (name : String) : Bool :=
  Text.allChars (fun c => c.isUpper || c.isDigit || c == '_') name

def addVariable (id : PackageId) (name value : String) : PackageId :=
  if name = "SLOT" then
    match Slot.parse value with
    | .ok slot => id.withSlot slot
    | .error _ => id
  else if notKeys.contains name then id
  else id.withKey (.ofVariable name value)

/-- The readable variables in a package's directory, trimmed. -/
def readVariables (files : FileTree) (dir : Path) (names : List String) :
    List (String × String) :=
  (names.filter isVariableFile).filterMap fun name =>
    (files.read (dir / name)).toOption.map fun text => (name, Text.trim text)

/-- Whether the package can be configured: its phases say so, or it names none. -/
def hasConfig (values : List (String × String)) : Bool :=
  match values.lookup "DEFINED_PHASES" with
  | some phases => (Text.words phases).contains "config"
  | none => true

/-- When a package was installed: its `BUILD_TIME`, or else when `CONTENTS` was written. -/
def installedTime? (files : FileTree) (dir : Path) : Option Int :=
  let built := (files.read (dir / "BUILD_TIME")).toOption.bind fun text =>
    (Metadata.Key.parseTime text).toOption
  built.or (files.modifiedAt? (dir / "CONTENTS"))

def buildId (files : FileTree) (dir : Path) (id : PackageId) : Except Error PackageId := do
  let values := readVariables files dir (← files.visibleNames dir)
  let id := values.foldl (fun id v => addVariable id v.1 v.2) id
  let contents := dir / "CONTENTS"
  let id := if files.isFile contents then id.withKey (.contentsFile contents) else id
  let id := match installedTime? files dir with
    | some seconds => id.withKey (.ofTime "INSTALLED_TIME" "Installed time" seconds)
    | none => id
  let id := id.withActions Action.ofInstalled
  return if hasConfig values then id.withActions [.config] else id

/-- The name and version in the name of a package's directory. -/
def packageOf? (entry : String) : Option (PackageName × Version) := do
  let (name, v) ← Atom.splitVersion? entry.toList
  let p ← Name.ofText? .package (String.ofList name)
  return (p, v)

def addEntry (files : FileTree) (repository : RepositoryName) (c : CategoryName) (dir : Path)
    (index : PackageIndex) (entry : String) : PackageIndex :=
  if files.isDirectory (dir / entry) then
    match packageOf? entry with
    | none => index
    | some (p, v) =>
      match buildId files (dir / entry) (.bare ⟨c, p⟩ v repository) with
      | .ok id => index.insert id
      | .error _ => index
  else index

def addCategory (files : FileTree) (options : InstalledOptions) (index : PackageIndex)
    (name : String) : Except Error PackageIndex :=
  let dir := options.location / name
  if files.isDirectory dir then
    match Name.ofText? .category name with
    | none => .ok index
    | some c => do
      return (← files.visibleNames dir).foldl (addEntry files options.name c dir) index
  else .ok index

def index (files : FileTree) (options : InstalledOptions) : Except Error PackageIndex := do
  (← files.visibleNames options.location).foldlM (addCategory files options) .empty

end InstalledDatabase

namespace Repository

def openInstalled (files : FileTree) (options : InstalledOptions) : Except Error Repository := do
  if !files.isDirectory options.location then
    throw (.badConfig options.location.text .notInstalledDirectory)
  let index ← InstalledDatabase.index files options
  return ⟨options.name,
    [formatKey "vdb", locationKey options.location, rootKey options.root],
    index, .installed options.location⟩

end Repository

end PackageCatalog
