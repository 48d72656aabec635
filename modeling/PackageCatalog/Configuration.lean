import PackageCatalog.Repository.Basic
import PackageCatalog.Repository.Ebuild
import PackageCatalog.Repository.Installed

/-!
# Configuration

What a user's configuration directory says: which keywords and licenses are accepted, which
USE flags are set, what is masked, and which repositories there are. Later lines win over
earlier ones.
-/

namespace PackageCatalog

/-- A line that gives values to the packages of an atom. -/
structure Rule (α : Type) where
  atom : Atom
  values : List α

/-- The values for a package ID, in the order of the lines. -/
def Rule.valuesFor {α : Type} (rules : List (Rule α)) (id : PackageId) : List α :=
  (rules.filter (·.atom.describes id)).flatMap Rule.values

/-- A user's configuration, apart from the repositories. -/
structure Configuration where
  directory : Path
  distribution : String
  keywords : List (Rule Keyword)
  licenses : List (Rule String)
  useFlags : List (Rule (UseFlag × Bool))
  mirrors : MirrorList
  packageMask : List Atom
  packageUnmask : List Atom
  world : List Atom
  sets : List PackageSet

namespace Configuration

/-! ## Policy -/

/-- What a token of `licenses.conf` makes of the answer so far. -/
def applyLicenseToken (license : String) (accepted : Bool) (token : String) : Bool :=
  if token = "*" then true
  else if token = "-*" then false
  else if token = license then true
  else if token = "-" ++ license then false
  else accepted

def acceptsLicense (c : Configuration) (license : String) (id : PackageId) : Bool :=
  (Rule.valuesFor c.licenses id).foldl (applyLicenseToken license) false

/-- What a keyword of `keywords.conf` makes of those accepted so far. -/
def applyKeyword (accepted : List Keyword) (k : Keyword) : List Keyword :=
  match k.stability with
  | .disabledAll => []
  | .disabled => accepted.filter (·.arch != k.arch)
  | _ => accepted ++ [k]

def acceptsKeywords (c : Configuration) (keywords : List Keyword) (id : PackageId) : Bool :=
  Keyword.anyAccepted keywords ((Rule.valuesFor c.keywords id).foldl applyKeyword [])

/-- The last mention of a flag in the lines for a package ID. -/
def mentionOf? (c : Configuration) (flag : UseFlag) (id : PackageId) : Option Bool :=
  ((Rule.valuesFor c.useFlags id).filter (·.1 = flag)).getLast?.map Prod.snd

def masks (c : Configuration) (id : PackageId) : Bool := c.packageMask.any (·.describes id)

def unmasks (c : Configuration) (id : PackageId) : Bool := c.packageUnmask.any (·.describes id)

/-! ## Reading the files -/

/-- Turns an error into one of a configuration file. -/
def blame {α : Type} (path : Path) : Except Error α → Except Error α
  | .ok a => .ok a
  | .error e => .error (.badConfig path.text (.because e))

def readAtom (path : Path) (token : String) : Except Error Atom :=
  blame path (Atom.parseWildcard token)

def readRules {α : Type} (files : FileTree) (path : Path) (parse : String → Except Error α) :
    Except Error (List (Rule α)) := do
  let rules ← (← files.readLines path).mapM fun line =>
    match Text.words line with
    | [] => pure none
    | atom :: tokens => do
      let atom ← readAtom path atom
      let values ← tokens.mapM fun token => blame path (parse token)
      return some ⟨atom, values⟩
  return rules.filterMap fun rule => rule

/-- The flag that a token of `use.conf` sets. -/
def readFlag (token : String) : Except Error (UseFlag × Bool) := do
  let (name, on) := splitRemoval token
  return (← Name.parse .useFlag name, on)

/-- The atoms of a file, one a line; a mark may stand in front. -/
def readAtoms (files : FileTree) (path : Path) : Except Error (List Atom) := do
  (← files.readLines path).mapM fun line =>
    match Text.words line with
    | [atom] => readAtom path atom
    | ["*", atom] => readAtom path atom
    | ["?", atom] => readAtom path atom
    | _ => .error (.badConfig path.text (.notOneSpec line))

/-- The sets of a directory, each in a file of its name. -/
def readSets (files : FileTree) (dir : Path) : Except Error (List PackageSet) := do
  let names := (← files.visibleNames dir).filterMap (Text.beforeTail ".conf")
  names.mapM fun name => do
    let path := dir / (name ++ ".conf")
    let set ← blame path (Name.parse .set name)
    return ⟨set, ← readAtoms files path⟩

def resolvePath (base : Path) (path : String) : Path :=
  if Path.isAbsolute ⟨path⟩ then ⟨path⟩ else base / path

/-- The settings of a file, in which no variable accumulates. -/
def readSettings (files : FileTree) (path : Path) : Except Error Settings :=
  Settings.loadInto (fun _ => false) [] files path

def load (files : FileTree) (dir : Path) : Except Error Configuration := do
  if !files.isDirectory dir then throw (.badConfig dir.text .notDirectory)
  let general ← readSettings files (dir / "general.conf")
  let keywords ← readRules files (dir / "keywords.conf") Keyword.parse
  let licenses ← readRules files (dir / "licenses.conf") Except.ok
  let useFlags ← readRules files (dir / "use.conf") readFlag
  let mirrors ← MirrorList.load files (dir / "mirrors.conf")
  let packageMask ← readAtoms files (dir / "package_mask.conf")
  let packageUnmask ← readAtoms files (dir / "package_unmask.conf")
  let world ← readAtoms files (resolvePath dir ((general.get? "world").getD "world"))
  let sets ← readSets files (dir / "sets")
  return {
    directory := dir
    distribution := (general.get? "distribution").getD "gentoo"
    keywords := keywords
    licenses := licenses
    useFlags := useFlags
    mirrors := mirrors
    packageMask := packageMask
    packageUnmask := packageUnmask
    world := world
    sets := sets }

/-! ## Repositories -/

/-- What a repository's file says. -/
structure RepositorySettings where
  location : Path
  importance : Int
  name? : Option RepositoryName

/-- A setting that is not empty. -/
def nonempty? (settings : Settings) (name : String) : Option String :=
  (settings.get? name).filter (!·.isEmpty)

/-- The importance that the settings give, 0 by default. -/
def readImportance (path : Path) (settings : Settings) : Except Error Int :=
  match nonempty? settings "importance" with
  | none => .ok 0
  | some text =>
    match Text.readInteger .bits32 text with
    | .ok i => .ok i
    | .error fault => .error (.badConfig path.text (.badImportance text fault))

/-- What the settings of a file say about every kind of repository. -/
def readRepositorySettings (path dir : Path) (settings : Settings) :
    Except Error RepositorySettings := do
  let location ← match nonempty? settings "location" with
    | some location => pure (resolvePath dir location)
    | none => throw (.badConfig path.text .missingLocation)
  let importance ← readImportance path settings
  let name? ← match nonempty? settings "name" with
    | some name => some <$> blame path (Name.parse .repository name)
    | none => pure none
  return ⟨location, importance, name?⟩

def openAs (files : FileTree) (path : Path) (common : RepositorySettings) (settings : Settings) :
    Option String → Except Error Repository
  | some "ebuild" =>
    Repository.openEbuilds files
      ⟨common.location, common.name?,
        (nonempty? settings "profile").map (resolvePath (common.location / "profiles")),
        nonempty? settings "sync"⟩
  | some "vdb" =>
    let defaults := InstalledOptions.at common.location
    Repository.openInstalled files
      ⟨common.location, common.name?.getD defaults.name,
        ((nonempty? settings "root").map Path.mk).getD defaults.root⟩
  | some other => .error (.badConfig path.text (.unknownFormat other))
  | none => .error (.badConfig path.text .missingFormat)

def openRepository (files : FileTree) (dir path : Path) : Except Error (Int × Repository) := do
  let settings ← readSettings files path
  let common ← readRepositorySettings path dir settings
  let r ← openAs files path common settings (nonempty? settings "format")
  return (common.importance, r)

def addRepository (files : FileTree) (dir : Path) (catalog : Catalog) (file : String) :
    Except Error Catalog := do
  let path := dir / "repositories" / file
  let (importance, r) ← openRepository files dir path
  blame path (catalog.add importance r)

def loadCatalog (files : FileTree) (dir : Path) : Except Error Catalog := do
  let names ← files.visibleNames (dir / "repositories")
  (names.filter fun n => (Text.beforeTail ".conf" n).isSome).foldlM (addRepository files dir) .empty

end Configuration

end PackageCatalog
