import PackageCatalog.MaskList
import PackageCatalog.Settings

/-!
# Profiles

A profile is what a directory and its parents say about a system: variables, USE flags that
are on, masked or forced, package masks, and the system set. This module holds the type, how
one directory's files are applied to it, and what it answers.
-/

namespace PackageCatalog

/-- A line that sets USE flags for the packages of an atom. -/
structure FlagLine where
  atom : Atom
  flags : List (UseFlag × Bool)

/-- What a stack of profile directories says. -/
structure Profile where
  directories : List Path
  settings : Settings
  useFlags : List (UseFlag × Bool)
  useMask : List UseFlag
  useForce : List UseFlag
  packageUse : List FlagLine
  packageUseMask : List FlagLine
  packageUseForce : List FlagLine
  packageMask : MaskList
  system : List Atom

/-- Splits off the hyphen of a removal: the rest, and whether the token adds. -/
def splitRemoval (token : String) : String × Bool :=
  match Text.afterLead "-" token with
  | some rest => (rest, false)
  | none => (token, true)

namespace FlagLine

/-- The flags of a list of words; words that name no flag are left out. -/
def flagsOf (words : List String) : List (UseFlag × Bool) :=
  words.filterMap fun word =>
    let (name, on) := splitRemoval word
    (Name.ofText? .useFlag name).map fun flag => (flag, on)

/-- The flag line that a text writes, if its atom is well formed. -/
def parse? (line : String) : Option FlagLine :=
  match Text.words line with
  | [] => none
  | atom :: words => (Atom.parse atom).toOption.map fun a => ⟨a, flagsOf words⟩

def load (files : FileTree) (path : Path) : Except Error (List FlagLine) := do
  return (← files.readLines path).filterMap parse?

/-- The last mention of a flag in the lines whose atom describes the package ID. -/
def lookup (lines : List FlagLine) (flag : UseFlag) (id : PackageId) : Option Bool :=
  (((lines.filter (·.atom.describes id)).flatMap FlagLine.flags).filter (·.1 = flag)).getLast?.map
    Prod.snd

end FlagLine

namespace Profile

def empty : Profile := ⟨[], [], [], [], [], [], [], [], .empty, []⟩

/-- The variables whose values accumulate over the directories. -/
def accumulating : List String :=
  ["USE", "USE_EXPAND", "USE_EXPAND_HIDDEN", "FEATURES", "ACCEPT_KEYWORDS", "CONFIG_PROTECT",
    "CONFIG_PROTECT_MASK", "IUSE_IMPLICIT"]

/-! ## Applying a directory -/

def applyFlagLine (flags : List UseFlag) (line : String) : List UseFlag :=
  let (name, adds) := splitRemoval line
  match Name.ofText? .useFlag name with
  | some flag => if adds then Sorted.insert compare flag flags else flags.filter (· != flag)
  | none => flags

def applyFlagFile (files : FileTree) (flags : List UseFlag) (path : Path) :
    Except Error (List UseFlag) := do
  return (← files.readLines path).foldl applyFlagLine flags

/-- Takes in a line of a `packages` file; only lines with a star concern the system set. -/
def applySystemLine (system : List Atom) (line : String) : List Atom :=
  let (entry, adds) := splitRemoval line
  match Text.afterLead "*" entry with
  | none => system
  | some text =>
    if adds then
      match Atom.parse text with
      | .ok atom => system ++ [atom]
      | .error _ => system
    else system.filter fun atom => atom.text != text

def applyDirectory (files : FileTree) (p : Profile) (dir : Path) : Except Error Profile := do
  let settings ←
    p.settings.loadInto accumulating.contains files (dir / "make.defaults")
  let useMask ← applyFlagFile files p.useMask (dir / "use.mask")
  let useForce ← applyFlagFile files p.useForce (dir / "use.force")
  let packageUse ← FlagLine.load files (dir / "package.use")
  let packageUseMask ← FlagLine.load files (dir / "package.use.mask")
  let packageUseForce ← FlagLine.load files (dir / "package.use.force")
  let packageMask ← p.packageMask.loadInto files (dir / "package.mask")
  let packageLines ← files.readLines (dir / "packages")
  return {
    directories := p.directories ++ [dir]
    settings := settings
    useFlags := p.useFlags
    useMask := useMask
    useForce := useForce
    packageUse := p.packageUse ++ packageUse
    packageUseMask := p.packageUseMask ++ packageUseMask
    packageUseForce := p.packageUseForce ++ packageUseForce
    packageMask := packageMask
    system := packageLines.foldl applySystemLine p.system }

/-! ## The flags that variables set -/

def setFlag (flags : List (UseFlag × Bool)) (flag : UseFlag) (on : Bool) : List (UseFlag × Bool) :=
  Sorted.alter compare flag (fun _ => on) flags

def applyUseToken (flags : List (UseFlag × Bool)) (token : String) : List (UseFlag × Bool) :=
  let (name, on) := splitRemoval token
  match Name.ofText? .useFlag name with
  | some flag => setFlag flags flag on
  | none => flags

/-- Turns on the flags that a variable named in `USE_EXPAND` stands for. -/
def applyExpansion (settings : Settings) (flags : List (UseFlag × Bool)) (name : String) :
    List (UseFlag × Bool) :=
  (Text.words ((settings.get? name).getD "")).foldl
    (fun flags value =>
      match Name.ofText? .useFlag (name.toLower ++ "_" ++ value) with
      | some flag => setFlag flags flag true
      | none => flags)
    flags

def flagsOf (settings : Settings) : List (UseFlag × Bool) :=
  (Text.words ((settings.get? "USE_EXPAND").getD "")).foldl (applyExpansion settings)
    ((Text.words ((settings.get? "USE").getD "")).foldl applyUseToken [])

/-- Works out the flags once every directory is applied. -/
def finish (p : Profile) : Profile := { p with useFlags := flagsOf p.settings }

/-! ## What a profile answers -/

def masksUse (p : Profile) (flag : UseFlag) (id : PackageId) : Bool :=
  (FlagLine.lookup p.packageUseMask flag id).getD (p.useMask.contains flag)

def forcesUse (p : Profile) (flag : UseFlag) (id : PackageId) : Bool :=
  (FlagLine.lookup p.packageUseForce flag id).getD (p.useForce.contains flag)

/-- The state of a flag for a package ID: masks come first, then forces, then `package.use`,
then the variables. -/
def useState (p : Profile) (flag : UseFlag) (id : PackageId) : UseState :=
  if p.masksUse flag id then .disabled
  else if p.forcesUse flag id then .enabled
  else match (FlagLine.lookup p.packageUse flag id).or (Sorted.find? compare flag p.useFlags) with
    | some on => .ofBool on
    | none => .unspecified

end Profile

end PackageCatalog
