import PackageCatalog.FileTree
import PackageCatalog.Name

/-!
# Descriptions of USE flags

Flags are described for all packages in `use.desc` and in the files of `desc`, and for single
packages in `use.local.desc`. A later description takes the place of an earlier one.
-/

namespace PackageCatalog

/-- Descriptions of USE flags, the latest first. -/
structure FlagDescriptions where
  everywhere : List (UseFlag × String)
  byPackage : List ((QualifiedName × UseFlag) × String)

namespace FlagDescriptions

def splitLine? (line : String) : Option (String × String) :=
  (Text.splitAround " - " line).map fun (name, text) => (Text.trim name, Text.trim text)

/-- Takes in a line about a flag, whose name `lead` starts. -/
def addLine (lead : String) (d : FlagDescriptions) (line : String) : FlagDescriptions :=
  match splitLine? line with
  | none => d
  | some (name, text) =>
    match Name.ofText? .useFlag (lead ++ name) with
    | some flag => { d with everywhere := (flag, text) :: d.everywhere }
    | none => d

def addPackageLine (d : FlagDescriptions) (line : String) : FlagDescriptions :=
  match splitLine? line with
  | none => d
  | some (name, text) =>
    match Text.splitOnce ':' name with
    | none => d
    | some (package, flag) =>
      match (QualifiedName.parse package).toOption, Name.ofText? .useFlag flag with
      | some package, some flag => { d with byPackage := ((package, flag), text) :: d.byPackage }
      | _, _ => d

/-- Takes in a file of the directory `desc`; its name gives the start of its flags' names. -/
def addFile (files : FileTree) (dir : Path) (d : FlagDescriptions) (name : String) :
    Except Error FlagDescriptions :=
  match Text.beforeTail ".desc" name with
  | none => .ok d
  | some lead => do return (← files.readLines (dir / name)).foldl (addLine (lead ++ "_")) d

def load (files : FileTree) (dir : Path) : Except Error FlagDescriptions := do
  let d := (← files.readLines (dir / "use.desc")).foldl (addLine "") ⟨[], []⟩
  let d := (← files.readLines (dir / "use.local.desc")).foldl addPackageLine d
  match files.list (dir / "desc") with
  | .ok names => names.foldlM (addFile files (dir / "desc")) d
  | .error _ => return d

/-- The description of a flag for a package, its own one first. -/
def describe? (d : FlagDescriptions) (flag : UseFlag) (package : QualifiedName) : Option String :=
  (d.byPackage.lookup (package, flag)).or (d.everywhere.lookup flag)

end FlagDescriptions

end PackageCatalog
