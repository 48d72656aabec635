import PackageCatalog.Command.Run

/-!
# The program

`show_contents` lists the files of installed packages, `show_masks` says why versions are
masked. The program reads the directories in question into a file tree, runs the command over
it and prints what the command leaves behind.
-/

namespace PackageCatalog.Command

/-- Reads a file; one that cannot be read counts as binary. -/
def readNode (place : String) : IO FileNode := do
  try
    let bytes ← IO.FS.readBinFile place
    match String.fromUTF8? bytes with
    | some content => return .text content
    | none => return .binary
  catch _ => return .binary

/-- Puts what stands on the disk under a list of names into a tree, down to a depth. -/
def readInto (files : FileTree) (names : List String) : Nat → IO FileTree
  | 0 => return files
  | depth + 1 => do
    let place := (Path.ofNames names).text
    let entry := (← IO.currentDir) / place
    if ← entry.isDir then
      let mut tree := files.makeDirectory names
      for child in ← entry.readDir do
        tree ← readInto tree (names ++ [child.fileName]) depth
      return tree
    else if ← entry.pathExists then
      let seconds := (← entry.metadata).modified.sec
      let tree := files.insert names (← readNode place)
      return { tree with modified := fun n => if n = names then seconds else tree.modified n }
    else return files

/-- Reads those of a list of paths that a tree does not hold. -/
def readMissing (files : FileTree) (paths : List Path) : IO FileTree := do
  let mut tree := files
  for p in missing files paths do
    tree ← readInto tree (files.spell p) 40
  return tree

/-- Reads the parents of profiles until none is missing, in a number of rounds at most. -/
def readParents (files : FileTree) : Nat → IO FileTree
  | 0 => return files
  | rounds + 1 => do
    if (missing files (parentPaths files)).isEmpty then return files
    readParents (← readMissing files (parentPaths files)) rounds

def readFootprint (command : Name) (home : Path) (arguments : List String) : IO FileTree := do
  let current : Path := ⟨(← IO.currentDir).toString⟩
  let files := { FileTree.empty with workingDirectory := FileTree.empty.spell current }
  let start := startingPaths command current home arguments
  let files ← readMissing files start
  let files ← readMissing files (start.flatMap (configuredPaths files))
  readParents files 16

/-- The user's home, which a variable overrides. -/
def userHome : IO Path := do
  match ← IO.getEnv "PORTAGE_QUERY_HOME" with
  | some home => return ⟨home⟩
  | none => return ⟨(← IO.getEnv "HOME").getD "/"⟩

end PackageCatalog.Command

open PackageCatalog in
def main (arguments : List String) : IO UInt32 := do
  match arguments with
  | [] =>
    IO.eprintln "Usage: show_contents|show_masks [OPTIONS] <TARGETS>..."
    return 2
  | name :: rest =>
    match Command.Name.ofText? name with
    | none =>
      IO.eprintln s!"no such command: {name}"
      return 2
    | some command =>
      let home ← Command.userHome
      let files ← Command.readFootprint command home rest
      let outcome := Command.run command files home rest
      IO.print outcome.output
      IO.eprint outcome.errors
      return outcome.exitCode.toUInt32
