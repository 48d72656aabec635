import PackageCatalog.PackageId

/-!
# Mask lists

The active lines of one or more `package.mask` files. Files are applied one after the other;
a line that starts with a hyphen removes the masks of the same text that came before it. The
comment block above a run of masks belongs to each of them.
-/

namespace PackageCatalog

/-- An active mask. -/
structure MaskEntry where
  atom : Atom
  info : MaskInfo

/-- The active masks, in the order of their lines. -/
structure MaskList where
  entries : List MaskEntry

namespace MaskList

def empty : MaskList := ⟨[]⟩

def isEmpty (list : MaskList) : Bool := list.entries.isEmpty

/-- What is remembered between two lines: the comment lines above, whether a mask has used
them, and the masks so far. -/
structure Scan where
  comment : List String
  used : Bool
  entries : List MaskEntry

/-- The text of a comment line behind its mark and one space. -/
def commentText (rest : List Char) : String :=
  String.ofList (match rest with
    | ' ' :: text => text
    | text => text)

def Scan.step (file : Path) (scan : Scan) (line : String) : Scan :=
  match line.toList with
  | [] => { scan with comment := [], used := false }
  | '#' :: rest =>
    let above := if scan.used then [] else scan.comment
    { scan with comment := above ++ [commentText rest], used := false }
  | '-' :: token =>
    { scan with entries := scan.entries.filter fun e => e.info.token != String.ofList token }
  | _ =>
    match Atom.parse line with
    | .ok atom =>
      { scan with used := true, entries := scan.entries ++ [⟨atom, ⟨file, scan.comment, line⟩⟩] }
    | .error _ => scan

def apply (list : MaskList) (file : Path) (text : String) : MaskList :=
  let lines := (Text.lines text).map Text.trim
  ⟨(lines.foldl (Scan.step file) ⟨[], false, list.entries⟩).entries⟩

/-- Applies a file; a missing one changes nothing. -/
def loadInto (list : MaskList) (files : FileTree) (file : Path) : Except Error MaskList := do
  match ← files.readOptional file with
  | some text => return list.apply file text
  | none => return list

def load (files : FileTree) (file : Path) : Except Error MaskList := empty.loadInto files file

/-- Where the first mask of a package ID was written. -/
def find? (list : MaskList) (id : PackageId) : Option MaskInfo :=
  (list.entries.find? (·.atom.describes id)).map MaskEntry.info

end MaskList

end PackageCatalog
