import PackageCatalog.FileTree
import PackageCatalog.Text

/-!
# Contents

The files that an installed package owns, as its `CONTENTS` file lists them.
-/

namespace PackageCatalog

/-- An entry of a `CONTENTS` file; `other` is a fifo or a device. -/
inductive ContentsEntry where
  | directory (location : Path)
  | file (location : Path) (md5 : String) (mtime : Int)
  | link (location : Path) (target : String) (mtime : Int)
  | other (location : Path)
  deriving DecidableEq, Repr

/-- The entries of a `CONTENTS` file, in order. -/
abbrev Contents := List ContentsEntry

namespace ContentsEntry

def location : ContentsEntry → Path
  | directory p => p
  | file p _ _ => p
  | link p _ _ => p
  | other p => p

/-- What a link points to. -/
def target? : ContentsEntry → Option String
  | link _ target _ => some target
  | _ => none

def md5? : ContentsEntry → Option String
  | file _ md5 _ => some md5
  | _ => none

/-- When a file or link was last changed. -/
def mtime? : ContentsEntry → Option Int
  | file _ _ mtime => some mtime
  | link _ _ mtime => some mtime
  | _ => none

def text : ContentsEntry → String
  | link p target _ => p.text ++ " -> " ++ target
  | e => e.location.text

/-- Reads the fields of a file from the right, as its path may hold spaces. -/
def parseFile? (fields : String) : Option ContentsEntry := do
  let (rest, mtime) ← Text.splitOnceLast ' ' fields
  let (location, md5) ← Text.splitOnceLast ' ' rest
  let seconds ← (Text.readInteger .bits64 mtime).toOption
  return file ⟨location⟩ md5 seconds

def parseLink? (fields : String) : Option ContentsEntry := do
  let (location, rest) ← Text.splitAround " -> " fields
  let (target, mtime) ← Text.splitOnceLast ' ' rest
  let seconds ← (Text.readInteger .bits64 mtime).toOption
  return link ⟨location⟩ target seconds

/-- The entry that a line writes, none for a type that is not known. -/
def parseLine (line : String) : Except Error (Option ContentsEntry) :=
  let required (entry : Option ContentsEntry) : Except Error (Option ContentsEntry) :=
    match entry with
    | some e => .ok (some e)
    | none => .error (.invalidContents line)
  match Text.splitOnce ' ' line with
  | none => .error (.invalidContents line)
  | some (type, fields) =>
    if fields.isEmpty then .error (.invalidContents line)
    else match type with
      | "dir" => .ok (some (directory ⟨fields⟩))
      | "fif" | "dev" => .ok (some (other ⟨fields⟩))
      | "obj" => required (parseFile? fields)
      | "sym" => required (parseLink? fields)
      | _ => .ok none

end ContentsEntry

namespace Contents

/-- The entries of a text. Blanks at the end of a line do not count. -/
def parse (text : String) : Except Error Contents := do
  let lines := ((Text.lines text).map Text.trimEnd).filter (!·.isEmpty)
  let entries ← lines.mapM ContentsEntry.parseLine
  return entries.filterMap id

def load (tree : FileTree) (path : Path) : Except Error Contents := do
  parse (← tree.readRequired path)

end Contents

end PackageCatalog
