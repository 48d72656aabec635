import PackageCatalog.Error
import PackageCatalog.Text

/-!
# Paths and file trees

Everything the library reads from disk it reads from a `FileTree`: a finite set of
directories and files, each under the list of names that leads to it. A path is followed
name by name, so every name but the last must be a directory, and `..` leads to where the
walk came from.
-/

namespace PackageCatalog

/-!
## Paths

A path is kept as it was written or joined. Two paths are the same when their components
are: repeated slashes, a final slash and `.` do not count, `..` does.
-/

/-- A path as written. -/
structure Path where
  text : String
  deriving DecidableEq, Repr

namespace Path

instance : ToString Path := ⟨text⟩

def isAbsolute (p : Path) : Bool := Text.startsWithChar (· == '/') p.text

/-- What stands between the slashes. -/
def pieces (p : Path) : List String := Text.splitAll '/' p.text

/-- The names on the path. A leading `.` is a component of a relative path; elsewhere it
stands for nothing. -/
def components (p : Path) : List String :=
  let names := p.pieces.filter fun name => name != "" && name != "."
  if p.pieces.head? == some "." then "." :: names else names

/-- Whether two paths have the same components. -/
def same (p q : Path) : Bool := p.isAbsolute == q.isAbsolute && p.components == q.components

/-- The path of `name` below `base`; an absolute name stands for itself. -/
def join (base : Path) (name : String) : Path :=
  if isAbsolute ⟨name⟩ then ⟨name⟩
  else if base.text.isEmpty || base.text.toList.getLast? == some '/' then ⟨base.text ++ name⟩
  else ⟨base.text ++ "/" ++ name⟩

instance : HDiv Path String Path := ⟨join⟩

/-- The last name, if the path does not end in `.` alone or `..`. -/
def fileName? (p : Path) : Option String :=
  match p.components.getLast? with
  | some ".." | some "." => none
  | other => other

def ofNames (names : List String) : Path := ⟨"/" ++ Text.join "/" names⟩

end Path

/-- What stands at a place in the tree. Files whose bytes are no valid text are `binary`. -/
inductive FileNode where
  | directory
  | text (content : String)
  | binary
  deriving DecidableEq, Repr

/-- Why a path cannot be read: nothing is there, or what is there does not let itself be
read or followed. -/
inductive AccessFault where
  | missing
  | blocked
  deriving DecidableEq, Repr

/-- Files and directories, the directory that relative paths start from, and when each place
was last changed, in seconds since 1970. The root is always there. -/
structure FileTree where
  entries : List (List String × FileNode)
  workingDirectory : List String
  modified : List String → Int

namespace FileTree

def empty : FileTree := ⟨[], [], fun _ => 0⟩

def node? (tree : FileTree) (names : List String) : Option FileNode :=
  if names.isEmpty then some .directory else tree.entries.lookup names

/-! ## Changing a tree -/

/-- Puts a node under a list of names, in place of what stands there. -/
def put (tree : FileTree) (names : List String) (node : FileNode) : FileTree :=
  { tree with entries := (names, node) :: tree.entries.filter (·.1 != names) }

def makeParents (tree : FileTree) (names : List String) : FileTree :=
  (List.range names.length).foldl
    (fun t n =>
      let parent := names.take n
      if (t.node? parent).isSome then t else t.put parent .directory)
    tree

/-- Puts a node into the tree, along with the directories above it. -/
def insert (tree : FileTree) (names : List String) (node : FileNode) : FileTree :=
  (tree.makeParents names).put names node

def makeDirectory (tree : FileTree) (names : List String) : FileTree :=
  if tree.node? names == some .directory then tree else tree.insert names .directory

/-- Removes what stands under a list of names, and everything below it. -/
def remove (tree : FileTree) (names : List String) : FileTree :=
  { tree with entries := tree.entries.filter fun e => !names.isPrefixOf e.1 }

/-- The names that a path spells from the root, `..` taking one back. -/
def spell (tree : FileTree) (path : Path) : List String :=
  path.pieces.foldl
    (fun names step =>
      if step == "" || step == "." then names
      else if step == ".." then names.dropLast
      else names ++ [step])
    (if path.isAbsolute then [] else tree.workingDirectory)

/-! ## Following paths -/

/-- Whether a path can be followed at all: it is not overlong and holds no null character. -/
def isFollowable (path : Path) : Bool :=
  path.text.utf8ByteSize < 4096 && !Text.hasChar '\x00' path.text

/-- Whether a name is short enough for a place in a directory. -/
def isEntryName (name : String) : Bool := name.utf8ByteSize ≤ 255

/-- Follows a path from the directory `place`. -/
def walk (tree : FileTree) (place : List String) : List String → Except AccessFault (List String)
  | [] => if (tree.node? place).isSome then .ok place else .error .missing
  | step :: rest =>
    match tree.node? place with
    | some .directory =>
      if step == "" || step == "." then walk tree place rest
      else if step == ".." then walk tree place.dropLast rest
      else if !isEntryName step then .error .blocked
      else if (tree.node? (place ++ [step])).isSome then walk tree (place ++ [step]) rest
      else .error .missing
    | some _ => .error .blocked
    | none => .error .missing

/-- The names under which the tree holds what a path leads to. -/
def resolve (tree : FileTree) (path : Path) : Except AccessFault (List String) :=
  if path.text.isEmpty then .error .missing
  else if !isFollowable path then .error .blocked
  else tree.walk (if path.isAbsolute then [] else tree.workingDirectory) path.pieces

def nodeAt? (tree : FileTree) (path : Path) : Option FileNode :=
  match tree.resolve path with
  | .ok names => tree.node? names
  | .error _ => none

def modifiedAt? (tree : FileTree) (path : Path) : Option Int :=
  (tree.resolve path).toOption.map tree.modified

def isDirectory (tree : FileTree) (path : Path) : Bool := tree.nodeAt? path == some .directory

def isFile (tree : FileTree) (path : Path) : Bool :=
  match tree.nodeAt? path with
  | some (.text _) | some .binary => true
  | _ => false

def read (tree : FileTree) (path : Path) : Except AccessFault String := do
  let names ← tree.resolve path
  match tree.node? names with
  | some (.text content) => .ok content
  | some _ => .error .blocked
  | none => .error .missing

def namesUnder (tree : FileTree) (names : List String) : List String :=
  let children := tree.entries.filterMap fun e =>
    match e.1.getLast? with
    | some name => if e.1 == names ++ [name] then some name else none
    | none => none
  children.mergeSort fun a b => decide (a ≤ b)

def list (tree : FileTree) (path : Path) : Except AccessFault (List String) := do
  let names ← tree.resolve path
  match tree.node? names with
  | some .directory => .ok (tree.namesUnder names)
  | some _ => .error .blocked
  | none => .error .missing

/-! ## Files that may be missing -/

/-- The text of a file that has to be there. -/
def readRequired (tree : FileTree) (path : Path) : Except Error String :=
  match tree.read path with
  | .ok text => .ok text
  | .error _ => .error (.unreadable path.text)

/-- The text of a file, if there is one. -/
def readOptional (tree : FileTree) (path : Path) : Except Error (Option String) :=
  match tree.read path with
  | .ok text => .ok (some text)
  | .error .missing => .ok none
  | .error .blocked => .error (.unreadable path.text)

/-- The lines of a text that say something: trimmed, neither blank nor a comment. -/
def meaningfulLines (text : String) : List String :=
  ((Text.lines text).map Text.trim).filter fun line =>
    !line.isEmpty && !Text.startsWithChar (· == '#') line

/-- The lines of a file that say something; a missing file has none. -/
def readLines (tree : FileTree) (path : Path) : Except Error (List String) := do
  match ← tree.readOptional path with
  | some text => return meaningfulLines text
  | none => return []

/-- The names in a directory that do not start with a dot; a missing directory has none. -/
def visibleNames (tree : FileTree) (path : Path) : Except Error (List String) :=
  match tree.list path with
  | .ok names => .ok (names.filter fun name => !Text.startsWithChar (· == '.') name)
  | .error .missing => .ok []
  | .error .blocked => .error (.unreadable path.text)

end FileTree

end PackageCatalog
