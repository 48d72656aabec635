import PackageCatalog.FileTree
import PackageCatalog.Name

/-!
# Cache entries

The metadata of one ebuild as the cache keeps it: variables in the order of the file, and
next to them the checksum of the ebuild and its eclasses. What the values mean is decided
later, so one malformed variable does not make the others unreadable.
-/

namespace PackageCatalog

/-- A file of the metadata cache. -/
structure CacheEntry where
  values : List (String × String)
  md5 : Option String
  eclasses : List (String × String)
  deriving DecidableEq, Repr

namespace CacheEntry

/-- Names and checksums in turn; a last name without a checksum is dropped. -/
def pairs : List String → List (String × String)
  | name :: sum :: rest => (name, sum) :: pairs rest
  | _ => []

/-- The eclasses that a value lists, tabs separating them. -/
def parseEclasses (value : String) : List (String × String) :=
  pairs ((Text.splitAll '\t' value).filter (!·.isEmpty))

def addLine (entry : CacheEntry) (line : String) : Except Error CacheEntry :=
  match Text.splitOnce '=' line with
  | none => .error (.lineWithoutEquals line)
  | some ("_md5_", value) => .ok { entry with md5 := some value }
  | some ("_eclasses_", value) => .ok { entry with eclasses := parseEclasses value }
  | some (key, value) => .ok { entry with values := entry.values ++ [(key, value)] }

/-- The first value of a variable. -/
def get? (entry : CacheEntry) (key : String) : Option String := entry.values.lookup key

/-- The lines of a text that are not blank, without carriage returns at their ends. -/
def entryLines (text : String) : List String :=
  let stripped := (Text.lineChars text.toList).map (Text.dropTail (· == '\r'))
  (stripped.filter fun line => !line.all Text.isBlank).map String.ofList

def require (entry : CacheEntry) (key : String) : Except Error Unit :=
  if (entry.get? key).isSome then .ok () else .error (.missingField key)

/-- The entry that a text writes; `DESCRIPTION` and `SLOT` have to be there. -/
def parse (text : String) : Except Error CacheEntry := do
  let entry ← (entryLines text).foldlM addLine ⟨[], none, []⟩
  entry.require "DESCRIPTION"
  entry.require "SLOT"
  return entry

def load (tree : FileTree) (path : Path) : Except Error CacheEntry := do
  parse (← tree.readRequired path)

def slot (entry : CacheEntry) : Except Error Slot := Slot.parse ((entry.get? "SLOT").getD "")

def inherited (entry : CacheEntry) : List String :=
  match entry.get? "INHERITED" with
  | some value => Text.words value
  | none => entry.eclasses.map (·.1)

end CacheEntry

end PackageCatalog
