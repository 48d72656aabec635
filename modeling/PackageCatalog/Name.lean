import PackageCatalog.Error
import PackageCatalog.Text
import PackageCatalog.Version.Basic

/-!
# Names and slots

A `Name kind` is a text that is valid for its kind, with the proof of it, so that no other
part of the library has to check a name again. A package is named by a category and a name
within it; versions of it can be installed next to each other when their slots differ.
-/

namespace PackageCatalog

namespace NameKind

open Text

/-- What may stand in a category name, and in a set name. -/
def isCategoryChar (c : Char) : Bool :=
  isAlphanumeric c || c == '+' || c == '_' || c == '.' || c == '-'

def isPackageChar (c : Char) : Bool := isAlphanumeric c || c == '+' || c == '_' || c == '-'

def isRepositoryChar (c : Char) : Bool := isAlphanumeric c || c == '_' || c == '-'

def isUseFlagChar (c : Char) : Bool :=
  isAlphanumeric c || c == '+' || c == '_' || c == '@' || c == '-'

/-- Whether a version follows one of the hyphens. -/
def hasVersionTail : List Char → Bool
  | [] => false
  | c :: rest => (c == '-' && (Version.ofChars? rest).isSome) || hasVersionTail rest

/-- A nonempty text whose first character is none of `barred`. -/
def opensWell (barred : List Char) (s : List Char) : Bool :=
  match s with
  | [] => false
  | c :: _ => !barred.contains c

/-- Whether a text is a name of the kind. A package name must not read as a name with a
version; a set name may end in a star. -/
def acceptsChars : NameKind → List Char → Bool
  | category, s => opensWell ['-', '.', '+'] s && s.all isCategoryChar
  | package, s => opensWell ['-', '+'] s && s.all isPackageChar && !hasVersionTail s
  | repository, s => opensWell ['-'] s && s.all isRepositoryChar
  | set, s =>
    let body := dropLast? '*' s
    opensWell ['-', '.'] body && body.all isCategoryChar
  | useFlag, s => s.head?.any isAlphanumeric && s.all isUseFlagChar

def accepts (kind : NameKind) (text : String) : Bool := kind.acceptsChars text.toList

end NameKind

/-- A valid name of the given kind. -/
structure Name (kind : NameKind) where
  text : String
  valid : kind.accepts text = true
  deriving DecidableEq

namespace Name

variable {kind : NameKind}

def ofText? (kind : NameKind) (text : String) : Option (Name kind) :=
  if h : kind.accepts text = true then some ⟨text, h⟩ else none

def parse (kind : NameKind) (text : String) : Except Error (Name kind) :=
  if h : kind.accepts text = true then .ok ⟨text, h⟩ else .error (.invalidName kind text)

instance : ToString (Name kind) := ⟨text⟩

instance : Ord (Name kind) := ⟨fun a b => compare a.text b.text⟩

instance : Repr (Name kind) := ⟨fun a _ => repr a.text⟩

end Name

/-- The category half of a package's name. -/
abbrev CategoryName := Name .category

/-- The other half of a package's name. -/
abbrev PackageName := Name .package

abbrev RepositoryName := Name .repository

abbrev SetName := Name .set

abbrev UseFlag := Name .useFlag

/-- The full name of a package. -/
structure QualifiedName where
  category : CategoryName
  package : PackageName
  deriving DecidableEq, Repr

namespace QualifiedName

/-- The name as written: `category/package`. -/
def text (n : QualifiedName) : String := n.category.text ++ "/" ++ n.package.text

instance : ToString QualifiedName := ⟨text⟩

/-- Names are ordered by category, then by package. -/
def compare (a b : QualifiedName) : Ordering :=
  (Ord.compare a.category b.category).then (Ord.compare a.package b.package)

instance : Ord QualifiedName := ⟨compare⟩

def ofParts (category package : String) : Except Error QualifiedName := do
  let category ← Name.parse .category category
  let package ← Name.parse .package package
  return ⟨category, package⟩

def parse (text : String) : Except Error QualifiedName :=
  match Text.splitOnce '/' text with
  | some (category, package) => ofParts category package
  | none => .error (.unqualifiedName text)

end QualifiedName

/-!
## Slots

Several versions of a package can be installed next to each other when their slots differ.
-/

/-- A slot, perhaps with a sub-slot. -/
structure Slot where
  name : String
  sub? : Option String
  deriving DecidableEq, Repr

namespace Slot

def parse (value : String) : Except Error Slot :=
  let trimmed := Text.trim value
  if trimmed.isEmpty then .error (.missingField "SLOT")
  else match Text.splitOnce '/' trimmed with
    | some (name, sub) => .ok ⟨name, some sub⟩
    | none => .ok ⟨trimmed, none⟩

end Slot

end PackageCatalog
