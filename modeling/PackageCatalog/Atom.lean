import PackageCatalog.Name
import PackageCatalog.Version.Operator

/-!
# Atoms

An atom describes packages: by name, where each half may be left open, and optionally by
version, slot and repository.
-/

namespace PackageCatalog

/-! ## Atoms and their texts -/

/-- Which package names an atom admits. -/
inductive NamePattern where
  | exact (name : QualifiedName)
  | category (c : CategoryName)
  | package (p : PackageName)
  | any
  deriving DecidableEq, Repr

namespace NamePattern

def admits : NamePattern → QualifiedName → Bool
  | exact n, name => n == name
  | category c, name => c == name.category
  | package p, name => p == name.package
  | any, _ => true

/-- The pattern as written, stars for what is open. -/
def text : NamePattern → String
  | exact n => n.text
  | category c => c.text ++ "/*"
  | package p => "*/" ++ p.text
  | any => "*/*"

end NamePattern

/-- An operator with the version on its right. -/
structure VersionRequirement where
  operator : VersionOperator
  version : Version
  deriving DecidableEq, Repr

/-- A description of packages, such as `>=cat/pkg-1.0:2::repo`. -/
structure Atom where
  name : NamePattern
  version? : Option VersionRequirement
  slot? : Option Slot
  repository? : Option RepositoryName
  deriving DecidableEq, Repr

namespace Atom

/-- The atom that admits every version of a package. -/
def ofName (name : QualifiedName) : Atom := ⟨.exact name, none, none, none⟩

/-- The one name that the atom admits, if it leaves nothing of it open. -/
def packageName? (a : Atom) : Option QualifiedName :=
  match a.name with
  | .exact n => some n
  | _ => none

/-- The name and version part of the text. -/
def nameText (a : Atom) : String :=
  match a.version? with
  | some r =>
    r.operator.sign ++ a.name.text ++ "-" ++ r.version.text ++
      (if r.operator = .equalStar then "*" else "")
  | none => a.name.text

def slotText (s : Slot) : String :=
  match s.sub? with
  | some sub => s.name ++ "/" ++ sub
  | none => s.name

def text (a : Atom) : String :=
  a.nameText ++
    (match a.slot? with
      | some s => ":" ++ slotText s
      | none => "") ++
    (match a.repository? with
      | some r => "::" ++ r.text
      | none => "")

instance : ToString Atom := ⟨text⟩

end Atom

/-- A named collection of atoms. -/
structure PackageSet where
  name : SetName
  atoms : List Atom

/-!
## Reading atoms

An atom is one token. The repository is cut off first, then the slot; what is left is an
operator with a name and a version, or a name alone. Every fault names the whole text.
-/

namespace Atom

open Text

/-- How much of an atom's name may be left out. -/
structure Dialect where
  /-- Whether stars may stand for a half of the name. -/
  wildcards : Bool
  /-- Finds the full name for a package name that stands alone. -/
  resolve? : Option (PackageName → Except Error QualifiedName)

def Dialect.strict : Dialect := ⟨false, none⟩

/-- Full names, of which a half may be a star. -/
def Dialect.wildcard : Dialect := ⟨true, none⟩

def isSlotName (s : String) : Bool :=
  NameKind.opensWell ['-', '.', '+'] s.toList && allChars NameKind.isCategoryChar s

def slotOf? (s : String) : Option Slot :=
  match splitOnce '/' s with
  | some (name, sub) => if isSlotName name && isSlotName sub then some ⟨name, some sub⟩ else none
  | none => if isSlotName s then some ⟨s, none⟩ else none

/-- Splits off a leading operator; a star at the end comes later. -/
def takeOperator : List Char → Option VersionOperator × List Char
  | '<' :: '=' :: rest => (some .lessEqual, rest)
  | '>' :: '=' :: rest => (some .greaterEqual, rest)
  | '<' :: rest => (some .less, rest)
  | '>' :: rest => (some .greater, rest)
  | '=' :: rest => (some .equal, rest)
  | '~' :: rest => (some .tilde, rest)
  | s => (none, s)

def isOperatorChar (c : Char) : Bool := c == '<' || c == '>' || c == '=' || c == '~'

/-- What follows the last slash. -/
def lastPart (s : List Char) : List Char :=
  match cutAtLast (· == '/') s with
  | some (_, part) => part
  | none => s

/-- Whether a version may follow a name: its last part is a package name or a star. -/
def isVersionable (name : List Char) : Bool :=
  NameKind.package.acceptsChars (lastPart name) || lastPart name == ['*']

/-- Goes through the hyphens of `rest` for the first that splits the text into a name, which
`before` starts, and a version. -/
def splitVersionAfter (before : List Char) : List Char → Option (List Char × Version)
  | [] => none
  | c :: rest =>
    let further := splitVersionAfter (before ++ [c]) rest
    if c == '-' && isVersionable before then
      match Version.ofChars? rest with
      | some v => some (before, v)
      | none => further
    else further

def splitVersion? (s : List Char) : Option (List Char × Version) := splitVersionAfter [] s

/-- The name pattern that a text writes. -/
def parseName (input : String) (dialect : Dialect) (s : List Char) : Except Error NamePattern :=
  match cutAt (· == '/') s with
  | none =>
    match dialect.resolve? with
    | some resolve => do
      let package ← Name.parse .package (String.ofList s)
      return .exact (← resolve package)
    | none => .error (.unqualifiedName (String.ofList s))
  | some (category, package) =>
    if (category == ['*'] || package == ['*']) && !dialect.wildcards then
      .error (.badAtom input .wildcard)
    else if category == ['*'] then
      if package == ['*'] then .ok .any
      else do return .package (← Name.parse .package (String.ofList package))
    else if package == ['*'] then do
      return .category (← Name.parse .category (String.ofList category))
    else do
      return .exact (← QualifiedName.ofParts (String.ofList category) (String.ofList package))

/-- The name and version restrictions that a text writes. -/
def parseNameVersion (input : String) (dialect : Dialect) (s : List Char) :
    Except Error (NamePattern × Option VersionRequirement) :=
  let (operator?, rest) := takeOperator s
  if rest.head?.any isOperatorChar then .error (.badAtom input .badOperator)
  else match operator? with
    | none =>
      if ['*'].isSuffixOf rest && !(['/', '*'].isSuffixOf rest) then
        .error (.badAtom input .strayStar)
      else do return (← parseName input dialect rest, none)
    | some operator =>
      let starred := ['*'].isSuffixOf rest
      if starred && operator != .equal then .error (.badAtom input .strayStar)
      else
        let operator := if starred then .equalStar else operator
        match splitVersion? (if starred then rest.dropLast else rest) with
        | none => .error (.badAtom input .operatorWithoutVersion)
        | some (name, version) => do
          return (← parseName input dialect name, some ⟨operator, version⟩)

def parseRepository (s : List Char) : Except Error (List Char × Option RepositoryName) :=
  match cutAround [':', ':'] s with
  | some (rest, name) => do
    return (rest, some (← Name.parse .repository (String.ofList name)))
  | none => .ok (s, none)

def parseSlot (input : String) (s : List Char) : Except Error (List Char × Option Slot) :=
  match cutAt (· == ':') s with
  | some (rest, slot) =>
    match slotOf? (String.ofList slot) with
    | some found => .ok (rest, some found)
    | none => .error (.badAtom input (.badSlot (String.ofList slot)))
  | none => .ok (s, none)

def parseWith (dialect : Dialect) (input : String) : Except Error Atom :=
  let s := trimChars input.toList
  if s.isEmpty || s.any isBlank then .error (.badAtom input .notOneToken)
  else if s.head? == some '!' then .error (.badAtom input .blocker)
  else if s.contains '[' then .error (.badAtom input .useRequirement)
  else do
    let (s, repository?) ← parseRepository s
    let (s, slot?) ← parseSlot input s
    let (name, version?) ← parseNameVersion input dialect s
    return ⟨name, version?, slot?, repository?⟩

/-- The atom that a text writes, with a full name. -/
def parse (input : String) : Except Error Atom := parseWith .strict input

/-- The atom that a text writes, stars allowed. -/
def parseWildcard (input : String) : Except Error Atom := parseWith .wildcard input

end Atom

end PackageCatalog
