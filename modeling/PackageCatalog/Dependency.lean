import PackageCatalog.Atom
import PackageCatalog.Expression.Leaf
import PackageCatalog.Version.Basic

/-!
# Dependencies

The values of `DEPEND` and its like are expressions over requirements. A requirement is the
atom of a dependency: besides name, version, slot and repository it may block a package, ask
for a rebuild when a slot changes, and require the state of USE flags.
-/

namespace PackageCatalog.Dependency

/-!
## Plain versions

The versions of dependencies are made of numbers, a letter, suffixes and a revision, without
`-try` and `-scm`. Only the value of a number counts, so `1.02` and `1.2` are the same plain
version, and a revision 0 is none.
-/

/-- A version of a dependency. A suffix may lack its number; a missing revision is 0. -/
structure PlainVersion where
  major : Nat
  minors : List Nat
  letter : Option Letter
  suffixes : List (SuffixKind × Option Nat)
  revision : Nat
  deriving DecidableEq, Repr

namespace PlainVersion

/-! ### Reading -/

/-- The number of a list of digits, which must fit 64 bits. -/
def number? (digits : List Digit) : Option Nat :=
  if Digit.value digits < UInt64.size then some (Digit.value digits) else none

/-- The kind and the number of a suffix. -/
def suffix? (s : Suffix) : Option (SuffixKind × Option Nat) :=
  if s.digits.isEmpty then some (s.kind, none)
  else (number? s.digits).map fun n => (s.kind, some n)

/-- The number of a revision: a single one. -/
def revision? : Option Revision → Option Nat
  | none => some 0
  | some (.numbered n []) => number? n.digits
  | some _ => none

/-- The plain version that a version is, unless it has parts that no dependency knows. -/
def ofVersion? (v : Version) : Option PlainVersion :=
  match v.base with
  | .scm => none
  | .release r =>
    if r.attempt.isSome || r.live then none
    else do
      let major ← number? r.major.digits
      let minors ← r.minors.mapM fun n => number? n.digits
      let suffixes ← r.suffixes.mapM suffix?
      let revision ← revision? v.revision
      return ⟨major, minors, r.letter, suffixes, revision⟩

def ofChars? (s : List Char) : Option PlainVersion := (Version.ofChars? s).bind ofVersion?

/-! ### Text -/

/-- The digits of a number, without zeros in front. -/
def numberChars (n : Nat) : List Char := Nat.toDigits 10 n

def suffixChars (s : SuffixKind × Option Nat) : List Char :=
  '_' :: s.1.chars ++ (match s.2 with
    | some n => numberChars n
    | none => [])

def chars (v : PlainVersion) : List Char :=
  numberChars v.major ++ v.minors.flatMap (fun n => '.' :: numberChars n) ++
    (v.letter.map Letter.toChar).toList ++ v.suffixes.flatMap suffixChars ++
    (if v.revision = 0 then [] else ['-', 'r'] ++ numberChars v.revision)

end PlainVersion

/-!
## Requirements

A requirement has one text, which need not be the one it was read from.
-/

/-- How strongly a package is forbidden. -/
inductive Blocker where
  | weak
  | strong
  deriving DecidableEq, Repr

/-- A bound on versions. -/
structure VersionBound where
  operator : VersionOperator
  version : PlainVersion
  deriving DecidableEq, Repr

/-- What is asked of a slot: any will do, any will do until it changes, or a certain one. -/
inductive SlotDemand where
  | any
  | rebuild
  | slot (s : Slot) (rebuild : Bool)
  deriving DecidableEq, Repr

/-- What is asked of a USE flag. The default, where one is given, is for packages that do not
have the flag. -/
inductive FlagDemand where
  | enabled (default? : Option Bool)
  | disabled
  | same
  | opposite
  | enabledIf
  | disabledUnless
  deriving DecidableEq, Repr

/-- A USE flag with what is asked of it. -/
structure UseDemand where
  flag : UseFlag
  demand : FlagDemand
  deriving DecidableEq, Repr

/-- The atom of a dependency, such as `>=cat/pkg-1.0:2=[flag,-other]`. -/
structure Requirement where
  blocker? : Option Blocker
  category : String
  package : String
  bound? : Option VersionBound
  slot? : Option SlotDemand
  repository? : Option RepositoryName
  uses : List UseDemand
  deriving DecidableEq, Repr

/-! ### Text -/

def Blocker.chars : Blocker → List Char
  | weak => ['!']
  | strong => ['!', '!']

def SlotDemand.chars : SlotDemand → List Char
  | any => ['*']
  | rebuild => ['=']
  | slot s again => (Atom.slotText s).toList ++ (if again then ['='] else [])

def UseDemand.chars (u : UseDemand) : List Char :=
  let flag := u.flag.text.toList
  match u.demand with
  | .enabled none => flag
  | .enabled (some true) => flag ++ ['(', '+', ')']
  | .enabled (some false) => flag ++ ['(', '-', ')']
  | .disabled => '-' :: flag
  | .same => flag ++ ['=']
  | .opposite => '!' :: flag ++ ['=']
  | .enabledIf => flag ++ ['?']
  | .disabledUnless => '!' :: flag ++ ['?']

namespace Requirement

def nameChars (r : Requirement) : List Char :=
  let name := r.category.toList ++ '/' :: r.package.toList
  match r.bound? with
  | some b => b.operator.sign.toList ++ name ++ '-' :: b.version.chars
  | none => name

def chars (r : Requirement) : List Char :=
  (match r.blocker? with
    | some b => b.chars
    | none => []) ++
  r.nameChars ++
  (match r.slot? with
    | some s => ':' :: s.chars
    | none => []) ++
  (match r.repository? with
    | some name => [':', ':'] ++ name.text.toList
    | none => []) ++
  (if r.uses.isEmpty then []
    else '[' :: [','].intercalate (r.uses.map UseDemand.chars) ++ [']'])

end Requirement

/-!
## Reading requirements

A requirement is a run of characters. The blocker comes off at its start; at its end the USE
flags come off first, then the repository, then the slot. What is left is a name, or an
operator with a name and a version.
-/

open Text

/-! ### Parts of a requirement -/

def takeBlocker : List Char → Option Blocker × List Char
  | '!' :: '!' :: rest => (some .strong, rest)
  | '!' :: rest => (some .weak, rest)
  | s => (none, s)

def flag? (s : List Char) : Option UseFlag := Name.ofText? .useFlag (String.ofList s)

/-- What is asked of a flag that no sign precedes; only a flag that has to be on may have a
default. -/
def plainDemand? (s : List Char) : Option UseDemand :=
  match s.reverse with
  | '=' :: front => (flag? front.reverse).map (⟨·, .same⟩)
  | '?' :: front => (flag? front.reverse).map (⟨·, .enabledIf⟩)
  | ')' :: '+' :: '(' :: front => (flag? front.reverse).map (⟨·, .enabled (some true)⟩)
  | ')' :: '-' :: '(' :: front => (flag? front.reverse).map (⟨·, .enabled (some false)⟩)
  | _ => (flag? s).map (⟨·, .enabled none⟩)

def useDemand? : List Char → Option UseDemand
  | '-' :: rest => (flag? rest).map (⟨·, .disabled⟩)
  | '!' :: rest =>
    match rest.reverse with
    | '=' :: front => (flag? front.reverse).map (⟨·, .opposite⟩)
    | '?' :: front => (flag? front.reverse).map (⟨·, .disabledUnless⟩)
    | _ => none
  | s => plainDemand? s

/-- Takes off the USE flags, which stand in square brackets at the end. -/
def takeUses? (s : List Char) : Option (List Char × List UseDemand) :=
  match cutAt (· == '[') s with
  | none => some (s, [])
  | some (before, rest) =>
    match cutAt (· == ']') rest with
    | some (inside, []) => ((pieces (· == ',') inside).mapM useDemand?).map (before, ·)
    | _ => none

def takeRepository? (s : List Char) : Option (List Char × Option RepositoryName) :=
  match cutAround [':', ':'] s with
  | none => some (s, none)
  | some (before, name) =>
    (Name.ofText? .repository (String.ofList name)).map fun r => (before, some r)

/-- What a list of characters asks of a slot. -/
def slotDemand? (s : List Char) : Option SlotDemand :=
  match s with
  | ['*'] => some .any
  | ['='] => some .rebuild
  | _ =>
    if ['='].isSuffixOf s then (Atom.slotOf? (String.ofList s.dropLast)).map (.slot · true)
    else (Atom.slotOf? (String.ofList s)).map (.slot · false)

def takeSlot? (s : List Char) : Option (List Char × Option SlotDemand) :=
  match cutAt (· == ':') s with
  | none => some (s, none)
  | some (before, slot) => (slotDemand? slot).map fun d => (before, some d)

/-! ### Names -/

def isHalf (s : List Char) : Bool := s.head?.any isAlphanumeric && s.all NameKind.isPackageChar

/-- Whether a plain version follows one of the hyphens. -/
def hasVersionTail : List Char → Bool
  | [] => false
  | c :: rest => (c == '-' && (PlainVersion.ofChars? rest).isSome) || hasVersionTail rest

/-- The name that a list of characters writes. Its second half does not read as a name with a
version. -/
def name? (s : List Char) : Option (String × String) :=
  match cutAt (· == '/') s with
  | some (category, package) =>
    if isHalf category && isHalf package && !hasVersionTail package then
      some (String.ofList category, String.ofList package)
    else none
  | none => none

/-- Goes through the hyphens of `rest` for the first that splits the text into a name, which
`before` starts, and a version. -/
def splitVersionAfter (before : List Char) : List Char → Option ((String × String) × PlainVersion)
  | [] => none
  | c :: rest =>
    let found := if c == '-' then
        (name? before).bind fun name => (PlainVersion.ofChars? rest).map (name, ·)
      else none
    found <|> splitVersionAfter (before ++ [c]) rest

def nameBound? (s : List Char) : Option ((String × String) × Option VersionBound) :=
  match Atom.takeOperator s with
  | (none, rest) => (name? rest).map (·, none)
  | (some operator, rest) =>
    (splitVersionAfter [] rest).map fun (name, version) => (name, some ⟨operator, version⟩)

/-! ### Whole requirements -/

def Requirement.ofChars? (s : List Char) : Option Requirement := do
  let (blocker?, s) := takeBlocker s
  let (s, uses) ← takeUses? s
  let (s, repository?) ← takeRepository? s
  let (s, slot?) ← takeSlot? s
  let ((category, package), bound?) ← nameBound? s
  return ⟨blocker?, category, package, bound?, slot?, repository?, uses⟩

/-!
## Expressions over requirements

Plain groups add nothing and are dissolved.
-/

/-! ### Requirements in a text -/

/-- Reads the characters of a requirement; brackets may stand among its USE flags. -/
def takeRun (inUse : Bool) : List Char → List Char × List Char
  | [] => ([], [])
  | c :: rest =>
    if isBlank c || (!inUse && (c == '(' || c == ')')) then ([], c :: rest)
    else
      let next := takeRun (if c == '[' then true else if c == ']' then false else inUse) rest
      (c :: next.1, next.2)

theorem length_takeRun (inUse : Bool) (s : List Char) :
    (takeRun inUse s).1.length + (takeRun inUse s).2.length = s.length := by
  induction s generalizing inUse with
  | nil => rfl
  | cons c rest ih =>
    simp only [takeRun]
    split
    · simp
    · simp only [List.length_cons]
      have := ih (if c == '[' then true else if c == ']' then false else inUse)
      omega

def take? (s : List Char) : Option (Requirement × List Char) :=
  match takeRun false s with
  | ([], _) => none
  | (c :: run, rest) => (Requirement.ofChars? (c :: run)).map (·, rest)

theorem length_of_take? {s rest : List Char} {r : Requirement}
    (h : take? s = some (r, rest)) : rest.length < s.length := by
  have hlen := length_takeRun false s
  unfold take? at h
  split at h
  · simp at h
  · next heq =>
    simp only [Option.map_eq_some_iff, Prod.mk.injEq] at h
    obtain ⟨_, _, _, rfl⟩ := h
    simp only [heq, List.length_cons] at hlen
    omega

/-- The requirements of a dependency. -/
def format : Expression.LeafFormat Requirement where
  allowsAny := true
  take? := take?
  chars := Requirement.chars
  fault := .invalidDependency
  shrinks := length_of_take?

/-! ### Dissolving groups -/

mutual

/-- What is left of a tree when plain groups are dissolved. -/
def dissolve {α : Type} : Expression α → List (Expression α)
  | .leaf a => [.leaf a]
  | .all children => dissolveAll children
  | .any children => [.any (dissolveAll children)]
  | .when flag negated children => [.when flag negated (dissolveAll children)]

def dissolveAll {α : Type} : List (Expression α) → List (Expression α)
  | [] => []
  | e :: rest => dissolve e ++ dissolveAll rest

end

/-! ### Whole dependencies -/

def parse (value : String) : Except Error (List (Expression Requirement)) :=
  if (trim value).isEmpty then .ok []
  else do return dissolve (← Expression.parse format value)

def text (e : Expression Requirement) : String := String.ofList (e.nestedChars Requirement.chars)

end PackageCatalog.Dependency
