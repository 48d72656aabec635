import PackageCatalog.Error

/-!
# Versions

A version holds what its text says and nothing more: every value of `Version` is written by
exactly one text, `Version.text`, and every accepted text is read back to the value it was
written from. A version is `scm`, or a release with numbers, a letter, suffixes, `-try` and
`-scm`; either may carry a revision.
-/

namespace PackageCatalog

/-!
## Decimal digits

A digit is a number below ten, a numeral a nonempty list of digits as written: leading
zeros are kept, so a numeral and its text determine each other.
-/

/-- A decimal digit. -/
abbrev Digit := Fin 10

-- named, so that `0 : Digit` is one term wherever it is written
instance neZero_ten : @NeZero Nat Zero.ofOfNat0 10 := ⟨by decide⟩

namespace Digit

def toChar (d : Digit) : Char := Char.ofNat (48 + d.val)

def ofChar? (c : Char) : Option Digit :=
  if h : 48 ≤ c.toNat ∧ c.toNat < 58 then some ⟨c.toNat - 48, by omega⟩ else none

def chars (digits : List Digit) : List Char := digits.map toChar

/-- The number that a list of digits stands for, 0 when there are none. -/
def value (digits : List Digit) : Nat := digits.foldl (fun n d => 10 * n + d.val) 0

/-- The digits without the zeros in front. -/
def dropZeros (digits : List Digit) : List Digit := digits.dropWhile (· == 0)

def dropFinalZeros : List Digit → List Digit
  | [] => []
  | d :: rest =>
    match dropFinalZeros rest with
    | [] => if d == 0 then [] else [d]
    | kept => d :: kept

/-- Reads the longest run of digits. -/
def takeRun : List Char → List Digit × List Char
  | [] => ([], [])
  | c :: rest =>
    match ofChar? c with
    | some d => (d :: (takeRun rest).1, (takeRun rest).2)
    | none => ([], c :: rest)

theorem length_takeRun (s : List Char) :
    (takeRun s).1.length + (takeRun s).2.length = s.length := by
  induction s with
  | nil => rfl
  | cons c rest ih =>
    simp only [takeRun]
    split
    · simp only [List.length_cons]; omega
    · simp

end Digit

/-- One or more digits. -/
structure Numeral where
  first : Digit
  rest : List Digit
  deriving DecidableEq, Repr

namespace Numeral

def digits (n : Numeral) : List Digit := n.first :: n.rest

def chars (n : Numeral) : List Char := Digit.chars n.digits

/-- Reads a numeral, as long as possible. -/
def take? (s : List Char) : Option (Numeral × List Char) :=
  match Digit.takeRun s with
  | ([], _) => none
  | (d :: ds, rest) => some (⟨d, ds⟩, rest)

theorem length_of_take? {s rest : List Char} {n : Numeral} (h : take? s = some (n, rest)) :
    rest.length < s.length := by
  have hlen := Digit.length_takeRun s
  simp only [take?] at h
  split at h
  · simp at h
  · next d ds r heq =>
    rw [heq] at hlen
    simp at h hlen
    obtain ⟨_, rfl⟩ := h
    omega

/-- The text of a list of numerals, a dot in front of each. -/
def dottedChars (ns : List Numeral) : List Char := ns.flatMap fun n => '.' :: n.chars

/-- Reads numerals that each follow a dot, as many as possible. -/
def takeDotted (s : List Char) : List Numeral × List Char :=
  match s with
  | '.' :: after =>
    match h : take? after with
    | some (n, rest) =>
      have : rest.length < after.length := length_of_take? h
      (n :: (takeDotted rest).1, (takeDotted rest).2)
    | none => ([], '.' :: after)
  | _ => ([], s)
termination_by s.length
decreasing_by all_goals simp_wf; omega

end Numeral

/-- The five suffixes of a release. -/
inductive SuffixKind where
  | alpha
  | beta
  | pre
  | rc
  | patch
  deriving DecidableEq, Repr

/-- How a suffix is written behind the underscore. -/
def SuffixKind.chars : SuffixKind → List Char
  | alpha => ['a', 'l', 'p', 'h', 'a']
  | beta => ['b', 'e', 't', 'a']
  | pre => ['p', 'r', 'e']
  | rc => ['r', 'c']
  | patch => ['p']

/-- A suffix with its number, which may be missing. -/
structure Suffix where
  kind : SuffixKind
  digits : List Digit
  deriving DecidableEq, Repr

/-- A lower-case letter, counted from `a`. -/
abbrev Letter := Fin 26

/-- A numbered release: `1.2b_rc3-try-scm`. -/
structure Release where
  major : Numeral
  minors : List Numeral
  letter : Option Letter
  suffixes : List Suffix
  /-- The digits of the `-try` part, where there is one. -/
  attempt : Option (List Digit)
  /-- Whether `-scm` follows. -/
  live : Bool
  deriving DecidableEq, Repr

/-- A revision: `-r` alone, or with numbers that dots separate. -/
inductive Revision where
  | bare
  | numbered (first : Numeral) (more : List Numeral)
  deriving DecidableEq, Repr

/-- What a version is apart from its revision. -/
inductive VersionBase where
  | scm
  | release (r : Release)
  deriving DecidableEq, Repr

/-- A package version, such as `1.0`, `2.3b_rc1-r2` or `scm`. -/
structure Version where
  base : VersionBase
  revision : Option Revision
  deriving DecidableEq, Repr

/-! ## The text of a version -/

def Letter.toChar (l : Letter) : Char := Char.ofNat (97 + l.val)

def Suffix.chars (s : Suffix) : List Char := '_' :: s.kind.chars ++ Digit.chars s.digits

def Release.chars (r : Release) : List Char :=
  r.major.chars ++ Numeral.dottedChars r.minors ++ (r.letter.map Letter.toChar).toList ++
    r.suffixes.flatMap Suffix.chars ++
    (match r.attempt with
      | some digits => ['-', 't', 'r', 'y'] ++ Digit.chars digits
      | none => []) ++
    (if r.live then ['-', 's', 'c', 'm'] else [])

def Revision.chars : Revision → List Char
  | bare => ['-', 'r']
  | numbered first more => ['-', 'r'] ++ first.chars ++ Numeral.dottedChars more

namespace Version

/-- The text of a version without its revision. -/
def baseChars : VersionBase → List Char
  | .scm => ['s', 'c', 'm']
  | .release r => r.chars

def chars (v : Version) : List Char :=
  baseChars v.base ++ (match v.revision with
    | some r => r.chars
    | none => [])

def text (v : Version) : String := String.ofList v.chars

instance : ToString Version := ⟨text⟩

def withoutRevision (v : Version) : Version := { v with revision := none }

end Version

/-!
## Reading versions

Each `take` function reads the longest element of its kind at the start of a text and
returns it with the rest. A version must fill its text as a whole.
-/

def Letter.ofChar? (c : Char) : Option Letter :=
  if h : 97 ≤ c.toNat ∧ c.toNat < 123 then some ⟨c.toNat - 97, by omega⟩ else none

def Letter.take : List Char → Option Letter × List Char
  | [] => (none, [])
  | c :: rest =>
    match Letter.ofChar? c with
    | some l => (some l, rest)
    | none => (none, c :: rest)

/-- Reads the name of a suffix; `pre` goes before `p`. -/
def SuffixKind.take? : List Char → Option (SuffixKind × List Char)
  | 'a' :: 'l' :: 'p' :: 'h' :: 'a' :: rest => some (alpha, rest)
  | 'b' :: 'e' :: 't' :: 'a' :: rest => some (beta, rest)
  | 'p' :: 'r' :: 'e' :: rest => some (pre, rest)
  | 'r' :: 'c' :: rest => some (rc, rest)
  | 'p' :: rest => some (patch, rest)
  | _ => none

theorem SuffixKind.length_of_take? {s rest : List Char} {k : SuffixKind}
    (h : SuffixKind.take? s = some (k, rest)) : rest.length < s.length := by
  unfold SuffixKind.take? at h
  split at h <;> simp_all <;> omega

def Suffix.takeAll (s : List Char) : List Suffix × List Char :=
  match s with
  | '_' :: after =>
    match h : SuffixKind.take? after with
    | some (kind, rest) =>
      have _h₁ : rest.length < after.length := SuffixKind.length_of_take? h
      have _h₂ := Digit.length_takeRun rest
      let run := Digit.takeRun rest
      (⟨kind, run.1⟩ :: (takeAll run.2).1, (takeAll run.2).2)
    | none => ([], '_' :: after)
  | _ => ([], s)
termination_by s.length
decreasing_by all_goals simp_wf; omega

def Release.takeAttempt : List Char → Option (List Digit) × List Char
  | '-' :: 't' :: 'r' :: 'y' :: rest => (some (Digit.takeRun rest).1, (Digit.takeRun rest).2)
  | s => (none, s)

def Release.takeLive : List Char → Bool × List Char
  | '-' :: 's' :: 'c' :: 'm' :: rest => (true, rest)
  | s => (false, s)

/-- Reads a release, as long as possible. -/
def Release.take? (s : List Char) : Option (Release × List Char) :=
  (Numeral.take? s).map fun (major, s₁) =>
    let (minors, s₂) := Numeral.takeDotted s₁
    let (letter, s₃) := Letter.take s₂
    let (suffixes, s₄) := Suffix.takeAll s₃
    let (attempt, s₅) := takeAttempt s₄
    let (live, s₆) := takeLive s₅
    (⟨major, minors, letter, suffixes, attempt, live⟩, s₆)

/-- Reads a revision, if one comes next; dots count only behind a number. -/
def Revision.take : List Char → Option Revision × List Char
  | '-' :: 'r' :: rest =>
    match Numeral.take? rest with
    | some (first, after) =>
      (some (numbered first (Numeral.takeDotted after).1), (Numeral.takeDotted after).2)
    | none => (some bare, rest)
  | s => (none, s)

namespace Version

def takeBase? : List Char → Option (VersionBase × List Char)
  | 's' :: 'c' :: 'm' :: rest => some (.scm, rest)
  | s => (Release.take? s).map fun (r, rest) => (.release r, rest)

def ofChars? (s : List Char) : Option Version :=
  match takeBase? s with
  | none => none
  | some (base, after) =>
    match Revision.take after with
    | (revision, []) => some ⟨base, revision⟩
    | _ => none

def parse (text : String) : Except Error Version :=
  match ofChars? text.toList with
  | some v => .ok v
  | none => .error (.badVersion text)

end Version

end PackageCatalog
