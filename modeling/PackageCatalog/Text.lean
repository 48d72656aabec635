import PackageCatalog.Error

/-!
# Text

Character classes and ways to cut a text that the file formats of a package repository share.
Each cut is defined on lists of characters, where it can be reasoned about, and then lifted to
`String`. `words` and `lines` are the two cuts that most formats start from; integers are read
within bounds.
-/

namespace PackageCatalog.Text

/-! ## Character classes -/

/-- The code points that have the Unicode property White_Space. -/
def isBlank (c : Char) : Bool :=
  let n := c.toNat
  (9 ≤ n && n ≤ 13) || n == 0x20 || n == 0x85 || n == 0xa0 || n == 0x1680 ||
    (0x2000 ≤ n && n ≤ 0x200a) || n == 0x2028 || n == 0x2029 || n == 0x202f ||
    n == 0x205f || n == 0x3000

/-- Space, tab, carriage return and line feed: what may stand between the items of an
expression. -/
def isSpacing (c : Char) : Bool :=
  c == ' ' || c == '\t' || c == '\r' || c == '\n'

/-- An ASCII letter or digit. -/
def isAlphanumeric (c : Char) : Bool := c.isAlphanum

/-! ## Cuts of a list of characters -/

/-- The pieces between the characters that satisfy `p`, empty ones included. -/
def pieces (p : Char → Bool) : List Char → List (List Char)
  | [] => [[]]
  | c :: rest =>
    if p c then [] :: pieces p rest
    else match pieces p rest with
      | [] => [[c]]
      | piece :: more => (c :: piece) :: more

/-- The text before the first character that satisfies `p`, and the text after it. -/
def cutAt (p : Char → Bool) : List Char → Option (List Char × List Char)
  | [] => none
  | c :: rest =>
    if p c then some ([], rest)
    else (cutAt p rest).map fun (before, after) => (c :: before, after)

/-- The text before the last character that satisfies `p`, and the text after it. -/
def cutAtLast (p : Char → Bool) : List Char → Option (List Char × List Char)
  | [] => none
  | c :: rest =>
    match cutAtLast p rest with
    | some (before, after) => some (c :: before, after)
    | none => if p c then some ([], rest) else none

/-- The text before the first occurrence of `mark`, and the text after it. -/
def cutAround (mark : List Char) : List Char → Option (List Char × List Char)
  | [] => if mark.isEmpty then some ([], []) else none
  | c :: rest =>
    if mark.isPrefixOf (c :: rest) then some ([], (c :: rest).drop mark.length)
    else (cutAround mark rest).map fun (before, after) => (c :: before, after)

/-- Drops the longest tail whose characters all satisfy `p`. -/
def dropTail (p : Char → Bool) : List Char → List Char
  | [] => []
  | c :: rest =>
    match dropTail p rest with
    | [] => if p c then [] else [c]
    | kept => c :: kept

/-- Drops `c` at the end, if it stands there. -/
def dropLast? (c : Char) (s : List Char) : List Char :=
  if s.getLast? = some c then s.dropLast else s

def trimChars (s : List Char) : List Char := dropTail isBlank (s.dropWhile isBlank)

/-- The longest runs of characters that are not blank. -/
def wordChars (s : List Char) : List (List Char) :=
  (pieces isBlank s).filter fun piece => !piece.isEmpty

/-- Takes the line ends off a list of pieces: all but the last piece ended in a line feed,
which a carriage return may precede; the last piece is a line only if it holds a character. -/
def closeLines : List (List Char) → List (List Char)
  | [] => []
  | [last] => if last.isEmpty then [] else [last]
  | piece :: more => dropLast? '\r' piece :: closeLines more

def lineChars (s : List Char) : List (List Char) := closeLines (pieces (· == '\n') s)

/-! ## The same for strings -/

def trim (s : String) : String := String.ofList (trimChars s.toList)

def trimEnd (s : String) : String := String.ofList (dropTail isBlank s.toList)

/-- The words of a text, blanks separating them. -/
def words (s : String) : List String := (wordChars s.toList).map String.ofList

def lines (s : String) : List String := (lineChars s.toList).map String.ofList

def splitOnce (c : Char) (s : String) : Option (String × String) :=
  (cutAt (· == c) s.toList).map fun (a, b) => (String.ofList a, String.ofList b)

def splitOnceLast (c : Char) (s : String) : Option (String × String) :=
  (cutAtLast (· == c) s.toList).map fun (a, b) => (String.ofList a, String.ofList b)

def splitAround (mark s : String) : Option (String × String) :=
  (cutAround mark.toList s.toList).map fun (a, b) => (String.ofList a, String.ofList b)

/-- The pieces between the occurrences of `c`. -/
def splitAll (c : Char) (s : String) : List String :=
  (pieces (· == c) s.toList).map String.ofList

/-- What follows `lead`, if the text starts with it. -/
def afterLead (lead s : String) : Option String :=
  if lead.toList.isPrefixOf s.toList then some (String.ofList (s.toList.drop lead.toList.length))
  else none

/-- What precedes `tail`, if the text ends with it. -/
def beforeTail (tail s : String) : Option String :=
  if tail.toList.isSuffixOf s.toList then
    some (String.ofList (s.toList.take (s.toList.length - tail.toList.length)))
  else none

def allChars (p : Char → Bool) (s : String) : Bool := s.toList.all p

def startsWithChar (p : Char → Bool) (s : String) : Bool := s.toList.head?.any p

def hasChar (c : Char) (s : String) : Bool := s.toList.contains c

def join (sep : String) (parts : List String) : String := sep.intercalate parts

/-!
## Integers in decimal

Reads an integer with an optional sign within given bounds. Digits are taken from the left,
and the first one that leaves the bounds or is no digit decides what is wrong.
-/

/-- Bounds of an integer. -/
structure IntegerRange where
  low : Int
  high : Int

def IntegerRange.bits32 : IntegerRange := ⟨-2147483648, 2147483647⟩

def IntegerRange.bits64 : IntegerRange := ⟨-9223372036854775808, 9223372036854775807⟩

/-- Appends digits to the number `acc`, downwards if `negative`. -/
def readDigits (range : IntegerRange) (negative : Bool) (acc : Int) :
    List Char → Except NumberFault Int
  | [] => .ok acc
  | c :: rest =>
    if c.isDigit then
      let d : Int := c.toNat - 48
      let next := if negative then 10 * acc - d else 10 * acc + d
      if next < range.low then .error .tooSmall
      else if range.high < next then .error .tooLarge
      else readDigits range negative next rest
    else .error .notDigits

def readInteger (range : IntegerRange) (s : String) : Except NumberFault Int :=
  match s.toList with
  | [] => .error .empty
  | ['+'] | ['-'] => .error .notDigits
  | '+' :: digits => readDigits range false 0 digits
  | '-' :: digits => readDigits range true 0 digits
  | digits => readDigits range false 0 digits

end PackageCatalog.Text
