import PackageCatalog.Version.Basic

/-!
# The order of versions

A version is compared component by component; a version that has run out of components
counts as its own kind, between the suffixes that precede a release and those that follow
it. Each component is given a `Weight`, and weights are ordered lexicographically, so the
order of versions is the lexicographic order of their weights, padded with `Weight.finish`.
Two versions are *equal* when neither precedes the other: `1.0`, `1.00` and `1.0-r0` are.
-/

namespace PackageCatalog

/-- The kinds of components, `finish` standing for the end of a version. The declaration
order is the order in which kinds decide a comparison. -/
inductive ComponentKind where
  | alpha
  | beta
  | pre
  | rc
  | finish
  | revision
  | patch
  | letter
  | attempt
  | number
  | scm
  deriving DecidableEq, Repr, Hashable

namespace ComponentKind

def rank (k : ComponentKind) : Nat := k.ctorIdx

end ComponentKind

def SuffixKind.component : SuffixKind → ComponentKind
  | alpha => .alpha
  | beta => .beta
  | pre => .pre
  | rc => .rc
  | patch => .patch

/-- One element of a version. A suffix or `-try` is `unbounded` when it has no number and
`-scm` follows it: it then exceeds every number. -/
inductive Component where
  | number (n : Numeral)
  | letter (l : Letter)
  | suffix (kind : SuffixKind) (digits : List Digit) (unbounded : Bool)
  | attempt (digits : List Digit) (unbounded : Bool)
  | scm
  | revision (digits : List Digit)
  deriving DecidableEq, Repr

namespace Component

def kind : Component → ComponentKind
  | number _ => .number
  | letter _ => .letter
  | suffix k _ _ => k.component
  | attempt _ _ => .attempt
  | scm => .scm
  | revision _ => .revision

def isUnbounded : Component → Bool
  | suffix _ _ u => u
  | attempt _ u => u
  | _ => false

/-- The digits of a count: without leading zeros, `0` for none. -/
def countDigits (digits : List Digit) : List Digit :=
  match Digit.dropZeros digits with
  | [] => [0]
  | kept => kept

/-- The value of a component as text: numbers and letters as written, counts without
leading zeros. -/
def valueChars : Component → List Char
  | number n => n.chars
  | letter l => [l.toChar]
  | suffix _ digits _ => Digit.chars (countDigits digits)
  | attempt digits _ => Digit.chars (countDigits digits)
  | scm => ['0']
  | revision digits => Digit.chars (countDigits digits)

/-- Whether this is one of the five suffixes, written without a number. -/
def isBareSuffix : Component → Bool
  | suffix _ digits _ => digits.isEmpty
  | _ => false

end Component

/-! ## The components of a version -/

/-- The components of the suffixes; `unbounded` says whether the last is followed by
`-scm`. -/
def Suffix.components (unbounded : Bool) : List Suffix → List Component
  | [] => []
  | [s] => [.suffix s.kind s.digits (unbounded && s.digits.isEmpty)]
  | s :: rest => .suffix s.kind s.digits false :: components unbounded rest

def Release.components (r : Release) : List Component :=
  .number r.major :: r.minors.map .number ++ (r.letter.map .letter).toList ++
    Suffix.components (r.live && r.attempt.isNone) r.suffixes ++
    (r.attempt.map fun digits => .attempt digits (r.live && digits.isEmpty)).toList ++
    (if r.live then [.scm] else [])

def Revision.components : Revision → List Component
  | bare => [.revision []]
  | numbered first more => .revision first.digits :: more.map fun n => .revision n.digits

namespace Version

/-- The components of what stands in front of the revision. -/
def baseComponents : VersionBase → List Component
  | .scm => [.scm]
  | .release r => r.components

def revisionComponents (v : Version) : List Component :=
  match v.revision with
  | some r => r.components
  | none => []

def components (v : Version) : List Component := baseComponents v.base ++ v.revisionComponents

end Version

/-! ## Weights -/

/-- The place of a component in the order: first the kind decides, then whether it counts
as high within its kind, then its value, then its digits. -/
structure Weight where
  kind : ComponentKind
  high : Bool
  value : Nat
  digits : List Digit
  deriving DecidableEq, Repr

namespace Weight

def compareDigits : List Digit → List Digit → Ordering
  | [], [] => .eq
  | [], _ :: _ => .lt
  | _ :: _, [] => .gt
  | a :: as, b :: bs => (compare a.val b.val).then (compareDigits as bs)

def compare (a b : Weight) : Ordering :=
  (Ord.compare a.kind.rank b.kind.rank).then <|
    (Ord.compare a.high.toNat b.high.toNat).then <|
      (Ord.compare a.value b.value).then (compareDigits a.digits b.digits)

/-- The weight of a version's end. A revision 0 weighs the same. -/
def finish : Weight := ⟨.finish, false, 0, []⟩

end Weight

namespace Component

/-- The weight of a component. The first number of a version counts by its value; so does a
later one without a leading zero, and a later one with a leading zero is smaller than those
and counts as a decimal fraction. -/
def weight (first : Bool) : Component → Weight
  | number n =>
    if first then ⟨.number, false, Digit.value n.digits, []⟩
    else if n.first = 0 then ⟨.number, false, 0, Digit.dropFinalZeros n.digits⟩
    else ⟨.number, true, Digit.value n.digits, []⟩
  | letter l => ⟨.letter, false, l.val, []⟩
  | suffix kind digits unbounded =>
    if unbounded then ⟨kind.component, true, 0, []⟩
    else ⟨kind.component, false, Digit.value digits, []⟩
  | attempt digits unbounded =>
    if unbounded then ⟨.attempt, true, 0, []⟩ else ⟨.attempt, false, Digit.value digits, []⟩
  | scm => ⟨.scm, false, 0, []⟩
  | revision digits =>
    if Digit.value digits = 0 then Weight.finish else ⟨.revision, false, Digit.value digits, []⟩

end Component

namespace Version

/-- The weights of a list of components, the first of which opens a version. -/
def weightsOf : List Component → List Weight
  | [] => []
  | c :: rest => c.weight true :: rest.map (·.weight false)

def weights (v : Version) : List Weight := weightsOf v.components

/-- The lexicographic order of two lists of weights, the shorter one padded. -/
def compareWeights : List Weight → List Weight → Ordering
  | [], [] => .eq
  | [], b :: bs => (Weight.compare .finish b).then (compareWeights [] bs)
  | a :: as, [] => (Weight.compare a .finish).then (compareWeights as [])
  | a :: as, b :: bs => (Weight.compare a b).then (compareWeights as bs)

def compare (a b : Version) : Ordering := compareWeights a.weights b.weights

instance : Ord Version := ⟨compare⟩

/-- Whether neither version precedes the other. -/
def equals (a b : Version) : Bool := compare a b == .eq

/-- One entry per component, revisions 0 left out: kind, value in a form that equal
components share, and whether it is unbounded. -/
def fingerprintOf (first : Bool) : List Component → List (ComponentKind × List Char × Bool)
  | [] => []
  | c :: rest =>
    let value := c.valueChars
    let shared :=
      if first && c.kind == .number then value.dropWhile (· == '0')
      else if value.head? == some '0' then (value.reverse.dropWhile (· == '0')).reverse
      else value
    if c.kind == .revision && value == ['0'] then fingerprintOf false rest
    else (c.kind, shared, c.isUnbounded) :: fingerprintOf false rest

/-- What a version is hashed by; equal versions have the same fingerprint. -/
def fingerprint (v : Version) : List (ComponentKind × List Char × Bool) :=
  fingerprintOf true v.components

instance : Hashable Version where
  hash v :=
    -- whichever other instance is in scope
    letI : Hashable Char := instHashableChar
    hash v.fingerprint

def countDistinct : List Version → Nat
  | [] => 0
  | v :: rest => (if rest.any (equals v) then 0 else 1) + countDistinct rest

/-! ## Parts of a version -/

/-- The revision part on its own, `r0` when there is none. -/
def revisionText (v : Version) : String :=
  match v.revisionComponents with
  | [] => "r0"
  | parts => "r" ++ ".".intercalate (parts.map fun c => String.ofList c.valueChars)

/-- Whether the version is `scm` or has a `-scm` part. -/
def hasScmPart (v : Version) : Bool :=
  match v.base with
  | .scm => true
  | .release r => r.live

/-- Whether the version has a `-try` part. -/
def hasTryPart (v : Version) : Bool :=
  match v.base with
  | .scm => false
  | .release r => r.attempt.isSome

/-- Whether the revision has a number 9999. -/
def hasLiveRevision (v : Version) : Bool :=
  v.revisionComponents.any fun
    | .revision digits => Digit.value digits == 9999
    | _ => false

/-- Whether the version has one number only, of four or more nines. -/
def isLoneNines (v : Version) : Bool :=
  match v.base with
  | .scm => false
  | .release r => r.minors.isEmpty && 4 ≤ r.major.digits.length && r.major.digits.all (· == 9)

def isScm (v : Version) : Bool := v.hasScmPart || v.hasLiveRevision || v.isLoneNines

end Version

end PackageCatalog
