import PackageCatalog.Error
import PackageCatalog.Text

/-!
# Keywords

A keyword says how well a package works on an architecture; `*` stands for every
architecture. Users accept packages by listing keywords of their own.
-/

namespace PackageCatalog

/-- What a keyword claims. `any` is `**`, `disabledAll` is `-*`. -/
inductive Stability where
  | stable
  | testing
  | disabled
  | disabledAll
  | any
  deriving DecidableEq, Repr

/-- An entry of `KEYWORDS`, or of a list of accepted keywords. -/
structure Keyword where
  arch : String
  stability : Stability
  deriving DecidableEq, Repr

namespace Keyword

open Text

def isArch (s : String) : Bool :=
  startsWithChar isAlphanumeric s && allChars (fun c => isAlphanumeric c || c == '_' || c == '-') s

/-- Splits a token into what it claims and the architecture. -/
def splitToken (token : String) : Keyword :=
  match token.toList with
  | ['-', '*'] => ⟨"*", .disabledAll⟩
  | ['*', '*'] => ⟨"*", .any⟩
  | '~' :: arch => ⟨String.ofList arch, .testing⟩
  | '-' :: arch => ⟨String.ofList arch, .disabled⟩
  | _ => ⟨token, .stable⟩

def parse (token : String) : Except Error Keyword :=
  if token.isEmpty then .error .emptyKeyword
  else
    let k := splitToken token
    if k.arch == "*" || isArch k.arch then .ok k else .error (.invalidKeyword token)

def parseLine (line : String) : Except Error (List Keyword) := (words line).mapM parse

def text (k : Keyword) : String :=
  match k.stability with
  | .stable => k.arch
  | .testing => "~" ++ k.arch
  | .disabled => "-" ++ k.arch
  | .disabledAll => "-*"
  | .any => "**"

/-- Whether the keyword stands for every architecture. -/
def isWildcard (k : Keyword) : Bool := k.arch == "*"

/-- Whether the accepted keyword `a` lets a package with keyword `k` through. -/
def admits (a k : Keyword) : Bool :=
  let sameArch := a.arch == k.arch || a.isWildcard
  match k.stability, a.stability with
  | .stable, .any | .testing, .any => true
  | .stable, .stable | .stable, .testing | .testing, .testing => sameArch
  | _, _ => false

def acceptedBy (k : Keyword) (accepted : List Keyword) : Bool :=
  !k.isWildcard && accepted.any (·.admits k)

def anyAccepted (keywords accepted : List Keyword) : Bool :=
  keywords.any (·.acceptedBy accepted)

/-- Keywords are ordered by architecture, then by what they claim. -/
def compare (a b : Keyword) : Ordering :=
  (Ord.compare a.arch b.arch).then (Ord.compare a.stability.ctorIdx b.stability.ctorIdx)

instance : Ord Keyword := ⟨compare⟩

end Keyword

end PackageCatalog
