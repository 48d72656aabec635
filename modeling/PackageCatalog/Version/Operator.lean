import PackageCatalog.Version.Order

/-!
# Version operators

The seven ways in which a pattern can restrict a version.
-/

namespace PackageCatalog

namespace Version

/-- Whether two lists of weights first differ where the left one has a higher revision, or
nowhere. -/
def atLeastRevision : List Weight → List Weight → Bool
  | [], [] => true
  | [], b :: bs => Weight.compare .finish b == .eq && atLeastRevision [] bs
  | a :: as, [] =>
    if Weight.compare a .finish == .eq then atLeastRevision as [] else a.kind == .revision
  | a :: as, b :: bs =>
    match Weight.compare a b with
    | .eq => atLeastRevision as bs
    | .gt => a.kind == .revision && (b.kind == .finish || b.kind == .revision)
    | .lt => false

/-- The same version apart from the revision, which is at least that of `v`. -/
def meetsTilde (candidate v : Version) : Bool := atLeastRevision candidate.weights v.weights

/-- Whether the components `cs` start with those of `spec`. A bare suffix at the end of
`spec` stands for that suffix with any number. -/
def startWith (first : Bool) : List Component → List Component → Bool
  | _, [] => true
  | cs, s :: rest =>
    let same := match cs.head? with
      | some c => Weight.compare (c.weight first) (s.weight first) == .eq
      | none => Weight.compare .finish (s.weight first) == .eq
    if rest.isEmpty && s.isBareSuffix && cs.head?.any (·.kind == s.kind) then true
    else same && startWith false cs.tail rest

/-- Whether the components of `v` open those of the candidate. -/
def meetsStar (candidate v : Version) : Bool := startWith true candidate.components v.components

end Version

/-- The operators of a version requirement, `equalStar` being `=` with a final `*`. -/
inductive VersionOperator where
  | less
  | lessEqual
  | equal
  | equalStar
  | tilde
  | greaterEqual
  | greater
  deriving DecidableEq, Repr

namespace VersionOperator

def matches? (op : VersionOperator) (candidate v : Version) : Bool :=
  match op with
  | less => candidate.compare v == .lt
  | lessEqual => candidate.compare v != .gt
  | equal => candidate.equals v
  | equalStar => candidate.meetsStar v
  | tilde => candidate.meetsTilde v
  | greaterEqual => candidate.compare v != .lt
  | greater => candidate.compare v == .gt

def sign : VersionOperator → String
  | less => "<"
  | lessEqual => "<="
  | equal | equalStar => "="
  | tilde => "~"
  | greaterEqual => ">="
  | greater => ">"

end VersionOperator

end PackageCatalog
