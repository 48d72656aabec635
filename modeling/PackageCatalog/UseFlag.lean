import PackageCatalog.Name
import PackageCatalog.Sorted

/-!
# USE flags

The state of a USE flag, and the flags that a package declares in `IUSE` with their
defaults.
-/

namespace PackageCatalog

/-- Whether a flag is on for a package, as far as anything says so. -/
inductive UseState where
  | enabled
  | disabled
  | unspecified
  deriving DecidableEq, Repr

namespace UseState

def toBool? : UseState → Option Bool
  | enabled => some true
  | disabled => some false
  | unspecified => none

def isEnabled (s : UseState) : Bool := s == enabled

/-- The state that a mention of a flag puts it in. -/
def ofBool (on : Bool) : UseState := if on then enabled else disabled

end UseState

/-- A declared flag; the default is `true` for `+`, `false` for `-`. -/
structure DeclaredFlag where
  name : UseFlag
  default? : Option Bool
  deriving DecidableEq, Repr

namespace DeclaredFlag

/-- Splits a token into its sign and what follows. -/
def splitSign : List Char → Option Bool × List Char
  | '+' :: rest => (some true, rest)
  | '-' :: rest => (some false, rest)
  | s => (none, s)

def parse (token : String) : Except Error DeclaredFlag :=
  let (default?, rest) := splitSign token.toList
  match Name.ofText? .useFlag (String.ofList rest) with
  | some name => .ok ⟨name, default?⟩
  | none => .error (.invalidIUse token)

def text (d : DeclaredFlag) : String :=
  match d.default? with
  | some true => "+" ++ d.name.text
  | some false => "-" ++ d.name.text
  | none => d.name.text

/-- The state that the declaration alone gives the flag. -/
def state (d : DeclaredFlag) : UseState :=
  match d.default? with
  | some on => .ofBool on
  | none => .unspecified

/-- The flags of an `IUSE` line in the order of their names, each with the sign of its first
mention. -/
def parseSet (line : String) : Except Error (List DeclaredFlag) := do
  let flags ← (Text.words line).mapM parse
  return Sorted.distinct (fun a b => compare a.name b.name) flags

/-- The declaration of a flag, looked for by halving a list that is in the order of names. -/
def find? (set : List DeclaredFlag) (flag : UseFlag) : Option DeclaredFlag :=
  Sorted.search? (fun d => compare d.name flag) set

end DeclaredFlag

end PackageCatalog
