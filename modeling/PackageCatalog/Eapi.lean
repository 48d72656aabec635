import PackageCatalog.Error
import PackageCatalog.Text

/-!
# EAPIs

The ebuild format's versions and the variables that came with them.
-/

namespace PackageCatalog

/-- A known version of the ebuild format. -/
abbrev Eapi := Fin 10

namespace Eapi

def name (e : Eapi) : String := toString e.val

/-- The EAPI of a package that names none. -/
def implicit : Eapi := 0

def hasProperties (e : Eapi) : Bool := 3 ≤ e.val

def hasBdepend (e : Eapi) : Bool := 7 ≤ e.val

def hasIdepend (e : Eapi) : Bool := 8 ≤ e.val

/-- Whether a variable means something in the EAPI. -/
def definesVariable (e : Eapi) (name : String) : Bool :=
  match name with
  | "PROPERTIES" => e.hasProperties
  | "BDEPEND" => e.hasBdepend
  | "IDEPEND" => e.hasIdepend
  | _ => true

def known : List Eapi := [0, 1, 2, 3, 4, 5, 6, 7, 8, 9]

/-- The EAPI that a text names exactly. -/
def parse (text : String) : Except Error Eapi :=
  match known.find? (·.name == text) with
  | some e => .ok e
  | none => .error (.unsupportedEapi text)

/-- The EAPI of a metadata entry: blanks around it do not count, and a blank entry is the
implicit one. -/
def ofMetadata (value : String) : Except Error Eapi :=
  let trimmed := Text.trim value
  if trimmed.isEmpty then .ok implicit else parse trimmed

end Eapi

end PackageCatalog
