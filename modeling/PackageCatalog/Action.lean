import PackageCatalog.Error

/-!
# Actions

What can be done with a package ID.
-/

namespace PackageCatalog

/-- Something that a package ID may support. -/
inductive Action where
  | install
  | installed
  | uninstall
  | fetch
  | pretendFetch
  | pretend
  | config
  | info
  deriving DecidableEq, Repr

namespace Action

def all : List Action :=
  [install, installed, uninstall, fetch, pretendFetch, pretend, config, info]

/-- What a package of an ebuild repository supports. -/
def ofEbuilds : List Action := [install, fetch, pretendFetch, pretend, info]

/-- What every installed package supports. -/
def ofInstalled : List Action := [installed, uninstall, info]

def name : Action → String
  | install => "install"
  | installed => "installed"
  | uninstall => "uninstall"
  | fetch => "fetch"
  | pretendFetch => "pretend-fetch"
  | pretend => "pretend"
  | config => "config"
  | info => "info"

def parse (text : String) : Except Error Action :=
  match all.find? (·.name == text) with
  | some a => .ok a
  | none => .error (.unknownAction text)

end Action

end PackageCatalog
