import PackageCatalog.Expression.Basic
import PackageCatalog.FileTree
import PackageCatalog.Sorted

/-!
# Where files are fetched from

`RESTRICT` labels the files of `SRC_URI` with where they may be fetched from: as they are listed, or
from mirrors too. Mirrors are named lists of URIs; a name that is listed several times collects all
its URIs.
-/

namespace PackageCatalog

/-! ## Labels -/

namespace Expression

/-- Where the files of `SRC_URI` may be fetched from. -/
inductive UriLabel where
  | mirrorsThenListed
  | listedOnly
  | listedThenMirrors
  | manualOnly
  deriving DecidableEq, Repr

namespace UriLabel

/-- The label that a word of `RESTRICT` asks for. -/
def ofWord? : String → Option UriLabel
  | "fetch" | "nofetch" => some manualOnly
  | "mirror" | "nomirror" => some listedOnly
  | "primaryuri" => some listedThenMirrors
  | _ => none

/-- The label under a `RESTRICT`: the last word that asks for one decides. -/
def initial (restrict : Expression String) : UriLabel :=
  restrict.leaves.foldl (fun label word => (ofWord? word).getD label) mirrorsThenListed

def text : UriLabel → String
  | mirrorsThenListed => "default"
  | listedOnly => "default-restrict-mirror"
  | listedThenMirrors => "default-restrict-primaryuri"
  | manualOnly => "default-restrict-fetch"

end UriLabel

end Expression

/-! ## Mirrors -/

/-- Mirror names and their URIs, sorted by name. -/
abbrev MirrorList := List (String × List String)

namespace MirrorList

/-- Adds what a line lists: a name and its URIs. -/
def addLine (mirrors : MirrorList) (line : String) : MirrorList :=
  match Text.words line with
  | [] => mirrors
  | name :: uris => Sorted.alter compare name (fun known => known.getD [] ++ uris) mirrors

def load (files : FileTree) (path : Path) : Except Error MirrorList := do
  return (← files.readLines path).foldl addLine []

def names (mirrors : MirrorList) : List String := mirrors.map Prod.fst

/-- The URIs of a mirror, none if it is not known. -/
def uris (mirrors : MirrorList) (name : String) : List String :=
  (Sorted.find? compare name mirrors).getD []

end MirrorList

end PackageCatalog
