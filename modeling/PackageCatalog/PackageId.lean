import PackageCatalog.Action
import PackageCatalog.Atom
import PackageCatalog.Metadata

/-!
# Package IDs

A version of a package in a repository, with what is known about it. Its identity is its
name, version and repository; slot, metadata, masks and actions are not part of it. Atoms
describe package IDs.
-/

namespace PackageCatalog

/-- A version of a package in a repository. -/
structure PackageId where
  name : QualifiedName
  version : Version
  slot? : Option Slot
  repository : RepositoryName
  keys : List Metadata.Key
  masks : List Mask
  actions : List Action
  deriving Repr

namespace PackageId

/-! ## Making an ID -/

/-- The ID about which nothing is known yet. -/
def bare (name : QualifiedName) (version : Version) (repository : RepositoryName) : PackageId :=
  ⟨name, version, none, repository, [], [], []⟩

def withSlot (id : PackageId) (slot : Slot) : PackageId := { id with slot? := some slot }

/-- Puts a key in the place of the one of the same name, or at the end. -/
def putKey (key : Metadata.Key) : List Metadata.Key → List Metadata.Key
  | [] => [key]
  | k :: rest => if k.name = key.name then key :: rest else k :: putKey key rest

/-- The same ID with a key, which replaces one of the same name. -/
def withKey (id : PackageId) (key : Metadata.Key) : PackageId :=
  { id with keys := putKey key id.keys }

def withMask (id : PackageId) (mask : Mask) : PackageId := { id with masks := id.masks ++ [mask] }

/-- Adds an action unless it is there. -/
def addAction (actions : List Action) (a : Action) : List Action :=
  if actions.contains a then actions else actions ++ [a]

def withActions (id : PackageId) (more : List Action) : PackageId :=
  { id with actions := more.foldl addAction id.actions }

/-! ## Asking an ID -/

def key? (id : PackageId) (name : String) : Option Metadata.Key :=
  id.keys.find? (·.name = name)

/-- The names of the keys that have a role of their own in displays. -/
def roleNames : List String :=
  ["DESCRIPTION", "LONG_DESCRIPTION", "KEYWORDS", "IUSE", "USE", "CONTENTS", "INSTALLED_TIME",
    "REPOSITORY", "BINARY_REPOSITORY", "DEPEND", "RDEPEND", "PDEPEND", "HOMEPAGE", "SRC_URI",
    "LICENSE", "EAPI", "INHERITED"]

def roles (id : PackageId) : List String := roleNames.filter fun name => (id.key? name).isSome

/-- The actions that the ID supports, in their own order. -/
def supportedActions (id : PackageId) : List Action := Action.all.filter id.actions.contains

def supports (id : PackageId) (a : Action) : Bool := id.actions.contains a

/-- Whether the ID carries masks of its own. -/
def isMasked (id : PackageId) : Bool := !id.masks.isEmpty

/-- Whether two IDs are the same version of the same package in the same repository. -/
def same (a b : PackageId) : Bool :=
  a.name = b.name && a.version.equals b.version && a.repository = b.repository

def countDistinct : List PackageId → Nat
  | [] => 0
  | a :: rest => (if rest.any (same a) then 0 else 1) + countDistinct rest

instance : Hashable PackageId :=
  ⟨fun id => mixHash (hash id.name.text) (mixHash (hash id.version) (hash id.repository.text))⟩

/-! ## Text -/

def placeText (id : PackageId) : String :=
  (match id.slot? with
    | some slot => ":" ++ slot.name
    | none => "") ++ "::" ++ id.repository.text

/-- The ID as written in full: `cat/pkg-1.0:0::repo`. -/
def text (id : PackageId) : String := id.name.text ++ "-" ++ id.version.text ++ id.placeText

def textWithoutVersion (id : PackageId) : String := id.name.text ++ id.placeText

def textWithoutName (id : PackageId) : String := id.version.text ++ id.placeText

instance : ToString PackageId := ⟨text⟩

end PackageId

/-!
## Matching atoms

Which package IDs an atom describes.
-/

def VersionRequirement.admits (r : VersionRequirement) (v : Version) : Bool :=
  r.operator.matches? v r.version

namespace Atom

/-- Whether a slot satisfies a slot restriction; a slot without a sub-slot counts as its own
sub-slot. -/
def admitsSlot (wanted slot : Slot) : Bool :=
  slot.name = wanted.name &&
    match wanted.sub? with
    | some sub => slot.sub?.getD wanted.name = sub
    | none => true

def describes (a : Atom) (id : PackageId) : Bool :=
  a.name.admits id.name &&
    a.version?.all (·.admits id.version) &&
    a.slot?.all (fun wanted => id.slot?.any (admitsSlot wanted)) &&
    a.repository?.all (fun r => r = id.repository)

end Atom

namespace PackageSet

def contains (set : PackageSet) (id : PackageId) : Bool := set.atoms.any (·.describes id)

end PackageSet

end PackageCatalog
