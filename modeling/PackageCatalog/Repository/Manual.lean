import PackageCatalog.Repository.Basic

/-!
# Repositories filled by hand

A repository without files, for building a catalog step by step. An operation that fails
leaves it as it is.
-/

namespace PackageCatalog

namespace Repository

/-- An empty repository, of installed packages if `installed`. -/
def manual (name : String) (installed : Bool) : Except Error Repository := do
  let name ← Name.parse .repository name
  let keys :=
    if installed then [formatKey "installed-fake", rootKey ⟨"/"⟩] else [formatKey "fake"]
  return ⟨name, keys, .empty, .manual installed⟩

/-- An ID as this repository holds it by default, with slot `0`. -/
def defaultId (r : Repository) (name : QualifiedName) (v : Version) : PackageId :=
  let id := (PackageId.bare name v r.name).withSlot ⟨"0", none⟩
  match r.kind with
  | .manual true => (id.withActions Action.ofInstalled).withActions [.config]
  | _ =>
    ((id.withKey (.ofVariable "EAPI" "0")).withKey (.ofVariable "KEYWORDS" "test")).withActions
      Action.ofEbuilds

/-- Adds an ID, in place of one of the same name and an equal version. -/
def insert (r : Repository) (id : PackageId) : Repository := { r with index := r.index.insert id }

def addCategory (r : Repository) (category : String) : Except Error (CategoryName × Repository) := do
  let c ← Name.parse .category category
  return (c, { r with index := r.index.addCategory c })

/-- Adds a package without versions. -/
def addPackage (r : Repository) (name : String) : Except Error (QualifiedName × Repository) := do
  let name ← QualifiedName.parse name
  return (name, { r with index := r.index.addPackage name })

def addDefault (r : Repository) (name : QualifiedName) (version : String) :
    Except Error (PackageId × Repository) := do
  let v ← Version.parse version
  let id := r.defaultId name v
  return (id, r.insert id)

def addVersion (r : Repository) (name version : String) : Except Error (PackageId × Repository) := do
  let name ← QualifiedName.parse name
  r.addDefault name version

/-- Adds a version of a package whose name is given in its halves. -/
def addVersionOfParts (r : Repository) (category package version : String) :
    Except Error (PackageId × Repository) := do
  let name ← QualifiedName.ofParts category package
  r.addDefault name version

end Repository

end PackageCatalog
