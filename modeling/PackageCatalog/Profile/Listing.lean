import PackageCatalog.FileTree
import PackageCatalog.Name

/-!
# What a `profiles` directory lists

The `profiles` directory of a repository says how the repository is called, which directories are
its categories, and which profiles it offers.
-/

namespace PackageCatalog

/-- A profile that a repository offers. -/
structure ProfileListing where
  path : Path
  arch : String
  status : String
  deriving DecidableEq, Repr

namespace ProfileListing

/-- The listing that a line of three words writes. -/
def parse? (dir : Path) (line : String) : Option ProfileListing :=
  match Text.words line with
  | [arch, relative, status] => some ⟨dir / relative, arch, status⟩
  | _ => none

def load (files : FileTree) (dir : Path) : Except Error (List ProfileListing) := do
  return (← files.readLines (dir / "profiles.desc")).filterMap (parse? dir)

end ProfileListing

namespace EbuildTree

/-- Directories at the top of a repository that are never categories. -/
def notCategories : List String :=
  ["distfiles", "eclass", "licenses", "metadata", "packages", "profiles", "scripts"]

/-- The categories: those that are listed, or else those that are there. -/
def scanCategories (files : FileTree) (location : Path) : Except Error (List CategoryName) := do
  let listed ← files.readLines (location / "profiles" / "categories")
  if listed.isEmpty then
    let names ← files.visibleNames location
    let categories := names.filter fun n =>
      !notCategories.contains n && files.isDirectory (location / n)
    return categories.filterMap (Name.ofText? .category)
  else return listed.filterMap (Name.ofText? .category)

end EbuildTree

namespace Repository

/-- The name that a repository's files give it, by default that of its directory. -/
def readName (files : FileTree) (location : Path) : Except Error RepositoryName := do
  match ← files.readLines (location / "profiles" / "repo_name") with
  | name :: _ => Name.parse .repository name
  | [] => Name.parse .repository ("x-" ++ location.fileName?.getD "unnamed")

end Repository

end PackageCatalog
