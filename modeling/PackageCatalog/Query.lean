import PackageCatalog.Environment
import PackageCatalog.PackageId

/-!
# Queries

A query says where package IDs are looked for, what they have to satisfy, and how many of
those found are wanted. Users leave out the category of a package if only one can be meant,
which is a query, too.
-/

namespace PackageCatalog

/-! ## Parts of a query and their texts -/

/-- Where a query looks for package IDs. -/
inductive Scope where
  | all
  | category (c : CategoryName)
  | package (name : QualifiedName)
  | repository (name : RepositoryName)
  | matching (a : Atom)
  deriving DecidableEq, Repr

def Scope.text : Scope → String
  | .all => "all packages"
  | .category c => s!"packages in category {c.text}"
  | .package name => s!"packages named {name.text}"
  | .repository name => s!"packages in repository {name.text}"
  | .matching a => s!"packages matching {a.text}"

/-- What a package ID has to satisfy. -/
inductive Filter where
  | supports (a : Action)
  | notMasked
  | installedAt (root : Path)
  | inRepository (name : RepositoryName)
  deriving DecidableEq, Repr

def Filter.text : Filter → String
  | .supports a => s!"supporting action {a.name}"
  | .notMasked => "not masked"
  | .installedAt root => s!"installed at root {root.text}"
  | .inRepository name => s!"in repository {name.text}"

/-- Which of the IDs found are wanted: all of them, sorted or as found, the best of each
package or of each of its slots, the only one, or the first found of each package. -/
inductive Choice where
  | allSorted
  | all
  | best
  | bestInEachSlot
  | exactlyOne
  | first
  deriving DecidableEq, Repr

def Choice.text : Choice → String
  | .allSorted => "all versions sorted"
  | .all => "all versions"
  | .best => "best version"
  | .bestInEachSlot => "best version in each slot"
  | .exactlyOne => "exactly one version"
  | .first => "some version"

/-- A question about the package IDs of a catalog. -/
structure Query where
  choice : Choice
  scope : Scope
  filters : List Filter
  deriving DecidableEq, Repr

def Query.text (q : Query) : String :=
  q.choice.text ++ " of " ++ Text.join " " (q.scope.text :: q.filters.map Filter.text)

instance : ToString Query := ⟨Query.text⟩

/-!
## Answers to queries

The IDs of a scope are collected from the repositories in the order of their importance,
each with the rank of its repository. Repositories in which a filter lets nothing through
are skipped. The best ID of a package has the highest version; of equal versions the one
in the more important repository is better.
-/

/-- The IDs of a repository in a scope, found without looking at the others where possible. -/
def Scope.candidates (r : Repository) : Scope → List PackageId
  | .all => r.ids
  | .category c => (r.packageNames c).flatMap r.packageIds
  | .package name => r.packageIds name
  | .repository name => if r.name = name then r.ids else []
  | .matching a =>
    if a.repository?.any (· != r.name) then []
    else
      let ids := match a.packageName? with
        | some name => r.packageIds name
        | none => r.ids
      ids.filter a.describes

namespace Filter

/-- Whether the filter may let an ID of a repository through, judged without the ID. -/
def mightPass (r : Repository) : Filter → Bool
  | supports a => r.mightSupport a
  | notMasked => true
  | installedAt _ => r.installedRoot?.isSome
  | inRepository name => r.name = name

def isRootOf (r : Repository) (root : Path) : Bool :=
  match r.installedRoot?.map Metadata.Key.value with
  | some (.ok (.path p)) => p.same root
  | _ => false

def passes (e : Environment) (r : Repository) (id : PackageId) : Filter → Bool
  | supports a => id.supports a
  | notMasked => !e.isMasked id
  | installedAt root => isRootOf r root
  | inRepository name => id.repository = name

end Filter

/-- A package ID that a query found, with the rank of its repository, 0 for the most
important one. -/
structure Hit where
  rank : Nat
  id : PackageId

namespace Hit

def compareIds (a b : PackageId) : Ordering :=
  (QualifiedName.compare a.name b.name).then (a.version.compare b.version)

/-- Of hits with the same name and an equal version the more important one comes last. -/
def compare (a b : Hit) : Ordering :=
  (compareIds a.id b.id).then (Ord.compare b.rank a.rank)

end Hit

namespace Query

def hitsIn (e : Environment) (q : Query) (r : Repository) (rank : Nat) : List Hit :=
  if q.filters.all (·.mightPass r) then
    ((q.scope.candidates r).filter fun id => q.filters.all (·.passes e r id)).map (⟨rank, ·⟩)
  else []

/-- Everything that a query finds, the most important repository first. -/
def hits (e : Environment) (q : Query) : List Hit :=
  e.catalog.repositories.zipIdx.flatMap fun (r, rank) => q.hitsIn e r rank

/-- What a query finds, the best last. -/
def sortedIds (e : Environment) (q : Query) : List PackageId :=
  (Sorted.sort Hit.compare (q.hits e)).map Hit.id

/-- The last ID of each package, in the order of names. -/
def lastOfEach (ids : List PackageId) : List PackageId :=
  (ids.foldl (fun kept id => Sorted.alter QualifiedName.compare id.name (fun _ => id) kept)
    []).map Prod.snd

def firstOfEach (ids : List PackageId) : List PackageId :=
  (ids.foldl (fun kept id => Sorted.alter QualifiedName.compare id.name (·.getD id) kept)
    []).map Prod.snd

/-- The order of slot names; no slot comes first. -/
def compareSlots : Option String → Option String → Ordering
  | none, none => .eq
  | none, some _ => .lt
  | some _, none => .gt
  | some a, some b => compare a b

def compareSlotted (a b : QualifiedName × Option String) : Ordering :=
  (QualifiedName.compare a.1 b.1).then (compareSlots a.2 b.2)

/-- The last ID in each slot of each package, in the order of names and versions. -/
def lastInEachSlot (ids : List PackageId) : List PackageId :=
  let kept := ids.foldl
    (fun kept id =>
      Sorted.alter compareSlotted (id.name, id.slot?.map Slot.name) (fun _ => id) kept)
    []
  Sorted.sort Hit.compareIds (kept.map Prod.snd)

def run (e : Environment) (q : Query) : Except Error (List PackageId) :=
  match q.choice with
  | .all => .ok ((q.hits e).map Hit.id)
  | .first => .ok (firstOfEach ((q.hits e).map Hit.id))
  | .allSorted => .ok (q.sortedIds e)
  | .best => .ok (lastOfEach (q.sortedIds e))
  | .bestInEachSlot => .ok (lastInEachSlot (q.sortedIds e))
  | .exactlyOne =>
    match q.sortedIds e with
    | [id] => .ok [id]
    | ids => .error (.notExactlyOne q.text ids.length)

end Query

/-!
## Looking up what a user names

Users leave out the category of a package if only one can be meant, and name sets: `world`,
`everything` that is installed, those of their configuration and those of repositories.
-/

namespace Environment

/-! ### Package names -/

/-- Whether a filter lets some ID of a package through; without a filter a package needs no
IDs. -/
def hasPassing (e : Environment) (filter? : Option Filter) (name : QualifiedName) : Bool :=
  match filter? with
  | some filter => !(Query.hits e ⟨.first, .package name, [filter]⟩).isEmpty
  | none => true

/-- The full names that a package name can stand for. -/
def meanings (e : Environment) (p : PackageName) (filter? : Option Filter) : List QualifiedName :=
  (e.catalog.qualifiedNames p).filter (e.hasPassing filter?)

/-- The only full name that a package name can stand for. -/
def uniqueName (e : Environment) (p : PackageName) (filter? : Option Filter) :
    Except Error QualifiedName :=
  match e.meanings p filter? with
  | [] => .error (.noSuchPackage p.text)
  | [name] => .ok name
  | names => .error (.ambiguousPackage p.text (names.map QualifiedName.text))

/-- The dialect in which users write atoms. -/
def userDialect (e : Environment) : Atom.Dialect := ⟨true, some fun p => e.uniqueName p none⟩

def parseAtom (e : Environment) (input : String) : Except Error Atom :=
  Atom.parseWith e.userDialect input

/-! ### Sets -/

def installedNames (e : Environment) : List QualifiedName :=
  let installed := e.catalog.repositories.filter (·.installedRoot?.isSome)
  Sorted.distinct QualifiedName.compare
    (installed.flatMap fun r => r.categoryNames.flatMap r.packageNames)

/-- The set of a name as the repositories define it together. -/
def repositorySet? (e : Environment) (name : SetName) : Option PackageSet :=
  match e.catalog.repositories.filterMap (·.packageSet? name) with
  | [] => none
  | sets => some ⟨name, sets.flatMap PackageSet.atoms⟩

def set? (e : Environment) (name : SetName) : Option PackageSet :=
  match name.text with
  | "world" => some ⟨name, e.world⟩
  | "everything" => some ⟨name, e.installedNames.map Atom.ofName⟩
  | _ => (e.userSet? name).or (e.repositorySet? name)

def findSet (e : Environment) (text : String) : Except Error (Option PackageSet) := do
  return e.set? (← Name.parse .set text)

end Environment

end PackageCatalog
