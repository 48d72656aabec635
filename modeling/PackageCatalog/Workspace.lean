import PackageCatalog.Query
import PackageCatalog.Environment
import PackageCatalog.Repository.Manual

/-!
# Workspaces

A workspace holds the repositories that were opened one after the other and the environment
they are used in. A repository that changes, because an ID was added to it or it switched to
another profile, changes for the environment as well: the environment refers to its members
by their places in the workspace.
-/

namespace PackageCatalog

/-- A policy and its repositories, which stand for their places in a workspace, the most
important first. Only an extensible environment takes in further repositories. -/
structure Setting where
  policy : Policy
  extensible : Bool
  members : List (Int × Nat)

/-- A file tree, every repository opened so far, the places of those that were opened by
themselves, the latest first, and the current environment. -/
structure Workspace where
  files : FileTree
  repositories : List Repository
  opened : List Nat
  setting? : Option Setting

namespace Workspace

/-- Why a request to a workspace is refused. -/
inductive Fault where
  | noEnvironment
  | notExtensible
  | noManualRepository
  | noSuchId
  | notOffered
  | error (e : Error)

/-- A result whose error becomes a fault. -/
def orFault {α : Type} : Except Error α → Except Fault α
  | .ok a => .ok a
  | .error e => .error (.error e)

def ofFiles (files : FileTree) : Workspace := ⟨files, [], [], none⟩

/-! ## Finding repositories -/

def environment (w : Workspace) : Except Fault Environment :=
  match w.setting? with
  | none => .error .noEnvironment
  | some s =>
    .ok ⟨s.policy, ⟨s.members.filterMap fun (i, n) => w.repositories[n]?.map fun r => (i, r)⟩⟩

def placesWhere (w : Workspace) (p : Repository → Bool) (places : List Nat) : List Nat :=
  places.filter fun n => w.repositories[n]?.any p

/-- The place of a repository: the latest of its name that was opened by itself, or else the
one in the environment. -/
def locate (w : Workspace) (name : String) : Except Fault Nat :=
  match w.placesWhere (·.name.text = name) w.opened, w.setting? with
  | n :: _, _ => .ok n
  | [], none => .error .noEnvironment
  | [], some s => do
    let name ← orFault (Name.parse .repository name)
    match w.placesWhere (·.name = name) (s.members.map Prod.snd) with
    | n :: _ => .ok n
    | [] => .error (.error (.noSuchRepository name.text))

def at? (w : Workspace) (n : Nat) : Except Fault Repository :=
  match w.repositories[n]? with
  | some r => .ok r
  | none => .error .noEnvironment

def repository (w : Workspace) (name : String) : Except Fault Repository := do
  w.at? (← w.locate name)

def tree (w : Workspace) (name : String) : Except Fault EbuildTree := do
  match (← w.repository name).tree? with
  | some tree => .ok tree
  | none => .error .notOffered

def findId (w : Workspace) (repository name version : String) : Except Fault PackageId := do
  let v ← orFault (Version.parse version)
  let r ← w.repository repository
  let name ← orFault (QualifiedName.parse name)
  match r.find? name v with
  | some id => .ok id
  | none => .error .noSuchId

/-! ## Opening and changing repositories -/

/-- Takes in a repository that was opened by itself. -/
def adopt (w : Workspace) (r : Repository) : Workspace :=
  { w with repositories := w.repositories ++ [r], opened := w.repositories.length :: w.opened }

def replace (w : Workspace) (n : Nat) (r : Repository) : Workspace :=
  { w with repositories := w.repositories.set n r }

/-- Changes the latest repository of a name that is filled by hand. -/
def fill {α : Type} (w : Workspace) (name : String)
    (change : Repository → Except Error (α × Repository)) : Except Fault (α × Workspace) :=
  match w.placesWhere (fun r => r.isManual && r.name.text = name) w.opened with
  | [] => .error .noManualRepository
  | n :: _ => do
    let (a, r) ← orFault (change (← w.at? n))
    return (a, w.replace n r)

def setProfile (w : Workspace) (name : String) (path : Path) : Except Fault Workspace := do
  let n ← w.locate name
  let r ← w.at? n
  match r.tree? with
  | none => .error .notOffered
  | some tree => return w.replace n (← orFault (r.setProfile w.files tree path))

/-! ## The environment -/

def enter (w : Workspace) (e : Environment) (extensible : Bool) : Workspace :=
  let places := List.range' w.repositories.length e.catalog.members.length
  { w with
    repositories := w.repositories ++ e.catalog.repositories
    setting? := some ⟨e.policy, extensible, (e.catalog.members.map Prod.fst).zip places⟩ }

def join (w : Workspace) (name : String) (importance : Int) : Except Fault Workspace := do
  let n ← w.locate name
  let r ← w.at? n
  match w.setting? with
  | none => .error .noEnvironment
  | some s =>
    if !s.extensible then .error .notExtensible
    else
      let e ← w.environment
      let _ ← orFault (e.catalog.add importance r)
      return { w with setting? := some { s with members := Catalog.place importance n s.members } }

end Workspace

end PackageCatalog
