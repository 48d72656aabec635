import PackageCatalog.Profile.Basic

/-!
# Loading profiles

A directory's `parent` file names the directories that are applied before it. A directory
that is its own ancestor is refused; as a tree has finitely many directories, loading comes
to an end.
-/

namespace PackageCatalog

namespace FileTree

/-- Every list of names under which something stands. -/
def places (tree : FileTree) : List (List String) := [] :: tree.entries.map Prod.fst

theorem mem_places_of_node? {tree : FileTree} {names : List String} {node : FileNode}
    (h : tree.node? names = some node) : names ∈ tree.places := by
  unfold node? at h
  split at h
  · next hempty => simp [places, List.isEmpty_iff.mp hempty]
  · obtain ⟨l₁, l₂, heq, -⟩ := List.lookup_eq_some_iff.mp h
    simp [places, heq]

theorem exists_node_of_walk {tree : FileTree} {place names : List String} {steps : List String}
    (h : tree.walk place steps = .ok names) : ∃ node, tree.node? names = some node := by
  induction steps generalizing place with
  | nil =>
    simp only [walk] at h
    split at h
    · next hsome =>
      simp only [Except.ok.injEq] at h
      subst h
      exact Option.isSome_iff_exists.mp hsome
    · simp at h
  | cons step rest ih =>
    simp only [walk] at h
    split at h
    · split at h
      · exact ih h
      · split at h
        · exact ih h
        · split at h
          · simp at h
          · split at h
            · exact ih h
            · simp at h
    · simp at h
    · simp at h

theorem mem_places_of_resolve {tree : FileTree} {path : Path} {names : List String}
    (h : tree.resolve path = .ok names) : names ∈ tree.places := by
  unfold resolve at h
  split at h
  · simp at h
  · split at h
    · simp at h
    · obtain ⟨node, hnode⟩ := exists_node_of_walk h
      exact mem_places_of_node? hnode

/-- The places that a chain of directories has not come to. -/
def unvisited (tree : FileTree) (chain : List (List String)) : List (List String) :=
  tree.places.filter fun names => !chain.contains names

theorem length_unvisited_cons_lt {tree : FileTree} {chain : List (List String)}
    {names : List String} (hmem : names ∈ tree.places) (hnew : names ∉ chain) :
    (tree.unvisited (names :: chain)).length < (tree.unvisited chain).length := by
  unfold unvisited
  have hsub : (tree.places.filter fun n => !(names :: chain).contains n) =
      (tree.places.filter fun n => !chain.contains n).filter fun n => n != names := by
    rw [List.filter_filter]
    congr 1
    funext n
    by_cases hn : n = names <;> simp [hn]
  rw [hsub]
  apply List.length_filter_lt_length_iff_exists.mpr
  exact ⟨names, by simp [hmem, hnew], by simp⟩

end FileTree

namespace Profile

mutual

/-- Applies the directory at `path` and, before it, its parents. `chain` holds the directories
whose parents are being applied. -/
def loadDirectory (files : FileTree) (chain : List (List String)) (p : Profile) (path : Path) :
    Except Error Profile :=
  match _h : files.resolve path with
  | .error _ => .error (.noSuchProfile path.text)
  | .ok names =>
    let dir := Path.ofNames names
    if _hmem : names ∈ chain then .error (.badConfig dir.text .profileCycle)
    else
      match files.readLines (dir / "parent") with
      | .error e => .error e
      | .ok parents =>
        match loadParents files (names :: chain) p dir parents with
        | .error e => .error e
        | .ok inherited => inherited.applyDirectory files dir
termination_by ((files.unvisited chain).length, 0)
decreasing_by
  exact Prod.Lex.left _ _
    (FileTree.length_unvisited_cons_lt (FileTree.mem_places_of_resolve _h) _hmem)

def loadParents (files : FileTree) (chain : List (List String)) (p : Profile) (dir : Path) :
    List String → Except Error Profile
  | [] => .ok p
  | parent :: rest =>
    match loadDirectory files chain p (dir / parent) with
    | .error e => .error e
    | .ok applied => loadParents files chain applied dir rest
termination_by parents => ((files.unvisited chain).length, parents.length + 1)

end

def load (files : FileTree) (path : Path) : Except Error Profile :=
  (loadDirectory files [] empty path).map finish

end Profile

end PackageCatalog
