import Mathlib.Logic.Relation
import PackageCatalog.Proofs.Result
import PackageCatalog.Profile.Load

/-!
# Parent trees of profiles

`Inherits files child parent`: the `parent` file of `child` names `parent`. Spelled out, the
`parent` files below a directory make a tree (`ParentTree.Of`), in which a directory stands once
for each path that leads to it. Where all parents exist there is such a tree just when no
directory is its own ancestor (`Of.not_transGen`, `exists_of_acyclic`), and loading a profile is
applying the directories of its tree in postorder (`exists_parentTree`,
`loadDirectory_eq_foldlM`).
-/

namespace PackageCatalog

open Relation

namespace Profile

variable {files : FileTree}

/-- The `parent` file of the directory `child` names the directory `parent`. -/
def Inherits (files : FileTree) (child parent : List String) : Prop :=
  ∃ lines, files.readLines (Path.ofNames child / "parent") = .ok lines ∧
    ∃ line ∈ lines, files.resolve (Path.ofNames child / line) = .ok parent

/-- The `parent` file can be read, if there is one, and what it names is there. -/
def ParentsExist (files : FileTree) (dir : List String) : Prop :=
  ∃ lines, files.readLines (Path.ofNames dir / "parent") = .ok lines ∧
    ∀ line ∈ lines, ∃ parent, files.resolve (Path.ofNames dir / line) = .ok parent

end Profile

open Profile

/-- A profile directory over its parents, in the order of its `parent` file. -/
inductive ParentTree where
  | node (dir : List String) (parents : List ParentTree)

namespace ParentTree

mutual

/-- The directories of a tree, each behind its parents. -/
def postorder : ParentTree → List (List String)
  | node dir parents => postorderAll parents ++ [dir]

def postorderAll : List ParentTree → List (List String)
  | [] => []
  | t :: ts => t.postorder ++ postorderAll ts

end

mutual

/-- `Of files dir t`: `t` spells out the `parent` files from `dir` on. -/
inductive Of (files : FileTree) : List String → ParentTree → Prop
  | node {dir : List String} {lines : List String} {parents : List ParentTree} :
      files.readLines (Path.ofNames dir / "parent") = .ok lines →
      AllOf files (Path.ofNames dir) lines parents → Of files dir (node dir parents)

/-- `AllOf files dir lines ts`: `ts` spell out what `lines` in the `parent` file of `dir` name. -/
inductive AllOf (files : FileTree) : Path → List String → List ParentTree → Prop
  | nil {dir : Path} : AllOf files dir [] []
  | cons {dir : Path} {line : String} {lines parent : List String} {t : ParentTree}
      {ts : List ParentTree} :
      files.resolve (dir / line) = .ok parent → Of files parent t → AllOf files dir lines ts →
      AllOf files dir (line :: lines) (t :: ts)

end

/-! ## Trees and reachable directories -/

variable {files : FileTree}

mutual

theorem Of.reflTransGen {root : List String} : ∀ {dir : List String} {t : ParentTree},
    Of files dir t → ReflTransGen (Inherits files) root dir →
      ∀ d ∈ t.postorder, ReflTransGen (Inherits files) root d
  | dir, _, .node hlines hall, hreach, d, hd => by
    rw [postorder, List.mem_append, List.mem_singleton] at hd
    rcases hd with hd | rfl
    · refine hall.reflTransGen (fun line hline parent hparent => ?_) d hd
      exact hreach.tail ⟨_, hlines, line, hline, hparent⟩
    · exact hreach

theorem AllOf.reflTransGen {root : List String} : ∀ {dir : Path} {lines : List String}
    {ts : List ParentTree}, AllOf files dir lines ts →
      (∀ line ∈ lines, ∀ parent, files.resolve (dir / line) = .ok parent →
        ReflTransGen (Inherits files) root parent) →
      ∀ d ∈ postorderAll ts, ReflTransGen (Inherits files) root d
  | _, _, _, .nil, _, d, hd => absurd hd List.not_mem_nil
  | _, _, _, .cons hparent ht hts, hreach, d, hd => by
    rw [List.forall_mem_cons] at hreach
    rw [postorderAll, List.mem_append] at hd
    rcases hd with hd | hd
    · exact ht.reflTransGen (hreach.1 _ hparent) d hd
    · exact hts.reflTransGen hreach.2 d hd

end

mutual

theorem Of.acc : ∀ {dir : List String} {t : ParentTree}, Of files dir t →
    Acc (fun parent child => Inherits files child parent) dir
  | dir, _, .node hlines hall => by
    refine Acc.intro dir ?_
    rintro parent ⟨lines, hread, line, hline, hparent⟩
    rw [hlines] at hread
    cases hread
    exact hall.acc line hline parent hparent

theorem AllOf.acc : ∀ {dir : Path} {lines : List String} {ts : List ParentTree},
    AllOf files dir lines ts → ∀ line ∈ lines, ∀ parent, files.resolve (dir / line) = .ok parent →
      Acc (fun parent child => Inherits files child parent) parent
  | _, _, _, .nil => fun line hline => absurd hline List.not_mem_nil
  | _, _, _, .cons hparent ht hts => by
    rw [List.forall_mem_cons]
    refine ⟨fun parent h => ?_, hts.acc⟩
    rw [hparent] at h
    cases h
    exact ht.acc

end

/-- The trees of several lines hold the tree of each directory that they name. -/
theorem AllOf.exists_subtree {dir : Path} {lines : List String} {ts : List ParentTree}
    (h : AllOf files dir lines ts) {line : String} (hline : line ∈ lines) {parent : List String}
    (hparent : files.resolve (dir / line) = .ok parent) :
    ∃ t, Of files parent t ∧ ∀ d ∈ t.postorder, d ∈ postorderAll ts := by
  induction lines generalizing ts with
  | nil => exact absurd hline List.not_mem_nil
  | cons first lines ih =>
    cases h with
    | cons hfirst ht hts =>
      simp only [postorderAll, List.mem_append]
      rcases List.mem_cons.mp hline with rfl | hline
      · rw [hparent] at hfirst
        cases hfirst
        exact ⟨_, ht, fun d hd => .inl hd⟩
      · obtain ⟨t, hof, hmem⟩ := ih hts hline
        exact ⟨t, hof, fun d hd => .inr (hmem d hd)⟩

theorem Of.mem_postorder_self {dir : List String} {t : ParentTree} (h : Of files dir t) :
    dir ∈ t.postorder := by
  cases h
  exact List.mem_append_right _ (List.mem_singleton.mpr rfl)

theorem Of.exists_subtree {dir parent : List String} {t : ParentTree} (h : Of files dir t)
    (hparent : Inherits files dir parent) :
    ∃ t', Of files parent t' ∧ ∀ d ∈ t'.postorder, d ∈ t.postorder := by
  obtain ⟨lines, hread, line, hline, hresolve⟩ := hparent
  cases h with
  | node hlines hall =>
    rw [hread] at hlines
    cases hlines
    obtain ⟨t', hof, hmem⟩ := hall.exists_subtree hline hresolve
    exact ⟨t', hof, fun d hd => List.mem_append_left _ (hmem d hd)⟩

/-- Each directory that can be reached from the root of a tree has its own tree within it. -/
theorem Of.exists_tree_of_reached {root dir : List String} {t : ParentTree} (h : Of files root t)
    (hreach : ReflTransGen (Inherits files) root dir) :
    ∃ t', Of files dir t' ∧ ∀ d ∈ t'.postorder, d ∈ t.postorder := by
  induction hreach with
  | refl => exact ⟨t, h, fun _ hd => hd⟩
  | tail _ hstep ih =>
    obtain ⟨t₁, hof₁, hmem₁⟩ := ih
    obtain ⟨t₂, hof₂, hmem₂⟩ := hof₁.exists_subtree hstep
    exact ⟨t₂, hof₂, fun d hd => hmem₁ d (hmem₂ d hd)⟩

/-- A tree holds the directories that can be reached from its root, and no others. -/
theorem Of.mem_postorder_iff {root : List String} {t : ParentTree} (h : Of files root t)
    {dir : List String} : dir ∈ t.postorder ↔ ReflTransGen (Inherits files) root dir := by
  constructor
  · exact h.reflTransGen .refl dir
  · intro hreach
    obtain ⟨t', hof, hmem⟩ := h.exists_tree_of_reached hreach
    exact hmem dir hof.mem_postorder_self

/-! ## Cycles -/

theorem not_transGen_of_acc {α : Type} {r : α → α → Prop} {a : α} (h : Acc r a) :
    ¬ TransGen r a a := by
  have hacc := h.transGen
  clear h
  induction hacc with
  | intro a _ ih => exact fun hcycle => ih a hcycle hcycle

theorem AllOf.exists_parent {dir : Path} {lines : List String} {ts : List ParentTree}
    (h : AllOf files dir lines ts) :
    ∀ line ∈ lines, ∃ parent, files.resolve (dir / line) = .ok parent := by
  induction lines generalizing ts with
  | nil => exact fun line hline => absurd hline List.not_mem_nil
  | cons first lines ih =>
    cases h with
    | cons hfirst _ hts => exact List.forall_mem_cons.mpr ⟨⟨_, hfirst⟩, ih hts⟩

theorem Of.parentsExist {dir : List String} {t : ParentTree} (h : Of files dir t) :
    ParentsExist files dir := by
  cases h with
  | node hlines hall => exact ⟨_, hlines, hall.exists_parent⟩

/-- No directory of a tree is its own ancestor. -/
theorem Of.not_transGen {dir : List String} {t : ParentTree} (h : Of files dir t) :
    ¬ TransGen (Inherits files) dir dir := by
  intro hcycle
  exact not_transGen_of_acc h.acc (transGen_swap.mpr hcycle)

theorem AllOf.of_forall {dir : Path} {lines : List String}
    (h : ∀ line ∈ lines, ∃ parent, files.resolve (dir / line) = .ok parent ∧
      ∃ t, Of files parent t) : ∃ ts, AllOf files dir lines ts := by
  induction lines with
  | nil => exact ⟨[], .nil⟩
  | cons line lines ih =>
    obtain ⟨⟨parent, hparent, t, ht⟩, hlines⟩ := List.forall_mem_cons.mp h
    obtain ⟨ts, hts⟩ := ih hlines
    exact ⟨t :: ts, .cons hparent ht hts⟩

/-- Where all parents exist and nothing is its own ancestor, the tree can be spelled out: on the
way down, `chain` takes in ever more of the finitely many places. -/
theorem exists_of_acyclic {root : List String}
    (h : ∀ dir, ReflTransGen (Inherits files) root dir →
      ParentsExist files dir ∧ ¬ TransGen (Inherits files) dir dir)
    (chain : List (List String)) {dir : List String} (hplace : dir ∈ files.places)
    (hreach : ReflTransGen (Inherits files) root dir)
    (hchain : ∀ c ∈ chain, TransGen (Inherits files) c dir) : ∃ t, Of files dir t := by
  obtain ⟨⟨lines, hlines, hparents⟩, hcycle⟩ := h dir hreach
  -- a directory of the chain would be its own ancestor, so each step uses up a place
  have hnew : dir ∉ chain := fun hmem => hcycle (hchain dir hmem)
  have hless := FileTree.length_unvisited_cons_lt hplace hnew
  have hall : ∃ ts, AllOf files (Path.ofNames dir) lines ts := by
    refine AllOf.of_forall fun line hline => ?_
    obtain ⟨parent, hparent⟩ := hparents line hline
    have hstep : Inherits files dir parent := ⟨lines, hlines, line, hline, hparent⟩
    refine ⟨parent, hparent, exists_of_acyclic h (dir :: chain)
      (FileTree.mem_places_of_resolve hparent) (hreach.tail hstep) ?_⟩
    exact List.forall_mem_cons.mpr ⟨.single hstep, fun c hc => (hchain c hc).tail hstep⟩
  obtain ⟨ts, hts⟩ := hall
  exact ⟨node dir ts, .node hlines hts⟩
termination_by (files.unvisited chain).length

end ParentTree

/-! ## Loading -/

namespace Profile

open ParentTree

variable {chain : List (List String)} {p : Profile} {path : Path}

def applyNames (files : FileTree) (p : Profile) (dir : List String) : Except Error Profile :=
  p.applyDirectory files (Path.ofNames dir)

theorem loadDirectory_of_missing {fault : AccessFault} (h : files.resolve path = .error fault) :
    loadDirectory files chain p path = .error (.noSuchProfile path.text) := by
  rw [loadDirectory]
  split
  · rfl
  · next hdir =>
    rw [h] at hdir
    cases hdir

theorem loadDirectory_of_mem {dir : List String} (h : files.resolve path = .ok dir)
    (hmem : dir ∈ chain) :
    loadDirectory files chain p path =
      .error (.badConfig (Path.ofNames dir).text .profileCycle) := by
  rw [loadDirectory]
  split
  · next hfault =>
    rw [h] at hfault
    cases hfault
  · next hdir =>
    rw [h] at hdir
    cases hdir
    exact dif_pos hmem

theorem loadDirectory_of_resolve {dir : List String} (h : files.resolve path = .ok dir)
    (hnew : dir ∉ chain) :
    loadDirectory files chain p path = (do
      let lines ← files.readLines (Path.ofNames dir / "parent")
      let inherited ← loadParents files (dir :: chain) p (Path.ofNames dir) lines
      applyNames files inherited dir) := by
  rw [loadDirectory]
  split
  · next hfault =>
    rw [h] at hfault
    cases hfault
  · next hdir =>
    rw [h] at hdir
    cases hdir
    rw [dif_neg hnew]
    cases files.readLines (Path.ofNames dir / "parent") with
    | error e => rfl
    | ok lines =>
      show _ = loadParents files (dir :: chain) p (Path.ofNames dir) lines >>= _
      dsimp only
      cases loadParents files (dir :: chain) p (Path.ofNames dir) lines <;> rfl

theorem loadParents_cons {dir : Path} {line : String} {lines : List String} :
    loadParents files chain p dir (line :: lines) = (do
      let applied ← loadDirectory files chain p (dir / line)
      loadParents files chain applied dir lines) := by
  rw [loadParents]
  cases loadDirectory files chain p (dir / line) <;> rfl

mutual

/-- Loading a directory applies its tree in postorder. -/
theorem loadDirectory_eq_foldlM : ∀ {dir : List String} {t : ParentTree}, Of files dir t →
    ∀ (chain : List (List String)) (p : Profile) {path : Path},
      (∀ c ∈ chain, TransGen (Inherits files) c dir) → files.resolve path = .ok dir →
      loadDirectory files chain p path = t.postorder.foldlM (applyNames files) p
  | dir, .node _ parents, .node hlines hall, chain, p, path, hchain, hresolve => by
    -- the chain holds descendants only, and a directory with a tree is not one of its own
    have hnew : dir ∉ chain := fun hmem => (Of.node hlines hall).not_transGen (hchain dir hmem)
    have hparents := loadParents_eq_foldlM hall (dir :: chain) p fun line hline parent hparent => by
      have hstep : Inherits files dir parent := ⟨_, hlines, line, hline, hparent⟩
      exact List.forall_mem_cons.mpr ⟨.single hstep, fun c hc => (hchain c hc).tail hstep⟩
    rw [loadDirectory_of_resolve hresolve hnew, hlines, postorder, List.foldlM_append, ← hparents]
    show (loadParents files (dir :: chain) p (Path.ofNames dir) _ >>= _) = _
    congr 1
    funext inherited
    exact (bind_pure (applyNames files inherited dir)).symm

theorem loadParents_eq_foldlM : ∀ {dir : Path} {lines : List String} {ts : List ParentTree},
    AllOf files dir lines ts → ∀ (chain : List (List String)) (p : Profile),
      (∀ line ∈ lines, ∀ parent, files.resolve (dir / line) = .ok parent →
        ∀ c ∈ chain, TransGen (Inherits files) c parent) →
      loadParents files chain p dir lines = (postorderAll ts).foldlM (applyNames files) p
  | _, _, _, .nil, chain, p, _ => by
    rw [loadParents, postorderAll]
    rfl
  | dir, _, _, .cons hparent ht hts, chain, p, hchain => by
    rw [List.forall_mem_cons] at hchain
    rw [loadParents_cons, postorderAll, List.foldlM_append,
      loadDirectory_eq_foldlM ht chain p (hchain.1 _ hparent) hparent]
    congr 1
    funext applied
    exact loadParents_eq_foldlM hts chain applied hchain.2

end

theorem loadDirectory_eq_ok {chain : List (List String)} {p q : Profile} {path : Path}
    (h : loadDirectory files chain p path = .ok q) :
    ∃ dir lines inherited, files.resolve path = .ok dir ∧ dir ∉ chain ∧
      files.readLines (Path.ofNames dir / "parent") = .ok lines ∧
      loadParents files (dir :: chain) p (Path.ofNames dir) lines = .ok inherited := by
  cases hresolve : files.resolve path with
  | error fault =>
    rw [loadDirectory_of_missing hresolve] at h
    cases h
  | ok dir =>
    by_cases hmem : dir ∈ chain
    · rw [loadDirectory_of_mem hresolve hmem] at h
      cases h
    · rw [loadDirectory_of_resolve hresolve hmem] at h
      obtain ⟨lines, hlines, h⟩ := Result.bind_eq_ok_iff.mp h
      obtain ⟨inherited, hinherited, -⟩ := Result.bind_eq_ok_iff.mp h
      exact ⟨dir, lines, inherited, rfl, hmem, hlines, hinherited⟩

mutual

/-- A directory that loads has a tree. -/
theorem exists_parentTree {chain : List (List String)} {p q : Profile} {path : Path}
    (h : loadDirectory files chain p path = .ok q) :
    ∃ dir t, files.resolve path = .ok dir ∧ Of files dir t := by
  obtain ⟨dir, lines, inherited, hdir, hnew, hlines, hparents⟩ := loadDirectory_eq_ok h
  have hless := FileTree.length_unvisited_cons_lt (FileTree.mem_places_of_resolve hdir) hnew
  obtain ⟨ts, hts⟩ := exists_parentTrees hparents
  exact ⟨dir, .node dir ts, hdir, .node hlines hts⟩
termination_by ((files.unvisited chain).length, 0)

theorem exists_parentTrees {chain : List (List String)} {p q : Profile} {dir : Path}
    {lines : List String} (h : loadParents files chain p dir lines = .ok q) :
    ∃ ts, AllOf files dir lines ts := by
  cases lines with
  | nil => exact ⟨[], .nil⟩
  | cons line lines =>
    rw [loadParents_cons] at h
    obtain ⟨applied, hline, hlines⟩ := Result.bind_eq_ok_iff.mp h
    obtain ⟨parent, t, hparent, ht⟩ := exists_parentTree hline
    obtain ⟨ts, hts⟩ := exists_parentTrees hlines
    exact ⟨t :: ts, .cons hparent ht hts⟩
termination_by ((files.unvisited chain).length, lines.length + 1)

end

end Profile

end PackageCatalog
