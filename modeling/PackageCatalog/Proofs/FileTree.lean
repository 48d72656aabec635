import Mathlib.Data.List.Sort
import PackageCatalog.Profile.Load
import PackageCatalog.Proofs.Result
import PackageCatalog.Proofs.Text

/-!
# Following paths

Where a path leads is said by its text alone; the tree only decides whether it can be followed so
far (`FileTree.eq_of_walk`). A name that is joined to a directory leads to the place of that name
in it (`FileTree.resolve_join`). Trees that are alike outside some places, none of which is a
directory, agree on the way to every other place (`FileTree.Alike.resolve`), and where the names
are the same as well, on the way to all of them (`FileTree.Rewrites.resolve`). Putting something
else into a file makes such a tree (`FileTree.rewrites_put`).
-/

namespace PackageCatalog

/-! ## Joined paths -/

namespace Path

/-- Whether a name stands for a place below a directory. -/
def isStep (name : String) : Bool :=
  name != "" && name != "." && name != ".." && !Text.hasChar '/' name

variable {base : Path} {x : String}

theorem isStep_iff : isStep x = true ↔ x ≠ "" ∧ x ≠ "." ∧ x ≠ ".." ∧ '/' ∉ x.toList := by
  simp only [isStep, Text.hasChar, Bool.and_eq_true, bne_iff_ne, Bool.not_eq_true', and_assoc,
    List.contains_eq_mem, decide_eq_false_iff_not, ne_eq]

theorem splitAll_of_isStep (h : isStep x = true) : Text.splitAll '/' x = [x] := by
  have hslash := (isStep_iff.mp h).2.2.2
  rw [Text.splitAll, Text.pieces_of_class (Text.beq_of_not_mem hslash), List.map_singleton,
    String.ofList_toList]

theorem splitAll_append_slash (s t : List Char) :
    Text.splitAll '/' (String.ofList (s ++ '/' :: t)) =
      Text.splitAll '/' (String.ofList s) ++ Text.splitAll '/' (String.ofList t) := by
  simp only [Text.splitAll, String.toList_ofList, ← List.map_append]
  rw [Text.pieces_append_cons (p := (· == '/')) rfl]

theorem isAbsolute_of_isStep (h : isStep x = true) : isAbsolute ⟨x⟩ = false := by
  have hslash := (isStep_iff.mp h).2.2.2
  unfold isAbsolute Text.startsWithChar
  cases hx : x.toList with
  | nil => rfl
  | cons c rest =>
    rw [hx] at hslash
    exact beq_eq_false_iff_ne.mpr fun hc => hslash (hc ▸ List.mem_cons_self)

/-- A joined path is the text of the base, a slash unless there is one, and the name. -/
theorem exists_text_join (hbase : base.text ≠ "") (h : isStep x = true) :
    ∃ s, (base / x).text.toList = s ++ '/' :: x.toList ∧
      (base.text.toList = s ∨ base.text.toList = s ++ ['/']) := by
  have hjoin : base / x = base.join x := rfl
  rw [hjoin, join, isAbsolute_of_isStep h, if_neg Bool.false_ne_true]
  split
  · next hends =>
    rw [Bool.or_eq_true, String.isEmpty_iff, or_iff_right hbase, beq_iff_eq] at hends
    obtain ⟨s, hs⟩ := List.getLast?_eq_some_iff.mp hends
    refine ⟨s, ?_, .inr hs⟩
    rw [String.toList_append, hs, List.append_assoc]
    rfl
  · refine ⟨base.text.toList, ?_, .inl rfl⟩
    rw [String.toList_append, String.toList_append, List.append_assoc]
    rfl

theorem text_join_ne (h : isStep x = true) : (base / x).text ≠ "" := by
  have hjoin : base / x = base.join x := rfl
  rw [hjoin, join, isAbsolute_of_isStep h, if_neg Bool.false_ne_true]
  have hx : x.toList ≠ [] := fun hnil => (isStep_iff.mp h).1 (String.toList_eq_nil_iff.mp hnil)
  split <;> intro hnil <;> have hchars := congrArg String.toList hnil <;>
    simp only [String.toList_append, String.toList_empty, List.append_eq_nil_iff] at hchars
  · exact hx hchars.2
  · exact hx hchars.2

theorem isAbsolute_join (hbase : base.text ≠ "") (h : isStep x = true) :
    (base / x).isAbsolute = base.isAbsolute := by
  obtain ⟨s, hs, htext⟩ := exists_text_join hbase h
  have hne : base.text.toList ≠ [] := fun hnil => hbase (String.toList_eq_nil_iff.mp hnil)
  unfold isAbsolute Text.startsWithChar
  rw [hs]
  rcases htext with htext | htext <;> rw [htext] at hne ⊢ <;> cases s with
  | nil => first | exact absurd rfl hne | rfl
  | cons c s => rfl

/-- The pieces of a joined path, a final slash of the base aside. -/
theorem exists_pieces_join (hbase : base.text ≠ "") (h : isStep x = true) :
    ∃ front, (base / x).pieces = front ++ [x] ∧
      (base.pieces = front ∨ base.pieces = front ++ [""]) := by
  obtain ⟨s, hs, htext⟩ := exists_text_join hbase h
  have hpieces : (base / x).pieces = Text.splitAll '/' (String.ofList s) ++ [x] := by
    rw [pieces, ← String.ofList_toList (s := (base / x).text), hs, splitAll_append_slash,
      String.ofList_toList, splitAll_of_isStep h]
  refine ⟨_, hpieces, ?_⟩
  rw [pieces, ← String.ofList_toList (s := base.text)]
  rcases htext with htext | htext
  · rw [htext]
    exact .inl rfl
  · rw [htext, splitAll_append_slash]
    exact .inr rfl

/-- The last piece of a joined path is that of the name. -/
theorem getLast?_pieces_join (base : Path) (name : String) :
    (base / name).pieces.getLast? = (Text.splitAll '/' name).getLast? := by
  have hjoin : base / name = base.join name := rfl
  have hslash (s : List Char) : (Text.splitAll '/' (String.ofList (s ++ '/' :: name.toList))).getLast? =
      (Text.splitAll '/' name).getLast? := by
    rw [splitAll_append_slash, String.ofList_toList, List.getLast?_append_of_ne_nil]
    exact fun hnil => Text.pieces_ne_nil _ (List.map_eq_nil_iff.mp hnil)
  rw [hjoin, join]
  split
  · rfl
  · split
    · next hends =>
      rw [Bool.or_eq_true, String.isEmpty_iff, beq_iff_eq] at hends
      rcases hends with hempty | hends
      · rw [hempty, String.empty_append]
        rfl
      · obtain ⟨s, hs⟩ := List.getLast?_eq_some_iff.mp hends
        refine (congrArg (fun s => (Text.splitAll '/' s).getLast?) ?_).trans (hslash s)
        rw [← String.toList_inj, String.toList_append, hs, String.toList_ofList, List.append_assoc]
        rfl
    · refine (congrArg (fun s => (Text.splitAll '/' s).getLast?) ?_).trans (hslash base.text.toList)
      rw [← String.toList_inj, String.toList_append, String.toList_append, String.toList_ofList,
        String.toList_ofList, List.append_assoc]
      rfl

/-- A name with a tail that no cut goes through has a last piece with that tail. -/
theorem exists_getLast?_splitAll {tail : List Char} (htail : '/' ∉ tail) {name : String}
    (h : tail <:+ name.toList) :
    ∃ y, (Text.splitAll '/' name).getLast? = some y ∧ '/' ∉ y.toList ∧ tail <:+ y.toList := by
  obtain ⟨s, hs⟩ := h
  obtain ⟨front, last, hpieces, hname⟩ :=
    Text.exists_pieces_append (p := (· == '/')) (Text.beq_of_not_mem htail) s
  refine ⟨String.ofList (last ++ tail), ?_, ?_, ?_⟩
  · rw [Text.splitAll, ← hs, hname, List.map_append, List.map_singleton, List.getLast?_concat]
  · rw [String.toList_ofList]
    have hmem : last ++ tail ∈ Text.pieces (· == '/') (s ++ tail) := by
      rw [hname]
      exact List.mem_append_right _ (List.mem_singleton_self _)
    exact fun hslash => absurd (Text.class_of_mem_pieces hmem _ hslash) (by decide)
  · rw [String.toList_ofList]
    exact List.suffix_append _ _

end Path

namespace FileTree

variable {tree tree' files files' : FileTree} {place d q : List String} {steps : List String}
  {path base : Path} {x : String}

/-! ## Walks -/

theorem walk_append (place xs ys : List String) :
    tree.walk place (xs ++ ys) = (tree.walk place xs >>= fun q => tree.walk q ys) := by
  induction xs generalizing place with
  | nil =>
    rw [List.nil_append, walk]
    cases hnode : tree.node? place with
    | some node => rfl
    | none =>
      cases ys with
      | nil => rw [walk, hnode]; rfl
      | cons y ys => rw [walk, hnode]; rfl
  | cons step xs ih =>
    rw [List.cons_append, walk, walk]
    split
    · split
      · exact ih place
      · split
        · exact ih place.dropLast
        · split
          · rfl
          · split
            · exact ih (place ++ [step])
            · rfl
    · rfl
    · rfl

/-- Only a directory is walked on from. -/
theorem node?_of_walk (h : tree.walk place steps = .ok q) :
    q = place ∨ tree.node? place = some .directory := by
  cases steps with
  | nil =>
    rw [walk] at h
    split at h
    · cases h
      exact .inl rfl
    · cases h
  | cons step rest =>
    rw [walk] at h
    split at h
    · next hnode => exact .inr hnode
    · cases h
    · cases h

/-- Where a walk ends does not depend on the tree. -/
theorem eq_of_walk {q' : List String} (h : tree.walk place steps = .ok q)
    (h' : tree'.walk place steps = .ok q') : q = q' := by
  induction steps generalizing place with
  | nil =>
    rw [walk] at h h'
    split at h <;> split at h' <;> cases h <;> cases h'
    rfl
  | cons step rest ih =>
    rw [walk] at h h'
    split at h
    · split at h'
      · split at h
        · next hstay =>
          rw [if_pos hstay] at h'
          exact ih h h'
        · next hstay =>
          rw [if_neg hstay] at h'
          split at h
          · next hup =>
            rw [if_pos hup] at h'
            exact ih h h'
          · next hup =>
            rw [if_neg hup] at h'
            split at h
            · cases h
            · next hname =>
              rw [if_neg hname] at h'
              split at h
              · split at h'
                · exact ih h h'
                · cases h'
              · cases h
      · cases h'
      · cases h'
    · cases h
    · cases h

/-- A step down ends in the place of that name. -/
theorem walk_step (hx : Path.isStep x = true) (h : tree.walk d [x] = .ok q) :
    tree.node? d = some .directory ∧ q = d ++ [x] ∧ isEntryName x = true := by
  obtain ⟨hne, hdot, hdots, -⟩ := Path.isStep_iff.mp hx
  have hstay : ¬ (x == "" || x == ".") = true := by
    rw [Bool.or_eq_true, beq_iff_eq, beq_iff_eq]
    exact not_or.mpr ⟨hne, hdot⟩
  rw [walk] at h
  split at h
  · next hnode =>
    rw [if_neg hstay, if_neg (by rw [beq_iff_eq]; exact hdots)] at h
    split at h
    · cases h
    · next hname =>
      rw [Bool.not_eq_true', Bool.not_eq_false] at hname
      by_cases hnext : (tree.node? (d ++ [x])).isSome = true
      · rw [if_pos hnext, walk, if_pos hnext] at h
        cases h
        exact ⟨hnode, rfl, hname⟩
      · rw [if_neg hnext] at h
        cases h
  · cases h
  · cases h

/-! ## Paths -/

def start (tree : FileTree) (path : Path) : List String :=
  if path.isAbsolute then [] else tree.workingDirectory

theorem resolve_eq_ok_iff : tree.resolve path = .ok q ↔
    path.text ≠ "" ∧ isFollowable path = true ∧ tree.walk (tree.start path) path.pieces = .ok q := by
  unfold resolve start
  by_cases hempty : path.text.isEmpty = true
  · rw [if_pos hempty]
    exact iff_of_false nofun fun h => h.1 (String.isEmpty_iff.mp hempty)
  · rw [if_neg hempty]
    have hne : path.text ≠ "" := fun h => hempty (String.isEmpty_iff.mpr h)
    cases hfollow : isFollowable path with
    | false => exact iff_of_false nofun fun h => Bool.false_ne_true h.2.1
    | true => exact ⟨fun h => ⟨hne, rfl, h⟩, fun h => h.2.2⟩

theorem text_ne_of_isDirectory (h : tree.isDirectory path = true) : path.text ≠ "" := by
  unfold isDirectory nodeAt? at h
  split at h
  · next hq => exact (resolve_eq_ok_iff.mp hq).1
  · cases h

theorem isDirectory_iff :
    tree.isDirectory path = true ↔
      ∃ d, tree.resolve path = .ok d ∧ tree.node? d = some .directory := by
  unfold isDirectory nodeAt?
  cases tree.resolve path with
  | error e => exact iff_of_false nofun fun ⟨_, h, _⟩ => nomatch h
  | ok d =>
    simp only [beq_iff_eq, Except.ok.injEq]
    exact ⟨fun h => ⟨d, rfl, h⟩, fun ⟨_, hd, h⟩ => hd ▸ h⟩

theorem isFollowable_of_join (hbase : base.text ≠ "") (hx : Path.isStep x = true)
    (h : isFollowable (base / x) = true) : isFollowable base = true := by
  obtain ⟨s, hs, htext⟩ := Path.exists_text_join hbase hx
  have hjoined : (base / x).text = base.text ++ x ∨ (base / x).text = base.text ++ "/" ++ x := by
    rcases htext with htext | htext
    · refine .inr (String.toList_inj.mp ?_)
      rw [hs, String.toList_append, String.toList_append, htext, List.append_assoc]
      rfl
    · refine .inl (String.toList_inj.mp ?_)
      rw [hs, String.toList_append, htext, List.append_assoc]
      rfl
  have hchars : base.text.toList ⊆ (base / x).text.toList := by
    rcases hjoined with h | h <;> rw [h] <;> simp only [String.toList_append, List.append_assoc] <;>
      exact List.subset_append_left _ _
  have hsize : base.text.utf8ByteSize ≤ (base / x).text.utf8ByteSize := by
    rcases hjoined with h | h <;> rw [h] <;> simp only [String.utf8ByteSize_append] <;> omega
  simp only [isFollowable, Text.hasChar, Bool.and_eq_true, decide_eq_true_eq, Bool.not_eq_true',
    List.contains_eq_mem, decide_eq_false_iff_not] at h ⊢
  exact ⟨by omega, fun hmem => h.2 (hchars hmem)⟩

/-- A name joined to a path leads to the place of that name in the directory there. -/
theorem resolve_join (hbase : base.text ≠ "") (hx : Path.isStep x = true)
    (h : tree.resolve (base / x) = .ok q) :
    ∃ d, tree.resolve base = .ok d ∧ tree.node? d = some .directory ∧ q = d ++ [x] := by
  obtain ⟨-, hfollow, hwalk⟩ := resolve_eq_ok_iff.mp h
  obtain ⟨front, hpieces, hfront⟩ := Path.exists_pieces_join hbase hx
  rw [start, Path.isAbsolute_join hbase hx, hpieces, walk_append] at hwalk
  obtain ⟨d, hd, hstep⟩ := Result.bind_eq_ok_iff.mp hwalk
  obtain ⟨hnode, hq, -⟩ := walk_step hx hstep
  refine ⟨d, resolve_eq_ok_iff.mpr ⟨hbase, isFollowable_of_join hbase hx hfollow, ?_⟩, hnode, hq⟩
  rcases hfront with hfront | hfront
  · rw [hfront]
    exact hd
  · -- a final slash stays where it is
    have hslash : tree.walk d [""] = .ok d := by
      rw [walk, hnode]
      exact (if_pos rfl).trans (if_pos (by rw [hnode]; rfl))
    rw [hfront, walk_append, start, hd]
    exact hslash

/-- A path whose last piece is a step leads to a place of that name. -/
theorem exists_concat_of_resolve (hlast : path.pieces.getLast? = some x)
    (hx : Path.isStep x = true) (h : tree.resolve path = .ok q) : ∃ d, q = d ++ [x] := by
  obtain ⟨-, -, hwalk⟩ := resolve_eq_ok_iff.mp h
  obtain ⟨front, hpieces⟩ := List.getLast?_eq_some_iff.mp hlast
  rw [hpieces, walk_append] at hwalk
  obtain ⟨d, -, hstep⟩ := Result.bind_eq_ok_iff.mp hwalk
  exact ⟨d, (walk_step hx hstep).2.1⟩

/-- A path that ends in a slash leads to a directory. -/
theorem directory_of_resolve (hlast : path.pieces.getLast? = some "")
    (h : tree.resolve path = .ok q) : tree.node? q = some .directory := by
  obtain ⟨-, -, hwalk⟩ := resolve_eq_ok_iff.mp h
  obtain ⟨front, hpieces⟩ := List.getLast?_eq_some_iff.mp hlast
  rw [hpieces, walk_append] at hwalk
  obtain ⟨d, -, hstay⟩ := Result.bind_eq_ok_iff.mp hwalk
  rw [walk] at hstay
  split at hstay
  · next hnode =>
    have hplace : tree.walk d [] = .ok q := (if_pos rfl).symm.trans hstay
    rw [walk, hnode] at hplace
    cases hplace
    exact hnode
  · cases hstay
  · cases hstay

/-! ## Directories and what is in them -/

/-- The name under which an entry stands in the directory at a place, if that is where it is. -/
def childName? (place entry : List String) : Option String :=
  match entry.getLast? with
  | some name => if entry == place ++ [name] then some name else none
  | none => none

theorem childName?_eq_some_iff {entry : List String} :
    childName? place entry = some x ↔ entry = place ++ [x] := by
  unfold childName?
  constructor
  · intro h
    split at h
    · split at h
      · next heq =>
        cases h
        exact eq_of_beq heq
      · cases h
    · cases h
  · intro h
    rw [h, List.getLast?_concat]
    exact if_pos (beq_self_eq_true _)

theorem namesUnder_eq (tree : FileTree) (place : List String) :
    tree.namesUnder place = ((tree.entries.map Prod.fst).filterMap (childName? place)).mergeSort
      fun a b => decide (a ≤ b) := by
  rw [List.filterMap_map]
  rfl

theorem sorted_namesUnder (tree : FileTree) (place : List String) :
    (tree.namesUnder place).Pairwise (· ≤ ·) := by
  refine (List.pairwise_mergeSort (fun a b c hab hbc => ?_) (fun a b => ?_) _).imp of_decide_eq_true
  · exact decide_eq_true (String.le_trans (of_decide_eq_true hab) (of_decide_eq_true hbc))
  · rw [Bool.or_eq_true, decide_eq_true_eq, decide_eq_true_eq]
    exact String.le_total a b

theorem mem_namesUnder : x ∈ tree.namesUnder place ↔ place ++ [x] ∈ tree.entries.map Prod.fst := by
  rw [namesUnder_eq, List.mem_mergeSort, List.mem_filterMap]
  simp only [childName?_eq_some_iff, exists_eq_right]

theorem mem_map_fst_of_node? {node : FileNode} (h : tree.node? (place ++ [x]) = some node) :
    place ++ [x] ∈ tree.entries.map Prod.fst := by
  have hmem := mem_places_of_node? h
  rw [places, List.mem_cons] at hmem
  exact hmem.resolve_left (List.append_ne_nil_of_right_ne_nil _ (List.cons_ne_nil _ _))

theorem list_eq_ok_iff {names : List String} : tree.list path = .ok names ↔
    ∃ d, tree.resolve path = .ok d ∧ tree.node? d = some .directory ∧ names = tree.namesUnder d := by
  constructor
  · intro h
    obtain ⟨d, hd, h⟩ := Result.bind_eq_ok_iff.mp h
    split at h
    · next hnode =>
      cases h
      exact ⟨d, hd, hnode, rfl⟩
    · cases h
    · cases h
  · rintro ⟨d, hd, hnode, rfl⟩
    rw [list, hd]
    dsimp only [bind, Except.bind]
    rw [hnode]

theorem read_eq_ok_iff {content : String} : tree.read path = .ok content ↔
    ∃ q, tree.resolve path = .ok q ∧ tree.node? q = some (.text content) := by
  constructor
  · intro h
    obtain ⟨q, hq, h⟩ := Result.bind_eq_ok_iff.mp h
    split at h
    · next hnode =>
      cases h
      exact ⟨q, hq, hnode⟩
    · cases h
    · cases h
  · rintro ⟨q, hq, hnode⟩
    rw [read, hq]
    dsimp only [bind, Except.bind]
    rw [hnode]

/-! ## Trees that are alike -/

/-- The trees hold the same outside the places that `changed` says, none of which is a directory. -/
structure Alike (changed : List String → Bool) (files files' : FileTree) : Prop where
  workingDirectory : files'.workingDirectory = files.workingDirectory
  entries : files'.entries.filter (fun entry => !changed entry.1) =
    files.entries.filter fun entry => !changed entry.1
  leaf : ∀ place, changed place = true → files.node? place ≠ some .directory
  leaf' : ∀ place, changed place = true → files'.node? place ≠ some .directory

/-- The trees hold the same names, and the same under them outside the places that `changed` says,
none of which is a directory. -/
structure Rewrites (changed : List String → Bool) (files files' : FileTree) : Prop
    extends Alike changed files files' where
  names : (files'.entries.map Prod.fst).Perm (files.entries.map Prod.fst)
  modified : ∀ place, changed place = false → files'.modified place = files.modified place

variable {changed : List String → Bool}

theorem lookup_filter {α β : Type} [BEq α] [LawfulBEq α] {p : α → Bool} {k : α} (h : p k = true)
    (entries : List (α × β)) :
    (entries.filter fun entry => p entry.1).lookup k = entries.lookup k := by
  induction entries with
  | nil => rfl
  | cons entry entries ih =>
    obtain ⟨a, b⟩ := entry
    cases hk : k == a with
    | true =>
      cases eq_of_beq hk
      have hkept : p (k, b).1 = true := h
      rw [List.filter_cons, if_pos hkept, List.lookup_cons, List.lookup_cons, hk]
    | false =>
      have hcons : ((a, b) :: entries).lookup k = entries.lookup k := by
        rw [List.lookup_cons, hk]
      rw [hcons, ← ih, List.filter_cons]
      split
      · rw [List.lookup_cons, hk]
      · rfl

theorem isSome_lookup {α β : Type} [BEq α] [LawfulBEq α] (k : α) (entries : List (α × β)) :
    (entries.lookup k).isSome = (entries.map Prod.fst).contains k := by
  induction entries with
  | nil => rfl
  | cons entry entries ih =>
    rw [List.lookup_cons, List.map_cons, List.contains_cons]
    cases k == entry.1 with
    | true => rfl
    | false => exact ih

namespace Alike

theorem symm (h : Alike changed files files') : Alike changed files' files :=
  ⟨h.workingDirectory.symm, h.entries.symm, h.leaf', h.leaf⟩

theorem node? (h : Alike changed files files') (hplace : changed place = false) :
    files'.node? place = files.node? place := by
  have hkept : (!changed place) = true := by rw [hplace]; rfl
  unfold FileTree.node?
  rw [← lookup_filter (p := (!changed ·)) hkept, h.entries, lookup_filter (p := (!changed ·)) hkept]

theorem eq_false_of_directory (h : Alike changed files files')
    (hplace : files.node? place = some .directory) : changed place = false := by
  cases hchanged : changed place with
  | false => rfl
  | true => exact absurd hplace (h.leaf place hchanged)

theorem walk (h : Alike changed files files') (hq : changed q = false)
    (hwalk : files.walk place steps = .ok q) : files'.walk place steps = .ok q := by
  -- only directories are passed on the way to `q`, so what is changed is not on it
  have hsame : ∀ {place steps}, files.walk place steps = .ok q →
      files'.node? place = files.node? place := by
    intro place steps hwalk
    rcases node?_of_walk hwalk with rfl | hnode
    · exact h.node? hq
    · exact h.node? (h.eq_false_of_directory hnode)
  induction steps generalizing place with
  | nil =>
    rw [FileTree.walk] at hwalk ⊢
    split at hwalk
    · next hnode =>
      cases hwalk
      rw [h.node? hq, if_pos hnode]
    · cases hwalk
  | cons step rest ih =>
    have hplace := hsame hwalk
    rw [FileTree.walk] at hwalk ⊢
    rw [hplace]
    split at hwalk
    · split at hwalk
      · next hstay => exact (if_pos hstay).trans (ih hwalk)
      · next hstay =>
        refine (if_neg hstay).trans ?_
        split at hwalk
        · next hup => exact (if_pos hup).trans (ih hwalk)
        · next hup =>
          refine (if_neg hup).trans ?_
          split at hwalk
          · cases hwalk
          · next hname =>
            split at hwalk
            · exact (if_neg hname).trans
                ((if_pos (by rw [hsame hwalk]; assumption)).trans (ih hwalk))
            · cases hwalk
    · cases hwalk
    · cases hwalk

theorem resolve (h : Alike changed files files') (hq : changed q = false)
    (hresolve : files.resolve path = .ok q) : files'.resolve path = .ok q := by
  rw [resolve_eq_ok_iff] at hresolve ⊢
  obtain ⟨hne, hfollow, hwalk⟩ := hresolve
  refine ⟨hne, hfollow, ?_⟩
  rw [start, h.workingDirectory]
  exact h.walk hq hwalk

theorem eq_of_resolve {q' : List String} (h : Alike changed files files')
    (hresolve : files.resolve path = .ok q) (hresolve' : files'.resolve path = .ok q') : q = q' := by
  rw [resolve_eq_ok_iff] at hresolve hresolve'
  rw [start, h.workingDirectory] at hresolve'
  exact eq_of_walk hresolve.2.2 hresolve'.2.2

theorem isDirectory (h : Alike changed files files') (path : Path) :
    files'.isDirectory path = files.isDirectory path := by
  have hone : ∀ {files files'}, Alike changed files files' → files.isDirectory path = true →
      files'.isDirectory path = true := by
    intro files files' h hpath
    obtain ⟨d, hd, hnode⟩ := isDirectory_iff.mp hpath
    have hplace := h.eq_false_of_directory hnode
    exact isDirectory_iff.mpr ⟨d, h.resolve hplace hd, (h.node? hplace).trans hnode⟩
  exact Bool.eq_iff_iff.mpr ⟨hone h.symm, hone h⟩

/-- What is read at a place that is not changed is the same. -/
theorem read_eq_ok_iff {content : String} (h : Alike changed files files')
    (hpath : ∀ q, files.resolve path = .ok q ∨ files'.resolve path = .ok q → changed q = false) :
    files'.read path = .ok content ↔ files.read path = .ok content := by
  simp only [FileTree.read_eq_ok_iff]
  refine exists_congr fun q => ⟨fun ⟨hq, hnode⟩ => ?_, fun ⟨hq, hnode⟩ => ?_⟩
  · have hplace := hpath q (.inr hq)
    exact ⟨h.symm.resolve hplace hq, (h.node? hplace).symm.trans hnode⟩
  · have hplace := hpath q (.inl hq)
    exact ⟨h.resolve hplace hq, (h.node? hplace).trans hnode⟩

/-- The names in a directory are the same but for those of changed places. -/
theorem namesUnder (h : Alike changed files files') (place : List String) :
    (files'.namesUnder place).filter (fun name => !changed (place ++ [name])) =
      (files.namesUnder place).filter fun name => !changed (place ++ [name]) := by
  have hkept (tree : FileTree) : ((tree.namesUnder place).filter fun name =>
      !changed (place ++ [name])).Perm
        (((tree.entries.filter fun entry => !changed entry.1).map Prod.fst).filterMap
          (childName? place)) := by
    rw [namesUnder_eq]
    refine ((List.mergeSort_perm _ _).filter _).trans (.of_eq ?_)
    rw [List.filter_filterMap, List.filterMap_map, List.filterMap_map, List.filterMap_filter]
    refine List.filterMap_congr fun entry _ => ?_
    dsimp only [Function.comp]
    cases hname : childName? place entry.1 with
    | none => exact (ite_self _).symm
    | some name =>
      rw [childName?_eq_some_iff.mp hname]
      rfl
  refine ((hkept files').trans (.trans (.of_eq (by rw [h.entries])) (hkept files).symm)).eq_of_pairwise
    (fun _ _ _ _ => String.le_antisymm) ?_ ?_
  · exact (files'.sorted_namesUnder place).filter _
  · exact (files.sorted_namesUnder place).filter _

/-- Kept names are the same if none of a changed place is kept. -/
theorem filter_namesUnder (h : Alike changed files files') {p : String → Bool}
    (hp : ∀ name, changed (place ++ [name]) = true → p name = false) :
    (files'.namesUnder place).filter p = (files.namesUnder place).filter p := by
  have hkept (tree : FileTree) : (tree.namesUnder place).filter p =
      ((tree.namesUnder place).filter fun name => !changed (place ++ [name])).filter p := by
    rw [List.filter_filter]
    refine List.filter_congr fun name _ => ?_
    cases hname : changed (place ++ [name]) with
    | true => exact (hp name hname).trans (Bool.and_false _).symm
    | false => exact (Bool.and_true _).symm
  rw [hkept, h.namesUnder, ← hkept]

/-- A directory that is listed in one tree is in the other. -/
theorem list (h : Alike changed files files') {names : List String}
    (hlist : files.list path = .ok names) :
    ∃ d, files.resolve path = .ok d ∧ names = files.namesUnder d ∧
      files'.list path = .ok (files'.namesUnder d) := by
  obtain ⟨d, hd, hnode, rfl⟩ := list_eq_ok_iff.mp hlist
  have hplace := h.eq_false_of_directory hnode
  exact ⟨d, hd, rfl, list_eq_ok_iff.mpr
    ⟨d, h.resolve hplace hd, (h.node? hplace).trans hnode, rfl⟩⟩

/-- What is made of the visible names is the same if nothing is made of those of changed places. -/
theorem filterMap_visibleNames {α : Type} {f : String → Option α} {names names' : List String}
    (h : Alike changed files files')
    (hf : ∀ d name, files.resolve path = .ok d → changed (d ++ [name]) = true → f name = none)
    (hnames : files.visibleNames path = .ok names)
    (hnames' : files'.visibleNames path = .ok names') : names'.filterMap f = names.filterMap f := by
  unfold visibleNames at hnames hnames'
  cases hlist : files.list path with
  | ok found =>
    obtain ⟨d, hd, rfl, hlist'⟩ := h.list hlist
    rw [hlist] at hnames
    rw [hlist'] at hnames'
    cases hnames
    cases hnames'
    have hkept (found : List String) :
        (found.filter fun name => !Text.startsWithChar (· == '.') name).filterMap f =
          (found.filter fun name =>
            !Text.startsWithChar (· == '.') name && (f name).isSome).filterMap f := by
      rw [List.filterMap_filter, List.filterMap_filter]
      refine List.filterMap_congr fun name _ => ?_
      cases hname : f name with
      | none => rw [ite_self, ite_self]
      | some a => rw [Option.isSome_some, Bool.and_true]
    rw [hkept, hkept, h.filter_namesUnder fun name hname => ?_]
    rw [hf d name hd hname, Option.isSome_none, Bool.and_false]
  | error fault =>
    cases hlist' : files'.list path with
    | ok found =>
      obtain ⟨d, -, -, hok⟩ := h.symm.list hlist'
      rw [hok] at hlist
      cases hlist
    | error fault' =>
      rw [hlist] at hnames
      rw [hlist'] at hnames'
      cases fault <;> cases fault' <;> cases hnames <;> cases hnames'
      rfl

end Alike

namespace Rewrites

theorem isSome_node? (h : Rewrites changed files files') (place : List String) :
    (files'.node? place).isSome = (files.node? place).isSome := by
  unfold FileTree.node?
  split
  · rfl
  · rw [isSome_lookup, isSome_lookup, h.names.contains_eq]

/-- Nothing comes or goes, and what is a directory stays one. -/
theorem node?_cases (h : Rewrites changed files files') (place : List String) :
    (files.node? place = none ∧ files'.node? place = none) ∨
    (files.node? place = some .directory ∧ files'.node? place = some .directory) ∨
    ∃ node node', files.node? place = some node ∧ files'.node? place = some node' ∧
      node ≠ .directory ∧ node' ≠ .directory := by
  have hsome := h.isSome_node? place
  cases hnode : files.node? place with
  | none =>
    rw [hnode, Option.isSome_none, Option.isSome_eq_false_iff, Option.isNone_iff_eq_none] at hsome
    exact .inl ⟨rfl, hsome⟩
  | some node =>
    rw [hnode, Option.isSome_some] at hsome
    obtain ⟨node', hnode'⟩ := Option.isSome_iff_exists.mp hsome
    rw [hnode']
    by_cases hdirectory : node = .directory
    · -- a directory is not changed
      rw [hdirectory] at hnode ⊢
      rw [h.node? (h.eq_false_of_directory hnode), hnode] at hnode'
      exact .inr (.inl ⟨rfl, hnode'.symm⟩)
    · refine .inr (.inr ⟨node, node', rfl, rfl, hdirectory, ?_⟩)
      rintro rfl
      rw [← h.node? (h.toAlike.symm.eq_false_of_directory hnode'), hnode'] at hnode
      exact hdirectory (Option.some.inj hnode).symm

theorem walk (h : Rewrites changed files files') (place steps : List String) :
    files'.walk place steps = files.walk place steps := by
  induction steps generalizing place with
  | nil => rw [FileTree.walk, FileTree.walk, h.isSome_node?]
  | cons step rest ih =>
    rw [FileTree.walk, FileTree.walk]
    rcases h.node?_cases place with
      ⟨hnode, hnode'⟩ | ⟨hnode, hnode'⟩ | ⟨node, node', hnode, hnode', hleaf, hleaf'⟩
    · rw [hnode, hnode']
    · rw [hnode, hnode']
      simp only [ih, h.isSome_node?]
    · rw [hnode, hnode']
      cases node <;> cases node' <;> first | rfl | exact absurd rfl hleaf | exact absurd rfl hleaf'

theorem resolve (h : Rewrites changed files files') (path : Path) :
    files'.resolve path = files.resolve path := by
  unfold FileTree.resolve
  rw [h.workingDirectory]
  simp only [h.walk]

theorem isFile (h : Rewrites changed files files') (path : Path) :
    files'.isFile path = files.isFile path := by
  unfold FileTree.isFile nodeAt?
  rw [h.resolve]
  cases files.resolve path with
  | error e => rfl
  | ok place =>
    dsimp only
    rcases h.node?_cases place with
      ⟨hnode, hnode'⟩ | ⟨hnode, hnode'⟩ | ⟨node, node', hnode, hnode', hleaf, hleaf'⟩
    · rw [hnode, hnode']
    · rw [hnode, hnode']
    · rw [hnode, hnode']
      cases node <;> cases node' <;> first | rfl | exact absurd rfl hleaf | exact absurd rfl hleaf'

theorem namesUnder (h : Rewrites changed files files') (place : List String) :
    files'.namesUnder place = files.namesUnder place := by
  have hfound : (files'.namesUnder place).Perm (files.namesUnder place) := by
    rw [namesUnder_eq, namesUnder_eq]
    exact (List.mergeSort_perm _ _).trans
      ((h.names.filterMap _).trans (List.mergeSort_perm _ _).symm)
  exact hfound.eq_of_pairwise (fun _ _ _ _ => String.le_antisymm)
    (files'.sorted_namesUnder place) (files.sorted_namesUnder place)

theorem list (h : Rewrites changed files files') (path : Path) :
    files'.list path = files.list path := by
  unfold FileTree.list
  rw [h.resolve]
  refine Result.bind_congr_of_ok fun place _ => ?_
  rcases h.node?_cases place with
    ⟨hnode, hnode'⟩ | ⟨hnode, hnode'⟩ | ⟨node, node', hnode, hnode', hleaf, hleaf'⟩
  · rw [hnode, hnode']
  · rw [hnode, hnode', h.namesUnder]
  · rw [hnode, hnode']
    cases node <;> cases node' <;> first | rfl | exact absurd rfl hleaf | exact absurd rfl hleaf'

theorem visibleNames (h : Rewrites changed files files') (path : Path) :
    files'.visibleNames path = files.visibleNames path := by
  unfold FileTree.visibleNames
  rw [h.list]

/-- What is read at a place that is not changed is the same, and so is the reason why nothing is. -/
theorem read (h : Rewrites changed files files')
    (hpath : ∀ q, files.resolve path = .ok q → changed q = false) :
    files'.read path = files.read path := by
  unfold FileTree.read
  rw [h.resolve]
  refine Result.bind_congr_of_ok fun place hplace => ?_
  rw [h.node? (hpath place hplace)]

theorem modifiedAt? (h : Rewrites changed files files')
    (hpath : ∀ q, files.resolve path = .ok q → changed q = false) :
    files'.modifiedAt? path = files.modifiedAt? path := by
  unfold FileTree.modifiedAt?
  rw [h.resolve]
  cases hresolve : files.resolve path with
  | error e => rfl
  | ok place => exact congrArg some (h.modified place (hpath place hresolve))

end Rewrites

/-- Putting something else into a file rewrites its place. -/
theorem rewrites_put {node : FileNode} (hnames : (tree.entries.map Prod.fst).Nodup)
    (hmem : place ∈ tree.entries.map Prod.fst) (hplace : tree.node? place ≠ some .directory)
    (hnode : node ≠ .directory) : Rewrites (· == place) tree (tree.put place node) where
  workingDirectory := rfl
  entries := by
    have hself : (!(place == place)) = false := by rw [beq_self_eq_true]; rfl
    rw [put, List.filter_cons_of_neg (by rw [hself]; nofun), List.filter_filter]
    refine List.filter_congr fun entry _ => ?_
    rw [bne, Bool.and_self]
  leaf q hq := by rwa [eq_of_beq hq]
  leaf' q hq hdirectory := by
    cases eq_of_beq hq
    unfold node? at hplace hdirectory
    split at hdirectory
    · next hroot => exact hplace (if_pos hroot)
    · rw [put, List.lookup_cons_self] at hdirectory
      exact hnode (Option.some.inj hdirectory)
  names := by
    have hrest : (tree.entries.filter (·.1 != place)).map Prod.fst =
        (tree.entries.map Prod.fst).erase place := by
      rw [hnames.erase_eq_filter, List.filter_map]
      rfl
    rw [put, List.map_cons, hrest]
    exact (List.perm_cons_erase hmem).symm
  modified _ _ := rfl

end FileTree

end PackageCatalog
