import PackageCatalog.Proofs.Atom.Reading
import PackageCatalog.Proofs.Profile.Load

/-!
# What mask files leave

Of the lines of `package.mask` files that are applied in turn, those stand that are atoms and that
no later line takes back (`MaskList.shown_applyAll`); so it is wherever lines take back and add
(`foldl_remaining`). A comment reaches as far as an empty line or the end of its file, so that files
can be put together with empty lines between them (`MaskList.movedTo_applyAll`).
-/

namespace PackageCatalog

/-! ## What is added and taken back -/

section TakingBack

variable {α β γ : Type} [DecidableEq γ] {removal : α → γ} {text : β → γ} {adds : β → List α}

/-- What lines add, unless a later line has the text that takes it back. -/
def remaining (removal : α → γ) (text : β → γ) (adds : β → List α) : List β → List α
  | [] => []
  | line :: later =>
    ((adds line).filter fun a => removal a ∉ later.map text) ++ remaining removal text adds later

/-- Lines that each take entries back and then add some leave those that none of them takes back,
and what remains of their own. -/
theorem foldl_remaining (lines : List β) (entries : List α) :
    lines.foldl (fun kept line => (kept.filter fun a => text line != removal a) ++ adds line)
        entries =
      (entries.filter fun a => removal a ∉ lines.map text) ++ remaining removal text adds lines := by
  induction lines generalizing entries with
  | nil =>
    rw [remaining, List.append_nil]
    exact (List.filter_eq_self.mpr fun a _ => decide_eq_true List.not_mem_nil).symm
  | cons line later ih =>
    have hkept (a : α) : (decide (removal a ∉ later.map text) && text line != removal a) =
        decide (removal a ∉ (line :: later).map text) := by
      rw [Bool.eq_iff_iff, Bool.and_eq_true, decide_eq_true_iff, decide_eq_true_iff, bne_iff_ne,
        List.map_cons, List.mem_cons, not_or, and_comm, ne_comm]
    rw [List.foldl_cons, ih, List.filter_append, List.filter_filter,
      List.filter_congr fun a _ => hkept a, List.append_assoc, remaining]

end TakingBack

/-! ## Lines that are no atoms -/

namespace Atom

open Text

variable {s t : List Char} {line : String} {a : Atom}

/-- The text is empty or starts as a comment or a removal does. -/
def IsMarked (s : List Char) : Prop := ∀ c ∈ s.head?, c = '#' ∨ c = '-'

theorem IsMarked.of_prefix (h : IsMarked s) (hfront : t <+: s) : IsMarked t := by
  obtain ⟨rest, rfl⟩ := hfront
  cases t with
  | nil => exact fun _ hc => nomatch hc
  | cons c t => exact h

theorem IsMarked.trimChars (h : IsMarked s) : IsMarked (trimChars s) := by
  cases s with
  | nil => exact h
  | cons c s =>
    have hc : isBlank c = false := by
      rcases h c rfl with rfl | rfl <;> decide
    rw [trimChars_cons hc]
    exact h

theorem not_acceptsChars_of_isMarked (h : IsMarked s) :
    NameKind.category.acceptsChars s = false := by
  cases s with
  | nil => rfl
  | cons c s => rcases h c rfl with rfl | rfl <;> rfl

theorem not_isMarked_of_category (n : CategoryName) : ¬ IsMarked n.text.toList := by
  intro h
  have hvalid := n.valid
  rw [NameKind.accepts, not_acceptsChars_of_isMarked h] at hvalid
  cases hvalid

theorem not_isMarked_left (p : NamePattern) : ¬ IsMarked p.left := by
  have hstar : ¬ IsMarked ['*'] := fun h => absurd (h '*' rfl) (by decide)
  cases p with
  | exact n => exact not_isMarked_of_category n.category
  | category n => exact not_isMarked_of_category n
  | package n => exact hstar
  | any => exact hstar

/-- An atom starts with an operator or a name. -/
theorem not_isMarked_text (a : Atom) : ¬ IsMarked a.text.toList := by
  intro h
  rw [toList_text, toList_nameText] at h
  have h := h.of_prefix (List.prefix_append _ _)
  cases hversion : a.version? with
  | none =>
    rw [hversion] at h
    exact not_isMarked_left a.name (h.of_prefix (List.prefix_append _ _))
  | some r =>
    rw [hversion] at h
    have hsign : IsMarked r.operator.sign.toList := h.of_prefix (List.prefix_append _ _)
    revert hsign
    cases r.operator <;> exact fun h => absurd (h _ rfl) (by decide)

theorem not_isMarked_of_parse (h : parse line = .ok a) : ¬ IsMarked line.toList := by
  intro hmarked
  have htext : a.text.toList = Text.trimChars line.toList := by
    rw [text_of_parseWith rfl h, trim, String.toList_ofList]
  exact not_isMarked_text a (htext ▸ hmarked.trimChars)

end Atom

namespace MaskList

variable {file : Path} {line : String}

/-! ## One line -/

def written (file : Path) (comment : List String) (line : String) : List MaskEntry :=
  match Atom.parse line with
  | .ok atom => [⟨atom, ⟨file, comment, line⟩⟩]
  | .error _ => []

theorem written_of_isMarked (h : Atom.IsMarked line.toList) (comment : List String) :
    written file comment line = [] := by
  unfold written
  cases hline : Atom.parse line with
  | ok a => exact absurd h (Atom.not_isMarked_of_parse hline)
  | error e => rfl

theorem filter_of_no_removal (h : line.toList.head? ≠ some '-') (entries : List MaskEntry) :
    (entries.filter fun e => line != "-" ++ e.info.token) = entries := by
  refine List.filter_eq_self.mpr fun e _ => bne_iff_ne.mpr ?_
  rintro rfl
  exact h (by rw [String.toList_append]; rfl)

theorem removal_ne_iff {token : List Char} (h : line.toList = '-' :: token) (other : String) :
    (line != "-" ++ other) = (other != String.ofList token) := by
  have hline : line = "-" ++ String.ofList token := by
    rw [← String.toList_inj, String.toList_append, h, String.toList_ofList, String.toList_ofList]
    rfl
  rw [hline, bne, bne, Bool.not_inj_iff, Bool.eq_iff_iff, beq_iff_eq, beq_iff_eq,
    String.append_right_inj, eq_comm]

theorem entries_of_isMarked (h : Atom.IsMarked line.toList) (hhead : line.toList.head? ≠ some '-')
    (scan : Scan) :
    (scan.entries.filter fun e => line != "-" ++ e.info.token) ++ written file scan.comment line =
      scan.entries := by
  rw [filter_of_no_removal hhead, written_of_isMarked h, List.append_nil]

/-- A line takes masks back, or adds the mask that it holds. -/
theorem entries_step (scan : Scan) (file : Path) (line : String) :
    (scan.step file line).entries =
      (scan.entries.filter fun e => line != "-" ++ e.info.token) ++
        written file scan.comment line := by
  unfold Scan.step
  split
  · next hline =>
    refine (entries_of_isMarked ?_ ?_ scan).symm <;> rw [hline]
    · exact fun _ hc => nomatch hc
    · nofun
  · next rest hline =>
    refine (entries_of_isMarked ?_ ?_ scan).symm <;> rw [hline]
    · exact fun _ hc => .inl (Option.some.inj hc).symm
    · nofun
  · next token hline =>
    have hmarked : Atom.IsMarked line.toList := by
      rw [hline]
      exact fun _ hc => .inr (Option.some.inj hc).symm
    rw [written_of_isMarked hmarked, List.append_nil]
    exact List.filter_congr fun e _ => (removal_ne_iff hline e.info.token).symm
  · next hremoval =>
    have hhead : line.toList.head? ≠ some '-' := by
      intro hhead
      obtain ⟨token, htoken⟩ := List.head?_eq_some_iff.mp hhead
      exact hremoval token htoken
    rw [filter_of_no_removal hhead, written]
    cases Atom.parse line with
    | ok a => rfl
    | error e => exact (List.append_nil _).symm

/-! ## All lines -/

/-- A mask without its comment: the file, the atom and the line as written. -/
def shown (e : MaskEntry) : Path × Atom × String := (e.info.file, e.atom, e.info.token)

/-- The lines of files, trimmed, each with the file that holds it. -/
def linesOf (files : List (Path × String)) : List (Path × String) :=
  files.flatMap fun (file, text) => (Text.trimmedLines text).map (file, ·)

/-- Of lines those that are atoms, unless a later line takes their text back. -/
def standing : List (Path × String) → List (Path × Atom × String)
  | [] => []
  | (file, line) :: later =>
    match Atom.parse line with
    | .ok atom =>
      if "-" ++ line ∈ later.map Prod.snd then standing later
      else (file, atom, line) :: standing later
    | .error _ => standing later

def applyAll (list : MaskList) (files : List (Path × String)) : MaskList :=
  files.foldl (fun list (file, text) => list.apply file text) list

/-- What a line makes of the masks before it, comments left aside. -/
def takeLine (masks : List (Path × Atom × String)) (line : Path × String) :
    List (Path × Atom × String) :=
  (masks.filter fun mask => line.2 != "-" ++ mask.2.2) ++ (written line.1 [] line.2).map shown

theorem shown_written (comment : List String) :
    (written file comment line).map shown = (written file [] line).map shown := by
  unfold written
  cases Atom.parse line <;> rfl

theorem shown_step (scan : Scan) (file : Path) (line : String) :
    (scan.step file line).entries.map shown = takeLine (scan.entries.map shown) (file, line) := by
  rw [entries_step, List.map_append, shown_written, takeLine, List.filter_map]
  rfl

theorem shown_foldl_step (scan : Scan) (file : Path) (lines : List String) :
    (lines.foldl (Scan.step file) scan).entries.map shown =
      (lines.map (file, ·)).foldl takeLine (scan.entries.map shown) := by
  induction lines generalizing scan with
  | nil => rfl
  | cons line lines ih =>
    rw [List.foldl_cons, ih, shown_step]
    rfl

theorem shown_foldl_takeLine (list : MaskList) (files : List (Path × String)) :
    (list.applyAll files).entries.map shown =
      (linesOf files).foldl takeLine (list.entries.map shown) := by
  induction files generalizing list with
  | nil => rfl
  | cons first files ih =>
    have happly : (list.apply first.1 first.2).entries.map shown =
        ((Text.trimmedLines first.2).map (first.1, ·)).foldl takeLine (list.entries.map shown) :=
      shown_foldl_step _ _ _
    rw [linesOf, List.flatMap_cons, List.foldl_append, ← happly]
    exact ih _

theorem standing_cons (line : Path × String) (later : List (Path × String)) :
    standing (line :: later) =
      (((written line.1 [] line.2).map shown).filter fun mask =>
        "-" ++ mask.2.2 ∉ later.map Prod.snd) ++ standing later := by
  rw [standing, written]
  cases Atom.parse line.2 with
  | error e => rfl
  | ok atom =>
    dsimp only
    rw [List.map_singleton, List.filter_cons, List.filter_nil, shown]
    by_cases hback : "-" ++ line.2 ∈ later.map Prod.snd
    · rw [if_pos hback, decide_eq_false (not_not_intro hback)]
      rfl
    · rw [if_neg hback, decide_eq_true hback]
      rfl

/-- Lines leave those masks whose text none of them takes back, and add those of them that stand. -/
theorem foldl_takeLine (lines : List (Path × String)) (masks : List (Path × Atom × String)) :
    lines.foldl takeLine masks =
      (masks.filter fun mask => "-" ++ mask.2.2 ∉ lines.map Prod.snd) ++ standing lines := by
  have hstanding : standing lines = remaining (fun mask => "-" ++ mask.2.2) Prod.snd
      (fun line => (written line.1 [] line.2).map shown) lines := by
    induction lines with
    | nil => rfl
    | cons line later ih => rw [standing_cons, remaining, ih]
  rw [hstanding]
  exact foldl_remaining lines masks

/-- The masks of files are the lines that stand. -/
theorem shown_applyAll (files : List (Path × String)) :
    (empty.applyAll files).entries.map shown = standing (linesOf files) := by
  rw [shown_foldl_takeLine, foldl_takeLine]
  rfl

end MaskList

/-! ## File borders -/

def MaskEntry.movedTo (file : Path) (e : MaskEntry) : MaskEntry :=
  { e with info := { e.info with file := file } }

namespace MaskList

variable {file other : Path}

def movedTo (file : Path) (list : MaskList) : MaskList := ⟨list.entries.map (·.movedTo file)⟩

def Scan.movedTo (file : Path) (scan : Scan) : Scan :=
  { scan with entries := scan.entries.map (·.movedTo file) }

theorem movedTo_step (scan : Scan) (file other : Path) (line : String) :
    (scan.step file line).movedTo other = (scan.movedTo other).step other line := by
  unfold Scan.step
  generalize line.toList = s
  split
  · rfl
  · rfl
  · unfold Scan.movedTo
    dsimp only
    rw [List.filter_map]
    rfl
  · cases Atom.parse line with
    | error e => rfl
    | ok a => exact congrArg (Scan.mk _ _) List.map_append

theorem movedTo_apply (list : MaskList) (file other : Path) (text : String) :
    (list.apply file text).movedTo other = (list.movedTo other).apply other text := by
  have hscan : ∀ lines : List String, ∀ scan : Scan,
      (lines.foldl (Scan.step file) scan).movedTo other =
        lines.foldl (Scan.step other) (scan.movedTo other) := fun lines scan =>
    (List.foldl_hom (Scan.movedTo other) fun scan line =>
      (movedTo_step scan file other line).symm).symm
  exact congrArg (fun scan => MaskList.mk scan.entries) (hscan _ ⟨[], false, list.entries⟩)

/-- An empty line does what the end of a file does. -/
theorem apply_append (list : MaskList) (file : Path) (text rest : String) :
    list.apply file (Text.endLastLine text ++ "\n" ++ rest) =
      (list.apply file text).apply file rest := by
  have hlines := Text.trimmedLines_append text rest
  unfold Text.trimmedLines at hlines
  unfold apply
  dsimp only
  rw [hlines, List.foldl_append, List.foldl_cons]
  rfl

theorem apply_join (list : MaskList) (file : Path) (texts : List String) :
    list.apply file (Text.joinWithEmptyLines texts) =
      texts.foldl (fun list text => list.apply file text) list := by
  induction texts generalizing list with
  | nil => rfl
  | cons text more ih =>
    cases more with
    | nil => rfl
    | cons next more =>
      rw [Text.joinWithEmptyLines, apply_append, ih]
      · rfl
      · exact List.cons_ne_nil next more

/-- Apart from where they were written, the masks of files are those of the files put together. -/
theorem movedTo_applyAll (list : MaskList) (files : List (Path × String)) (other : Path) :
    (list.applyAll files).movedTo other =
      (list.movedTo other).apply other (Text.joinWithEmptyLines (files.map Prod.snd)) := by
  rw [apply_join, List.foldl_map]
  exact (List.foldl_hom (movedTo other) fun list first =>
    (movedTo_apply list first.1 other first.2).symm).symm

/-! ## The mask of a package ID -/

/-- A package ID is masked by the first mask that describes it. -/
theorem find?_eq_some_iff {list : MaskList} {id : PackageId} {info : MaskInfo} :
    list.find? id = some info ↔ ∃ before e after, list.entries = before ++ e :: after ∧
      e.info = info ∧ e.atom.describes id = true ∧
      ∀ earlier ∈ before, earlier.atom.describes id = false := by
  unfold find?
  rw [Option.map_eq_some_iff]
  constructor
  · rintro ⟨e, hfind, rfl⟩
    obtain ⟨hdescribes, before, after, hentries, hbefore⟩ := List.find?_eq_some_iff_append.mp hfind
    exact ⟨before, e, after, hentries, rfl, hdescribes, fun earlier h =>
      (Bool.not_eq_true' _).mp (hbefore earlier h)⟩
  · rintro ⟨before, e, after, hentries, rfl, hdescribes, hbefore⟩
    refine ⟨e, List.find?_eq_some_iff_append.mpr ⟨hdescribes, before, after, hentries, ?_⟩, rfl⟩
    exact fun earlier h => (Bool.not_eq_true' _).mpr (hbefore earlier h)

theorem find?_eq_none_iff {list : MaskList} {id : PackageId} :
    list.find? id = none ↔ ∀ e ∈ list.entries, e.atom.describes id = false := by
  unfold find?
  rw [Option.map_eq_none_iff, List.find?_eq_none]
  exact forall₂_congr fun e _ => Bool.not_eq_true _ ▸ Iff.rfl

end MaskList

end PackageCatalog
