import PackageCatalog.Contents
import PackageCatalog.Proofs.Result
import PackageCatalog.Proofs.Text.Integer

/-!
# What `CONTENTS` files say

An entry is written in one line, a word and fields behind it, and read back from there
(`ContentsEntry.parseLine_line`) although the fields are parted by spaces, which paths may hold:
each reader cuts where the other fields have none. Texts one below the other are read one after the
other (`Contents.parse_append`), so a list of entries is what its lines say, whatever lines of other
kinds stand between them.
-/

namespace PackageCatalog

/-! ## Fields -/

namespace Text

variable {a b : String}

theorem toList_spaced (a b : String) : (a ++ " " ++ b).toList = a.toList ++ ' ' :: b.toList := by
  rw [String.toList_append, String.toList_append, List.append_assoc]
  rfl

theorem isEmpty_spaced (a b : String) : (a ++ " " ++ b).isEmpty = false := by
  rw [Bool.eq_false_iff]
  intro hempty
  have hchars := congrArg String.toList (String.isEmpty_iff.mp hempty)
  rw [toList_spaced] at hchars
  exact List.append_ne_nil_of_right_ne_nil _ (List.cons_ne_nil _ _) hchars

theorem splitOnce_space (h : ' ' ∉ a.toList) : splitOnce ' ' (a ++ " " ++ b) = some (a, b) := by
  rw [splitOnce, toList_spaced, cutAt_append (beq_of_not_mem h) (by decide)]
  simp

theorem splitOnceLast_space (h : ' ' ∉ b.toList) :
    splitOnceLast ' ' (a ++ " " ++ b) = some (a, b) := by
  rw [splitOnceLast, toList_spaced, cutAtLast_cut (beq_of_not_mem h) (by decide)]
  simp

def arrow : List Char := [' ', '-', '>', ' ']

/-- Only a text that ends in the arrow without its last space lets one start earlier. -/
theorem not_infix_arrow {s : List Char} (hin : ¬ arrow <:+: s)
    (hend : ¬ arrow.dropLast <:+ s) : ¬ arrow <:+: s ++ arrow.dropLast := by
  rintro ⟨u, v, h⟩
  rcases List.append_eq_append_iff.mp h with ⟨between, rfl, -⟩ | ⟨front, hfront, hrest⟩
  · exact hin ⟨u, between, rfl⟩
  · have hlast := congrArg List.getLast? hfront
    rw [List.getLast?_append, List.getLast?_append] at hlast
    -- what an earlier arrow shares with the last one ends the one and starts the other
    match front, hrest with
    | [], _ => exact hin ⟨u, [], by rw [hfront]; simp⟩
    | [a], hrest =>
      obtain ⟨rfl, -⟩ := List.cons.inj hrest
      exact hend ⟨u, List.append_cancel_right (by rw [← hfront, List.append_assoc]; rfl)⟩
    | [a, b], hrest =>
      obtain ⟨rfl, rfl, -⟩ := by simpa [arrow] using hrest
      simp [arrow] at hlast
    | [a, b, c], hrest =>
      obtain ⟨rfl, rfl, rfl, -⟩ := by simpa [arrow] using hrest
      simp [arrow] at hlast
    | a :: b :: c :: d :: _, hrest => simp [arrow] at hrest

theorem splitAround_arrow (hin : ¬ arrow <:+: a.toList) (hend : ¬ arrow.dropLast <:+ a.toList) :
    splitAround " -> " (a ++ " -> " ++ b) = some (a, b) := by
  have hchars : (a ++ " -> " ++ b).toList = a.toList ++ (arrow ++ b.toList) := by
    rw [String.toList_append, String.toList_append, List.append_assoc]
    rfl
  have hcut : cutAround arrow (a.toList ++ (arrow ++ b.toList)) = some (a.toList, b.toList) :=
    cutAround_cut (List.cons_ne_nil _ _) (not_infix_arrow hin hend) b.toList
  rw [splitAround, hchars]
  show (cutAround arrow _).map _ = _
  rw [hcut]
  simp

end Text

/-! ## One line -/

namespace ContentsEntry

open Text

def word : ContentsEntry → String
  | directory _ => "dir"
  | other _ => "fif"
  | file _ _ _ => "obj"
  | link _ _ _ => "sym"

def fields : ContentsEntry → String
  | directory p => p.text
  | other p => p.text
  | file p md5 mtime => p.text ++ " " ++ md5 ++ " " ++ toString mtime
  | link p target mtime => p.text ++ " -> " ++ target ++ " " ++ toString mtime

def line (e : ContentsEntry) : String := e.word ++ " " ++ e.fields

/-- A location that a line can hold. -/
structure FitsLine (p : Path) : Prop where
  ne_nil : p.text.toList ≠ []
  oneLine : '\n' ∉ p.text.toList

/-- The entries that can be written. Of the fields behind a path it is only the last two of a file
that must not hold spaces; the path of a link must leave its arrow the first. -/
inductive Writable : ContentsEntry → Prop
  | directory {p : Path} (hp : FitsLine p)
    (hend : ∀ c ∈ p.text.toList.getLast?, isBlank c = false) : Writable (directory p)
  | other {p : Path} (hp : FitsLine p)
    (hend : ∀ c ∈ p.text.toList.getLast?, isBlank c = false) : Writable (other p)
  | file {p : Path} {md5 : String} {mtime : Int} (hp : FitsLine p)
    (hspace : ' ' ∉ md5.toList) (hline : '\n' ∉ md5.toList)
    (hmtime : IntegerRange.bits64.Holds mtime) : Writable (file p md5 mtime)
  | link {p : Path} {target : String} {mtime : Int} (hp : FitsLine p)
    (hin : ¬ arrow <:+: p.text.toList) (hend : ¬ arrow.dropLast <:+ p.text.toList)
    (hline : '\n' ∉ target.toList) (hmtime : IntegerRange.bits64.Holds mtime) :
    Writable (link p target mtime)

section line

variable {e : ContentsEntry} {p : Path} {md5 target : String} {mtime : Int}

theorem not_mem_toString_of_isBlank {c : Char} (hc : isBlank c = true) (n : Int) :
    c ∉ (toString n).toList := fun h =>
  Bool.false_ne_true ((isBlank_of_mem_toString h).symm.trans hc)

theorem parseFile?_fields (hspace : ' ' ∉ md5.toList) (hmtime : IntegerRange.bits64.Holds mtime) :
    parseFile? (file p md5 mtime).fields = some (file p md5 mtime) := by
  have hread : readInteger .bits64 (toString mtime) = .ok mtime :=
    readInteger_toString (by decide) hmtime
  unfold parseFile? fields
  rw [splitOnceLast_space (not_mem_toString_of_isBlank (by decide) mtime)]
  dsimp only [Option.bind_eq_bind, Option.bind_some]
  rw [splitOnceLast_space hspace]
  dsimp only [Option.bind_some]
  rw [hread]
  rfl

theorem parseLink?_fields (hin : ¬ arrow <:+: p.text.toList)
    (hend : ¬ arrow.dropLast <:+ p.text.toList) (hmtime : IntegerRange.bits64.Holds mtime) :
    parseLink? (link p target mtime).fields = some (link p target mtime) := by
  have hread : readInteger .bits64 (toString mtime) = .ok mtime :=
    readInteger_toString (by decide) hmtime
  have hfields : (link p target mtime).fields =
      p.text ++ " -> " ++ (target ++ " " ++ toString mtime) := by
    unfold fields
    simp only [String.append_assoc]
  unfold parseLink?
  rw [hfields, splitAround_arrow hin hend]
  dsimp only [Option.bind_eq_bind, Option.bind_some]
  rw [splitOnceLast_space (not_mem_toString_of_isBlank (by decide) mtime)]
  dsimp only [Option.bind_some]
  rw [hread]
  rfl

/-- Fields that end in a number do not end in a blank. -/
theorem getLast?_append_toString (s : String) (n : Int) :
    ∃ c, (s ++ toString n).toList.getLast? = some c ∧ isBlank c = false := by
  have hne := toString_ne_nil n
  refine ⟨_, ?_, isBlank_of_mem_toString (List.getLast_mem hne)⟩
  rw [String.toList_append, List.getLast?_append, List.getLast?_eq_some_getLast hne, Option.some_or]

theorem Writable.getLast?_fields (h : e.Writable) :
    ∃ c, e.fields.toList.getLast? = some c ∧ isBlank c = false := by
  cases h with
  | directory hp hend =>
    exact ⟨_, List.getLast?_eq_some_getLast hp.ne_nil,
      hend _ (List.getLast?_eq_some_getLast hp.ne_nil)⟩
  | other hp hend =>
    exact ⟨_, List.getLast?_eq_some_getLast hp.ne_nil,
      hend _ (List.getLast?_eq_some_getLast hp.ne_nil)⟩
  | file => exact getLast?_append_toString _ _
  | link => exact getLast?_append_toString _ _

theorem Writable.newline_not_mem_line (h : e.Writable) : '\n' ∉ e.line.toList := by
  cases h with
  | directory hp => simpa [line, word, fields] using hp.oneLine
  | other hp => simpa [line, word, fields] using hp.oneLine
  | @file _ _ mtime hp _ hline =>
    simpa [line, word, fields, hp.oneLine, hline] using
      not_mem_toString_of_isBlank (c := '\n') (by decide) mtime
  | @link _ _ mtime hp _ _ hline =>
    simpa [line, word, fields, hp.oneLine, hline] using
      not_mem_toString_of_isBlank (c := '\n') (by decide) mtime

theorem Writable.trimEnd_line (h : e.Writable) : trimEnd e.line = e.line := by
  obtain ⟨c, hlast, hc⟩ := h.getLast?_fields
  have hline : e.line.toList.getLast? = some c := by
    unfold line
    rw [String.toList_append, List.getLast?_append, hlast, Option.some_or]
  rw [trimEnd, dropTail_eq_self, String.ofList_toList]
  rw [hline]
  rintro d ⟨⟩
  exact hc

theorem Writable.parseLine_line (h : e.Writable) : parseLine e.line = .ok (some e) := by
  have hfields : e.fields.isEmpty = false := by
    obtain ⟨c, hlast, -⟩ := h.getLast?_fields
    rw [Bool.eq_false_iff]
    intro hempty
    rw [String.isEmpty_iff.mp hempty] at hlast
    cases hlast
  have hword : ' ' ∉ e.word.toList := by
    cases e <;> simp [word]
  unfold parseLine
  rw [line, splitOnce_space hword]
  dsimp only
  rw [hfields]
  cases h with
  | directory => rfl
  | other => rfl
  | file _ hspace _ hmtime =>
    simp only [word, Bool.false_eq_true, ↓reduceIte]
    rw [parseFile?_fields hspace hmtime]
  | link _ hin hend _ hmtime =>
    simp only [word, Bool.false_eq_true, ↓reduceIte]
    rw [parseLink?_fields hin hend hmtime]

end line

/-- Lines that say nothing: they are blank, or their word is not known. -/
inductive Skipped : String → Prop
  | blank {line : String} (h : ∀ c ∈ line.toList, isBlank c = true) : Skipped line
  | unknown {word rest : String} (hspace : ' ' ∉ word.toList)
    (hword : word ∉ ["dir", "fif", "dev", "obj", "sym"])
    (hrest : ∃ c ∈ rest.toList, isBlank c = false) : Skipped (word ++ " " ++ rest)

theorem parseLine_of_unknown {word rest : String} (hspace : ' ' ∉ word.toList)
    (hword : word ∉ ["dir", "fif", "dev", "obj", "sym"]) (hrest : rest.isEmpty = false) :
    parseLine (word ++ " " ++ rest) = .ok none := by
  simp only [List.mem_cons, List.not_mem_nil, or_false, not_or] at hword
  unfold parseLine
  rw [splitOnce_space hspace]
  dsimp only
  rw [hrest]
  simp [hword]

end ContentsEntry

/-! ## Texts -/

namespace Contents

open ContentsEntry Text

variable {a b : String} {entries : Contents} {lines : List String}

theorem parse_eq (text : String) : parse text = (do
    let entries ← (filledLines text).mapM parseLine
    return entries.filterMap id) := rfl

/-- Texts one below the other are read one after the other. -/
theorem parse_append (a b : String) : parse (a ++ "\n" ++ b) = (do
    let x ← parse a
    let y ← parse b
    return x ++ y) := by
  rw [parse_eq, parse_eq, parse_eq, filledLines_append, List.mapM_append]
  cases (filledLines a).mapM parseLine with
  | error e => rfl
  | ok x =>
    cases (filledLines b).mapM parseLine with
    | error e => rfl
    | ok y => exact congrArg Except.ok List.filterMap_append

theorem parse_append_eq_ok_iff : parse (a ++ "\n" ++ b) = .ok entries ↔
    ∃ x y, parse a = .ok x ∧ parse b = .ok y ∧ x ++ y = entries := by
  rw [parse_append, Result.bind_eq_ok_iff]
  constructor
  · rintro ⟨x, hx, h⟩
    obtain ⟨y, hy, h⟩ := Result.bind_eq_ok_iff.mp h
    exact ⟨x, y, hx, hy, Except.ok.inj h⟩
  · rintro ⟨x, y, hx, hy, rfl⟩
    exact ⟨x, hx, Result.bind_eq_ok_iff.mpr ⟨y, hy, rfl⟩⟩

theorem parse_empty : parse "" = .ok [] := rfl

theorem parse_of_line {line : String} (h : '\n' ∉ line.toList)
    (hne : (trimEnd line).isEmpty = false) :
    parse line = (do return (← parseLine (trimEnd line)).toList) := by
  rw [parse_eq, filledLines_of_line h, hne]
  cases hread : parseLine (trimEnd line) with
  | error e => simp [hread, bind, Except.bind]
  | ok entry? => cases entry? <;> simp [hread, bind, Except.bind, pure, Except.pure]

theorem parse_entry {e : ContentsEntry} (h : e.Writable) : parse e.line = .ok [e] := by
  rw [parse_of_line h.newline_not_mem_line (h.trimEnd_line.symm ▸ isEmpty_spaced _ _),
    h.trimEnd_line, h.parseLine_line]
  rfl

theorem parse_skipped {line : String} (hline : '\n' ∉ line.toList) (h : Skipped line) :
    parse line = .ok [] := by
  cases h with
  | blank h =>
    rw [parse_eq, filledLines_of_line hline, if_pos (isEmpty_trimEnd_iff.mpr h)]
    rfl
  | @unknown word rest hspace hword hrest =>
    have hkept : (trimEnd rest).isEmpty = false := by
      obtain ⟨c, hc, hblank⟩ := hrest
      rw [Bool.eq_false_iff]
      intro hempty
      rw [isEmpty_trimEnd_iff.mp hempty c hc] at hblank
      cases hblank
    have htrim : trimEnd (word ++ " " ++ rest) = word ++ " " ++ trimEnd rest := by
      rw [trimEnd, String.toList_append, dropTail_append hrest, String.ofList_append,
        String.ofList_toList, trimEnd]
    rw [parse_of_line hline (htrim ▸ isEmpty_spaced _ _), htrim,
      parseLine_of_unknown hspace hword hkept]
    rfl

/-- The lines write the entries; between them stand lines that say nothing. -/
inductive Written : List String → Contents → Prop
  | nil : Written [] []
  | entry {e : ContentsEntry} {lines : List String} {entries : Contents} (he : e.Writable)
    (h : Written lines entries) : Written (e.line :: lines) (e :: entries)
  | skip {line : String} {lines : List String} {entries : Contents} (hline : '\n' ∉ line.toList)
    (hskip : Skipped line) (h : Written lines entries) : Written (line :: lines) entries

/-- Entries that can be written are written by their lines. -/
theorem written_map_line (h : ∀ e ∈ entries, e.Writable) : Written (entries.map line) entries := by
  induction entries with
  | nil => exact .nil
  | cons e entries ih =>
    rw [List.forall_mem_cons] at h
    exact .entry h.1 (ih h.2)

theorem parse_join_cons (line : String) (lines : List String) :
    parse (join "\n" (line :: lines)) = (do
      let x ← parse line
      let y ← parse (join "\n" lines)
      return x ++ y) := by
  cases lines with
  | nil =>
    have hjoin : join "\n" [line] = line := String.intercalate_singleton
    rw [hjoin]
    cases parse line with
    | error e => rfl
    | ok x => exact congrArg Except.ok (List.append_nil x).symm
  | cons next lines =>
    have hjoin : join "\n" (line :: next :: lines) = line ++ "\n" ++ join "\n" (next :: lines) :=
      String.intercalate_cons_cons
    rw [hjoin, parse_append]

theorem Written.parse_join (h : Written lines entries) :
    parse (join "\n" lines) = .ok entries := by
  induction h with
  | nil => exact parse_empty
  | entry he h ih =>
    rw [parse_join_cons, parse_entry he, ih]
    rfl
  | skip hline hskip h ih =>
    rw [parse_join_cons, parse_skipped hline hskip, ih]
    rfl

/-- A text that writes entries is read as just these, whether its last line is ended or not, and
texts one below the other are read just if both are, one after the other. -/
theorem parse_written_lines :
    (∀ lines entries, Written lines entries → parse (join "\n" lines) = .ok entries ∧
      parse (join "\n" lines ++ "\n") = .ok entries) ∧
    (∀ entries : Contents, (∀ e ∈ entries, e.Writable) → Written (entries.map line) entries) ∧
    ∀ a b entries, parse (a ++ "\n" ++ b) = .ok entries ↔
      ∃ x y, parse a = .ok x ∧ parse b = .ok y ∧ x ++ y = entries := by
  refine ⟨fun lines entries h => ⟨h.parse_join, ?_⟩, fun _ => written_map_line,
    fun _ _ _ => parse_append_eq_ok_iff⟩
  have hended :=
    parse_append_eq_ok_iff.mpr ⟨entries, [], h.parse_join, parse_empty, List.append_nil _⟩
  rwa [String.append_empty] at hended

/-- Entries whose paths hold what parts the fields. -/
def spacedEntries : Contents :=
  [.directory ⟨"/usr/share/a b"⟩, .file ⟨"/usr/obj 1 2"⟩ "" (-1),
    .link ⟨"/usr/a->b -"⟩ "c -> d 7" 9223372036854775807, .other ⟨" fifo"⟩]

theorem writable_spacedEntries : ∀ e ∈ spacedEntries, e.Writable := by
  have hlast (p : Path) (d : Char) (hp : p.text.toList.getLast? = some d)
      (hd : isBlank d = false) : ∀ c ∈ p.text.toList.getLast?, isBlank c = false := by
    rw [hp]
    rintro c ⟨⟩
    exact hd
  simp only [spacedEntries, List.forall_mem_cons]
  refine ⟨.directory ⟨by decide, by decide⟩ (hlast _ 'b' (by decide) (by decide)),
    .file ⟨by decide, by decide⟩ (by decide) (by decide) ?_,
    .link ⟨by decide, by decide⟩ (by decide +kernel) (by decide) (by decide) ?_,
    .other ⟨by decide, by decide⟩ (hlast _ 'o' (by decide) (by decide)),
    fun _ h => absurd h List.not_mem_nil⟩
  · simp [IntegerRange.Holds, IntegerRange.bits64]
  · simp [IntegerRange.Holds, IntegerRange.bits64]

/-- They are read back from their lines, with a blank line and one of an unknown word in front. -/
theorem parse_spacedEntries :
    Written (" \t" :: "who knows" :: spacedEntries.map line) spacedEntries ∧
    parse (join "\n" (" \t" :: "who knows" :: spacedEntries.map line)) = .ok spacedEntries := by
  obtain ⟨hread, hwritten, -⟩ := parse_written_lines
  have hunknown : Skipped ("who" ++ " " ++ "knows") :=
    .unknown (by decide) (by decide) ⟨'k', by decide, by decide⟩
  have hlines : Written (" \t" :: "who knows" :: spacedEntries.map line) spacedEntries :=
    .skip (by decide) (.blank (List.all_eq_true.mp (by decide)))
      (.skip (by decide) hunknown (hwritten _ writable_spacedEntries))
  exact ⟨hlines, (hread _ _ hlines).1⟩

end Contents

end PackageCatalog
