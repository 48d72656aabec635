import Mathlib.Data.List.DropRight
import PackageCatalog.Proofs.MaskList

/-!
# The comments of masks

A mask belongs under the block of comments that stands directly above its run of items
(`MaskList.blockAbove`). What is recorded with it is that block once all removals and unreadable
lines are left out (`entries_apply`): a run that adds no mask does not end a comment. So the block
is always recorded, and more than it just where such a run stands between two comments
(`commentAbove_eq_blockAbove_iff`).
-/

namespace PackageCatalog.MaskList

variable {file : Path} {line : String} {lines front block items : List String}

/-! ## Blocks of comments -/

def isRemark (line : String) : Bool := Text.startsWithChar (· == '#') line

/-- Neither an empty line nor a comment: a mask, a removal, or a line that cannot be read. -/
def isItem (line : String) : Bool := Text.startsWithChar (· != '#') line

/-- A comment line without its mark and one space behind that. -/
def remarkText (line : String) : String :=
  (Text.afterLead "# " line).getD ((Text.afterLead "#" line).getD line)

/-- The block of comments that stands directly above the items at the end. -/
def blockAbove (lines : List String) : List String :=
  ((lines.rdropWhile isItem).rtakeWhile isRemark).map remarkText

def endsInItem (lines : List String) : Bool := lines.getLast?.any isItem

theorem isItem_eq_false_of_isRemark (h : isRemark line = true) : isItem line = false := by
  unfold isRemark isItem Text.startsWithChar at *
  cases hhead : line.toList.head? <;> simp_all

theorem remarkText_eq {rest : List Char} (h : line.toList = '#' :: rest) :
    remarkText line = commentText rest := by
  unfold remarkText Text.afterLead
  rw [h]
  cases rest with
  | nil => rfl
  | cons c rest =>
    by_cases hc : c = ' '
    · subst hc
      simp [commentText]
    · simp [commentText, hc, Ne.symm hc]

theorem blockAbove_append_items (h : ∀ l ∈ items, isItem l = true) (lines : List String) :
    blockAbove (lines ++ items) = blockAbove lines := by
  induction items using List.reverseRecOn with
  | nil => rw [List.append_nil]
  | append_singleton items item ih =>
    simp only [List.forall_mem_append, List.forall_mem_singleton] at h
    rw [← ih h.1, ← List.append_assoc, blockAbove, List.rdropWhile_concat_pos _ _ _ h.2, blockAbove]

theorem rtakeWhile_append_remarks (h : ∀ l ∈ block, isRemark l = true) (lines : List String) :
    (lines ++ block).rtakeWhile isRemark = lines.rtakeWhile isRemark ++ block := by
  induction block using List.reverseRecOn with
  | nil => simp
  | append_singleton block remark ih =>
    simp only [List.forall_mem_append, List.forall_mem_singleton] at h
    rw [← List.append_assoc, List.rtakeWhile_concat_pos _ _ _ h.2, ih h.1, List.append_assoc]

/-- A block of comments takes up the comments that stand directly above it. -/
theorem blockAbove_append (hne : block ≠ []) (hblock : ∀ l ∈ block, isRemark l = true)
    (hitems : ∀ l ∈ items, isItem l = true) (front : List String) :
    blockAbove (front ++ block ++ items) =
      (front.rtakeWhile isRemark).map remarkText ++ block.map remarkText := by
  obtain ⟨init, remark, rfl⟩ := (List.eq_nil_or_concat' block).resolve_left hne
  have hremark : isItem remark = false :=
    isItem_eq_false_of_isRemark (hblock remark (List.mem_append_right _ List.mem_cons_self))
  rw [blockAbove_append_items hitems, ← List.append_assoc, blockAbove,
    List.rdropWhile_concat_neg _ _ _ (by simp [hremark]), List.append_assoc,
    rtakeWhile_append_remarks hblock, List.map_append]

theorem blockAbove_concat_of_empty (hitem : isItem line = false) (hremark : isRemark line = false)
    (lines : List String) : blockAbove (lines ++ [line]) = [] := by
  simp [blockAbove, hitem, hremark]

theorem blockAbove_of_not_endsInItem (h : endsInItem lines = false) :
    blockAbove lines = (lines.rtakeWhile isRemark).map remarkText := by
  induction lines using List.reverseRecOn with
  | nil => rfl
  | append_singleton lines line _ =>
    simp only [endsInItem, List.getLast?_concat, Option.any_some] at h
    simp [blockAbove, h]

theorem rtakeWhile_of_endsInItem (h : endsInItem lines = true) : lines.rtakeWhile isRemark = [] := by
  induction lines using List.reverseRecOn with
  | nil => rfl
  | append_singleton lines line _ =>
    simp only [endsInItem, List.getLast?_concat, Option.any_some] at h
    have hremark : ¬ isRemark line = true := fun hremark => by
      rw [isItem_eq_false_of_isRemark hremark] at h
      cases h
    rw [List.rtakeWhile_concat_neg _ _ _ hremark]

/-- A comment goes on with the block above it, unless there are items in between. -/
theorem blockAbove_concat_remark (h : isRemark line = true) (lines : List String) :
    blockAbove (lines ++ [line]) =
      (if endsInItem lines then [] else blockAbove lines) ++ [remarkText line] := by
  have hnone : ∀ l ∈ ([] : List String), isItem l = true := fun _ h => absurd h List.not_mem_nil
  have happend := blockAbove_append (List.cons_ne_nil line []) (List.forall_mem_singleton.mpr h)
    hnone lines
  rw [List.append_nil] at happend
  rw [happend]
  split
  · next hends => rw [rtakeWhile_of_endsInItem hends]; rfl
  · next hends => rw [blockAbove_of_not_endsInItem (Bool.not_eq_true _ ▸ hends)]; rfl

/-! ## What is recorded -/

/-- An item that adds no mask: a removal, or a line that cannot be read. -/
def isIdle (line : String) : Bool := isItem line && (Atom.parse line).toOption.isNone

def telling (lines : List String) : List String := lines.filter (!isIdle ·)

/-- The comment that is recorded with a mask below the lines. -/
def commentAbove (lines : List String) : List String := blockAbove (telling lines)

theorem telling_concat_of_isIdle (h : isIdle line = true) (lines : List String) :
    telling (lines ++ [line]) = telling lines := by
  simp [telling, h]

theorem telling_concat (h : isIdle line = false) (lines : List String) :
    telling (lines ++ [line]) = telling lines ++ [line] := by
  simp [telling, h]

theorem isIdle_eq_false (h : isItem line = false) : isIdle line = false := by
  simp [isIdle, h]

/-- The comment lines so far and whether a mask has used them are those of the lines read. -/
structure Scan.Remembers (scan : Scan) (lines : List String) : Prop where
  comment : scan.comment = commentAbove lines
  used : scan.used = endsInItem (telling lines)

theorem Scan.Remembers.of_isIdle {scan scan' : Scan} (h : scan.Remembers lines)
    (hidle : isIdle line = true) (hcomment : scan'.comment = scan.comment)
    (hused : scan'.used = scan.used) : scan'.Remembers (lines ++ [line]) := by
  constructor
  · rw [hcomment, h.comment, commentAbove, commentAbove, telling_concat_of_isIdle hidle]
  · rw [hused, h.used, telling_concat_of_isIdle hidle]

theorem Scan.Remembers.step {scan : Scan} (h : scan.Remembers lines) (file : Path) (line : String) :
    (scan.step file line).Remembers (lines ++ [line]) := by
  unfold Scan.step
  split
  · next hline =>
    have hitem : isItem line = false := by simp [isItem, Text.startsWithChar, hline]
    have hremark : isRemark line = false := by simp [isRemark, Text.startsWithChar, hline]
    constructor
    · rw [commentAbove, telling_concat (isIdle_eq_false hitem),
        blockAbove_concat_of_empty hitem hremark]
    · simp [telling_concat (isIdle_eq_false hitem), endsInItem, hitem]
  · next rest hline =>
    have hremark : isRemark line = true := by simp [isRemark, Text.startsWithChar, hline]
    have hitem := isItem_eq_false_of_isRemark hremark
    constructor
    · rw [commentAbove, telling_concat (isIdle_eq_false hitem), blockAbove_concat_remark hremark,
        remarkText_eq hline, ← h.used, ← commentAbove, ← h.comment]
    · simp [telling_concat (isIdle_eq_false hitem), endsInItem, hitem]
  · next token hline =>
    have hmarked : Atom.IsMarked line.toList := by
      rw [hline]
      exact fun _ hc => .inr (Option.some.inj hc).symm
    have hidle : isIdle line = true := by
      cases hparse : Atom.parse line with
      | ok a => exact absurd hmarked (Atom.not_isMarked_of_parse hparse)
      | error e => simp [isIdle, isItem, Text.startsWithChar, hline, hparse, Except.toOption]
    exact h.of_isIdle hidle rfl rfl
  · next hempty hremark _ =>
    have hitem : isItem line = true := by
      unfold isItem Text.startsWithChar
      cases hline : line.toList with
      | nil => exact absurd hline hempty
      | cons c rest =>
        have hc : c ≠ '#' := fun hc => hremark rest (hc ▸ hline)
        simpa using hc
    split
    · next a hparse =>
      have htells : isIdle line = false := by simp [isIdle, hparse, Except.toOption]
      constructor
      · rw [commentAbove, telling_concat htells,
          blockAbove_append_items (List.forall_mem_singleton.mpr hitem)]
        exact h.comment
      · simp [telling_concat htells, endsInItem, hitem]
    · next e hparse =>
      have hidle : isIdle line = true := by simp [isIdle, hitem, hparse, Except.toOption]
      exact h.of_isIdle hidle rfl rfl

/-- Of the lines below `before` those masks that no later line takes back, each under what `above`
makes of all lines before it. -/
def standingUnder (above : List String → List String) (file : Path) (before : List String) :
    List String → List MaskEntry
  | [] => []
  | line :: later =>
    (if "-" ++ line ∈ later then [] else written file (above before) line) ++
      standingUnder above file (before ++ [line]) later

theorem filter_written (comment later : List String) :
    ((written file comment line).filter fun e => "-" ++ e.info.token ∉ later) =
      if "-" ++ line ∈ later then [] else written file comment line := by
  unfold written
  cases Atom.parse line with
  | ok a => by_cases hback : "-" ++ line ∈ later <;> simp [hback]
  | error e => simp

/-- Lines leave those masks that none of them takes back, and add those of them that stand. -/
theorem entries_foldl_step {scan : Scan} {before : List String} (h : scan.Remembers before)
    (lines : List String) :
    (lines.foldl (Scan.step file) scan).entries =
      (scan.entries.filter fun e => "-" ++ e.info.token ∉ lines) ++
        standingUnder commentAbove file before lines := by
  induction lines generalizing scan before with
  | nil => simp [standingUnder]
  | cons line later ih =>
    have hkept (e : MaskEntry) :
        (decide ("-" ++ e.info.token ∉ later) && line != "-" ++ e.info.token) =
          decide ("-" ++ e.info.token ∉ line :: later) := by
      rw [Bool.eq_iff_iff]
      simp [and_comm, ne_comm]
    rw [List.foldl_cons, ih (h.step file line), entries_step, List.filter_append,
      List.filter_filter, List.filter_congr fun e _ => hkept e, filter_written, h.comment,
      List.append_assoc]
    rfl

theorem entries_apply (list : MaskList) (file : Path) (text : String) :
    (list.apply file text).entries =
      (list.entries.filter fun e => "-" ++ e.info.token ∉ Text.trimmedLines text) ++
        standingUnder commentAbove file [] (Text.trimmedLines text) := by
  have hstart : Scan.Remembers ⟨[], false, list.entries⟩ [] := ⟨rfl, rfl⟩
  exact entries_foldl_step hstart (Text.trimmedLines text)

/-! ## More than the block -/

/-- Above the block at the end stand items that add no mask, and above these another comment. -/
def JoinsComments (lines : List String) : Prop :=
  ∃ front remark idle block items, lines = front ++ remark :: idle ++ block ++ items ∧
    isRemark remark = true ∧ (∀ l ∈ idle, isIdle l = true) ∧ idle ≠ [] ∧
    (∀ l ∈ block, isRemark l = true) ∧ block ≠ [] ∧ ∀ l ∈ items, isItem l = true

theorem telling_remarks (h : ∀ l ∈ block, isRemark l = true) : telling block = block :=
  List.filter_eq_self.mpr fun l hl => by
    simp [isIdle_eq_false (isItem_eq_false_of_isRemark (h l hl))]

theorem isItem_of_mem_telling (h : ∀ l ∈ items, isItem l = true) :
    ∀ l ∈ telling items, isItem l = true := fun l hl => h l (List.mem_of_mem_filter hl)

theorem telling_append (front lines : List String) :
    telling (front ++ lines) = telling front ++ telling lines := List.filter_append front lines

theorem commentAbove_append (hne : block ≠ []) (hblock : ∀ l ∈ block, isRemark l = true)
    (hitems : ∀ l ∈ items, isItem l = true) (front : List String) :
    commentAbove (front ++ block ++ items) =
      ((telling front).rtakeWhile isRemark).map remarkText ++ block.map remarkText := by
  rw [commentAbove, telling_append, telling_append, telling_remarks hblock,
    blockAbove_append hne hblock (isItem_of_mem_telling hitems)]

/-- Lines are what stands above the block, the block and the items at the end. -/
theorem exists_block (lines : List String) :
    ∃ front block items, lines = front ++ block ++ items ∧ (∀ l ∈ block, isRemark l = true) ∧
      (∀ l ∈ items, isItem l = true) ∧ front.rtakeWhile isRemark = [] ∧
      (block = [] → endsInItem front = false) := by
  have hlines := List.rdropWhile_append_rtakeWhile (p := isItem) (l := lines)
  have hrest := List.rdropWhile_append_rtakeWhile (p := isRemark) (l := lines.rdropWhile isItem)
  refine ⟨(lines.rdropWhile isItem).rdropWhile isRemark,
    (lines.rdropWhile isItem).rtakeWhile isRemark, lines.rtakeWhile isItem,
    by rw [hrest, hlines], fun _ => List.mem_rtakeWhile_imp, fun _ => List.mem_rtakeWhile_imp,
    List.rtakeWhile_eq_nil_iff.mpr (List.rdropWhile_last_not _ _), fun hblock => ?_⟩
  rw [hblock, List.append_nil] at hrest
  rw [hrest, endsInItem]
  by_cases hne : lines.rdropWhile isItem = []
  · rw [hne]
    rfl
  · rw [List.getLast?_eq_some_getLast hne, Option.any_some]
    exact Bool.not_eq_true _ ▸ List.rdropWhile_last_not isItem lines hne

theorem exists_of_ends_in_remark (h : (telling front).rtakeWhile isRemark ≠ []) :
    ∃ before remark idle, front = before ++ remark :: idle ∧ isRemark remark = true ∧
      ∀ l ∈ idle, isIdle l = true := by
  rcases List.eq_nil_or_concat' (telling front) with hnil | ⟨told, remark, htold⟩
  · rw [hnil] at h
    exact absurd rfl h
  · have hremark : isRemark remark = true := by
      by_contra hnot
      rw [htold, List.rtakeWhile_concat_neg _ _ _ hnot] at h
      exact h rfl
    obtain ⟨first, last, rfl, -, hlast⟩ := List.filter_eq_append_iff.mp htold
    obtain ⟨passed, idle, rfl, -, -, hidle⟩ := List.filter_eq_cons_iff.mp hlast
    refine ⟨first ++ passed, remark, idle, (List.append_assoc ..).symm, hremark, fun l hl => ?_⟩
    simpa using List.filter_eq_nil_iff.mp hidle l hl

theorem commentAbove_of_no_block (hitems : ∀ l ∈ items, isItem l = true)
    (hfront : front.rtakeWhile isRemark = []) (hends : endsInItem front = false) :
    commentAbove (front ++ items) = [] ∧ blockAbove (front ++ items) = [] := by
  rw [commentAbove, telling_append, blockAbove_append_items (isItem_of_mem_telling hitems),
    blockAbove_append_items hitems]
  rcases List.eq_nil_or_concat' front with rfl | ⟨front, line, rfl⟩
  · exact ⟨rfl, rfl⟩
  · have hitem : isItem line = false := by simpa [endsInItem] using hends
    have hremark : isRemark line = false := by
      by_contra hremark
      simp [List.rtakeWhile_concat, hremark] at hfront
    rw [telling_concat (isIdle_eq_false hitem)]
    exact ⟨blockAbove_concat_of_empty hitem hremark _, blockAbove_concat_of_empty hitem hremark _⟩

/-- The block is what is recorded, unless items that add no mask join it to the comment above
them. -/
theorem commentAbove_eq_blockAbove_iff (lines : List String) :
    commentAbove lines = blockAbove lines ↔ ¬ JoinsComments lines := by
  constructor
  · rintro heq ⟨front, remark, idle, block, items, rfl, hremark, hidle, hidleNe, hblock, hblockNe,
      hitems⟩
    have htold : telling (front ++ remark :: idle) = telling front ++ [remark] := by
      have hnone : telling idle = [] := List.filter_eq_nil_iff.mpr fun l hl => by simp [hidle l hl]
      rw [telling_append, ← List.singleton_append, telling_append, hnone,
        telling_remarks (List.forall_mem_singleton.mpr hremark), List.append_nil]
    have hends : endsInItem (front ++ remark :: idle) = true := by
      obtain ⟨idle, last, rfl⟩ := (List.eq_nil_or_concat' idle).resolve_left hidleNe
      have hlast := hidle last (List.mem_append_right _ List.mem_cons_self)
      rw [isIdle, Bool.and_eq_true] at hlast
      rw [endsInItem, ← List.cons_append, ← List.append_assoc, List.getLast?_concat, Option.any_some]
      exact hlast.1
    rw [commentAbove_append hblockNe hblock hitems, blockAbove_append hblockNe hblock hitems,
      htold, rtakeWhile_of_endsInItem hends, List.rtakeWhile_concat_pos _ _ _ hremark] at heq
    have hlength := congrArg List.length heq
    simp only [List.length_append, List.length_map, List.length_singleton, List.length_nil]
      at hlength
    omega
  · intro hjoins
    obtain ⟨front, block, items, rfl, hblock, hitems, hfront, hempty⟩ := exists_block lines
    by_cases hne : block = []
    · subst hne
      rw [List.append_nil]
      obtain ⟨hcomment, hnone⟩ := commentAbove_of_no_block hitems hfront (hempty rfl)
      rw [hcomment, hnone]
    · have htold : (telling front).rtakeWhile isRemark = [] := by
        by_contra htold
        obtain ⟨before, remark, idle, rfl, hremark, hidle⟩ := exists_of_ends_in_remark htold
        refine hjoins ⟨before, remark, idle, block, items, rfl, hremark, hidle, ?_, hblock, hne,
          hitems⟩
        rintro rfl
        rw [List.rtakeWhile_concat_pos _ _ _ hremark] at hfront
        exact List.concat_ne_nil _ _ hfront
      rw [commentAbove_append hne hblock hitems, blockAbove_append hne hblock hitems, htold, hfront]

/-- The end of what is recorded is the block. -/
theorem blockAbove_suffix (lines : List String) : blockAbove lines <:+ commentAbove lines := by
  obtain ⟨front, block, items, rfl, hblock, hitems, hfront, hempty⟩ := exists_block lines
  by_cases hne : block = []
  · subst hne
    rw [List.append_nil, (commentAbove_of_no_block hitems hfront (hempty rfl)).2]
    exact List.nil_suffix
  · rw [commentAbove_append hne hblock hitems, blockAbove_append hne hblock hitems, hfront]
    exact List.suffix_append _ _

/-- The masks of a file are recorded under the block above them in which removals and unreadable
lines are left out. It ends in the block that stands there, and is longer just where these lines
join that block to a comment above them. -/
theorem recorded_under_comment (list : MaskList) (file : Path) (text : String) :
    (list.apply file text).entries =
      (list.entries.filter fun e => "-" ++ e.info.token ∉ Text.trimmedLines text) ++
        standingUnder commentAbove file [] (Text.trimmedLines text) ∧
    ∀ lines, blockAbove lines <:+ commentAbove lines ∧
      (commentAbove lines = blockAbove lines ↔ ¬ JoinsComments lines) :=
  ⟨entries_apply list file text, fun lines =>
    ⟨blockAbove_suffix lines, commentAbove_eq_blockAbove_iff lines⟩⟩

def betweenComments : String :=
  "# gone\n-cat/old\n# why\ncat/kit\n\n# broken\nno atom\n# other\ncat/pan\n"

/-- The comments above them are recorded with masks that have a block of their own. -/
theorem recorded_between_comments :
    (empty.apply ⟨"/r/package.mask"⟩ betweenComments).entries ≠
      standingUnder blockAbove ⟨"/r/package.mask"⟩ [] (Text.trimmedLines betweenComments) ∧
    (empty.apply ⟨"/r/package.mask"⟩ betweenComments).entries.map (·.info.comment) =
      [["gone", "why"], ["broken", "other"]] := by
  have hrecorded : (empty.apply ⟨"/r/package.mask"⟩ betweenComments).entries.map
      (·.info.comment) = [["gone", "why"], ["broken", "other"]] := by decide +kernel
  have hblocks : (standingUnder blockAbove ⟨"/r/package.mask"⟩ []
      (Text.trimmedLines betweenComments)).map (·.info.comment) = [["why"], ["other"]] := by
    decide +kernel
  refine ⟨fun heq => ?_, hrecorded⟩
  rw [heq, hblocks] at hrecorded
  exact absurd hrecorded (by decide)

end PackageCatalog.MaskList
