import PackageCatalog.Text

/-!
# Cuts of a text

What each cut of `PackageCatalog.Text` returns on a text whose parts are known.
-/

namespace PackageCatalog.Text

theorem dropTail_eq_reverse (p : Char → Bool) (s : List Char) :
    dropTail p s = (s.reverse.dropWhile p).reverse := by
  induction s with
  | nil => rfl
  | cons c s ih =>
    rw [dropTail, ih, List.reverse_cons, List.dropWhile_append]
    cases h : s.reverse.dropWhile p with
    | nil => by_cases hc : p c = true <;> simp [hc]
    | cons d ds =>
      obtain ⟨e, es, he⟩ : ∃ e es, (d :: ds).reverse = e :: es :=
        List.exists_cons_of_ne_nil (by simp)
      rw [he]
      simp only [List.isEmpty_cons, Bool.false_eq_true, ↓reduceIte, List.reverse_append]
      rw [he]
      rfl

/-! ## What is dropped at the end -/

section tails

variable {p : Char → Bool}

theorem dropTail_concat {c : Char} (h : p c = true) (s : List Char) :
    dropTail p (s ++ [c]) = dropTail p s := by
  rw [dropTail_eq_reverse, dropTail_eq_reverse, List.reverse_concat, List.dropWhile_cons_of_pos h]

theorem dropTail_eq_nil_iff {s : List Char} : dropTail p s = [] ↔ ∀ c ∈ s, p c = true := by
  induction s with
  | nil => simp [dropTail]
  | cons c s ih =>
    rw [dropTail, List.forall_mem_cons, ← ih]
    cases dropTail p s with
    | nil => by_cases hc : p c = true <;> simp [hc]
    | cons d kept => simp

/-- Only what satisfies `p` is dropped. -/
theorem exists_append_dropTail (p : Char → Bool) (s : List Char) :
    ∃ tail, s = dropTail p s ++ tail ∧ ∀ c ∈ tail, p c = true := by
  refine ⟨(s.reverse.takeWhile p).reverse, ?_, fun c hc => ?_⟩
  · rw [dropTail_eq_reverse, ← List.reverse_append, List.takeWhile_append_dropWhile,
      List.reverse_reverse]
  · exact List.all_eq_true.mp List.all_takeWhile c (List.mem_reverse.mp hc)

/-- A tail of which something is kept keeps all that stands in front of it. -/
theorem dropTail_append {t : List Char} (h : ∃ c ∈ t, p c = false) (s : List Char) :
    dropTail p (s ++ t) = s ++ dropTail p t := by
  have hne : dropTail p t ≠ [] := by
    obtain ⟨c, hc, hp⟩ := h
    intro hnil
    rw [dropTail_eq_nil_iff.mp hnil c hc] at hp
    cases hp
  induction s with
  | nil => rfl
  | cons c s ih =>
    rw [List.cons_append, dropTail, ih]
    split
    · next hnil => exact absurd (List.append_eq_nil_iff.mp hnil).2 hne
    · rfl

theorem dropTail_eq_self {s : List Char} (h : ∀ c ∈ s.getLast?, p c = false) : dropTail p s = s := by
  cases hlast : s.getLast? with
  | none => rw [List.getLast?_eq_none_iff.mp hlast]; rfl
  | some c =>
    obtain ⟨front, rfl⟩ := List.getLast?_eq_some_iff.mp hlast
    have hc : p c = false := h c hlast
    rw [dropTail_append ⟨c, List.mem_singleton_self c, hc⟩]
    simp [dropTail, hc]

end tails

/-! ## Classes of characters -/

section classes

variable {p : Char → Bool}

theorem ne_of_class {c d : Char} (h : p c = true) (hd : p d = false) : c ≠ d := by
  rintro rfl
  rw [h] at hd
  cases hd

theorem not_mem_of_class {s : List Char} {d : Char} (h : ∀ c ∈ s, p c = true)
    (hd : p d = false) : d ∉ s := by
  intro hmem
  exact ne_of_class (h d hmem) hd rfl

end classes

/-! ## The first and the last occurrence -/

theorem beq_of_not_mem {c : Char} {s : List Char} (h : c ∉ s) : ∀ d ∈ s, (d == c) = false := by
  intro d hd
  rw [beq_eq_false_iff_ne]
  rintro rfl
  exact h hd

section cuts

variable {p : Char → Bool}

theorem cutAt_eq_none {s : List Char} (h : ∀ c ∈ s, p c = false) : cutAt p s = none := by
  induction s with
  | nil => rfl
  | cons c s ih =>
    rw [List.forall_mem_cons] at h
    rw [cutAt, h.1, ih h.2]
    rfl

theorem cutAt_append {s : List Char} {c : Char} (h : ∀ d ∈ s, p d = false) (hc : p c = true)
    (rest : List Char) : cutAt p (s ++ c :: rest) = some (s, rest) := by
  induction s with
  | nil => rw [List.nil_append, cutAt, if_pos hc]
  | cons d s ih =>
    rw [List.forall_mem_cons] at h
    rw [List.cons_append, cutAt, h.1, ih h.2]
    rfl

theorem exists_of_cutAt {s before after : List Char} (h : cutAt p s = some (before, after)) :
    ∃ c, p c = true ∧ s = before ++ c :: after := by
  induction s generalizing before with
  | nil => cases h
  | cons c s ih =>
    rw [cutAt] at h
    split at h
    · next hc =>
      cases h
      exact ⟨c, hc, rfl⟩
    · obtain ⟨⟨front, rest⟩, hcut, hfront⟩ := Option.map_eq_some_iff.mp h
      cases hfront
      obtain ⟨d, hd, rfl⟩ := ih hcut
      exact ⟨d, hd, rfl⟩

theorem eq_append_of_cutAround {mark s before after : List Char}
    (h : cutAround mark s = some (before, after)) : s = before ++ (mark ++ after) := by
  induction s generalizing before with
  | nil =>
    rw [cutAround] at h
    split at h
    · next hmark =>
      cases h
      rw [List.isEmpty_iff.mp hmark]
      rfl
    · cases h
  | cons c s ih =>
    rw [cutAround] at h
    split at h
    · next hmark =>
      cases h
      obtain ⟨t, ht⟩ := List.isPrefixOf_iff_prefix.mp hmark
      rw [← ht, List.drop_left]
      rfl
    · obtain ⟨⟨front, rest⟩, hcut, hfront⟩ := Option.map_eq_some_iff.mp h
      cases hfront
      exact congrArg (List.cons c) (ih hcut)

theorem toList_of_splitOnce {c : Char} {s before after : String}
    (h : splitOnce c s = some (before, after)) : s.toList = before.toList ++ c :: after.toList := by
  obtain ⟨⟨front, rest⟩, hcut, hparts⟩ := Option.map_eq_some_iff.mp h
  cases hparts
  obtain ⟨d, hd, hs⟩ := exists_of_cutAt hcut
  cases eq_of_beq hd
  rw [hs, String.toList_ofList, String.toList_ofList]

theorem cutAtLast_eq_none {s : List Char} (h : ∀ c ∈ s, p c = false) : cutAtLast p s = none := by
  induction s with
  | nil => rfl
  | cons c s ih =>
    rw [List.forall_mem_cons] at h
    rw [cutAtLast, ih h.2, h.1]
    rfl

/-- A tail in which nothing is cut stays with what follows the cut. -/
theorem cutAtLast_append {t : List Char} (h : ∀ c ∈ t, p c = false) (s : List Char) :
    cutAtLast p (s ++ t) = (cutAtLast p s).map fun (before, after) => (before, after ++ t) := by
  induction s with
  | nil => exact cutAtLast_eq_none h
  | cons c s ih =>
    rw [List.cons_append, cutAtLast, cutAtLast, ih]
    rcases cutAtLast p s with _ | ⟨before, after⟩
    · cases p c <;> rfl
    · rfl

theorem cutAtLast_cut {t : List Char} {c : Char} (h : ∀ d ∈ t, p d = false) (hc : p c = true)
    (s : List Char) : cutAtLast p (s ++ c :: t) = some (s, t) := by
  induction s with
  | nil => rw [List.nil_append, cutAtLast, cutAtLast_eq_none h, if_pos hc]
  | cons d s ih => rw [List.cons_append, cutAtLast, ih]

/-- A text that does not touch the first character of a mark is passed over. -/
theorem cutAround_append {m : Char} {s : List Char} (h : ∀ c ∈ s, c ≠ m) (ms rest : List Char) :
    cutAround (m :: ms) (s ++ rest) =
      (cutAround (m :: ms) rest).map fun (before, after) => (s ++ before, after) := by
  induction s with
  | nil => rw [List.nil_append]; simp
  | cons c s ih =>
    rw [List.forall_mem_cons] at h
    have hprefix : (m :: ms).isPrefixOf (c :: (s ++ rest)) = false := by
      simp [List.isPrefixOf, h.1.symm]
    rw [List.cons_append, cutAround, hprefix, ih h.2]
    cases cutAround (m :: ms) rest <;> rfl

/-- A text is cut around a mark in which no earlier one starts. -/
theorem cutAround_cut {mark s : List Char} (hmark : mark ≠ [])
    (h : ¬ mark <:+: s ++ mark.dropLast) (rest : List Char) :
    cutAround mark (s ++ (mark ++ rest)) = some (s, rest) := by
  induction s with
  | nil =>
    obtain ⟨m, ms, rfl⟩ := List.exists_cons_of_ne_nil hmark
    have hprefix : (m :: ms).isPrefixOf (m :: (ms ++ rest)) = true :=
      List.isPrefixOf_iff_prefix.mpr (List.prefix_append (m :: ms) rest)
    rw [List.nil_append, List.cons_append, cutAround, if_pos hprefix, ← List.cons_append,
      List.drop_left]
  | cons c s ih =>
    have hs : ¬ mark <:+: s ++ mark.dropLast := fun hin =>
      h (hin.trans (List.suffix_cons c _).isInfix)
    have hprefix : mark.isPrefixOf (c :: (s ++ (mark ++ rest))) = false := by
      rw [Bool.eq_false_iff, ne_eq, List.isPrefixOf_iff_prefix]
      intro hprefix
      have hshort : c :: s ++ mark.dropLast <+: c :: s ++ (mark ++ rest) :=
        (List.prefix_append_right_inj _).mpr
          ((List.dropLast_prefix mark).trans (List.prefix_append mark rest))
      have hlength : mark.length ≤ (c :: s ++ mark.dropLast).length := by
        simp only [List.length_append, List.length_cons, List.length_dropLast]
        omega
      exact h (List.prefix_of_prefix_length_le hprefix hshort hlength).isInfix
    rw [List.cons_append, cutAround, hprefix, ih hs]
    rfl

end cuts

/-! ## Runs -/

section runs

variable {p : Char → Bool} {c : Char} {s run rest : List Char}

theorem of_mem_takeWhile (h : c ∈ s.takeWhile p) : p c = true :=
  List.all_eq_true.mp List.all_takeWhile c h

theorem of_mem_head?_dropWhile (h : c ∈ (s.dropWhile p).head?) : p c = false := by
  have hhead := List.head?_dropWhile_not p s
  rwa [Option.mem_def.mp h] at hhead

theorem takeWhile_run (hrun : ∀ c ∈ run, p c = true) (hrest : ∀ c ∈ rest.head?, p c = false) :
    (run ++ rest).takeWhile p = run := by
  rw [List.takeWhile_append_of_pos hrun]
  cases rest with
  | nil => exact List.append_nil run
  | cons c rest =>
    have hc : ¬ p c = true := Bool.eq_false_iff.mp (hrest c rfl)
    rw [List.takeWhile_cons_of_neg hc, List.append_nil]

theorem dropWhile_run (hrun : ∀ c ∈ run, p c = true) (hrest : ∀ c ∈ rest.head?, p c = false) :
    (run ++ rest).dropWhile p = rest := by
  rw [List.dropWhile_append_of_pos hrun]
  cases rest with
  | nil => rfl
  | cons c rest => exact List.dropWhile_cons_of_neg (Bool.eq_false_iff.mp (hrest c rfl))

end runs

/-! ## Blanks -/

def nonBlanks (s : List Char) : List Char := s.filter (!isBlank ·)

theorem nonBlanks_append (s t : List Char) : nonBlanks (s ++ t) = nonBlanks s ++ nonBlanks t :=
  List.filter_append s t

theorem isBlank_of_isSpacing {c : Char} (h : isSpacing c = true) : isBlank c = true := by
  simp only [isSpacing, Bool.or_eq_true, beq_iff_eq] at h
  rcases h with ((rfl | rfl) | rfl) | rfl <;> decide

theorem isSpacing_of_not_isBlank {c : Char} (h : isBlank c = false) : isSpacing c = false := by
  rw [Bool.eq_false_iff]
  intro hspacing
  rw [isBlank_of_isSpacing hspacing] at h
  cases h

theorem nonBlanks_eq_nil {gap : List Char} (h : ∀ c ∈ gap, isSpacing c = true) :
    nonBlanks gap = [] := by
  refine List.filter_eq_nil_iff.mpr fun c hc => ?_
  rw [isBlank_of_isSpacing (h c hc)]
  decide

/-! ## The ends of a text -/

theorem trimChars_eq_self {s : List Char} (h : ∀ c ∈ s, isBlank c = false) : trimChars s = s := by
  have hdrop : ∀ t : List Char, (∀ c ∈ t, isBlank c = false) → t.dropWhile isBlank = t := by
    intro t ht
    cases t with
    | nil => rfl
    | cons c t => simp [List.dropWhile, ht c]
  rw [trimChars, hdrop s h, dropTail_eq_reverse, hdrop s.reverse, List.reverse_reverse]
  intro c hc
  exact h c (List.mem_reverse.mp hc)

/-- Whether a text ends in a character is decided by its last part. -/
theorem isSuffixOf_append_of_not_mem {c : Char} {t : List Char} (hne : t ≠ []) (h : c ∉ t)
    (s : List Char) : [c].isSuffixOf (s ++ t) = false := by
  rw [Bool.eq_false_iff, ne_eq, List.isSuffixOf_iff_suffix]
  rintro ⟨u, hu⟩
  have hlast := congrArg List.getLast? hu
  rw [List.getLast?_concat, List.getLast?_append, List.getLast?_eq_some_getLast hne,
    Option.some_or, Option.some.injEq] at hlast
  rw [hlast] at h
  exact h (List.getLast_mem hne)

/-- The first `c` behind a text without it. -/
theorem exists_of_append_eq {c : Char} {a rest t w : List Char} (ha : c ∉ a)
    (h : a ++ rest = t ++ c :: w) : ∃ t', t = a ++ t' ∧ rest = t' ++ c :: w := by
  rcases List.append_eq_append_iff.mp h with ⟨t', ht, hrest⟩ | ⟨a', ha', hw⟩
  · exact ⟨t', ht, hrest⟩
  · cases a' with
    | nil => exact ⟨[], by rw [ha', List.append_nil, List.append_nil], hw.symm⟩
    | cons d a' =>
      rw [List.cons_append, List.cons.injEq] at hw
      rw [ha', hw.1] at ha
      exact absurd (List.mem_append_right t List.mem_cons_self) ha

/-! ## Pieces -/

section pieces

variable {p : Char → Bool}

theorem pieces_of_class {s : List Char} (h : ∀ c ∈ s, p c = false) : pieces p s = [s] := by
  induction s with
  | nil => rfl
  | cons c s ih =>
    rw [List.forall_mem_cons] at h
    rw [pieces, h.1, ih h.2]
    rfl

theorem pieces_ne_nil (s : List Char) : pieces p s ≠ [] := by
  cases s with
  | nil => exact List.cons_ne_nil _ _
  | cons c s =>
    rw [pieces]
    split
    · exact List.cons_ne_nil _ _
    · split <;> exact List.cons_ne_nil _ _

theorem pieces_append_cons {c : Char} (hc : p c = true) (s rest : List Char) :
    pieces p (s ++ c :: rest) = pieces p s ++ pieces p rest := by
  induction s with
  | nil =>
    rw [List.nil_append, pieces, pieces, hc]
    rfl
  | cons d s ih =>
    rw [List.cons_append, pieces, pieces, ih]
    split
    · rfl
    · obtain ⟨piece, more, hpieces⟩ := List.exists_cons_of_ne_nil (pieces_ne_nil (p := p) s)
      rw [hpieces]
      rfl

theorem pieces_append {s : List Char} {c : Char} (h : ∀ d ∈ s, p d = false) (hc : p c = true)
    (rest : List Char) : pieces p (s ++ c :: rest) = s :: pieces p rest := by
  rw [pieces_append_cons hc, pieces_of_class h]
  rfl

/-- A character of no cut goes to the last piece. -/
theorem exists_pieces_concat {c : Char} (hc : p c = false) (s : List Char) :
    ∃ front last, pieces p s = front ++ [last] ∧ pieces p (s ++ [c]) = front ++ [last ++ [c]] := by
  induction s with
  | nil => exact ⟨[], [], rfl, pieces_of_class (List.forall_mem_singleton.mpr hc)⟩
  | cons d s ih =>
    obtain ⟨front, last, hs, hconcat⟩ := ih
    rw [List.cons_append, pieces, pieces, hs, hconcat]
    split
    · exact ⟨[] :: front, last, rfl, rfl⟩
    · cases front with
      | nil => exact ⟨[], d :: last, rfl, rfl⟩
      | cons first front => exact ⟨(d :: first) :: front, last, rfl, rfl⟩

/-- A text of no cut goes to the last piece. -/
theorem exists_pieces_append {t : List Char} (h : ∀ c ∈ t, p c = false) (s : List Char) :
    ∃ front last, pieces p s = front ++ [last] ∧ pieces p (s ++ t) = front ++ [last ++ t] := by
  induction t generalizing s with
  | nil =>
    have hs := (List.dropLast_concat_getLast (pieces_ne_nil (p := p) s)).symm
    exact ⟨_, _, hs, by rw [List.append_nil, List.append_nil]; exact hs⟩
  | cons c t ih =>
    rw [List.forall_mem_cons] at h
    obtain ⟨front, last, hs, hc⟩ := exists_pieces_concat h.1 s
    obtain ⟨front', last', hconcat, happend⟩ := ih h.2 (s ++ [c])
    obtain ⟨rfl, hlast⟩ := List.append_inj' (hc.symm.trans hconcat) rfl
    cases hlast
    rw [List.append_assoc, List.append_assoc] at happend
    exact ⟨front, last, hs, happend⟩

theorem class_of_mem_pieces {s piece : List Char} (h : piece ∈ pieces p s) :
    ∀ c ∈ piece, p c = false := by
  induction s generalizing piece with
  | nil =>
    rw [List.mem_singleton.mp h]
    exact fun c hc => absurd hc List.not_mem_nil
  | cons d s ih =>
    rw [pieces] at h
    cases hd : p d with
    | true =>
      rw [hd, if_pos rfl] at h
      rcases List.mem_cons.mp h with rfl | h
      · exact fun c hc => absurd hc List.not_mem_nil
      · exact ih h
    | false =>
      rw [hd, if_neg Bool.false_ne_true] at h
      cases hpieces : pieces p s with
      | nil =>
        rw [hpieces] at h
        rw [List.mem_singleton.mp h]
        exact List.forall_mem_singleton.mpr hd
      | cons first more =>
        rw [hpieces] at h ih
        rcases List.mem_cons.mp h with rfl | h
        · exact List.forall_mem_cons.mpr ⟨hd, ih List.mem_cons_self⟩
        · exact ih (List.mem_cons_of_mem first h)

end pieces

/-! ## Words -/

/-- A text that is not empty and holds no blank. -/
def IsWord (w : String) : Prop := w.toList ≠ [] ∧ ∀ c ∈ w.toList, isBlank c = false

theorem isWord_of_mem_words {s w : String} (h : w ∈ words s) : IsWord w := by
  obtain ⟨piece, hpiece, rfl⟩ := List.mem_map.mp h
  obtain ⟨hmem, hne⟩ := List.mem_filter.mp hpiece
  rw [IsWord, String.toList_ofList]
  refine ⟨?_, class_of_mem_pieces hmem⟩
  rintro rfl
  cases hne

theorem wordChars_append_cons {c : Char} (h : isBlank c = true) (s rest : List Char) :
    wordChars (s ++ c :: rest) = wordChars s ++ wordChars rest := by
  rw [wordChars, pieces_append_cons h, List.filter_append, wordChars, wordChars]

/-- Texts with a space between them have the words of both. -/
theorem words_append (s t : String) : words (s ++ " " ++ t) = words s ++ words t := by
  have hchars : (s ++ " " ++ t).toList = s.toList ++ ' ' :: t.toList := by
    rw [String.toList_append, String.toList_append, List.append_assoc]
    rfl
  rw [words, hchars, wordChars_append_cons (by decide), List.map_append, words, words]

/-- Trimming drops blanks. -/
theorem exists_append_trimChars (s : List Char) : ∃ lead tail, s = lead ++ trimChars s ++ tail ∧
    (∀ c ∈ lead, isBlank c = true) ∧ ∀ c ∈ tail, isBlank c = true := by
  obtain ⟨tail, htail, hblank⟩ := exists_append_dropTail isBlank (s.dropWhile isBlank)
  refine ⟨s.takeWhile isBlank, tail, ?_, List.all_eq_true.mp List.all_takeWhile, hblank⟩
  rw [List.append_assoc, trimChars, ← htail, List.takeWhile_append_dropWhile]

theorem exists_mem_trim_iff {s : String} :
    (∃ c ∈ (trim s).toList, isBlank c = false) ↔ ∃ c ∈ s.toList, isBlank c = false := by
  obtain ⟨lead, tail, hs, hlead, htail⟩ := exists_append_trimChars s.toList
  have hkept : ∀ c ∈ s.toList, isBlank c = false → c ∈ trimChars s.toList := by
    intro c hc hblank
    rw [hs, List.mem_append, List.mem_append] at hc
    rcases hc with (hc | hc) | hc
    · exact absurd (hlead c hc) (Bool.eq_false_iff.mp hblank)
    · exact hc
    · exact absurd (htail c hc) (Bool.eq_false_iff.mp hblank)
  rw [trim, String.toList_ofList]
  constructor
  · rintro ⟨c, hc, hblank⟩
    refine ⟨c, ?_, hblank⟩
    rw [hs]
    exact List.mem_append_left _ (List.mem_append_right _ hc)
  · rintro ⟨c, hc, hblank⟩
    exact ⟨c, hkept c hc hblank, hblank⟩

/-- Something is left of a text just if it is not blank. -/
theorem isEmpty_trim_eq_false_iff {s : String} :
    (trim s).isEmpty = false ↔ ∃ c ∈ s.toList, isBlank c = false := by
  constructor
  · refine fun hne => Classical.byContradiction fun hnone => ?_
    simp only [not_exists, not_and, Bool.not_eq_false] at hnone
    have hempty : trimChars s.toList = [] := dropTail_eq_nil_iff.mpr fun c hc =>
      hnone c ((List.dropWhile_sublist isBlank).subset hc)
    rw [trim, hempty] at hne
    cases hne
  · intro h
    obtain ⟨c, hc, -⟩ := exists_mem_trim_iff.mpr h
    rw [Bool.eq_false_iff, ne_eq, String.isEmpty_iff]
    intro hempty
    rw [hempty] at hc
    exact List.not_mem_nil hc

/-- Blanks around a text make no difference to its words. -/
theorem words_trim (s : String) : words (trim s) = words s := by
  have hblank : ∀ lead rest : List Char, (∀ c ∈ lead, isBlank c = true) →
      wordChars (lead ++ rest) = wordChars rest := by
    intro lead rest hlead
    induction lead with
    | nil => rfl
    | cons c lead ih =>
      rw [List.forall_mem_cons] at hlead
      exact (wordChars_append_cons hlead.1 [] (lead ++ rest)).trans (ih hlead.2)
  obtain ⟨lead, tail, hs, hlead, htail⟩ := exists_append_trimChars s.toList
  have htrimmed : wordChars (trimChars s.toList ++ tail) = wordChars (trimChars s.toList) := by
    cases tail with
    | nil => rw [List.append_nil]
    | cons c tail =>
      rw [List.forall_mem_cons] at htail
      have hnothing : wordChars (tail ++ []) = [] := hblank tail [] htail.2
      rw [wordChars_append_cons htail.1, ← List.append_nil tail, hnothing, List.append_nil]
  have hchars : wordChars s.toList = wordChars (trimChars s.toList) := by
    rw [← htrimmed, ← hblank lead (trimChars s.toList ++ tail) hlead, ← List.append_assoc, ← hs]
  rw [words, words, trim, String.toList_ofList, hchars]

theorem words_join {ws : List String} (h : ∀ w ∈ ws, IsWord w) : words (join " " ws) = ws := by
  have hchars : wordChars (join " " ws).toList = ws.map String.toList := by
    unfold join
    induction ws with
    | nil => rw [String.intercalate_nil]; rfl
    | cons w ws ih =>
      obtain ⟨⟨hne, hw⟩, hws⟩ := List.forall_mem_cons.mp h
      have hkept : (!w.toList.isEmpty) = true := by
        rw [Bool.not_eq_true', List.isEmpty_eq_false_iff]
        exact hne
      cases ws with
      | nil =>
        rw [String.intercalate_singleton, wordChars, pieces_of_class hw, List.filter_cons, if_pos hkept]
        rfl
      | cons next ws =>
        have hsplit : (" ".intercalate (w :: next :: ws)).toList =
            w.toList ++ ' ' :: (" ".intercalate (next :: ws)).toList := by
          rw [String.intercalate_cons_cons, String.toList_append, String.toList_append,
            List.append_assoc]
          rfl
        rw [hsplit, wordChars, pieces_append hw (by decide), List.filter_cons, if_pos hkept,
          List.map_cons, ← ih hws]
        rfl
  rw [words, hchars, List.map_map]
  exact (List.map_congr_left fun w _ => String.ofList_toList).trans (List.map_id ws)

/-! ## Lines -/

theorem trimChars_cons {c : Char} (h : isBlank c = false) (s : List Char) :
    trimChars (c :: s) = c :: dropTail isBlank s := by
  rw [trimChars, List.dropWhile_cons_of_neg (Bool.not_eq_true _ ▸ h), dropTail]
  cases dropTail isBlank s with
  | nil => exact if_neg (Bool.not_eq_true _ ▸ h)
  | cons d kept => rfl

theorem trimChars_concat {c : Char} (h : isBlank c = true) (s : List Char) :
    trimChars (s ++ [c]) = trimChars s := by
  rw [trimChars, trimChars, List.dropWhile_append]
  cases hs : s.dropWhile isBlank with
  | nil =>
    rw [List.isEmpty_nil, if_pos rfl, List.dropWhile_cons_of_pos h]
    rfl
  | cons d kept => rw [List.isEmpty_cons, if_neg Bool.false_ne_true, dropTail_concat h]

/-- What a last character makes no difference to comes to the same without it. -/
theorem eq_of_dropLast? {α : Type} {f : List Char → α} {c : Char}
    (h : ∀ front, f (front ++ [c]) = f front) (s : List Char) : f (dropLast? c s) = f s := by
  rw [dropLast?]
  split
  · next hlast =>
    obtain ⟨front, rfl⟩ := List.getLast?_eq_some_iff.mp hlast
    rw [List.dropLast_concat, h]
  · rfl

theorem closeLines_append (xs : List (List Char)) {ys : List (List Char)} (h : ys ≠ []) :
    closeLines (xs ++ ys) = xs.map (dropLast? '\r') ++ closeLines ys := by
  induction xs with
  | nil => rfl
  | cons x xs ih =>
    obtain ⟨y, more, hxs⟩ := List.exists_cons_of_ne_nil (List.append_ne_nil_of_right_ne_nil xs h)
    rw [List.cons_append, hxs, closeLines, ← hxs, ih]
    · rfl
    · exact List.cons_ne_nil y more

/-- The lines of a text, without the blanks at their ends. -/
def trimmedLines (s : String) : List String := (lines s).map trim

theorem trimmedLines_eq (s : String) :
    trimmedLines s = ((lineChars s.toList).map trimChars).map String.ofList := by
  rw [trimmedLines, lines, List.map_map, List.map_map]
  refine List.map_congr_left fun line _ => ?_
  exact congrArg (fun s => String.ofList (trimChars s)) String.toList_ofList

/-- What stands in front of a line feed is lines, the last of them empty if the text before it ends
with one as well. -/
theorem map_trimChars_lineChars (s rest : List Char) :
    (lineChars (s ++ '\n' :: rest)).map trimChars =
      (pieces (· == '\n') s).map trimChars ++ (lineChars rest).map trimChars := by
  rw [lineChars, pieces_append_cons (p := (· == '\n')) rfl, closeLines_append _ (pieces_ne_nil rest),
    List.map_append, List.map_map]
  refine congrArg (· ++ (lineChars rest).map trimChars) (List.map_congr_left fun piece _ => ?_)
  exact eq_of_dropLast? (trimChars_concat (by decide)) piece

theorem map_trimChars_pieces_of_open {c : Char} (hc : (c == '\n') = false) (s : List Char) :
    (pieces (· == '\n') (s ++ [c])).map trimChars = (lineChars (s ++ [c])).map trimChars := by
  obtain ⟨front, last, -, hpieces⟩ := exists_pieces_concat (p := (· == '\n')) hc s
  have hlines : lineChars (s ++ [c]) = front.map (dropLast? '\r') ++ [last ++ [c]] := by
    rw [lineChars, hpieces, closeLines_append _ (List.cons_ne_nil _ _)]
    cases last <;> rfl
  rw [hlines, hpieces, List.map_append, List.map_append, List.map_map]
  refine congrArg (· ++ [trimChars (last ++ [c])]) (List.map_congr_left fun piece _ => ?_)
  exact (eq_of_dropLast? (trimChars_concat (by decide)) piece).symm

def endLastLine (s : String) : String :=
  if s.toList.getLast?.all (· == '\n') then s else s ++ "\n"

theorem map_trimChars_pieces_endLastLine (s : String) :
    (pieces (· == '\n') (endLastLine s).toList).map trimChars =
      (lineChars s.toList).map trimChars ++ [[]] := by
  rw [endLastLine]
  cases hlast : s.toList.getLast? with
  | none =>
    rw [Option.all_none, if_pos rfl, List.getLast?_eq_none_iff.mp hlast]
    rfl
  | some c =>
    obtain ⟨front, hs⟩ := List.getLast?_eq_some_iff.mp hlast
    rw [Option.all_some]
    cases hc : c == '\n' with
    | true =>
      cases eq_of_beq hc
      rw [if_pos rfl, hs, map_trimChars_lineChars, pieces_append_cons (p := (· == '\n')) rfl,
        List.map_append]
      exact congrArg (· ++ [[]]) (List.append_nil _).symm
    | false =>
      have hended : (s ++ "\n").toList = s.toList ++ ['\n'] := String.toList_append
      rw [if_neg Bool.false_ne_true, hended, hs, pieces_append_cons (p := (· == '\n')) rfl,
        List.map_append, map_trimChars_pieces_of_open hc]
      rfl

theorem trimmedLines_append (s rest : String) :
    trimmedLines (endLastLine s ++ "\n" ++ rest) = trimmedLines s ++ "" :: trimmedLines rest := by
  have hchars : (endLastLine s ++ "\n" ++ rest).toList =
      (endLastLine s).toList ++ '\n' :: rest.toList := by
    rw [String.toList_append, String.toList_append, List.append_assoc]
    rfl
  rw [trimmedLines_eq, hchars, map_trimChars_lineChars, map_trimChars_pieces_endLastLine,
    List.append_assoc, List.map_append, trimmedLines_eq, trimmedLines_eq]
  rfl

/-- Texts in order, an empty line between each two. -/
def joinWithEmptyLines : List String → String
  | [] => ""
  | [s] => s
  | s :: more => endLastLine s ++ "\n" ++ joinWithEmptyLines more

/-! ## Lines that are not blank -/

theorem isEmpty_trimEnd_iff {s : String} :
    (trimEnd s).isEmpty = true ↔ ∀ c ∈ s.toList, isBlank c = true := by
  rw [String.isEmpty_iff, trimEnd, String.ofList_eq_empty_iff, dropTail_eq_nil_iff]

/-- The lines of a text that are not blank, without the blanks at their ends. -/
def filledLines (s : String) : List String := ((lines s).map trimEnd).filter (!·.isEmpty)

/-- A last line that is missing is no filled one. -/
theorem filter_dropTail_closeLines (ps : List (List Char)) :
    ((closeLines ps).map (dropTail isBlank)).filter (!·.isEmpty) =
      (ps.map (dropTail isBlank)).filter (!·.isEmpty) := by
  fun_induction closeLines ps with
  | case1 => rfl
  | case2 last hempty => rw [List.isEmpty_iff.mp hempty]; rfl
  | case3 last hempty => rfl
  | case4 piece more hmore ih =>
    have hlast : dropTail isBlank (dropLast? '\r' piece) = dropTail isBlank piece :=
      eq_of_dropLast? (dropTail_concat (by decide)) piece
    rw [List.map_cons, List.map_cons, List.filter_cons, List.filter_cons, ih, hlast]

theorem filledLines_eq (s : String) :
    filledLines s = (((pieces (· == '\n') s.toList).map (dropTail isBlank)).filter
      (!·.isEmpty)).map String.ofList := by
  have htrim : (lines s).map trimEnd =
      ((lineChars s.toList).map (dropTail isBlank)).map String.ofList := by
    rw [lines, List.map_map, List.map_map]
    exact List.map_congr_left fun line _ =>
      congrArg (fun s => String.ofList (dropTail isBlank s)) String.toList_ofList
  have hempty : ((!·.isEmpty) ∘ String.ofList) = (!List.isEmpty ·) := by
    funext chars
    cases chars <;> simp
  rw [filledLines, htrim, List.filter_map, hempty, lineChars, filter_dropTail_closeLines]

theorem filledLines_append (s t : String) :
    filledLines (s ++ "\n" ++ t) = filledLines s ++ filledLines t := by
  have hchars : (s ++ "\n" ++ t).toList = s.toList ++ '\n' :: t.toList := by
    rw [String.toList_append, String.toList_append, List.append_assoc]
    rfl
  rw [filledLines_eq, hchars, pieces_append_cons (p := (· == '\n')) rfl, List.map_append,
    List.filter_append, List.map_append, filledLines_eq, filledLines_eq]

/-- A text of one line. -/
theorem filledLines_of_line {s : String} (h : '\n' ∉ s.toList) :
    filledLines s = if (trimEnd s).isEmpty then [] else [trimEnd s] := by
  rw [filledLines_eq, pieces_of_class (beq_of_not_mem h), trimEnd, List.map_singleton]
  cases dropTail isBlank s.toList <;> simp

end PackageCatalog.Text
