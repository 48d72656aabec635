import Mathlib.Data.List.Permutation
import PackageCatalog.Settings

/-!
# Where a value ends

Two scans go over the text of a value. Counting takes every quote character for a quote and decides
at which line the value ends (`hasOpenQuote`). Unquoting passes over some characters unread: what a
backslash protects, the name behind a dollar sign, a comment (`passedOver`). Where nothing that is
passed over shifts the count, both come to the same state (`snd_unquoteFrom`), and the value ends at
the first line at which unquoting is outside quotes (`ends_where_quotes_close`). A lone quote behind
a backslash or in a comment does shift it (`escaped_quote_counts`).
-/

namespace PackageCatalog.Settings

variable {settings : Settings} {quote : Quote} {out s raw : List Char}

/-! ## The state after a text -/

/-- The state after a text in which every quote character counts. -/
def Quote.after (quote : Quote) (s : List Char) : Quote := s.foldl Quote.toggle quote

def endsInQuotes (settings : Settings) (raw : List Char) : Bool :=
  (unquoteFrom settings .outside [] raw).2 != .outside

/-- What unquoting passes over without looking for quotes, each part with the state in which it
stands. -/
def passedOver (settings : Settings) (quote : Quote) (out : List Char) :
    List Char → List (Quote × List Char)
  | [] => []
  | c :: rest =>
    if quote.toggle c != quote then passedOver settings (quote.toggle c) out rest
    else if quote == .single then passedOver settings quote (c :: out) rest
    else if c == '\\' then
      match rest with
      | [] => []
      | next :: after =>
        (quote, [next]) ::
          passedOver settings quote (if next == '\n' then out else next :: out) after
    else if c == '$' then
      have := length_takeName_le rest
      (quote, rest.take (rest.length - (takeName rest).2.length)) ::
        passedOver settings quote ((expansion settings (takeName rest).1).reverse ++ out)
          (takeName rest).2
    else if c == '#' && quote == .outside && out.head?.all Text.isBlank then [(quote, rest)]
    else passedOver settings quote (c :: out) rest
termination_by s => s.length
decreasing_by all_goals (simp_wf <;> omega)

/-- Whether nothing that unquoting passes over shifts the count of quotes. -/
def isUndisturbed (settings : Settings) (raw : List Char) : Bool :=
  (passedOver settings .outside [] raw).all fun part => part.1.after part.2 == part.1

theorem Quote.after_cons (quote : Quote) (c : Char) (s : List Char) :
    quote.after (c :: s) = (quote.toggle c).after s := rfl

theorem Quote.after_append (quote : Quote) (s t : List Char) :
    quote.after (s ++ t) = (quote.after s).after t :=
  List.foldl_append

theorem takeName_suffix (s : List Char) : (takeName s).2 <:+ s := by
  unfold takeName
  split
  · next rest =>
    exact ((List.drop_suffix 1 _).trans (List.dropWhile_suffix _)).trans (List.suffix_cons _ rest)
  · exact List.dropWhile_suffix _

/-- A name is what is taken off in front of the rest. -/
theorem take_append_takeName (s : List Char) :
    s.take (s.length - (takeName s).2.length) ++ (takeName s).2 = s := by
  have hrest := List.suffix_iff_eq_drop.mp (takeName_suffix s)
  exact (congrArg (_ ++ ·) hrest).trans (List.take_append_drop _ s)

theorem Quote.after_cons_of_not_toggle {c : Char} (h : ¬ (quote.toggle c != quote) = true) :
    quote.after (c :: s) = quote.after s := by
  rw [bne_iff_ne, Decidable.not_not] at h
  rw [Quote.after_cons, h]

/-- Where nothing that is passed over shifts the count, unquoting and counting come to the same
state. -/
theorem snd_unquoteFrom
    (h : ∀ part ∈ passedOver settings quote out s, part.1.after part.2 = part.1) :
    (unquoteFrom settings quote out s).2 = quote.after s := by
  fun_induction unquoteFrom settings quote out s with
  | case1 quote out => rfl
  | case2 quote out c rest hquote ih =>
    unfold passedOver at h
    rw [if_pos hquote] at h
    exact ih h
  | case3 quote out c rest hstay hsingle ih =>
    unfold passedOver at h
    rw [if_neg hstay, if_pos hsingle] at h
    rw [ih h, Quote.after_cons_of_not_toggle hstay]
  | case4 quote out c hstay => exact (Quote.after_cons_of_not_toggle (s := []) hstay).symm
  | case5 quote out c hstay hsingle hslash next after ih =>
    unfold passedOver at h
    rw [if_neg hstay, if_neg hsingle, if_pos hslash, List.forall_mem_cons] at h
    rw [Quote.after_cons_of_not_toggle hstay]
    exact (ih h.2).trans (congrArg (Quote.after · after) h.1.symm)
  | case6 quote out c rest hstay hsingle hslash hdollar _ ih =>
    unfold passedOver at h
    rw [if_neg hstay, if_neg hsingle, if_neg hslash, if_pos hdollar, List.forall_mem_cons] at h
    have hname : quote.after rest = quote.after (takeName rest).2 := by
      have happend := congrArg quote.after (take_append_takeName rest)
      rw [Quote.after_append, h.1] at happend
      exact happend.symm
    rw [ih h.2, Quote.after_cons_of_not_toggle hstay, hname]
  | case7 quote out c rest hstay hsingle hslash hdollar hcomment =>
    unfold passedOver at h
    rw [if_neg hstay, if_neg hsingle, if_neg hslash, if_neg hdollar, if_pos hcomment,
      List.forall_mem_singleton] at h
    rw [Quote.after_cons_of_not_toggle hstay]
    exact h.symm
  | case8 quote out c rest hstay hsingle hslash hdollar hcomment ih =>
    unfold passedOver at h
    rw [if_neg hstay, if_neg hsingle, if_neg hslash, if_neg hdollar, if_neg hcomment] at h
    rw [ih h, Quote.after_cons_of_not_toggle hstay]

theorem hasOpenQuote_eq_endsInQuotes (h : isUndisturbed settings raw = true) :
    hasOpenQuote raw = endsInQuotes settings raw := by
  have hparts : ∀ part ∈ passedOver settings .outside [] raw, part.1.after part.2 = part.1 :=
    fun part hpart => eq_of_beq (List.all_eq_true.mp h part hpart)
  rw [endsInQuotes, snd_unquoteFrom hparts]
  rfl

/-! ## The lines of a value -/

def continued (raw : List Char) (lines : List String) : List Char :=
  raw ++ lines.flatMap fun line => '\n' :: line.toList

/-- The value that starts with `raw` on `line` ends at the first of the further lines at which it
is not open, and is refused if there is none, so far as each text up to there is `plain`. -/
structure EndsWhereClosed (plain isOpen : List Char → Bool) (name : String) (raw : List Char)
    (line : String) (lines : List String) : Prop where
  ends : ∀ n ≤ lines.length, (∀ m ≤ n, plain (continued raw (lines.take m)) = true) →
    (∀ m < n, isOpen (continued raw (lines.take m)) = true) →
    isOpen (continued raw (lines.take n)) = false →
    assignments none (line :: lines) =
      (assignments none (lines.drop n)).map ((name, continued raw (lines.take n)) :: ·)
  refused : (∀ n ≤ lines.length, plain (continued raw (lines.take n)) = true) →
    (∀ n ≤ lines.length, isOpen (continued raw (lines.take n)) = true) →
    assignments none (line :: lines) = .error (.openQuote name)

variable {name line : String} {lines : List String}

theorem continued_cons (raw : List Char) (line : String) (lines : List String) :
    continued raw (line :: lines) = continued (raw ++ '\n' :: line.toList) lines :=
  (List.append_assoc raw ('\n' :: line.toList) _).symm

theorem continued_nil (raw : List Char) : continued raw [] = raw := List.append_nil raw

/-- What the further lines are read to once the value is read so far. -/
def resume (name : String) (raw : List Char) (lines : List String) :
    Except ConfigFault (List (String × List Char)) :=
  if hasOpenQuote raw then assignments (some (name, raw)) lines
  else (assignments none lines).map ((name, raw) :: ·)

theorem assignments_cons (h : takeLine none line = .ok (some (name, raw))) :
    assignments none (line :: lines) = resume name raw lines := by
  rw [assignments, h]
  rfl

theorem resume_cons (h : hasOpenQuote raw = true) :
    resume name raw (line :: lines) = resume name (raw ++ '\n' :: line.toList) lines := by
  rw [resume, if_pos h]
  rfl

theorem resume_of_closed {n : Nat} (hn : n ≤ lines.length)
    (hopen : ∀ m < n, hasOpenQuote (continued raw (lines.take m)) = true)
    (hclosed : hasOpenQuote (continued raw (lines.take n)) = false) :
    resume name raw lines =
      (assignments none (lines.drop n)).map ((name, continued raw (lines.take n)) :: ·) := by
  induction n generalizing raw lines with
  | zero =>
    rw [List.take_zero, continued_nil] at hclosed ⊢
    rw [resume, if_neg (Bool.not_eq_true _ ▸ hclosed), List.drop_zero]
  | succ n ih =>
    cases lines with
    | nil => cases hn
    | cons line lines =>
      have hraw : hasOpenQuote raw = true := by
        have hzero := hopen 0 (Nat.succ_pos n)
        rwa [List.take_zero, continued_nil] at hzero
      rw [List.take_succ_cons, continued_cons] at hclosed ⊢
      rw [resume_cons hraw, List.drop_succ_cons]
      refine ih (Nat.le_of_succ_le_succ hn) (fun m hm => ?_) hclosed
      have hlater := hopen (m + 1) (Nat.succ_lt_succ hm)
      rwa [List.take_succ_cons, continued_cons] at hlater

theorem resume_of_open (h : ∀ n ≤ lines.length, hasOpenQuote (continued raw (lines.take n)) = true) :
    resume name raw lines = .error (.openQuote name) := by
  have hraw : hasOpenQuote raw = true := by
    have hzero := h 0 (Nat.zero_le _)
    rwa [List.take_zero, continued_nil] at hzero
  induction lines generalizing raw with
  | nil => rw [resume, if_pos hraw]; rfl
  | cons line lines ih =>
    have hrest : ∀ n ≤ lines.length,
        hasOpenQuote (continued (raw ++ '\n' :: line.toList) (lines.take n)) = true := by
      intro n hn
      have hlater := h (n + 1) (Nat.succ_le_succ hn)
      rwa [List.take_succ_cons, continued_cons] at hlater
    rw [resume_cons hraw]
    refine ih hrest ?_
    have hzero := hrest 0 (Nat.zero_le _)
    rwa [List.take_zero, continued_nil] at hzero

theorem EndsWhereClosed.of_plain {isOpen isOpen' plain : List Char → Bool}
    (h : EndsWhereClosed (fun _ => true) isOpen name raw line lines)
    (hsame : ∀ s, plain s = true → isOpen s = isOpen' s) :
    EndsWhereClosed plain isOpen' name raw line lines where
  ends n hn hplain hopen hclosed :=
    h.ends n hn (fun _ _ => rfl)
      (fun m hm => (hsame _ (hplain m (Nat.le_of_lt hm))).trans (hopen m hm))
      ((hsame _ (hplain n (Nat.le_refl n))).trans hclosed)
  refused hplain hopen :=
    h.refused (fun _ _ => rfl) fun n hn => (hsame _ (hplain n hn)).trans (hopen n hn)

/-- A value ends at the first line at which, all quote characters counted, no quote is open. If
nothing that unquoting passes over shifts the count, a quote is open just when unquoting ends within
quotes, so the value ends at the first line at which unquoting is outside quotes. -/
theorem ends_where_quotes_close (h : takeLine none line = .ok (some (name, raw)))
    (lines : List String) :
    EndsWhereClosed (fun _ => true) hasOpenQuote name raw line lines ∧
    (∀ settings s, isUndisturbed settings s = true →
      (hasOpenQuote s = true ↔ endsInQuotes settings s = true)) ∧
    ∀ settings,
      EndsWhereClosed (isUndisturbed settings) (endsInQuotes settings) name raw line lines := by
  have hcounted : EndsWhereClosed (fun _ => true) hasOpenQuote name raw line lines :=
    { ends := fun n hn _ hopen hclosed =>
        (assignments_cons h).trans (resume_of_closed hn hopen hclosed)
      refused := fun _ hopen => (assignments_cons h).trans (resume_of_open hopen) }
  refine ⟨hcounted, fun settings s hs => ?_, fun settings => ?_⟩
  · rw [hasOpenQuote_eq_endsInQuotes hs]
  · exact hcounted.of_plain fun s hs => hasOpenQuote_eq_endsInQuotes hs

/-- A value over two lines, the second of which ends in a comment with quotes; the quote behind a
backslash further down is not part of it. -/
def remarkLines : List String := ["it's\" # \"two\"", "B=\"\\\"\""]

theorem undisturbed_remark : ∀ n ≤ 1,
    isUndisturbed [] (continued "\"one".toList (remarkLines.take n)) = true := by
  intro n hn
  rcases Nat.le_one_iff_eq_zero_or_eq_one.mp hn with rfl | rfl
  · decide +kernel
  · decide +kernel

theorem ends_behind_remark :
    takeLine none "A=\"one" = .ok (some ("A", "\"one".toList)) ∧
    assignments none ("A=\"one" :: remarkLines) =
      (assignments none (remarkLines.drop 1)).map
        (("A", continued "\"one".toList ["it's\" # \"two\""]) :: ·) := by
  have hline : takeLine none "A=\"one" = .ok (some ("A", "\"one".toList)) := rfl
  have hcloses := (ends_where_quotes_close hline remarkLines).2.2 []
  refine ⟨hline, hcloses.ends 1 (by decide) undisturbed_remark (fun m hm => ?_) (by decide +kernel)⟩
  rw [Nat.lt_one_iff.mp hm]
  decide +kernel

/-- A quote behind a backslash or in a comment keeps the value open, although unquoting ends
outside quotes: the rest of the file is taken for the value, and the file is refused. -/
theorem escaped_quote_counts :
    (hasOpenQuote "\"x\\\"y\"".toList = true ∧ endsInQuotes [] "\"x\\\"y\"".toList = false) ∧
    (hasOpenQuote "b # it's".toList = true ∧ endsInQuotes [] "b # it's".toList = false) ∧
    applyText (fun _ => false) [] ⟨"make.defaults"⟩ "A=\"x\\\"y\"\nB=c" =
      .error (.badConfig "make.defaults" (.openQuote "A")) ∧
    applyText (fun _ => false) [] ⟨"make.defaults"⟩ "A=b # it's\nB=c" =
      .error (.badConfig "make.defaults" (.openQuote "A")) :=
  ⟨⟨by decide, by decide +kernel⟩, ⟨by decide, by decide +kernel⟩, rfl, rfl⟩

end PackageCatalog.Settings
