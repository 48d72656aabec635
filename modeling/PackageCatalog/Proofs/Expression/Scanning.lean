import PackageCatalog.Proofs.Expression.Tokens
import PackageCatalog.Proofs.Name

/-!
# Scanning a spaced text

A text is `Spaced` over tokens that it holds in order with spacing between each two; the text of
a tree is spaced over the tokens of the tree (`spaced_childrenChars`). Openings and closing
brackets are taken from their own texts whatever follows them (`take?_opens`, `take?_closes`);
what a token that was taken can be, and what text it came from, is said by `take?_cases`.
-/

namespace PackageCatalog.Expression

open Text

variable {α : Type} {format : LeafFormat α}

/-! ## Spacing -/

def IsGap (s : List Char) : Prop := ∀ c ∈ s, isSpacing c = true

/-- At its end or in front of spacing: what precedes the text does not go on in it. -/
def Parted (s : List Char) : Prop := ∀ c ∈ s.head?, isSpacing c = true

theorem isGap_nil : IsGap [] := fun _ h => absurd h List.not_mem_nil

theorem parted_nil : Parted [] := fun _ h => nomatch h

theorem parted_space (s : List Char) : Parted (' ' :: s) := by
  intro c h
  cases h
  decide

theorem Parted.append {s rest : List Char} (h : Parted s) (hrest : Parted rest) :
    Parted (s ++ rest) := by
  cases s with
  | nil => exact hrest
  | cons c s => exact h

theorem exists_gap (s : List Char) : ∃ gap, IsGap gap ∧ s = gap ++ dropSpacing s :=
  ⟨s.takeWhile isSpacing, fun _ => of_mem_takeWhile, List.takeWhile_append_dropWhile.symm⟩

theorem dropSpacing_gap_append {gap s : List Char} (hgap : IsGap gap)
    (hs : ∀ c ∈ s.head?, isSpacing c = false) : dropSpacing (gap ++ s) = s :=
  dropWhile_run hgap hs

theorem dropSpacing_gap {gap : List Char} (hgap : IsGap gap) : dropSpacing gap = [] := by
  have hdrop := dropSpacing_gap_append (s := []) hgap fun _ h => nomatch h
  rwa [List.append_nil] at hdrop

theorem nonBlanks_dropSpacing (s : List Char) : nonBlanks (dropSpacing s) = nonBlanks s := by
  obtain ⟨gap, hgap, hs⟩ := exists_gap s
  rw [congrArg nonBlanks hs, nonBlanks_append, nonBlanks_eq_nil hgap, List.nil_append]

theorem takeOpen?_eq_some_iff {s rest : List Char} :
    takeOpen? s = some rest ↔ dropSpacing s = '(' :: rest := by
  unfold takeOpen?
  split
  · next heq => rw [heq, Option.some.injEq, List.cons.injEq, and_iff_right rfl]
  · next hne => exact iff_of_false (fun h => nomatch h) fun h => hne _ h

theorem takeOpen?_space (rest : List Char) : takeOpen? (' ' :: '(' :: rest) = some rest := by
  rw [takeOpen?_eq_some_iff]
  have hspace : IsGap [' '] := List.forall_mem_singleton.mpr (by decide)
  exact dropSpacing_gap_append (s := '(' :: rest) hspace (by rintro c ⟨⟩; decide)

/-! ## The texts of tokens -/

/-- What stands in front of the bracket of an opening. -/
def Opening.lead : Opening → List Char
  | all => []
  | any => ['|', '|']
  | when flag negated => (if negated then ['!'] else []) ++ flag.text.toList ++ ['?']

def Opening.chars : Opening → List Char
  | all => ['(']
  | any => any.lead ++ [' ', '(']
  | when flag negated => (when flag negated).lead ++ [' ', '(']

def Token.chars (format : LeafFormat α) : Token α → List Char
  | leaf a => format.chars a
  | opens o => o.chars
  | closes => [')']

theorem nonBlanks_chars (o : Opening) : nonBlanks o.chars = nonBlanks o.lead ++ ['('] := by
  cases o with
  | all => rfl
  | any => rfl
  | when flag negated =>
    rw [Opening.chars, nonBlanks_append]
    rfl

/-- A conditional opening starts with a mark or with a letter or digit. -/
theorem exists_lead_when (flag : UseFlag) (negated : Bool) :
    ∃ c rest, (Opening.when flag negated).lead = c :: rest ∧
      (c = '!' ∨ isAlphanumeric c = true) := by
  obtain ⟨c, rest, hchars, hc⟩ := flag.exists_cons_of_useFlag
  cases negated with
  | true => exact ⟨'!', _, rfl, .inl rfl⟩
  | false => exact ⟨c, rest ++ ['?'], by rw [Opening.lead, hchars]; rfl, .inr hc⟩

/-! ## Taking a token -/

/-- The marks that decide what token a text starts with. -/
def isMark (c : Char) : Bool := c == '(' || c == ')' || c == '|'

theorem isMark_of_isAlphanumeric {c : Char} (h : isAlphanumeric c = true) : isMark c = false := by
  simp only [isMark, Bool.or_eq_false_iff, beq_eq_false_iff_ne]
  exact ⟨⟨ne_of_class h (by decide), ne_of_class h (by decide)⟩, ne_of_class h (by decide)⟩

/-- A condition in front of its bracket is taken whatever precedes the bracket. -/
theorem takeCondition?_lead (flag : UseFlag) (negated : Bool) (rest : List Char) :
    takeCondition? ((Opening.when flag negated).lead ++ rest) = some (flag, negated, rest) := by
  have hnegation : takeNegation ((Opening.when flag negated).lead ++ rest) =
      (negated, flag.text.toList ++ '?' :: rest) := by
    obtain ⟨c, more, hchars, hc⟩ := flag.exists_cons_of_useFlag
    rw [Opening.lead, List.append_assoc, List.append_assoc]
    cases negated with
    | true => rfl
    | false =>
      rw [hchars]
      unfold takeNegation
      split
      · next heq =>
        cases heq
        exact absurd hc (by decide)
      · rfl
  have hflag : Name.ofText? .useFlag (String.ofList flag.text.toList) = some flag := by
    rw [String.ofList_toList, Name.ofText?_eq_some_iff]
  have hhead : ∀ c ∈ ('?' :: rest).head?, NameKind.isUseFlagChar c = false := by
    rintro c ⟨⟩
    decide
  simp only [takeCondition?, hnegation]
  rw [dropWhile_run flag.isUseFlagChar_of_useFlag hhead,
    takeWhile_run flag.isUseFlagChar_of_useFlag hhead, hflag]
  rfl

namespace Token

theorem take?_of_not_mark {s : List Char} (h : ∀ c ∈ s.head?, isMark c = false) :
    take? format s = match takeCondition? s with
      | some (flag, negated, after) =>
        (takeOpen? after).map fun r => (opens (.when flag negated), r)
      | none => (format.take? s).map fun (a, r) => (leaf a, r) := by
  unfold take?
  split
  · exact absurd (h _ rfl) (by decide)
  · exact absurd (h _ rfl) (by decide)
  · exact absurd (h _ rfl) (by decide)
  · rfl

theorem take?_closes (rest : List Char) : take? format (closes.chars format ++ rest) =
    some (closes, rest) := rfl

theorem take?_opens {o : Opening} (h : o = .any → format.allowsAny = true) (rest : List Char) :
    take? format ((opens o).chars format ++ rest) = some (opens o, rest) := by
  cases o with
  | all => rfl
  | any =>
    have hany : take? format ('|' :: '|' :: ' ' :: '(' :: rest) =
        if format.allowsAny then (takeOpen? (' ' :: '(' :: rest)).map fun r => (opens .any, r)
        else none := rfl
    exact hany.trans (by rw [if_pos (h rfl), takeOpen?_space]; rfl)
  | when flag negated =>
    have hhead : ∀ c ∈ ((opens (.when flag negated)).chars format ++ rest).head?,
        isMark c = false := by
      obtain ⟨c, more, hlead, hc⟩ := exists_lead_when flag negated
      rw [chars, Opening.chars, hlead]
      rintro d ⟨⟩
      rcases hc with rfl | hc
      · decide
      · exact isMark_of_isAlphanumeric hc
    rw [take?_of_not_mark hhead, chars, Opening.chars, List.append_assoc, takeCondition?_lead]
    exact congrArg (Option.map _) (takeOpen?_space rest)

/-- The leaf is read in front of the rest, and nothing else is recognised there. -/
structure LeafAt (format : LeafFormat α) (s : List Char) (a : α) (rest : List Char) : Prop where
  notMark : ∀ c ∈ s.head?, isMark c = false
  notCondition : takeCondition? s = none
  taken : format.take? s = some (a, rest)

theorem LeafAt.take? {s rest : List Char} {a : α} (h : LeafAt format s a rest) :
    take? format s = some (leaf a, rest) := by
  rw [take?_of_not_mark h.notMark, h.notCondition, h.taken]
  rfl

end Token

theorem takeCondition?_eq_some {s rest : List Char} {flag : UseFlag} {negated : Bool}
    (h : takeCondition? s = some (flag, negated, rest)) :
    s = (Opening.when flag negated).lead ++ rest := by
  have hsplit : s = (if (takeNegation s).1 then ['!'] else []) ++ (takeNegation s).2 := by
    unfold takeNegation
    split <;> rfl
  simp only [takeCondition?] at h
  split at h
  · next after heq =>
    simp only [Option.map_eq_some_iff, Prod.mk.injEq] at h
    obtain ⟨flag', hflag, rfl, rfl, rfl⟩ := h
    have htext := congrArg String.toList (Name.ofText?_eq_some_iff.mp hflag)
    rw [String.toList_ofList] at htext
    have hrun : (takeNegation s).2 = flag'.text.toList ++ '?' :: after := by
      rw [← htext, ← heq]
      exact List.takeWhile_append_dropWhile.symm
    rw [hrun] at hsplit
    rw [Opening.lead, List.append_assoc, List.append_assoc]
    exact hsplit
  · cases h

namespace Token

/-- What a token was taken from: a closing bracket; what opens a group, with any spacing in
front of the bracket; or a leaf. -/
theorem take?_cases {s rest : List Char} {t : Token α} (h : take? format s = some (t, rest)) :
    (t = closes ∧ s = ')' :: rest) ∨
    (∃ o gap, t = opens o ∧ (o = .any → format.allowsAny = true) ∧ IsGap gap ∧
      (o = .all → gap = []) ∧ s = o.lead ++ gap ++ '(' :: rest) ∨
    ∃ a, t = leaf a ∧ LeafAt format s a rest := by
  unfold take? at h
  split at h
  · next after =>
    cases h
    exact .inr (.inl ⟨.all, [], rfl, (nomatch ·), isGap_nil, fun _ => rfl, rfl⟩)
  · cases h
    exact .inl ⟨rfl, rfl⟩
  · split at h
    · next after =>
      split at h
      · next hallows =>
        obtain ⟨r, hopen, heq⟩ := Option.map_eq_some_iff.mp h
        cases heq
        obtain ⟨gap, hgap, hafter⟩ := exists_gap after
        rw [takeOpen?_eq_some_iff.mp hopen] at hafter
        exact .inr (.inl ⟨.any, gap, rfl, fun _ => hallows, hgap, (nomatch ·), by rw [hafter]; rfl⟩)
      · cases h
    · cases h
  · next hparen hclose hbar =>
    have hmark : ∀ c ∈ s.head?, isMark c = false := by
      intro c hc
      obtain ⟨tail, rfl⟩ := List.head?_eq_some_iff.mp hc
      simp only [isMark, Bool.or_eq_false_iff, beq_eq_false_iff_ne]
      exact ⟨⟨fun h => hparen tail (by rw [h]), fun h => hclose tail (by rw [h])⟩,
        fun h => hbar tail (by rw [h])⟩
    split at h
    · next flag negated after hcondition =>
      obtain ⟨r, hopen, heq⟩ := Option.map_eq_some_iff.mp h
      cases heq
      obtain ⟨gap, hgap, hafter⟩ := exists_gap after
      rw [takeOpen?_eq_some_iff.mp hopen] at hafter
      refine .inr (.inl ⟨.when flag negated, gap, rfl, (nomatch ·), hgap, (nomatch ·), ?_⟩)
      rw [takeCondition?_eq_some hcondition, hafter, List.append_assoc]
    · next hcondition =>
      obtain ⟨⟨a, r⟩, htaken, heq⟩ := Option.map_eq_some_iff.mp h
      cases heq
      exact .inr (.inr ⟨a, rfl, hmark, hcondition, htaken⟩)

/-! ## Scanning -/

theorem scan?_of_gap {gap : List Char} (h : IsGap gap) : scan? format gap = some [] := by
  unfold scan?
  split
  · rfl
  · next heq =>
    rw [dropSpacing_gap h] at heq
    cases heq

/-- Spacing in front of a token does not matter. -/
theorem scan?_of_take? {gap s rest : List Char} {t : Token α} (hgap : IsGap gap)
    (hs : ∀ c ∈ s.head?, isSpacing c = false) (h : take? format s = some (t, rest)) :
    scan? format (gap ++ s) = (scan? format rest).map (t :: ·) := by
  have hdrop := dropSpacing_gap_append hgap hs
  rw [scan?]
  split
  · next heq =>
    rw [hdrop] at heq
    rw [heq] at h
    exact absurd (length_of_take? h) (Nat.not_lt_zero _)
  · next c tail heq =>
    rw [hdrop] at heq
    subst heq
    split
    · next htaken =>
      rw [h] at htaken
      cases htaken
      rfl
    · next hnone =>
      rw [h] at hnone
      cases hnone

theorem scan?_eq_some_nil {s : List Char} (h : scan? format s = some []) : dropSpacing s = [] := by
  rw [scan?] at h
  split at h
  · next heq => exact heq
  · split at h
    · obtain ⟨ts, -, heq⟩ := Option.map_eq_some_iff.mp h
      cases heq
    · cases h

theorem scan?_eq_some_cons {s : List Char} {t : Token α} {ts : List (Token α)}
    (h : scan? format s = some (t :: ts)) :
    ∃ rest, take? format (dropSpacing s) = some (t, rest) ∧ scan? format rest = some ts := by
  rw [scan?] at h
  split at h
  · cases h
  · next heq =>
    split at h
    · next rest htaken =>
      obtain ⟨ts', hrest, hcons⟩ := Option.map_eq_some_iff.mp h
      cases hcons
      exact ⟨rest, by rw [heq]; exact htaken, hrest⟩
    · cases h

/-- Every leaf among the tokens of a text was taken in it. -/
theorem exists_take?_of_mem_scan? {s : List Char} {ts : List (Token α)}
    (h : scan? format s = some ts) {a : α} (ha : leaf a ∈ ts) :
    ∃ s' rest, format.take? s' = some (a, rest) := by
  induction ts generalizing s with
  | nil => exact absurd ha List.not_mem_nil
  | cons t ts ih =>
    obtain ⟨rest, htaken, hrest⟩ := scan?_eq_some_cons h
    rcases List.mem_cons.mp ha with rfl | ha
    · rcases take?_cases htaken with ⟨heq, -⟩ | ⟨o, gap, heq, -⟩ | ⟨b, heq, hleaf⟩
      · cases heq
      · cases heq
      · cases heq
        exact ⟨_, rest, hleaf.taken⟩
    · exact ih hrest ha

end Token

/-! ## Spaced texts -/

/-- The text holds the tokens in order, with spacing between each two. -/
inductive Spaced (format : LeafFormat α) : List (Token α) → List Char → Prop
  | nil {gap : List Char} : IsGap gap → Spaced format [] gap
  | cons {gap rest : List Char} {t : Token α} {ts : List (Token α)} :
      IsGap gap → Parted rest → Spaced format ts rest →
      Spaced format (t :: ts) (gap ++ (t.chars format ++ rest))

theorem Spaced.space {ts : List (Token α)} {s : List Char} (h : Spaced format ts s) :
    Spaced format ts (' ' :: s) := by
  cases h with
  | nil hgap => exact .nil (List.forall_mem_cons.mpr ⟨by decide, hgap⟩)
  | cons hgap hrest h =>
    rw [← List.cons_append]
    exact .cons (List.forall_mem_cons.mpr ⟨by decide, hgap⟩) hrest h

theorem Spaced.token {ts : List (Token α)} {rest : List Char} (t : Token α) (hrest : Parted rest)
    (h : Spaced format ts rest) : Spaced format (t :: ts) (t.chars format ++ rest) :=
  .cons isGap_nil hrest h

theorem nonBlanks_of_spaced {ts : List (Token α)} {s : List Char} (h : Spaced format ts s) :
    nonBlanks s = ts.flatMap fun t => nonBlanks (t.chars format) := by
  induction h with
  | nil hgap => exact nonBlanks_eq_nil hgap
  | cons hgap _ _ ih =>
    rw [nonBlanks_append, nonBlanks_append, nonBlanks_eq_nil hgap, ih]
    rfl

/-- A closing bracket behind a group, with a space in front of it. -/
theorem Spaced.closes {ts : List (Token α)} {rest : List Char} (hrest : Parted rest)
    (h : Spaced format ts rest) : Spaced format (.closes :: ts) (' ' :: ')' :: rest) :=
  (h.token .closes hrest).space

mutual

theorem spaced_nestedChars (ts : List (Token α)) (rest : List Char) (hrest : Parted rest)
    (h : Spaced format ts rest) : ∀ e : Expression α,
      Spaced format (e.tokens ++ ts) (e.nestedChars format.chars ++ rest)
  | leaf a => h.token (.leaf a) hrest
  | all children => by
    have hinner := spaced_childrenChars _ _ (parted_space _) (h.closes hrest) children
    have hgroup := hinner.space.token (.opens .all) (parted_space _)
    simpa only [tokens, nestedChars, Token.chars, Opening.chars, List.append_assoc,
      List.cons_append, List.nil_append] using hgroup
  | any children => by
    have hinner := spaced_childrenChars _ _ (parted_space _) (h.closes hrest) children
    have hgroup := hinner.space.token (.opens .any) (parted_space _)
    simpa only [tokens, nestedChars, Token.chars, Opening.chars, Opening.lead, List.append_assoc,
      List.cons_append, List.nil_append] using hgroup
  | when flag negated children => by
    have hinner := spaced_childrenChars _ _ (parted_space _) (h.closes hrest) children
    have hgroup := hinner.space.token (.opens (.when flag negated)) (parted_space _)
    simpa only [tokens, nestedChars, conditionChars, Token.chars, Opening.chars, Opening.lead,
      List.append_assoc, List.cons_append, List.nil_append] using hgroup

/-- The text of a list of trees is spaced over their tokens. -/
theorem spaced_childrenChars (ts : List (Token α)) (rest : List Char) (hrest : Parted rest)
    (h : Spaced format ts rest) : ∀ es : List (Expression α),
      Spaced format (tokensOf es ++ ts) (childrenChars format.chars es ++ rest)
  | [] => h
  | [e] => by
    rw [tokensOf, tokensOf, List.append_nil, childrenChars]
    exact spaced_nestedChars ts rest hrest h e
  | e :: f :: es => by
    have hmore := spaced_childrenChars ts rest hrest h (f :: es)
    rw [tokensOf, childrenChars, List.append_assoc, List.append_assoc, List.cons_append]
    exact spaced_nestedChars _ _ (parted_space _) hmore.space e

end

end PackageCatalog.Expression
