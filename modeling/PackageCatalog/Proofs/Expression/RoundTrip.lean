import PackageCatalog.Proofs.Expression.Leaves
import PackageCatalog.Proofs.Result

/-!
# Expressions and their texts

The text of a tree is canonical, while what is read may be spaced in any way, or hardly at all.
Tokens that were scanned are `Legible`: each is recognised again in front of any spaced text of
those that follow it. So an expression that was read is read again from its text, which holds
the same characters, blanks aside (`respelled_of_parse`), and a tree over names or words is read
from its text whatever its shape (`parse_text_of_built`).
-/

namespace PackageCatalog.Expression

open Text

variable {α : Type} {format : LeafFormat α}

/-! ## Words in front of spacing -/

/-- What is found at the start of a word is found there whatever follows the word. -/
theorem prefix_of_parted {mark word tail : List Char} (hmark : ∀ c ∈ mark, isSpacing c = false)
    (htail : Parted tail) (h : mark <+: word ++ tail) : mark <+: word := by
  obtain ⟨rest, h⟩ := h
  rcases List.append_eq_append_iff.mp h with ⟨more, hword, -⟩ | ⟨more, rfl, htail'⟩
  · exact ⟨more, hword.symm⟩
  · cases more with
    | nil => exact ⟨[], by rw [List.append_nil, List.append_nil]⟩
    | cons c more =>
      have hspacing : isSpacing c = true := htail c (by rw [htail']; rfl)
      rw [hmark c (List.mem_append_right word List.mem_cons_self)] at hspacing
      cases hspacing

theorem isSpacing_of_isUseFlagChar {c : Char} (h : NameKind.isUseFlagChar c = true) :
    isSpacing c = false := by
  simp only [NameKind.isUseFlagChar, Bool.or_eq_true, beq_iff_eq] at h
  rcases h with (((h | rfl) | rfl) | rfl) | rfl
  · exact isSpacing_of_not_isBlank (NameKind.isBlank_of_isAlphanumeric h)
  all_goals decide

theorem isSpacing_of_mem_lead (o : Opening) : ∀ c ∈ o.lead, isSpacing c = false := by
  cases o with
  | all => exact fun _ h => absurd h List.not_mem_nil
  | any => exact List.forall_mem_cons.mpr ⟨by decide, List.forall_mem_singleton.mpr (by decide)⟩
  | when flag negated =>
    intro c h
    rw [Opening.lead, List.append_assoc, List.mem_append, List.mem_append] at h
    rcases h with h | h | h
    · cases negated with
      | true => rw [List.mem_singleton.mp h]; decide
      | false => exact absurd h List.not_mem_nil
    · exact isSpacing_of_isUseFlagChar (flag.isUseFlagChar_of_useFlag c h)
    · rw [List.mem_singleton.mp h]
      decide

theorem takeCondition?_of_word {word more tail : List Char} (htail : Parted tail)
    (h : takeCondition? (word ++ more) = none) : takeCondition? (word ++ tail) = none := by
  cases hcondition : takeCondition? (word ++ tail) with
  | none => rfl
  | some condition =>
    obtain ⟨flag, negated, rest⟩ := condition
    have hlead : (Opening.when flag negated).lead <+: word :=
      prefix_of_parted (isSpacing_of_mem_lead _) htail
        ⟨rest, (takeCondition?_eq_some hcondition).symm⟩
    obtain ⟨behind, rfl⟩ := hlead
    rw [List.append_assoc, takeCondition?_lead] at h
    cases h

/-! ## Tokens that were taken -/

section taken

variable {s rest other : List Char} {t : Token α}

theorem head_chars (o : Opening) :
    ∃ c more, o.chars = c :: more ∧ isSpacing c = false ∧ c ≠ '-' := by
  cases o with
  | all => exact ⟨'(', [], rfl, by decide, by decide⟩
  | any => exact ⟨'|', _, rfl, by decide, by decide⟩
  | when flag negated =>
    obtain ⟨c, more, hlead, hc⟩ := exists_lead_when flag negated
    refine ⟨c, more ++ [' ', '('], by rw [Opening.chars, hlead]; rfl, ?_⟩
    rcases hc with rfl | hc
    · exact ⟨by decide, by decide⟩
    · exact ⟨isSpacing_of_not_isBlank (NameKind.isBlank_of_isAlphanumeric hc),
        ne_of_class hc (by decide)⟩

theorem Token.LeafAt.again {a : α} (hlawful : format.Lawful) (h : LeafAt format s a rest)
    (hother : Parted other) (harrow : AtArrow other → AtArrow rest) :
    LeafAt format (format.chars a ++ other) a other := by
  obtain ⟨word, more, tail, hs, hchars, htail, hne, -⟩ := hlawful.word h.taken
  obtain ⟨c, word, rfl⟩ := List.exists_cons_of_ne_nil hne
  have htext : format.chars a ++ other = c :: word ++ (tail ++ other) := by
    rw [hchars, List.append_assoc]
  refine ⟨?_, ?_, hlawful.again h.taken hother harrow⟩
  · rw [htext]
    rintro d ⟨⟩
    exact h.notMark c (by rw [hs]; rfl)
  · rw [htext]
    exact takeCondition?_of_word (htail.append hother) (hs ▸ h.notCondition)

theorem nonBlanks_of_take? (hlawful : format.Lawful)
    (h : Token.take? format s = some (t, rest)) :
    nonBlanks s = nonBlanks (t.chars format) ++ nonBlanks rest := by
  rcases Token.take?_cases h with ⟨rfl, rfl⟩ | ⟨o, gap, rfl, -, hgap, -, rfl⟩ | ⟨a, rfl, hleaf⟩
  · exact nonBlanks_append [')'] rest
  · have hopen : nonBlanks ('(' :: rest) = '(' :: nonBlanks rest := nonBlanks_append ['('] rest
    rw [nonBlanks_append, nonBlanks_append, nonBlanks_eq_nil hgap, List.append_nil, hopen,
      Token.chars, nonBlanks_chars, List.append_assoc]
    rfl
  · exact hlawful.nonBlanks hleaf.taken

theorem head_of_take? (hlawful : format.Lawful) (h : Token.take? format s = some (t, rest)) :
    ∀ c ∈ s.head?, isSpacing c = false := by
  rcases Token.take?_cases h with ⟨-, rfl⟩ | ⟨o, gap, -, -, -, hall, rfl⟩ | ⟨a, -, hleaf⟩
  · rintro c ⟨⟩
    decide
  · cases o with
    | all =>
      rw [hall rfl]
      rintro c ⟨⟩
      decide
    | any =>
      rintro c ⟨⟩
      decide
    | when flag negated =>
      obtain ⟨c, more, hlead, -⟩ := exists_lead_when flag negated
      rw [hlead]
      rintro d ⟨⟩
      exact isSpacing_of_mem_lead (.when flag negated) c (by rw [hlead]; exact List.mem_cons_self)
  · obtain ⟨word, more, -, rfl, -, -, hne, hword⟩ := hlawful.word hleaf.taken
    obtain ⟨c, word, rfl⟩ := List.exists_cons_of_ne_nil hne
    rintro d ⟨⟩
    exact hword c List.mem_cons_self

theorem exists_chars_of_take? (hlawful : format.Lawful)
    (h : Token.take? format s = some (t, rest)) :
    ∃ c more, t.chars format = c :: more ∧ isSpacing c = false := by
  rcases Token.take?_cases h with ⟨rfl, -⟩ | ⟨o, -, rfl, -⟩ | ⟨a, rfl, hleaf⟩
  · exact ⟨')', [], rfl, by decide⟩
  · obtain ⟨c, more, hchars, hc, -⟩ := head_chars o
    exact ⟨c, more, hchars, hc⟩
  · obtain ⟨word, -, tail, -, hchars, -, hne, hword⟩ := hlawful.word hleaf.taken
    obtain ⟨c, word, rfl⟩ := List.exists_cons_of_ne_nil hne
    exact ⟨c, word ++ tail, hchars, hword c List.mem_cons_self⟩

/-- A token whose text starts with an arrow was taken from a text that does. -/
theorem arrow_of_take? (hlawful : format.Lawful) (h : Token.take? format s = some (t, rest))
    (hother : Parted other) (harrow : ['-', '>'] <+: t.chars format ++ other) :
    ['-', '>'] <+: s := by
  rcases Token.take?_cases h with ⟨rfl, -⟩ | ⟨o, gap, rfl, -⟩ | ⟨a, rfl, hleaf⟩
  · exact absurd (List.cons_prefix_cons.mp harrow).1 (by decide)
  · obtain ⟨c, more, hchars, -, hc⟩ := head_chars o
    rw [Token.chars, hchars] at harrow
    exact absurd (List.cons_prefix_cons.mp harrow).1.symm hc
  · obtain ⟨word, more, tail, rfl, hchars, htail, -, -⟩ := hlawful.word hleaf.taken
    rw [Token.chars, hchars, List.append_assoc] at harrow
    have hmark : ∀ c ∈ ['-', '>'], isSpacing c = false :=
      List.forall_mem_cons.mpr ⟨by decide, List.forall_mem_singleton.mpr (by decide)⟩
    have hword : ['-', '>'] <+: word := prefix_of_parted hmark (htail.append hother) harrow
    exact hword.trans (List.prefix_append word more)

end taken

/-! ## Legible tokens -/

/-- Each token is recognised in front of any spaced text of those that follow it. -/
def Legible (format : LeafFormat α) : List (Token α) → Prop
  | [] => True
  | t :: ts => (∀ rest, Parted rest → Spaced format ts rest →
      Token.take? format (t.chars format ++ rest) = some (t, rest)) ∧ Legible format ts

section legible

variable {s rest other : List Char} {ts : List (Token α)}

theorem legible_of_forall (h : ∀ t ∈ ts, ∀ rest, Parted rest →
    Token.take? format (t.chars format ++ rest) = some (t, rest)) : Legible format ts := by
  induction ts with
  | nil => trivial
  | cons t ts ih =>
    obtain ⟨ht, hts⟩ := List.forall_mem_cons.mp h
    exact ⟨fun rest hrest _ => ht rest hrest, ih hts⟩

/-- Legible tokens are scanned from every text that is spaced over them. -/
theorem scan?_of_spaced (hlawful : format.Lawful) (hlegible : Legible format ts)
    (h : Spaced format ts s) : Token.scan? format s = some ts := by
  induction h with
  | nil hgap => exact Token.scan?_of_gap hgap
  | cons hgap hrest hspaced ih =>
    have htake := hlegible.1 _ hrest hspaced
    rw [Token.scan?_of_take? hgap (head_of_take? hlawful htake) htake, ih hlegible.2]
    rfl

theorem nonBlanks_of_scan? (hlawful : format.Lawful) (h : Token.scan? format s = some ts) :
    nonBlanks s = ts.flatMap fun t => nonBlanks (t.chars format) := by
  induction ts generalizing s with
  | nil => rw [← nonBlanks_dropSpacing, Token.scan?_eq_some_nil h]; rfl
  | cons t ts ih =>
    obtain ⟨rest, htake, hrest⟩ := Token.scan?_eq_some_cons h
    rw [← nonBlanks_dropSpacing, nonBlanks_of_take? hlawful htake, ih hrest]
    rfl

/-- Spacing tokens out brings no arrow to the front that was not there before. -/
theorem atArrow_of_spaced (hlawful : format.Lawful) (hspaced : Spaced format ts other)
    (h : Token.scan? format rest = some ts) (harrow : AtArrow other) : AtArrow rest := by
  cases hspaced with
  | nil hgap =>
    rw [AtArrow, dropSpacing_gap hgap] at harrow
    exact absurd (List.prefix_nil.mp harrow) (List.cons_ne_nil _ _)
  | @cons gap behind t ts hgap hbehind _ =>
    obtain ⟨after, htake, -⟩ := Token.scan?_eq_some_cons h
    have hhead : ∀ c ∈ (t.chars format ++ behind).head?, isSpacing c = false := by
      obtain ⟨c, more, hchars, hc⟩ := exists_chars_of_take? hlawful htake
      rw [hchars]
      rintro d ⟨⟩
      exact hc
    rw [AtArrow, dropSpacing_gap_append hgap hhead] at harrow
    exact arrow_of_take? hlawful htake hbehind harrow

/-- Scanned tokens are legible. -/
theorem legible_of_scan? (hlawful : format.Lawful) (h : Token.scan? format s = some ts) :
    Legible format ts := by
  induction ts generalizing s with
  | nil => trivial
  | cons t ts ih =>
    obtain ⟨rest, htake, hrest⟩ := Token.scan?_eq_some_cons h
    refine ⟨fun other hother hspaced => ?_, ih hrest⟩
    rcases Token.take?_cases htake with ⟨rfl, -⟩ | ⟨o, -, rfl, hany, -⟩ | ⟨a, rfl, hleaf⟩
    · exact Token.take?_closes other
    · exact Token.take?_opens hany other
    · exact (hleaf.again hlawful hother (atArrow_of_spaced hlawful hspaced hrest)).take?

end legible

/-! ## Whole expressions -/

variable {s : String} {t : Expression α} {es : List (Expression α)}

theorem ofChars?_eq_some_iff {s : List Char} : ofChars? format s = some t ↔
    ∃ es, t = .all es ∧ Token.scan? format s = some (tokensOf es) := by
  simp only [ofChars?, Option.bind_eq_some_iff, Option.map_eq_some_iff, ofTokens?_eq_some_iff]
  constructor
  · rintro ⟨_, hscan, es, rfl, rfl⟩
    exact ⟨es, rfl, hscan⟩
  · rintro ⟨es, rfl, hscan⟩
    exact ⟨tokensOf es, hscan, es, rfl, rfl⟩

/-- A text is read as a tree when the tokens of the tree are scanned from it. -/
theorem parse_eq_ok_iff : parse format s = .ok t ↔
    ∃ es, t = .all es ∧ Token.scan? format s.toList = some (tokensOf es) := by
  rw [← ofChars?_eq_some_iff, parse]
  cases ofChars? format s.toList with
  | none => exact iff_of_false (fun h => nomatch h) fun h => nomatch h
  | some e => rw [Except.ok.injEq, Option.some.injEq]

theorem toList_text_all : (text format (.all es)).toList = childrenChars format.chars es :=
  String.toList_ofList

theorem spaced_text : Spaced format (tokensOf es) (text format (.all es)).toList := by
  have hspaced : Spaced format (tokensOf es ++ []) (childrenChars format.chars es ++ []) :=
    spaced_childrenChars [] [] parted_nil (.nil isGap_nil) es
  rwa [List.append_nil, List.append_nil, ← toList_text_all] at hspaced

theorem parse_text_of_legible (hlawful : format.Lawful) (h : Legible format (tokensOf es)) :
    parse format (text format (.all es)) = .ok (.all es) :=
  parse_eq_ok_iff.mpr ⟨es, rfl, scan?_of_spaced hlawful h spaced_text⟩

/-- The text of the tree holds the characters of `s`, blanks aside, and is read as the tree. -/
structure Respelled (format : LeafFormat α) (s : String) (t : Expression α) : Prop where
  nonBlanks : nonBlanks (text format t).toList = Text.nonBlanks s.toList
  parse : parse format (text format t) = .ok t

theorem LeafFormat.Lawful.respelled (hlawful : format.Lawful) (h : parse format s = .ok t) :
    Respelled format s t := by
  obtain ⟨es, rfl, hscan⟩ := parse_eq_ok_iff.mp h
  refine ⟨?_, parse_text_of_legible hlawful (legible_of_scan? hlawful hscan)⟩
  rw [nonBlanks_of_scan? hlawful hscan, nonBlanks_of_spaced spaced_text]

/-- Whatever was read is read again from its own text, in which nothing is dropped, repeated or
moved but blanks. -/
theorem respelled_of_parse :
    (∀ s t, parse licenseFormat s = .ok t → Respelled licenseFormat s t) ∧
    (∀ s t, parse plainFormat s = .ok t → Respelled plainFormat s t) ∧
    (∀ s t, parse uriFormat s = .ok t → Respelled uriFormat s t) ∧
    (∀ s t, parse fetchFormat s = .ok t → Respelled fetchFormat s t) :=
  ⟨fun _ _ => (lawful_wordFormat fun _ => isBlank_of_isNameChar).respelled,
    fun _ _ => (lawful_wordFormat fun _ => isBlank_of_isNameChar).respelled,
    fun _ _ => (lawful_wordFormat fun _ => isBlank_of_isUriChar).respelled,
    fun _ _ => lawful_fetchFormat.respelled⟩

theorem exists_respelled {s s' : String} (hrespelled : ∀ t, parse format s = .ok t →
      Respelled format s t) (h : (parse format s).toOption.map (text format) = some s') :
    ∃ t, parse format s = .ok t ∧ text format t = s' ∧ Respelled format s t := by
  obtain ⟨t, ht, htext⟩ := Result.exists_of_map_toOption h
  exact ⟨t, ht, htext, hrespelled t ht⟩

/-- Texts with as little spacing as can be. -/
theorem respelled_dense :
    (∃ t, parse licenseFormat "||(MIT(BSD))!ssl?()" = .ok t ∧
      text licenseFormat t = "|| ( MIT ( BSD ) ) !ssl? (  )" ∧
      Respelled licenseFormat "||(MIT(BSD))!ssl?()" t) ∧
    (∃ t, parse plainFormat "test(ssl?(-x))" = .ok t ∧
      text plainFormat t = "test ( ssl? ( -x ) )" ∧ Respelled plainFormat "test(ssl?(-x))" t) ∧
    (∃ t, parse uriFormat "http://h/?p=1(!a)" = .ok t ∧
      text uriFormat t = "http://h/?p=1 ( !a )" ∧ Respelled uriFormat "http://h/?p=1(!a)" t) ∧
    (∃ t, parse fetchFormat "http://h/a ->a.tgz:b(c)!doc?(d->e)" = .ok t ∧
      text fetchFormat t = "http://h/a -> a.tgz :b ( c ) !doc? ( d->e )" ∧
      Respelled fetchFormat "http://h/a ->a.tgz:b(c)!doc?(d->e)" t) := by
  obtain ⟨license, plain, uri, fetch⟩ := respelled_of_parse
  refine ⟨?_, ?_, ?_, ?_⟩
  · exact exists_respelled (license _) (by decide +kernel)
  · exact exists_respelled (plain _) (by decide +kernel)
  · exact exists_respelled (uri _) (by decide +kernel)
  · exact exists_respelled (fetch _) (by decide +kernel)

/-! ## Trees that were not read -/

/-- The tree is built from leaves that satisfy `p`, by groups, conditions and, if they are
allowed, `|| ( … )` groups. Any group may be empty. -/
inductive Built (p : α → Prop) (allowsAny : Bool) : Expression α → Prop
  | leaf {a : α} : p a → Built p allowsAny (.leaf a)
  | all {children : List (Expression α)} :
      (∀ e ∈ children, Built p allowsAny e) → Built p allowsAny (.all children)
  | any {children : List (Expression α)} : allowsAny = true →
      (∀ e ∈ children, Built p allowsAny e) → Built p allowsAny (.any children)
  | when {flag : UseFlag} {negated : Bool} {children : List (Expression α)} :
      (∀ e ∈ children, Built p allowsAny e) → Built p allowsAny (.when flag negated children)

section built

variable {p : α → Prop} {allowsAny : Bool} {e : Expression α} {u : Token α}

def Token.Allowed (p : α → Prop) (allowsAny : Bool) : Token α → Prop
  | leaf a => p a
  | opens o => o = .any → allowsAny = true
  | closes => True

theorem allowed_of_mem_group (o : Opening) {children : List (Expression α)}
    (ho : o = .any → allowsAny = true)
    (hchildren : ∀ e ∈ children, ∀ u ∈ e.tokens, u.Allowed p allowsAny) :
    ∀ u ∈ (o.group children).tokens, u.Allowed p allowsAny := by
  intro u hu
  rw [tokens_group, List.mem_append, List.mem_cons, mem_tokensOf, List.mem_singleton] at hu
  rcases hu with (rfl | ⟨e, he, hu⟩) | rfl
  · exact ho
  · exact hchildren e he u hu
  · trivial

theorem Built.allowed (h : Built p allowsAny e) : ∀ u ∈ e.tokens, u.Allowed p allowsAny := by
  induction h with
  | leaf ha =>
    intro u hu
    rw [List.mem_singleton.mp hu]
    exact ha
  | all _ ih => exact allowed_of_mem_group .all (nomatch ·) ih
  | any hany _ ih => exact allowed_of_mem_group .any (fun _ => hany) ih
  | @when flag negated _ _ ih => exact allowed_of_mem_group (.when flag negated) (nomatch ·) ih

/-- Where leaves are taken in front of any spacing, trees over them are legible. -/
theorem legible_of_built (hleaf : ∀ a, p a → ∀ rest, Parted rest →
      Token.LeafAt format (format.chars a ++ rest) a rest)
    (h : ∀ e ∈ es, Built p format.allowsAny e) : Legible format (tokensOf es) := by
  refine legible_of_forall fun u hu rest hrest => ?_
  obtain ⟨e, he, hu⟩ := mem_tokensOf.mp hu
  have hallowed := (h e he).allowed u hu
  cases u with
  | leaf a => exact (hleaf a hallowed rest hrest).take?
  | opens o => exact Token.take?_opens hallowed rest
  | closes => exact Token.take?_closes rest

end built

/-! ## Names and words -/

section names

variable {allowsAny : Bool} {accepts : List Char → Bool} {fault : Error} {a : String}

/-- A name looks like nothing else than a leaf. -/
theorem leafAt_of_name {rest : List Char}
    (h : (wordFormat allowsAny isNameChar accepts fault).take? a.toList = some (a, []))
    (hrest : Parted rest) :
    Token.LeafAt (wordFormat allowsAny isNameChar accepts fault) (a.toList ++ rest) a rest := by
  obtain ⟨-, hne, hclass, -⟩ := takeRun?_eq_some_iff.mp (take?_wordFormat_iff.mp h)
  refine ⟨?_, ?_, take?_wordFormat_again (fun _ => isBlank_of_isNameChar) h hrest⟩
  · obtain ⟨c, more, hchars⟩ := List.exists_cons_of_ne_nil hne
    have hc : isNameChar c = true := hclass c (by rw [hchars]; exact List.mem_cons_self)
    rw [hchars]
    rintro d ⟨⟩
    simp only [isMark, Bool.or_eq_false_iff, beq_eq_false_iff_ne]
    exact ⟨⟨ne_of_class hc (by decide), ne_of_class hc (by decide)⟩, ne_of_class hc (by decide)⟩
  · cases hcondition : takeCondition? (a.toList ++ rest) with
    | none => rfl
    | some condition =>
      obtain ⟨flag, negated, after⟩ := condition
      have hlead : (Opening.when flag negated).lead <+: a.toList :=
        prefix_of_parted (isSpacing_of_mem_lead _) hrest
          ⟨after, (takeCondition?_eq_some hcondition).symm⟩
      have hmark : '?' ∈ a.toList := hlead.subset (List.mem_append_right _ List.mem_cons_self)
      exact absurd hmark (not_mem_of_class hclass (by decide))

def IsLicenseName (a : String) : Prop := licenseFormat.take? a.toList = some (a, [])

def IsPlainWord (a : String) : Prop := a ≠ "" ∧ ∀ c ∈ a.toList, isNameChar c = true

theorem take?_plainFormat (h : IsPlainWord a) : plainFormat.take? a.toList = some (a, []) := by
  refine take?_wordFormat_iff.mpr (takeRun?_eq_some_iff.mpr ⟨?_, ?_, h.2, rfl, nofun⟩)
  · exact (List.append_nil _).symm
  · exact fun hnil => h.1 (String.toList_inj.mp hnil)

/-- A tree over license names, or one without `|| ( … )` groups over plain words, is read from
its text, whatever its depth and however many of its groups are empty. -/
theorem parse_text_of_built :
    (∀ children : List (Expression String), (∀ e ∈ children, Built IsLicenseName true e) →
      parse licenseFormat (text licenseFormat (.all children)) = .ok (.all children)) ∧
    (∀ children : List (Expression String), (∀ e ∈ children, Built IsPlainWord false e) →
      parse plainFormat (text plainFormat (.all children)) = .ok (.all children)) := by
  have hlawful {allowsAny accepts fault} :
      (wordFormat allowsAny isNameChar accepts fault).Lawful :=
    lawful_wordFormat fun _ => isBlank_of_isNameChar
  refine ⟨fun children h => ?_, fun children h => ?_⟩
  · exact parse_text_of_legible hlawful
      (legible_of_built (fun a ha rest hrest => leafAt_of_name ha hrest) h)
  · exact parse_text_of_legible hlawful
      (legible_of_built (fun a ha rest hrest => leafAt_of_name (take?_plainFormat ha) hrest) h)

/-! ## A nested tree -/

def ssl : UseFlag := ⟨"ssl", by decide⟩

/-- Licenses in groups of every kind, some of them empty. -/
def nestedLicenses : List (Expression String) :=
  [.any [.leaf "MIT", .all [.leaf "GPL-2", .all []]], .when ssl true [.leaf "BSD"], .any []]

/-- Words in groups and under conditions, some of them empty. -/
def nestedWords : List (Expression String) :=
  [.all [], .when ssl false [.all [.leaf "-x"], .when ssl true []], .leaf "fetch"]

theorem built_nestedLicenses : ∀ e ∈ nestedLicenses, Built IsLicenseName true e := by
  simp only [nestedLicenses, List.forall_mem_cons]
  refine ⟨.any rfl ?_, .when ?_, .any rfl ?_, ?_⟩
  · simp only [List.forall_mem_cons]
    refine ⟨.leaf rfl, .all ?_, nofun⟩
    simp only [List.forall_mem_cons]
    exact ⟨.leaf rfl, .all nofun, nofun⟩
  · exact List.forall_mem_singleton.mpr (.leaf rfl)
  all_goals nofun

theorem built_nestedWords : ∀ e ∈ nestedWords, Built IsPlainWord false e := by
  have hword : ∀ a ∈ ["-x", "fetch"], IsPlainWord a := by
    simp only [IsPlainWord, ← List.all_eq_true]
    decide
  simp only [nestedWords, List.forall_mem_cons]
  refine ⟨.all nofun, .when ?_, .leaf (hword _ (by decide)), nofun⟩
  simp only [List.forall_mem_cons]
  refine ⟨.all ?_, .when nofun, nofun⟩
  exact List.forall_mem_singleton.mpr (.leaf (hword _ (by decide)))

theorem parse_text_nested :
    (text licenseFormat (.all nestedLicenses) =
        "|| ( MIT ( GPL-2 (  ) ) ) !ssl? ( BSD ) || (  )" ∧
      parse licenseFormat (text licenseFormat (.all nestedLicenses)) = .ok (.all nestedLicenses)) ∧
    (text plainFormat (.all nestedWords) = "(  ) ssl? ( ( -x ) !ssl? (  ) ) fetch" ∧
      parse plainFormat (text plainFormat (.all nestedWords)) = .ok (.all nestedWords)) :=
  ⟨⟨by decide, parse_text_of_built.1 nestedLicenses built_nestedLicenses⟩,
    ⟨by decide, parse_text_of_built.2 nestedWords built_nestedWords⟩⟩

end names

end PackageCatalog.Expression
