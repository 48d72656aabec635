import PackageCatalog.Proofs.Text
import PackageCatalog.Proofs.Version.Text

/-!
# The hyphens of a version

A version starts with a digit or with `s`, and each of its hyphens opens a `-try`, a `-scm` or
a `-r`. So if a version follows a hyphen of another version, that hyphen is the one of `-scm`
and a version stands in front of it, too (`Version.exists_chars_of_hyphen`).
-/

namespace PackageCatalog

/-- What may stand in a version apart from hyphens. -/
def isStemChar (c : Char) : Bool := Text.isAlphanumeric c || c == '.' || c == '_'

theorem hyphen_not_mem_of_all {s : List Char} (h : s.all isStemChar = true) : '-' ∉ s :=
  Text.not_mem_of_class (List.all_eq_true.mp h) (by decide)

/-! ## Characters of the parts -/

theorem Digit.isStemChar_toChar (d : Digit) : isStemChar d.toChar = true := by
  decide +revert

@[simp] theorem Digit.all_isStemChar (ds : List Digit) :
    (Digit.chars ds).all isStemChar = true := by
  rw [Digit.chars, List.all_map, List.all_eq_true]
  intro d _
  exact d.isStemChar_toChar

@[simp] theorem Numeral.all_isStemChar (n : Numeral) : n.chars.all isStemChar = true :=
  Digit.all_isStemChar n.digits

@[simp] theorem Numeral.all_isStemChar_dotted (ns : List Numeral) :
    (Numeral.dottedChars ns).all isStemChar = true := by
  induction ns with
  | nil => rfl
  | cons n ns ih =>
    rw [Numeral.dottedChars_cons, List.all_cons, List.all_append, ih, n.all_isStemChar]
    rfl

theorem Letter.isStemChar_toChar (l : Letter) : isStemChar l.toChar = true := by
  decide +revert

@[simp] theorem Suffix.all_isStemChar (s : Suffix) : s.chars.all isStemChar = true := by
  have hkind : s.kind.chars.all isStemChar = true := by
    cases s.kind <;> rfl
  rw [Suffix.chars, List.all_append, List.all_cons, hkind, Digit.all_isStemChar]
  rfl

namespace Release

/-- The text of a release up to its first hyphen. -/
def stem (r : Release) : List Char :=
  r.major.chars ++ Numeral.dottedChars r.minors ++ (r.letter.map Letter.toChar).toList ++
    r.suffixes.flatMap Suffix.chars

theorem chars_eq_stem (r : Release) :
    r.chars = r.stem ++ (attemptChars r.attempt ++ liveChars r.live) := by
  have h := r.chars_append []
  simp only [List.append_nil] at h
  rw [h, stem]
  simp only [List.append_assoc]

theorem all_isStemChar_stem (r : Release) : r.stem.all isStemChar = true := by
  have hletter : (r.letter.map Letter.toChar).toList.all isStemChar = true := by
    cases r.letter with
    | none => rfl
    | some l => simp [l.isStemChar_toChar]
  have hsuffixes : (r.suffixes.flatMap Suffix.chars).all isStemChar = true := by
    rw [List.all_flatMap, List.all_eq_true]
    intro s _
    exact s.all_isStemChar
  rw [stem]
  simp only [List.all_append, hletter, hsuffixes, Numeral.all_isStemChar,
    Numeral.all_isStemChar_dotted, Bool.and_self]

end Release

/-! ## Splits at a hyphen -/

/-- A hyphen at or behind a part with one hyphen at its start. -/
theorem hyphen_part_cases {part rest t w : List Char} (hpart : part.all isStemChar = true)
    (h : '-' :: (part ++ rest) = t ++ '-' :: w) :
    (t = [] ∧ w = part ++ rest) ∨ ∃ t', t = '-' :: (part ++ t') ∧ rest = t' ++ '-' :: w := by
  cases t with
  | nil => exact .inl ⟨rfl, (List.cons.inj h).2.symm⟩
  | cons c t =>
    obtain ⟨hc, htail⟩ := List.cons.inj h
    obtain ⟨t', rfl, hrest⟩ := Text.exists_of_append_eq (hyphen_not_mem_of_all hpart) htail
    exact .inr ⟨t', by rw [← hc], hrest⟩

/-- A hyphen behind which no `t` stands is not the one of `-try`. -/
theorem Release.hyphen_behind_attempt {o : Option (List Digit)} {rest t w : List Char}
    (h : attemptChars o ++ rest = t ++ '-' :: w) (ht : w.head? ≠ some 't') :
    ∃ t', t = attemptChars o ++ t' ∧ rest = t' ++ '-' :: w := by
  cases o with
  | none => exact ⟨t, rfl, h⟩
  | some ds =>
    have hall : (['t', 'r', 'y'] ++ Digit.chars ds).all isStemChar = true := by
      rw [List.all_append, Digit.all_isStemChar]
      rfl
    rcases hyphen_part_cases hall h with ⟨-, rfl⟩ | ⟨t', rfl, hrest⟩
    · exact absurd rfl ht
    · exact ⟨t', rfl, hrest⟩

/-- A hyphen at or behind the `-scm` part. -/
theorem Release.hyphen_live_cases {live : Bool} {rest t w : List Char}
    (h : liveChars live ++ rest = t ++ '-' :: w) :
    t = [] ∨ ∃ t', rest = t' ++ '-' :: w := by
  cases live with
  | false => exact .inr ⟨t, h⟩
  | true =>
    have hall : ['s', 'c', 'm'].all isStemChar = true := rfl
    rcases hyphen_part_cases hall h with ⟨ht, -⟩ | ⟨t', -, hrest⟩
    · exact .inl ht
    · exact .inr ⟨t', hrest⟩

/-- No hyphen of the revision part has anything but `r` behind it. -/
theorem Revision.head?_of_hyphen {o : Option Revision} {t w : List Char}
    (h : optChars o = t ++ '-' :: w) : w.head? = some 'r' := by
  rcases o with _ | r
  · cases t <;> cases h
  · obtain ⟨part, hpart, hchars⟩ :
        ∃ part, part.all isStemChar = true ∧ r.chars = '-' :: 'r' :: part := by
      cases r with
      | bare => exact ⟨[], rfl, rfl⟩
      | numbered first more =>
        exact ⟨first.chars ++ Numeral.dottedChars more, by simp [List.all_append], rfl⟩
    have hr : '-' :: (('r' :: part) ++ []) = t ++ '-' :: w := by
      rw [List.append_nil, ← hchars]
      exact h
    have hall : ('r' :: part).all isStemChar = true := by
      rw [List.all_cons, hpart]
      rfl
    rcases hyphen_part_cases hall hr with ⟨-, rfl⟩ | ⟨t', -, hnil⟩
    · rfl
    · cases t' <;> cases hnil

namespace Version

/-- A version starts with a digit or with the `s` of `scm`, so with none of the letters that may
follow its hyphens but this one. -/
theorem head?_chars (v : Version) :
    ∃ c, v.chars.head? = some c ∧ c ≠ 't' ∧ c ≠ 'r' := by
  rw [chars_eq]
  cases v.base with
  | scm => exact ⟨'s', rfl, by decide, by decide⟩
  | release r =>
    refine ⟨r.major.first.toChar, rfl, ?_, ?_⟩
    · exact r.major.first.toChar_ne (by decide)
    · exact r.major.first.toChar_ne (by decide)

/-- A hyphen behind which neither a `-try` nor a revision starts is the one of `-scm`, so that
a version stands in front of it. -/
theorem exists_chars_of_hyphen {v : Version} {t w : List Char} (h : v.chars = t ++ '-' :: w)
    (ht : w.head? ≠ some 't') (hr : w.head? ≠ some 'r') : ∃ u : Version, u.chars = t := by
  obtain ⟨base, revision⟩ := v
  rw [chars_eq] at h
  cases base with
  | scm =>
    have hscm : '-' ∉ baseChars .scm := by decide
    obtain ⟨t', rfl, hrev⟩ := Text.exists_of_append_eq hscm h
    exact absurd (Revision.head?_of_hyphen hrev) hr
  | release r =>
    simp only [baseChars, r.chars_eq_stem, List.append_assoc] at h
    obtain ⟨t₁, rfl, h₁⟩ :=
      Text.exists_of_append_eq (hyphen_not_mem_of_all r.all_isStemChar_stem) h
    obtain ⟨t₂, rfl, h₂⟩ := Release.hyphen_behind_attempt h₁ ht
    rcases Release.hyphen_live_cases h₂ with rfl | ⟨t₃, h₃⟩
    · refine ⟨⟨.release { r with live := false }, none⟩, ?_⟩
      rw [chars_eq, baseChars, Release.chars_eq_stem]
      show r.stem ++ (Release.attemptChars r.attempt ++ []) ++ [] = _
      rw [List.append_nil]
    · exact absurd (Revision.head?_of_hyphen h₃) hr

/-- Where a version ends in a hyphen and another version, a version stands in front of them. -/
theorem exists_chars_of_split {v w : Version} {t : List Char}
    (h : v.chars = t ++ '-' :: w.chars) : ∃ u : Version, u.chars = t := by
  obtain ⟨c, hhead, ht, hr⟩ := w.head?_chars
  refine exists_chars_of_hyphen h ?_ ?_
  · rw [hhead]
    exact fun he => ht (Option.some.inj he)
  · rw [hhead]
    exact fun he => hr (Option.some.inj he)

end Version

/-! ## Characters of a version -/

def isVersionChar (c : Char) : Bool := isStemChar c || c == '-'

theorem all_isVersionChar {s : List Char} (h : s.all isStemChar = true) :
    s.all isVersionChar = true := by
  rw [List.all_eq_true] at h ⊢
  intro c hc
  rw [isVersionChar, h c hc, Bool.true_or]

theorem Release.all_isVersionChar_attempt (o : Option (List Digit)) :
    (attemptChars o).all isVersionChar = true := by
  cases o with
  | none => rfl
  | some ds =>
    rw [attemptChars, List.all_append, all_isVersionChar (Digit.all_isStemChar ds)]
    rfl

theorem Revision.all_isVersionChar (o : Option Revision) :
    (optChars o).all isVersionChar = true := by
  rcases o with _ | _ | ⟨first, more⟩
  · rfl
  · rfl
  · rw [optChars, chars, List.all_append, List.all_append,
      PackageCatalog.all_isVersionChar first.all_isStemChar,
      PackageCatalog.all_isVersionChar (Numeral.all_isStemChar_dotted more)]
    rfl

theorem Version.all_isVersionChar_chars (v : Version) : v.chars.all isVersionChar = true := by
  rw [chars_eq, List.all_append, Revision.all_isVersionChar, Bool.and_true]
  cases v.base with
  | scm => rfl
  | release r =>
    have hlive : (Release.liveChars r.live).all isVersionChar = true := by
      cases r.live <;> rfl
    rw [baseChars, r.chars_eq_stem, List.all_append, List.all_append,
      all_isVersionChar r.all_isStemChar_stem, Release.all_isVersionChar_attempt, hlive]
    rfl

end PackageCatalog
