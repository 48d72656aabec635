import PackageCatalog.Version.Basic

/-!
# A version and its text determine each other

Each `take` function reads back what is written, provided that what follows cannot extend it
(`*_append`), and what it reads is what stood there (`*_sound`). Together they give
`Version.ofChars?_eq_some_iff`: a text is accepted as a version exactly if it is the text of
that version.
-/

namespace PackageCatalog

/-! ## Digits -/

/-- A character that stands for how far it is behind the first one of a range, as digits and letters
do, is what that number is written as. -/
theorem Text.ofNat_of_offset (first size : Nat) {c : Char} {n : Fin size}
    (h : (if hc : first ≤ c.toNat ∧ c.toNat < first + size then
      some (⟨c.toNat - first, by omega⟩ : Fin size) else none) = some n) :
    Char.ofNat (first + n.val) = c := by
  split at h
  · next hc =>
    cases h
    dsimp only
    rw [Nat.add_sub_cancel' hc.1]
    exact Char.ofNat_toNat c
  · cases h

namespace Digit

theorem ofChar?_toChar (d : Digit) : ofChar? d.toChar = some d := by
  decide +revert

theorem toChar_ne (d : Digit) {c : Char} (h : ofChar? c = none) : d.toChar ≠ c := by
  intro he
  rw [← he, ofChar?_toChar] at h
  cases h

theorem takeRun_append (ds : List Digit) {rest : List Char}
    (h : ∀ c ∈ rest.head?, ofChar? c = none) : takeRun (chars ds ++ rest) = (ds, rest) := by
  induction ds with
  | nil =>
    cases rest with
    | nil => rfl
    | cons c rest => simp [chars, takeRun, h c rfl]
  | cons d ds ih =>
    have ih' : takeRun (ds.map toChar ++ rest) = (ds, rest) := ih
    simp [chars, takeRun, ofChar?_toChar, ih']

theorem takeRun_sound (s : List Char) : chars (takeRun s).1 ++ (takeRun s).2 = s := by
  induction s with
  | nil => rfl
  | cons c s ih =>
    rw [takeRun]
    split
    · next d hd =>
      have hc : d.toChar = c := Text.ofNat_of_offset 48 10 hd
      show d.toChar :: (chars (takeRun s).1 ++ (takeRun s).2) = c :: s
      rw [hc, ih]
    · rfl

end Digit

namespace Numeral

theorem take?_append (n : Numeral) {rest : List Char}
    (h : ∀ c ∈ rest.head?, Digit.ofChar? c = none) : take? (n.chars ++ rest) = some (n, rest) := by
  rw [take?, chars, Digit.takeRun_append _ h]
  rfl

theorem take?_sound {s rest : List Char} {n : Numeral} (h : take? s = some (n, rest)) :
    n.chars ++ rest = s := by
  have hrun := Digit.takeRun_sound s
  rw [take?] at h
  split at h
  · cases h
  · next d ds r heq =>
    cases h
    rw [heq] at hrun
    exact hrun

theorem dottedChars_cons (n : Numeral) (ns : List Numeral) :
    dottedChars (n :: ns) = '.' :: (n.chars ++ dottedChars ns) := by
  simp [dottedChars]

/-- What may follow numerals that dots separate. -/
def EndsDotted (rest : List Char) : Prop :=
  ∀ c ∈ rest.head?, Digit.ofChar? c = none ∧ c ≠ '.'

theorem takeDotted_of_ends {rest : List Char} (h : EndsDotted rest) :
    takeDotted rest = ([], rest) := by
  rw [takeDotted.eq_def]
  split
  · exact absurd rfl (h '.' rfl).2
  · rfl

theorem takeDotted_append (ns : List Numeral) {rest : List Char} (h : EndsDotted rest) :
    takeDotted (dottedChars ns ++ rest) = (ns, rest) := by
  induction ns with
  | nil => exact takeDotted_of_ends h
  | cons n ns ih =>
    have hnext : ∀ c ∈ (dottedChars ns ++ rest).head?, Digit.ofChar? c = none := by
      intro c hc
      cases ns with
      | nil => exact (h c hc).1
      | cons m ms =>
        cases hc
        decide
    have htake : take? (n.chars ++ (dottedChars ns ++ rest)) = some (n, dottedChars ns ++ rest) :=
      n.take?_append hnext
    rw [dottedChars_cons, List.cons_append, List.append_assoc, takeDotted.eq_def]
    simp only
    split
    · next m r heq =>
      rw [htake] at heq
      cases heq
      rw [ih]
    · next heq =>
      rw [htake] at heq
      cases heq

theorem takeDotted_sound (s : List Char) :
    dottedChars (takeDotted s).1 ++ (takeDotted s).2 = s := by
  fun_induction takeDotted s with
  | case1 after n rest h hlen ih =>
    rw [dottedChars_cons, List.cons_append, List.append_assoc, ih, take?_sound h]
  | case2 after h => rfl
  | case3 s h => rfl

end Numeral

/-! ## Letters and suffixes -/

namespace Letter

theorem ofChar?_toChar (l : Letter) : ofChar? l.toChar = some l := by
  decide +revert

theorem take_append (o : Option Letter) {rest : List Char}
    (h : ∀ c ∈ rest.head?, ofChar? c = none) :
    take ((o.map toChar).toList ++ rest) = (o, rest) := by
  cases o with
  | none =>
    cases rest with
    | nil => rfl
    | cons c rest => simp [take, h c rfl]
  | some l => simp [take, ofChar?_toChar]

theorem take_sound (s : List Char) : ((take s).1.map toChar).toList ++ (take s).2 = s := by
  cases s with
  | nil => rfl
  | cons c s =>
    rw [take]
    split
    · next l hl =>
      have hc : l.toChar = c := Text.ofNat_of_offset 97 26 hl
      show l.toChar :: s = c :: s
      rw [hc]
    · rfl

end Letter

namespace SuffixKind

theorem take?_append (k : SuffixKind) {rest : List Char} (h : ∀ c ∈ rest.head?, c ≠ 'r') :
    take? (k.chars ++ rest) = some (k, rest) := by
  cases k with
  | patch =>
    -- Behind `p` comes no `r`, so that `pre` is not read.
    cases rest with
    | nil => rfl
    | cons c rest =>
      have hc : c ≠ 'r' := h c rfl
      simp [chars, take?, hc]
  | _ => rfl

theorem take?_sound {s rest : List Char} {k : SuffixKind} (h : take? s = some (k, rest)) :
    k.chars ++ rest = s := by
  unfold take? at h
  split at h <;> cases h <;> rfl

end SuffixKind

namespace Suffix

/-- What may follow suffixes. -/
def Ends (rest : List Char) : Prop := ∀ c ∈ rest.head?, c = '-'

theorem takeAll_of_ends {rest : List Char} (h : Ends rest) : takeAll rest = ([], rest) := by
  rw [takeAll.eq_def]
  split
  · cases h '_' rfl
  · rfl

theorem head_append_eq (ss : List Suffix) {rest : List Char} (h : Ends rest) :
    ∀ c ∈ (ss.flatMap chars ++ rest).head?, c = '-' ∨ c = '_' := by
  intro c hc
  cases ss with
  | nil => exact .inl (h c hc)
  | cons s ss =>
    cases hc
    exact .inr rfl

theorem takeAll_append (ss : List Suffix) {rest : List Char} (h : Ends rest) :
    takeAll (ss.flatMap chars ++ rest) = (ss, rest) := by
  induction ss with
  | nil => exact takeAll_of_ends h
  | cons s ss ih =>
    have hdigit : ∀ c ∈ (ss.flatMap chars ++ rest).head?, Digit.ofChar? c = none := by
      intro c hc
      rcases head_append_eq ss h c hc with rfl | rfl <;> decide
    have hr : ∀ c ∈ (Digit.chars s.digits ++ (ss.flatMap chars ++ rest)).head?, c ≠ 'r' := by
      intro c hc
      cases hd : s.digits with
      | nil =>
        rw [hd] at hc
        rcases head_append_eq ss h c hc with rfl | rfl <;> decide
      | cons d ds =>
        rw [hd] at hc
        cases hc
        exact d.toChar_ne (by decide)
    have htake := s.kind.take?_append hr
    rw [List.flatMap_cons, chars, List.append_assoc, List.cons_append, List.cons_append,
      List.append_assoc, takeAll.eq_def]
    simp only
    split
    · next k r heq =>
      rw [htake] at heq
      cases heq
      rw [Digit.takeRun_append _ hdigit, ih]
    · next heq =>
      rw [htake] at heq
      cases heq

theorem takeAll_sound (s : List Char) : (takeAll s).1.flatMap chars ++ (takeAll s).2 = s := by
  fun_induction takeAll s with
  | case1 after kind rest h _ _ run ih =>
    rw [List.flatMap_cons, List.append_assoc, ih, chars, List.append_assoc, List.cons_append,
      Digit.takeRun_sound, SuffixKind.take?_sound h]
  | case2 after h => rfl
  | case3 s h => rfl

end Suffix

/-! ## Releases -/

namespace Release

def attemptChars : Option (List Digit) → List Char
  | some digits => ['-', 't', 'r', 'y'] ++ Digit.chars digits
  | none => []

def liveChars (live : Bool) : List Char := if live then ['-', 's', 'c', 'm'] else []

theorem chars_append (r : Release) (rest : List Char) :
    r.chars ++ rest =
      r.major.chars ++ (Numeral.dottedChars r.minors ++ ((r.letter.map Letter.toChar).toList ++
        (r.suffixes.flatMap Suffix.chars ++
          (attemptChars r.attempt ++ (liveChars r.live ++ rest))))) := by
  obtain ⟨major, minors, letter, suffixes, attempt, live⟩ := r
  cases attempt <;> simp only [chars, attemptChars, liveChars, List.append_assoc]

/-- What may follow a release: nothing or a revision. -/
def Ends (rest : List Char) : Prop := rest = [] ∨ ∃ t, rest = '-' :: 'r' :: t

theorem Ends.head {rest : List Char} (h : Ends rest) (live : Bool) :
    ∀ c ∈ (liveChars live ++ rest).head?, c = '-' := by
  intro c hc
  cases live with
  | true => cases hc; rfl
  | false =>
    rcases h with rfl | ⟨t, rfl⟩
    · cases hc
    · cases hc; rfl

theorem Ends.head_attempt {rest : List Char} (h : Ends rest) (o : Option (List Digit))
    (live : Bool) : Suffix.Ends (attemptChars o ++ (liveChars live ++ rest)) := by
  intro c hc
  cases o with
  | some ds => cases hc; rfl
  | none => exact h.head live c hc

theorem takeLive_append {rest : List Char} (h : Ends rest) (live : Bool) :
    takeLive (liveChars live ++ rest) = (live, rest) := by
  cases live with
  | true => rfl
  | false => rcases h with rfl | ⟨t, rfl⟩ <;> rfl

theorem takeAttempt_append {rest : List Char} (h : Ends rest) (o : Option (List Digit))
    (live : Bool) :
    takeAttempt (attemptChars o ++ (liveChars live ++ rest)) = (o, liveChars live ++ rest) := by
  cases o with
  | none =>
    cases live with
    | true => rfl
    | false => rcases h with rfl | ⟨t, rfl⟩ <;> rfl
  | some ds =>
    have hdigit : ∀ c ∈ (liveChars live ++ rest).head?, Digit.ofChar? c = none := by
      intro c hc
      rw [h.head live c hc]
      decide
    show (some (Digit.takeRun (Digit.chars ds ++ (liveChars live ++ rest))).1,
      (Digit.takeRun (Digit.chars ds ++ (liveChars live ++ rest))).2) = _
    rw [Digit.takeRun_append ds hdigit]

/-- Behind the numbers of a release comes none of its digits and no dot. -/
theorem endsDotted_letter {rest : List Char}
    (h : ∀ c ∈ rest.head?, c = '-' ∨ c = '_') (o : Option Letter) :
    Numeral.EndsDotted ((o.map Letter.toChar).toList ++ rest) := by
  intro c hc
  cases o with
  | none => rcases h c hc with rfl | rfl <;> decide
  | some l =>
    cases hc
    clear h
    decide +revert

theorem take?_append (r : Release) {rest : List Char} (h : Ends rest) :
    take? (r.chars ++ rest) = some (r, rest) := by
  have hsuf := Suffix.head_append_eq r.suffixes (h.head_attempt r.attempt r.live)
  have hlet : ∀ c ∈ (r.suffixes.flatMap Suffix.chars ++
      (attemptChars r.attempt ++ (liveChars r.live ++ rest))).head?, Letter.ofChar? c = none := by
    intro c hc
    rcases hsuf c hc with rfl | rfl <;> decide
  have hdot := endsDotted_letter hsuf r.letter
  have hdigit : ∀ c ∈ (Numeral.dottedChars r.minors ++ ((r.letter.map Letter.toChar).toList ++
      (r.suffixes.flatMap Suffix.chars ++
        (attemptChars r.attempt ++ (liveChars r.live ++ rest))))).head?,
      Digit.ofChar? c = none := by
    intro c hc
    cases hm : r.minors with
    | nil =>
      rw [hm] at hc
      exact (hdot c hc).1
    | cons n ns =>
      rw [hm] at hc
      cases hc
      decide
  rw [chars_append, take?, Numeral.take?_append _ hdigit, Option.map_some]
  simp only [Numeral.takeDotted_append _ hdot, Letter.take_append _ hlet,
    Suffix.takeAll_append _ (h.head_attempt r.attempt r.live), takeAttempt_append h,
    takeLive_append h]

theorem takeLive_sound (s : List Char) : liveChars (takeLive s).1 ++ (takeLive s).2 = s := by
  unfold takeLive
  split <;> rfl

theorem takeAttempt_sound (s : List Char) :
    attemptChars (takeAttempt s).1 ++ (takeAttempt s).2 = s := by
  unfold takeAttempt
  split
  · next rest =>
    show ['-', 't', 'r', 'y'] ++ _ ++ _ = _
    rw [List.append_assoc, Digit.takeRun_sound]
    rfl
  · rfl

theorem take?_sound {s rest : List Char} {r : Release} (h : take? s = some (r, rest)) :
    r.chars ++ rest = s := by
  obtain ⟨⟨major, s₁⟩, hmajor, hr⟩ := Option.map_eq_some_iff.mp h
  simp only [Prod.mk.injEq] at hr
  obtain ⟨rfl, rfl⟩ := hr
  rw [chars_append, takeLive_sound, takeAttempt_sound, Suffix.takeAll_sound, Letter.take_sound,
    Numeral.takeDotted_sound, Numeral.take?_sound hmajor]

end Release

/-! ## Revisions -/

namespace Revision

def optChars : Option Revision → List Char
  | some r => r.chars
  | none => []

theorem ends_optChars (o : Option Revision) : Release.Ends (optChars o) := by
  rcases o with _ | _ | ⟨first, more⟩
  · exact .inl rfl
  · exact .inr ⟨[], rfl⟩
  · exact .inr ⟨first.chars ++ Numeral.dottedChars more, rfl⟩

theorem take_optChars (o : Option Revision) : take (optChars o) = (o, []) := by
  rcases o with _ | _ | ⟨first, more⟩
  · rfl
  · rfl
  · have hdot : Numeral.takeDotted (Numeral.dottedChars more) = (more, []) := by
      have hnil : Numeral.EndsDotted [] := by rintro _ ⟨⟩
      have h := Numeral.takeDotted_append more hnil
      rwa [List.append_nil] at h
    have hdigit : ∀ c ∈ (Numeral.dottedChars more).head?, Digit.ofChar? c = none := by
      intro c hc
      cases more with
      | nil => cases hc
      | cons n ns =>
        cases hc
        decide
    have htake := first.take?_append hdigit
    show take ('-' :: 'r' :: (first.chars ++ Numeral.dottedChars more)) = _
    rw [take]
    simp only [htake, hdot]

theorem take_sound (s : List Char) : optChars (take s).1 ++ (take s).2 = s := by
  unfold take
  split
  · next rest =>
    split
    · next first after h =>
      show '-' :: 'r' :: (first.chars ++ Numeral.dottedChars (Numeral.takeDotted after).1) ++ _ = _
      rw [List.cons_append, List.cons_append, List.append_assoc, Numeral.takeDotted_sound,
        Numeral.take?_sound h]
    · rfl
  · rfl

end Revision

/-! ## Versions -/

namespace Version

theorem chars_eq (v : Version) : v.chars = baseChars v.base ++ Revision.optChars v.revision := by
  rw [chars]
  cases v.revision <;> rfl

theorem takeBase?_append (b : VersionBase) {rest : List Char} (h : Release.Ends rest) :
    takeBase? (baseChars b ++ rest) = some (b, rest) := by
  cases b with
  | scm => rfl
  | release r =>
    -- A release starts with a digit, so that it is not read as `scm`.
    have hs : ∀ t, baseChars (.release r) ++ rest ≠ 's' :: 'c' :: 'm' :: t := by
      intro t ht
      have hchar : r.major.first.toChar = 's' := (List.cons.inj ht).1
      exact r.major.first.toChar_ne (by decide) hchar
    rw [takeBase?.eq_2 _ hs, baseChars, Release.take?_append r h]
    rfl

theorem takeBase?_sound {s rest : List Char} {b : VersionBase} (h : takeBase? s = some (b, rest)) :
    baseChars b ++ rest = s := by
  unfold takeBase? at h
  split at h
  · cases h
    rfl
  · obtain ⟨⟨r, t⟩, htake, hr⟩ := Option.map_eq_some_iff.mp h
    cases hr
    exact Release.take?_sound htake

/-- The text of a version is read back to it. -/
theorem ofChars?_chars (v : Version) : ofChars? v.chars = some v := by
  rw [chars_eq, ofChars?, takeBase?_append _ (Revision.ends_optChars v.revision)]
  simp only [Revision.take_optChars]

/-- A text that is read as a version is its text. -/
theorem chars_of_ofChars? {s : List Char} {v : Version} (h : ofChars? s = some v) :
    v.chars = s := by
  unfold ofChars? at h
  split at h
  · cases h
  · next base after hbase =>
    split at h
    · next revision hrev =>
      cases h
      have hsound := Revision.take_sound after
      rw [hrev, List.append_nil] at hsound
      rw [chars_eq, hsound, takeBase?_sound hbase]
    · cases h

theorem ofChars?_eq_some_iff {s : List Char} {v : Version} :
    ofChars? s = some v ↔ v.chars = s := by
  refine ⟨chars_of_ofChars?, ?_⟩
  rintro rfl
  exact v.ofChars?_chars

theorem chars_injective {v w : Version} (h : v.chars = w.chars) : v = w := by
  have hv := v.ofChars?_chars
  rw [h, w.ofChars?_chars] at hv
  exact (Option.some.inj hv).symm

theorem parse_text (v : Version) : parse v.text = .ok v := by
  rw [parse, text, String.toList_ofList, v.ofChars?_chars]

theorem parse_eq_ok_iff {s : String} {v : Version} : parse s = .ok v ↔ v.chars = s.toList := by
  rw [← ofChars?_eq_some_iff, parse]
  cases ofChars? s.toList <;> simp

end Version

end PackageCatalog
