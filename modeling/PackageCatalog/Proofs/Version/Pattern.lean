import Mathlib.Computability.Language
import PackageCatalog.Proofs.Version.Digits
import PackageCatalog.Proofs.Version.Text
import PackageCatalog.Version.Order

/-!
# The pattern of a version

A text is a version just when the pattern of versions matches it as a whole, and the components of
the version are then the elements that were matched, one for one (`Version.accepts_what_matches`).

The pattern is a regular language. Its letters are elements, each a mark and a body, so that a word
of it says which part of a text was matched by which part of the pattern.
-/

namespace PackageCatalog

open Computability

namespace Version

/-- A part of a text that is matched by an element of the pattern: a mark, and the digits or the
letter behind it. -/
structure Element where
  kind : ComponentKind
  mark : String
  body : List Char

namespace Element

def chars (e : Element) : List Char := e.mark.toList ++ e.body

/-- What the element says: numbers and letters stand as written, a count loses its leading zeros
and is `0` where nothing is left. -/
def value (e : Element) : List Char :=
  if e.kind = .number ∨ e.kind = .letter then e.body
  else match e.body.dropWhile (· == '0') with
    | [] => ['0']
    | kept => kept

/-- The kinds of suffixes, and that of `-try`. -/
def unboundedKinds : List ComponentKind := [.alpha, .beta, .pre, .rc, .patch, .attempt]

def isBareCount (e : Element) : Bool := e.body.isEmpty && unboundedKinds.contains e.kind

/-- Kind and value of each element, and whether it exceeds every number: a suffix or `-try` without
digits in front of `-scm` does. -/
def readings : List Element → List (ComponentKind × List Char × Bool)
  | [] => []
  | e :: rest =>
    (e.kind, e.value, e.isBareCount && rest.head?.any (·.kind == .scm)) :: readings rest

end Element

/-! ## The pattern -/

namespace Pattern

def Digits (s : List Char) : Prop := ∀ c ∈ s, '0' ≤ c ∧ c ≤ '9'

def SomeDigits (s : List Char) : Prop := s ≠ [] ∧ Digits s

def OneLetter (s : List Char) : Prop := ∃ c, 'a' ≤ c ∧ c ≤ 'z' ∧ s = [c]

def Nothing (s : List Char) : Prop := s = []

/-- One element of a kind, with a given mark and a body of a given form. -/
def one (kind : ComponentKind) (mark : String) (form : List Char → Prop) : Language Element :=
  {es | ∃ body, form body ∧ es = [⟨kind, mark, body⟩]}

def optional (l : Language Element) : Language Element := 1 + l

def numbers : Language Element := one .number "" SomeDigits * (one .number "." SomeDigits)∗

def suffix : Language Element :=
  one .alpha "_alpha" Digits + one .beta "_beta" Digits + one .pre "_pre" Digits +
    one .rc "_rc" Digits + one .patch "_p" Digits

/-- A release, with its numbers, its letter, its suffixes, `-try` and `-scm`. -/
def release : Language Element :=
  numbers * optional (one .letter "" OneLetter) * suffix∗ * optional (one .attempt "-try" Digits) *
    optional (one .scm "-scm" Nothing)

/-- A revision: `-r` alone, or with numbers that have dots between them. -/
def revision : Language Element :=
  one .revision "-r" Nothing +
    one .revision "-r" SomeDigits * (one .revision "." SomeDigits)∗

def version : Language Element := (one .scm "scm" Nothing + release) * optional revision

/-! ## Elements for the parts of a version -/

/-- One element, made from anything of a type. -/
def oneOf {α : Type} (f : α → Element) : Language Element := {es | ∃ a, es = [f a]}

section oneOf

variable {α : Type} {f : α → Element} {es : List Element}

theorem mem_oneOf_iff : es ∈ oneOf f ↔ ∃ a, es = [f a] := Iff.rfl

theorem mem_optional_iff : es ∈ optional (oneOf f) ↔ ∃ o : Option α, es = (o.map f).toList := by
  rw [optional, Language.mem_add, Language.mem_one, mem_oneOf_iff]
  constructor
  · rintro (rfl | ⟨a, rfl⟩)
    · exact ⟨none, rfl⟩
    · exact ⟨some a, rfl⟩
  · rintro ⟨_ | a, rfl⟩
    · exact .inl rfl
    · exact .inr ⟨a, rfl⟩

theorem mem_kstar_iff : es ∈ (oneOf f)∗ ↔ ∃ as : List α, es = as.map f := by
  rw [Language.mem_kstar]
  constructor
  · rintro ⟨blocks, rfl, hblocks⟩
    induction blocks with
    | nil => exact ⟨[], rfl⟩
    | cons block blocks ih =>
      obtain ⟨hblock, hrest⟩ := List.forall_mem_cons.mp hblocks
      obtain ⟨a, rfl⟩ := hblock
      obtain ⟨as, has⟩ := ih hrest
      exact ⟨a :: as, by rw [List.flatten_cons, has]; rfl⟩
  · rintro ⟨as, rfl⟩
    refine ⟨as.map fun a => [f a], ?_, ?_⟩
    · rw [← List.flatMap_def, List.map_eq_flatMap]
    · simp [mem_oneOf_iff]

end oneOf

theorem digits_iff {s : List Char} : Digits s ↔ ∃ ds, Digit.chars ds = s := by
  constructor
  · intro h
    induction s with
    | nil => exact ⟨[], rfl⟩
    | cons c s ih =>
      obtain ⟨⟨hlow, hhigh⟩, hs⟩ := List.forall_mem_cons.mp h
      obtain ⟨ds, rfl⟩ := ih hs
      have hc : 48 ≤ c.toNat ∧ c.toNat < 58 := ⟨hlow, Nat.lt_succ_of_le hhigh⟩
      have hd : Digit.ofChar? c = some ⟨c.toNat - 48, by omega⟩ := dif_pos hc
      exact ⟨_ :: ds, congrArg (· :: Digit.chars ds) (Text.ofNat_of_offset 48 10 hd)⟩
  · rintro ⟨ds, rfl⟩ c hc
    obtain ⟨d, -, rfl⟩ := List.mem_map.mp hc
    clear hc
    decide +revert

theorem someDigits_iff {s : List Char} : SomeDigits s ↔ ∃ n : Numeral, n.chars = s := by
  constructor
  · rintro ⟨hne, hs⟩
    obtain ⟨ds, rfl⟩ := digits_iff.mp hs
    cases ds with
    | nil => exact absurd rfl hne
    | cons d ds => exact ⟨⟨d, ds⟩, rfl⟩
  · rintro ⟨n, rfl⟩
    exact ⟨List.cons_ne_nil _ _, digits_iff.mpr ⟨n.digits, rfl⟩⟩

theorem oneLetter_iff {s : List Char} : OneLetter s ↔ ∃ l : Letter, [l.toChar] = s := by
  constructor
  · rintro ⟨c, hlow, hhigh, rfl⟩
    have hc : 97 ≤ c.toNat ∧ c.toNat < 123 := ⟨hlow, Nat.lt_succ_of_le hhigh⟩
    have hl : Letter.ofChar? c = some ⟨c.toNat - 97, by omega⟩ := dif_pos hc
    exact ⟨_, congrArg (fun c => [c]) (Text.ofNat_of_offset 97 26 hl)⟩
  · rintro ⟨l, rfl⟩
    refine ⟨l.toChar, ?_, ?_, rfl⟩ <;> decide +revert

theorem nothing_iff {s : List Char} : Nothing s ↔ ∃ _ : Unit, [] = s := by
  rw [Nothing, exists_const, eq_comm]

theorem one_eq_oneOf {α : Type} {form : List Char → Prop} {write : α → List Char}
    (h : ∀ {s}, form s ↔ ∃ a, write a = s) (kind : ComponentKind) (mark : String) :
    one kind mark form = oneOf fun a => ⟨kind, mark, write a⟩ := by
  ext es
  constructor
  · rintro ⟨body, hbody, rfl⟩
    obtain ⟨a, rfl⟩ := h.mp hbody
    exact ⟨a, rfl⟩
  · rintro ⟨a, rfl⟩
    exact ⟨write a, h.mpr ⟨a, rfl⟩, rfl⟩

end Pattern

end Version

/-! ## The elements of a version -/

open Version (Element)

def SuffixKind.mark : SuffixKind → String
  | alpha => "_alpha"
  | beta => "_beta"
  | pre => "_pre"
  | rc => "_rc"
  | patch => "_p"

def Numeral.element (kind : ComponentKind) (mark : String) (n : Numeral) : Element :=
  ⟨kind, mark, n.chars⟩

def Letter.element (l : Letter) : Element := ⟨.letter, "", [l.toChar]⟩

def Suffix.element (s : Suffix) : Element := ⟨s.kind.component, s.kind.mark, Digit.chars s.digits⟩

namespace Release

def attemptElement (digits : List Digit) : Element := ⟨.attempt, "-try", Digit.chars digits⟩

def liveElements (live : Bool) : List Element := if live then [⟨.scm, "-scm", []⟩] else []

def elements (r : Release) : List Element :=
  r.major.element .number "" :: r.minors.map (Numeral.element .number ".") ++
    (r.letter.map Letter.element).toList ++ r.suffixes.map Suffix.element ++
    (r.attempt.map attemptElement).toList ++ liveElements r.live

end Release

def Revision.elements : Revision → List Element
  | bare => [⟨.revision, "-r", []⟩]
  | numbered first more =>
    first.element .revision "-r" :: more.map (Numeral.element .revision ".")

namespace Version

def baseElements : VersionBase → List Element
  | .scm => [⟨.scm, "scm", []⟩]
  | .release r => r.elements

def elements (v : Version) : List Element :=
  baseElements v.base ++ (v.revision.map Revision.elements).getD []

end Version

/-! ## The words of the pattern -/

namespace Version.Pattern

variable {es : List Element}

theorem suffix_eq : suffix = oneOf Suffix.element := by
  simp only [suffix, one_eq_oneOf digits_iff]
  ext es
  constructor
  · rintro ((((⟨ds, rfl⟩ | ⟨ds, rfl⟩) | ⟨ds, rfl⟩) | ⟨ds, rfl⟩) | ⟨ds, rfl⟩)
    · exact ⟨⟨.alpha, ds⟩, rfl⟩
    · exact ⟨⟨.beta, ds⟩, rfl⟩
    · exact ⟨⟨.pre, ds⟩, rfl⟩
    · exact ⟨⟨.rc, ds⟩, rfl⟩
    · exact ⟨⟨.patch, ds⟩, rfl⟩
  · rintro ⟨⟨kind, ds⟩, rfl⟩
    cases kind with
    | alpha => exact .inl (.inl (.inl (.inl ⟨ds, rfl⟩)))
    | beta => exact .inl (.inl (.inl (.inr ⟨ds, rfl⟩)))
    | pre => exact .inl (.inl (.inr ⟨ds, rfl⟩))
    | rc => exact .inl (.inr ⟨ds, rfl⟩)
    | patch => exact .inr ⟨ds, rfl⟩

/-- Numbers behind a mark, the later ones behind dots. -/
theorem mem_dotted_iff {kind : ComponentKind} {mark : String} :
    es ∈ one kind mark SomeDigits * (one kind "." SomeDigits)∗ ↔
      ∃ (n : Numeral) (ns : List Numeral),
        es = n.element kind mark :: ns.map (Numeral.element kind ".") := by
  rw [one_eq_oneOf someDigits_iff, one_eq_oneOf someDigits_iff, Language.mem_mul]
  constructor
  · rintro ⟨_, ⟨n, rfl⟩, rest, hrest, rfl⟩
    obtain ⟨ns, rfl⟩ := mem_kstar_iff.mp hrest
    exact ⟨n, ns, rfl⟩
  · rintro ⟨n, ns, rfl⟩
    exact ⟨_, ⟨n, rfl⟩, _, mem_kstar_iff.mpr ⟨ns, rfl⟩, rfl⟩

theorem mem_live_iff :
    es ∈ optional (one .scm "-scm" Nothing) ↔ ∃ live, es = Release.liveElements live := by
  rw [one_eq_oneOf nothing_iff, mem_optional_iff]
  constructor
  · rintro ⟨_ | _, rfl⟩
    · exact ⟨false, rfl⟩
    · exact ⟨true, rfl⟩
  · rintro ⟨_ | _, rfl⟩
    · exact ⟨none, rfl⟩
    · exact ⟨some (), rfl⟩

theorem mem_release_iff : es ∈ release ↔ ∃ r : Release, es = r.elements := by
  rw [release, suffix_eq, one_eq_oneOf oneLetter_iff, one_eq_oneOf digits_iff]
  constructor
  · rintro ⟨_, ⟨_, ⟨_, ⟨_, hnumbers, _, hletter, rfl⟩, _, hsuffixes, rfl⟩, _, hattempt, rfl⟩, _,
      hlive, rfl⟩
    obtain ⟨major, minors, rfl⟩ := mem_dotted_iff.mp hnumbers
    obtain ⟨letter, rfl⟩ := mem_optional_iff.mp hletter
    obtain ⟨suffixes, rfl⟩ := mem_kstar_iff.mp hsuffixes
    obtain ⟨attempt, rfl⟩ := mem_optional_iff.mp hattempt
    obtain ⟨live, rfl⟩ := mem_live_iff.mp hlive
    exact ⟨⟨major, minors, letter, suffixes, attempt, live⟩, rfl⟩
  · rintro ⟨⟨major, minors, letter, suffixes, attempt, live⟩, rfl⟩
    exact Language.append_mem_mul (Language.append_mem_mul (Language.append_mem_mul
      (Language.append_mem_mul (mem_dotted_iff.mpr ⟨major, minors, rfl⟩)
        (mem_optional_iff.mpr ⟨letter, rfl⟩)) (mem_kstar_iff.mpr ⟨suffixes, rfl⟩))
      (mem_optional_iff.mpr ⟨attempt, rfl⟩)) (mem_live_iff.mpr ⟨live, rfl⟩)

theorem mem_revision_iff : es ∈ revision ↔ ∃ r : Revision, es = r.elements := by
  rw [revision, Language.mem_add, mem_dotted_iff, one_eq_oneOf nothing_iff]
  constructor
  · rintro (⟨-, rfl⟩ | ⟨first, more, rfl⟩)
    · exact ⟨.bare, rfl⟩
    · exact ⟨.numbered first more, rfl⟩
  · rintro ⟨_ | ⟨first, more⟩, rfl⟩
    · exact .inl ⟨(), rfl⟩
    · exact .inr ⟨first, more, rfl⟩

theorem mem_base_iff :
    es ∈ one .scm "scm" Nothing + release ↔ ∃ b, es = Version.baseElements b := by
  rw [Language.mem_add, mem_release_iff, one_eq_oneOf nothing_iff]
  constructor
  · rintro (⟨-, rfl⟩ | ⟨r, rfl⟩)
    · exact ⟨.scm, rfl⟩
    · exact ⟨.release r, rfl⟩
  · rintro ⟨_ | r, rfl⟩
    · exact .inl ⟨(), rfl⟩
    · exact .inr ⟨r, rfl⟩

/-- The words of the pattern are the elements of versions. -/
theorem mem_version_iff : es ∈ version ↔ ∃ v : Version, v.elements = es := by
  rw [version, Language.mem_mul]
  constructor
  · rintro ⟨_, hbase, _, hrevision, rfl⟩
    obtain ⟨base, rfl⟩ := mem_base_iff.mp hbase
    rcases hrevision with rfl | hrevision
    · exact ⟨⟨base, none⟩, rfl⟩
    · obtain ⟨r, rfl⟩ := mem_revision_iff.mp hrevision
      exact ⟨⟨base, some r⟩, rfl⟩
  · rintro ⟨⟨base, revision⟩, rfl⟩
    refine ⟨_, mem_base_iff.mpr ⟨base, rfl⟩, _, ?_, rfl⟩
    cases revision with
    | none => exact .inl rfl
    | some r => exact .inr (mem_revision_iff.mpr ⟨r, rfl⟩)

end Version.Pattern

/-! ## The text of the elements -/

theorem Numeral.flatMap_chars_element (kind : ComponentKind) (ns : List Numeral) :
    (ns.map (Numeral.element kind ".")).flatMap Element.chars = dottedChars ns := by
  have hdotted : Element.chars ∘ Numeral.element kind "." = fun n => '.' :: n.chars := by
    funext n
    simp [Element.chars, Numeral.element]
  rw [List.flatMap_map, ← Function.comp_def, hdotted, dottedChars]

theorem Suffix.chars_element (s : Suffix) : s.element.chars = s.chars := by
  obtain ⟨kind, ds⟩ := s
  cases kind <;> simp [Element.chars, element, chars, SuffixKind.mark, SuffixKind.chars]

theorem Release.flatMap_chars_elements (r : Release) :
    r.elements.flatMap Element.chars = r.chars := by
  have hsuffixes : (r.suffixes.map Suffix.element).flatMap Element.chars =
      r.suffixes.flatMap Suffix.chars := by
    rw [List.flatMap_map]
    exact List.flatMap_congr fun s _ => s.chars_element
  obtain ⟨major, minors, letter, suffixes, attempt, live⟩ := r
  have hletter : (letter.map Letter.element).toList.flatMap Element.chars =
      (letter.map Letter.toChar).toList := by
    cases letter <;> rfl
  have hattempt : (attempt.map attemptElement).toList.flatMap Element.chars =
      attemptChars attempt := by
    cases attempt with
    | none => rfl
    | some ds => simp [Element.chars, attemptElement, attemptChars]
  have hlive : (liveElements live).flatMap Element.chars = liveChars live := by
    cases live <;> rfl
  have h := chars_append ⟨major, minors, letter, suffixes, attempt, live⟩ []
  simp only [List.append_nil] at h
  simp only [h, elements, List.flatMap_append, List.cons_append, List.flatMap_cons,
    Numeral.flatMap_chars_element, hletter, hsuffixes, hattempt, hlive, List.append_assoc]
  rfl

theorem Version.flatMap_chars_elements (v : Version) :
    v.elements.flatMap Element.chars = v.chars := by
  obtain ⟨base, revision⟩ := v
  have hbase : (baseElements base).flatMap Element.chars = baseChars base := by
    cases base with
    | scm => rfl
    | release r => exact r.flatMap_chars_elements
  have hrevision : ((revision.map Revision.elements).getD []).flatMap Element.chars =
      Revision.optChars revision := by
    rcases revision with _ | _ | ⟨first, more⟩
    · rfl
    · rfl
    · simp [Revision.elements, Numeral.flatMap_chars_element, Element.chars, Numeral.element,
        Revision.optChars, Revision.chars]
  rw [elements, List.flatMap_append, hbase, hrevision, chars_eq]

/-! ## What the elements say -/

def Component.reading (c : Component) : ComponentKind × List Char × Bool :=
  (c.kind, c.valueChars, c.isUnbounded)

namespace Version.Element

variable {es rest : List Element}

def nextIsLive (rest : List Element) : Bool := rest.head?.any (·.kind == .scm)

/-- What cannot exceed every number says the same whatever follows it. -/
theorem readings_append (h : ∀ e ∈ es, e.isBareCount = false) (rest : List Element) :
    readings (es ++ rest) = es.map (fun e => (e.kind, e.value, false)) ++ readings rest := by
  induction es with
  | nil => rfl
  | cons e es ih =>
    rw [List.forall_mem_cons] at h
    rw [List.cons_append, readings, h.1, Bool.false_and, ih h.2]
    rfl

theorem readings_count {kind : ComponentKind} (h : kind ≠ .number ∧ kind ≠ .letter) (mark : String)
    (ds : List Digit) (rest : List Element) :
    readings (⟨kind, mark, Digit.chars ds⟩ :: rest) =
      (kind, Digit.chars (Component.countDigits ds),
        unboundedKinds.contains kind && (nextIsLive rest && ds.isEmpty)) :: readings rest := by
  have hvalue : value ⟨kind, mark, Digit.chars ds⟩ = Digit.chars (Component.countDigits ds) := by
    rw [value, if_neg (not_or.mpr h), Digit.dropWhile_chars, Component.countDigits]
    cases Digit.dropZeros ds <;> rfl
  have hempty : (Digit.chars ds).isEmpty = ds.isEmpty := by cases ds <;> rfl
  have hbare : (isBareCount ⟨kind, mark, Digit.chars ds⟩ && nextIsLive rest) =
      (unboundedKinds.contains kind && (nextIsLive rest && ds.isEmpty)) := by
    rw [isBareCount, hempty]
    ac_rfl
  rw [readings, hvalue]
  exact congrArg (fun unbounded => (kind, _, unbounded) :: readings rest) hbare

end Version.Element

open Version.Element (readings nextIsLive unboundedKinds)

theorem Numeral.readings_elements (mark : String) (ns : List Numeral) (rest : List Element) :
    readings (ns.map (element .number mark) ++ rest) =
      (ns.map Component.number).map Component.reading ++ readings rest := by
  have hplain : ∀ e ∈ ns.map (element .number mark), e.isBareCount = false := by
    simp [element, Element.isBareCount, unboundedKinds]
  rw [Element.readings_append hplain, List.map_map, List.map_map]
  rfl

theorem Suffix.readings_elements (ss : List Suffix) (rest : List Element) :
    readings (ss.map element ++ rest) =
      (Suffix.components (nextIsLive rest) ss).map Component.reading ++ readings rest := by
  have hcount (s : Suffix) : s.kind.component ≠ .number ∧ s.kind.component ≠ .letter := by
    cases s.kind <;> decide
  have hkind (s : Suffix) : unboundedKinds.contains s.kind.component = true := by
    cases s.kind <;> rfl
  induction ss with
  | nil => rfl
  | cons s ss ih =>
    rw [List.map_cons, List.cons_append, element, Element.readings_count (hcount s), hkind,
      Bool.true_and, ih]
    cases ss with
    | nil => rfl
    | cons t ts =>
      -- What comes next is a suffix, not `-scm`.
      have hnext : nextIsLive ((t :: ts).map element ++ rest) = false := by
        obtain ⟨kind, ds⟩ := t
        cases kind <;> rfl
      rw [hnext]
      rfl

theorem Release.readings_elements (r : Release) {rest : List Element}
    (h : nextIsLive rest = false) :
    readings (r.elements ++ rest) = r.components.map Component.reading ++ readings rest := by
  obtain ⟨major, minors, letter, suffixes, attempt, live⟩ := r
  have hletter (rest : List Element) : readings ((letter.map Letter.element).toList ++ rest) =
      (letter.map Component.letter).toList.map Component.reading ++ readings rest := by
    cases letter <;> rfl
  have hattempt (rest : List Element) : readings ((attempt.map attemptElement).toList ++ rest) =
      (attempt.map fun ds => .attempt ds (nextIsLive rest && ds.isEmpty)).toList.map
        Component.reading ++ readings rest := by
    cases attempt with
    | none => rfl
    | some ds => exact Element.readings_count (by decide) "-try" ds rest
  have hlive : readings (liveElements live ++ rest) =
      (if live then [Component.scm] else []).map Component.reading ++ readings rest := by
    cases live <;> rfl
  have hnextLive : nextIsLive (liveElements live ++ rest) = live := by
    cases live with
    | true => rfl
    | false => exact h
  have hnextAttempt : nextIsLive ((attempt.map attemptElement).toList ++
      (liveElements live ++ rest)) = (live && attempt.isNone) := by
    cases attempt with
    | none => exact hnextLive.trans (Bool.and_true _).symm
    | some ds => exact (Bool.and_false _).symm
  have hmajor (rest : List Element) : readings (major.element .number "" :: rest) =
      (Component.number major).reading :: readings rest :=
    Numeral.readings_elements "" [major] rest
  simp only [elements, components, List.append_assoc, List.map_append, List.cons_append,
    List.map_cons, hmajor, Numeral.readings_elements, hletter, Suffix.readings_elements, hattempt,
    hlive, hnextLive, hnextAttempt]

theorem Revision.readings_elements (r : Revision) :
    readings r.elements = r.components.map Component.reading := by
  have hcount (mark : String) (ds : List Digit) (rest : List Element) :
      readings (⟨.revision, mark, Digit.chars ds⟩ :: rest) =
        (Component.revision ds).reading :: readings rest :=
    Element.readings_count (by decide) mark ds rest
  cases r with
  | bare => exact hcount "-r" [] []
  | numbered first more =>
    have hmore : readings (more.map (Numeral.element .revision ".")) =
        (more.map fun n => .revision n.digits).map Component.reading := by
      induction more with
      | nil => rfl
      | cons n more ih =>
        rw [List.map_cons, Numeral.element, Numeral.chars, hcount, ih]
        rfl
    rw [elements, Numeral.element, Numeral.chars, hcount, hmore]
    rfl

theorem Version.readings_elements (v : Version) :
    readings v.elements = v.components.map Component.reading := by
  obtain ⟨base, revision⟩ := v
  have hrevision : readings ((revision.map Revision.elements).getD []) =
      (revisionComponents ⟨base, revision⟩).map Component.reading := by
    cases revision with
    | none => rfl
    | some r => exact r.readings_elements
  have hnext : nextIsLive ((revision.map Revision.elements).getD []) = false := by
    rcases revision with _ | _ | _ <;> rfl
  rw [elements, components, List.map_append, ← hrevision]
  cases base with
  | scm => rfl
  | release r => exact r.readings_elements hnext

/-! ## Versions and what the pattern matches -/

namespace Version

/-- A text is a version if and only if the pattern matches it as a whole, and the components of the
version are what the elements that were matched say, one for one. -/
theorem accepts_what_matches (s : String) :
    ((∃ v, parse s = .ok v) ↔ ∃ es ∈ Pattern.version, es.flatMap Element.chars = s.toList) ∧
      ∀ v es, parse s = .ok v → es ∈ Pattern.version → es.flatMap Element.chars = s.toList →
        v.components.map Component.reading = readings es ∧ v.text = s := by
  constructor
  · constructor
    · rintro ⟨v, hv⟩
      refine ⟨v.elements, Pattern.mem_version_iff.mpr ⟨v, rfl⟩, ?_⟩
      rw [v.flatMap_chars_elements, parse_eq_ok_iff.mp hv]
    · rintro ⟨es, hes, htext⟩
      obtain ⟨v, rfl⟩ := Pattern.mem_version_iff.mp hes
      rw [v.flatMap_chars_elements] at htext
      exact ⟨v, parse_eq_ok_iff.mpr htext⟩
  · intro v es hv hes htext
    obtain ⟨w, rfl⟩ := Pattern.mem_version_iff.mp hes
    rw [w.flatMap_chars_elements] at htext
    have hchars := parse_eq_ok_iff.mp hv
    obtain rfl : v = w := chars_injective (hchars.trans htext.symm)
    refine ⟨v.readings_elements.symm, ?_⟩
    rw [text, hchars, String.ofList_toList]

/-- `_pre` without a number is unbounded in front of `-scm`; its missing number reads `0`, and the
number of the revision loses its zero. -/
theorem accepts_pre_before_scm :
    ∃ v, parse "1.02b_pre-scm-r03" = .ok v ∧ v.components.map Component.reading =
      [(.number, ['1'], false), (.number, ['0', '2'], false), (.letter, ['b'], false),
        (.pre, ['0'], true), (.scm, ['0'], false), (.revision, ['3'], false)] := by
  have hmatched : [⟨.number, "", ['1']⟩, ⟨.number, ".", ['0', '2']⟩, ⟨.letter, "", ['b']⟩,
      ⟨.pre, "_pre", []⟩, ⟨.scm, "-scm", []⟩, ⟨.revision, "-r", ['0', '3']⟩] ∈ Pattern.version :=
    Pattern.mem_version_iff.mpr
      ⟨⟨.release ⟨⟨1, []⟩, [⟨0, [2]⟩], some 1, [⟨.pre, []⟩], none, true⟩,
        some (.numbered ⟨0, [3]⟩ [])⟩, rfl⟩
  obtain ⟨haccepts, hreads⟩ := accepts_what_matches "1.02b_pre-scm-r03"
  obtain ⟨v, hv⟩ := haccepts.mpr ⟨_, hmatched, by simp [Element.chars]⟩
  exact ⟨v, hv, (hreads v _ hv hmatched (by simp [Element.chars])).1⟩

end Version

end PackageCatalog
