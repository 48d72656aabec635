import PackageCatalog.Proofs.Name

/-!
# The dots of a version

A digit follows each dot of a version (`Version.head?_of_dot`), so that no version, and no package
name with a version behind it, ends in a dot and a word (`Version.not_suffix`).
-/

namespace PackageCatalog

/-- A digit follows each dot of the text. -/
def DotsCount (s : List Char) : Prop :=
  ∀ t w, s = t ++ '.' :: w → ∃ d : Digit, w.head? = some d.toChar

variable {s t : List Char}

theorem DotsCount.of_not_mem (h : '.' ∉ s) : DotsCount s := by
  intro t w hs
  rw [hs] at h
  exact absurd (List.mem_append_right t List.mem_cons_self) h

theorem DotsCount.append (hs : DotsCount s) (ht : DotsCount t) : DotsCount (s ++ t) := by
  intro a w h
  rcases List.append_eq_append_iff.mp h with ⟨a', -, hw⟩ | ⟨c, hc, hw⟩
  · exact ht a' w hw
  · cases c with
    | nil => exact ht [] w hw.symm
    | cons dot c =>
      obtain ⟨rfl, rfl⟩ := List.cons.inj hw
      obtain ⟨d, hd⟩ := hs a c hc
      have hhead : (c ++ t).head? = some d.toChar := by rw [List.head?_append, hd, Option.some_or]
      exact ⟨d, hhead⟩

theorem DotsCount.flatMap {α : Type} {f : α → List Char} (h : ∀ a, DotsCount (f a)) (xs : List α) :
    DotsCount (xs.flatMap f) := by
  induction xs with
  | nil => exact .of_not_mem List.not_mem_nil
  | cons x xs ih => exact (h x).append ih

/-! ## The parts of a version -/

theorem Digit.dot_not_mem (ds : List Digit) : '.' ∉ Digit.chars ds := by
  intro h
  obtain ⟨d, -, hd⟩ := List.mem_map.mp h
  exact d.toChar_ne (by decide) hd

theorem Numeral.dotsCount_chars (n : Numeral) : DotsCount n.chars :=
  .of_not_mem (Digit.dot_not_mem n.digits)

theorem Numeral.dotsCount_dotted (ns : List Numeral) : DotsCount (dottedChars ns) := by
  refine .flatMap (fun n t w h => ?_) ns
  cases t with
  | nil =>
    obtain ⟨-, rfl⟩ := List.cons.inj h
    exact ⟨n.first, rfl⟩
  | cons c t => exact n.dotsCount_chars t w (List.cons.inj h).2

theorem Suffix.dotsCount_chars (s : Suffix) : DotsCount s.chars := by
  have hkind : '.' ∉ '_' :: s.kind.chars := by cases s.kind <;> decide
  exact (DotsCount.of_not_mem hkind).append (.of_not_mem (Digit.dot_not_mem s.digits))

theorem Release.dotsCount_chars (r : Release) : DotsCount r.chars := by
  have hletter : '.' ∉ (r.letter.map Letter.toChar).toList := by
    cases r.letter with
    | none => exact List.not_mem_nil
    | some l => revert l; decide
  have hattempt : '.' ∉ attemptChars r.attempt := by
    cases r.attempt with
    | none => exact List.not_mem_nil
    | some ds =>
      rw [attemptChars, List.mem_append]
      exact not_or.mpr ⟨by decide, Digit.dot_not_mem ds⟩
  have hlive : '.' ∉ liveChars r.live := by cases r.live <;> decide
  have hstem : DotsCount r.stem :=
    ((r.major.dotsCount_chars.append (Numeral.dotsCount_dotted r.minors)).append
      (.of_not_mem hletter)).append (.flatMap Suffix.dotsCount_chars r.suffixes)
  rw [r.chars_eq_stem]
  exact hstem.append ((DotsCount.of_not_mem hattempt).append (.of_not_mem hlive))

theorem Revision.dotsCount_chars (o : Option Revision) : DotsCount (optChars o) := by
  rcases o with _ | _ | ⟨first, more⟩
  · exact .of_not_mem List.not_mem_nil
  · exact .of_not_mem (by decide)
  · have hlead : DotsCount ['-', 'r'] := .of_not_mem (by decide)
    exact (hlead.append first.dotsCount_chars).append (Numeral.dotsCount_dotted more)

namespace Version

/-- A digit follows each dot of a version. -/
theorem head?_of_dot (v : Version) : DotsCount v.chars := by
  have hbase : DotsCount (baseChars v.base) := by
    cases v.base with
    | scm => exact .of_not_mem (by decide)
    | release r => exact r.dotsCount_chars
  rw [chars_eq]
  exact hbase.append (Revision.dotsCount_chars v.revision)

/-- A package name and a version do not end in a dot and a word. -/
theorem not_suffix (p : PackageName) (v : Version) {c : Char} {rest : List Char}
    (hc : Digit.ofChar? c = none) : ¬ '.' :: c :: rest <:+ p.text.toList ++ '-' :: v.chars := by
  have hlead : DotsCount (p.text.toList ++ ['-']) :=
    (DotsCount.of_not_mem p.dot_not_mem_of_package).append (.of_not_mem (by decide))
  rintro ⟨s, hs⟩
  obtain ⟨d, hd⟩ := hlead.append v.head?_of_dot s (c :: rest) (by rw [hs, List.append_assoc]; rfl)
  exact d.toChar_ne hc (Option.some.inj hd).symm

end Version

end PackageCatalog
