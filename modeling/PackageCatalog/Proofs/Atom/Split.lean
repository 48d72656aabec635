import PackageCatalog.Atom
import PackageCatalog.Proofs.Name

/-!
# Where a version starts in an atom

At most one hyphen of a text parts a name from a version (`Atom.versionable_unique`): behind
any earlier one, what is left of the name would be a version itself, so that the name ends in
a version and is no package name. The first such hyphen that `Atom.splitVersion?` meets is
therefore the one that was written (`Atom.splitVersion?_append`).
-/

namespace PackageCatalog

namespace Atom

open Text NameKind

/-! ## The last part of a text -/

theorem lastPart_append {t : List Char} (h : '/' ∉ t) (s : List Char) :
    lastPart (s ++ t) = lastPart s ++ t := by
  rw [lastPart, lastPart, cutAtLast_append (beq_of_not_mem h)]
  rcases cutAtLast (· == '/') s with _ | ⟨before, after⟩ <;> rfl

theorem lastPart_cut {t : List Char} (h : '/' ∉ t) (s : List Char) :
    lastPart (s ++ '/' :: t) = t := by
  rw [lastPart, cutAtLast_cut (beq_of_not_mem h) (by decide)]

theorem slash_not_mem_version (v : Version) : '/' ∉ v.chars :=
  not_mem_of_class v.isCategoryChar_of_mem (by decide)

/-! ## The hyphen in front of a version -/

/-- A text that ends in a hyphen and a version is no name that a version may follow. -/
theorem isVersionable_append_version (s : List Char) (v : Version) :
    isVersionable (s ++ '-' :: v.chars) = false := by
  have hslash : '/' ∉ '-' :: v.chars :=
    List.not_mem_cons_of_ne_of_not_mem (by decide) (slash_not_mem_version v)
  have hstar : (lastPart s ++ '-' :: v.chars == ['*']) = false := by
    rw [beq_eq_false_iff_ne]
    intro h
    have hmem : '-' ∈ lastPart s ++ '-' :: v.chars := List.mem_append_right _ List.mem_cons_self
    rw [h] at hmem
    cases hmem with
    | tail _ hnil => cases hnil
  rw [isVersionable, lastPart_append hslash, acceptsChars, hasVersionTail_append, hstar,
    Bool.not_true, Bool.and_false, Bool.or_false]

/-- The part in front of a version is determined by the whole text. -/
theorem versionable_unique {a b : List Char} {v w : Version} (ha : isVersionable a = true)
    (hb : isVersionable b = true) (h : a ++ '-' :: v.chars = b ++ '-' :: w.chars) :
    a = b ∧ v = w := by
  -- The longer of the two names would end in a version.
  have haux : ∀ {a b : List Char} {v w : Version}, isVersionable b = true →
      (∃ t, b = a ++ t ∧ '-' :: v.chars = t ++ '-' :: w.chars) → a = b := by
    rintro a b v w hb ⟨t, rfl, ht⟩
    cases t with
    | nil => rw [List.append_nil]
    | cons c t =>
      obtain ⟨rfl, hsplit⟩ := List.cons.inj ht
      obtain ⟨u, rfl⟩ := Version.exists_chars_of_split hsplit
      rw [isVersionable_append_version] at hb
      cases hb
  have hab : a = b := by
    rcases List.append_eq_append_iff.mp h with hb' | ha'
    · exact haux hb hb'
    · exact (haux ha ha').symm
  subst hab
  exact ⟨rfl, Version.chars_injective (List.cons.inj (List.append_cancel_left h)).2⟩

/-! ## The search for the hyphen -/

theorem splitVersionAfter_sound {before s a : List Char} {v : Version}
    (h : splitVersionAfter before s = some (a, v)) :
    isVersionable a = true ∧ a ++ '-' :: v.chars = before ++ s := by
  induction s generalizing before with
  | nil => cases h
  | cons c s ih =>
    have hfurther : splitVersionAfter (before ++ [c]) s = some (a, v) →
        isVersionable a = true ∧ a ++ '-' :: v.chars = before ++ c :: s := by
      intro hs
      obtain ⟨ha, heq⟩ := ih hs
      rw [List.append_assoc] at heq
      exact ⟨ha, heq⟩
    rw [splitVersionAfter] at h
    split at h
    · next hc =>
      rw [Bool.and_eq_true, beq_iff_eq] at hc
      split at h
      · next w hw =>
        cases h
        exact ⟨hc.2, by rw [Version.chars_of_ofChars? hw, hc.1]⟩
      · exact hfurther h
    · exact hfurther h

theorem splitVersionAfter_isSome {t : List Char} (before : List Char) {v : Version}
    (h : isVersionable (before ++ t) = true) :
    (splitVersionAfter before (t ++ '-' :: v.chars)).isSome = true := by
  induction t generalizing before with
  | nil =>
    rw [List.append_nil] at h
    rw [List.nil_append, splitVersionAfter, h, v.ofChars?_chars]
    rfl
  | cons c t ih =>
    have hfurther : (splitVersionAfter (before ++ [c]) (t ++ '-' :: v.chars)).isSome = true :=
      ih (before ++ [c]) (by rw [List.append_assoc]; exact h)
    rw [List.cons_append, splitVersionAfter]
    split
    · split
      · rfl
      · exact hfurther
    · exact hfurther

/-- A name and a version are found again where they were put together. -/
theorem splitVersion?_append {a : List Char} (h : isVersionable a = true) (v : Version) :
    splitVersion? (a ++ '-' :: v.chars) = some (a, v) := by
  have hsome : (splitVersion? (a ++ '-' :: v.chars)).isSome = true :=
    splitVersionAfter_isSome [] h
  obtain ⟨⟨b, w⟩, hfound⟩ := Option.isSome_iff_exists.mp hsome
  obtain ⟨hb, heq⟩ := splitVersionAfter_sound hfound
  obtain ⟨rfl, rfl⟩ := versionable_unique hb h heq
  exact hfound

theorem splitVersion?_eq_some_iff {s a : List Char} {v : Version} :
    splitVersion? s = some (a, v) ↔ isVersionable a = true ∧ s = a ++ '-' :: v.chars := by
  constructor
  · intro h
    obtain ⟨ha, hs⟩ := splitVersionAfter_sound h
    exact ⟨ha, hs.symm⟩
  · rintro ⟨ha, rfl⟩
    exact splitVersion?_append ha v

/-! ## The place of the hyphen -/

/-- The hyphen at place `i` parts a name from a version: what stands in front of it ends, behind its
last slash, in a package name or a star, and all that follows it is the version. -/
def PartsAt (s : List Char) (i : Nat) (v : Version) : Prop :=
  s[i]? = some '-' ∧ isVersionable (s.take i) = true ∧ Version.ofChars? (s.drop (i + 1)) = some v

variable {s : List Char} {i j : Nat} {v w : Version}

theorem partsAt_iff : PartsAt s i v ↔
    ∃ a, isVersionable a = true ∧ s = a ++ '-' :: v.chars ∧ i = a.length := by
  constructor
  · rintro ⟨hhyphen, hname, hversion⟩
    obtain ⟨hi, hget⟩ := List.getElem?_eq_some_iff.mp hhyphen
    refine ⟨s.take i, hname, ?_, (List.length_take_of_le (Nat.le_of_lt hi)).symm⟩
    rw [Version.chars_of_ofChars? hversion, ← hget, ← List.drop_eq_getElem_cons hi,
      List.take_append_drop]
  · rintro ⟨a, ha, rfl, rfl⟩
    refine ⟨?_, ?_, ?_⟩
    · rw [List.getElem?_append_right (Nat.le_refl _), Nat.sub_self]
      rfl
    · rwa [List.take_left]
    · rw [← List.drop_drop, List.drop_left, List.drop_succ_cons, List.drop_zero, v.ofChars?_chars]

theorem PartsAt.unique (hi : PartsAt s i v) (hj : PartsAt s j w) : i = j := by
  obtain ⟨a, ha, hs, rfl⟩ := partsAt_iff.mp hi
  obtain ⟨b, hb, hs', rfl⟩ := partsAt_iff.mp hj
  rw [(versionable_unique ha hb (hs.symm.trans hs')).1]

/-- What is split off is what the place of the hyphen says. -/
theorem splitVersion?_eq_some_iff_partsAt {a : List Char} :
    splitVersion? s = some (a, v) ↔ ∃ i, PartsAt s i v ∧ a = s.take i := by
  rw [splitVersion?_eq_some_iff]
  constructor
  · rintro ⟨ha, rfl⟩
    exact ⟨a.length, partsAt_iff.mpr ⟨a, ha, rfl, rfl⟩, List.take_left.symm⟩
  · rintro ⟨i, hi, rfl⟩
    obtain ⟨a, ha, rfl, rfl⟩ := partsAt_iff.mp hi
    rw [List.take_left]
    exact ⟨ha, rfl⟩

/-! ## Names in front of a version -/

theorem isVersionable_of_package (p : PackageName) : isVersionable p.text.toList = true := by
  have hpart : lastPart p.text.toList = p.text.toList :=
    lastPart_append (p.slash_not_mem rfl) []
  have hvalid : NameKind.package.acceptsChars p.text.toList = true := p.valid
  rw [isVersionable, hpart, hvalid, Bool.true_or]

theorem isVersionable_of_name (n : QualifiedName) : isVersionable n.text.toList = true := by
  have htext : n.text.toList = n.category.text.toList ++ '/' :: n.package.text.toList := by
    rw [QualifiedName.text, String.toList_append, String.toList_append, List.append_assoc]
    rfl
  have hvalid : NameKind.package.acceptsChars n.package.text.toList = true := n.package.valid
  rw [isVersionable, htext, lastPart_cut (n.package.slash_not_mem rfl), hvalid, Bool.true_or]

/-- A package name holds no version to be split off. -/
theorem splitVersion?_of_package (p : PackageName) : splitVersion? p.text.toList = none := by
  cases h : splitVersion? p.text.toList with
  | none => rfl
  | some found =>
    obtain ⟨a, v⟩ := found
    have hp := isVersionable_of_package p
    rw [(splitVersion?_eq_some_iff.mp h).2, isVersionable_append_version] at hp
    cases hp

end Atom

end PackageCatalog
