import PackageCatalog.Proofs.Version.Hyphens
import PackageCatalog.Proofs.Version.Revision

/-!
# Taking the revision off a version and putting it back

A `-r` stands nowhere in a version but at its revision, which has digits and dots only. So the
version without its revision is what is left when its text is cut at the last `-r`
(`Version.chars_withoutRevision`), and when its components are rid of those of the revision
(`Version.components_withoutRevision`). The text of a revision shows its numbers without leading
zeros, and puts back a revision that weighs the same.
-/

namespace PackageCatalog

/-! ## Cutting a text at the last mark -/

namespace Text

/-- The text before the last occurrence of `mark`, and the text after it. -/
def cutAroundLast (mark : List Char) : List Char → Option (List Char × List Char)
  | [] => if mark.isEmpty then some ([], []) else none
  | c :: rest =>
    match cutAroundLast mark rest with
    | some (before, after) => some (c :: before, after)
    | none =>
      if mark.isPrefixOf (c :: rest) then some ([], (c :: rest).drop mark.length) else none

variable {mark before after s : List Char} {c : Char}

theorem cutAroundLast_eq_none (hmark : mark ≠ []) (h : ∀ t w, s ≠ t ++ (mark ++ w)) :
    cutAroundLast mark s = none := by
  induction s with
  | nil => rw [cutAroundLast, if_neg (by simpa using hmark)]
  | cons c s ih =>
    have hrest : cutAroundLast mark s = none :=
      ih fun t w hs => h (c :: t) w (congrArg (c :: ·) hs)
    have hhere : ¬ mark.isPrefixOf (c :: s) = true := by
      intro hprefix
      obtain ⟨w, hw⟩ := List.isPrefixOf_iff_prefix.mp hprefix
      exact h [] w hw.symm
    rw [cutAroundLast, hrest]
    exact if_neg hhere

/-- A mark is the last one if what it starts with does not occur behind. -/
theorem cutAroundLast_append (before : List Char) (h : c ∉ mark ++ after) :
    cutAroundLast (c :: mark) (before ++ (c :: mark ++ after)) = some (before, after) := by
  induction before with
  | nil =>
    have hbehind : cutAroundLast (c :: mark) (mark ++ after) = none :=
      cutAroundLast_eq_none (List.cons_ne_nil c mark) fun t w hs => h (by simp [hs])
    have hhere : (c :: mark).isPrefixOf (c :: (mark ++ after)) = true :=
      List.isPrefixOf_iff_prefix.mpr ⟨after, rfl⟩
    rw [List.nil_append, List.cons_append, cutAroundLast, hbehind]
    refine (if_pos hhere).trans ?_
    rw [List.length_cons, List.drop_succ_cons, List.drop_left]
  | cons d before ih => rw [List.cons_append, cutAroundLast, ih]

end Text

/-! ## The text without its revision -/

namespace Version

/-- A digit or a dot. -/
def isRevisionChar (c : Char) : Bool := c.isDigit || c == '.'

/-- The text up to its last `-r`, provided that only digits and dots follow. -/
def cutRevision (s : List Char) : List Char :=
  match Text.cutAroundLast ['-', 'r'] s with
  | some (before, after) => if after.all isRevisionChar then before else s
  | none => s

theorem baseChars_ne (b : VersionBase) (t w : List Char) : baseChars b ≠ t ++ '-' :: 'r' :: w := by
  intro h
  cases b with
  | scm =>
    have hyphen : '-' ∈ baseChars .scm := by simp [h]
    exact absurd hyphen (by decide)
  | release r =>
    rw [baseChars, r.chars_eq_stem] at h
    obtain ⟨t₁, -, h₁⟩ := Text.exists_of_append_eq (hyphen_not_mem_of_all r.all_isStemChar_stem) h
    obtain ⟨t₂, -, h₂⟩ := Release.hyphen_behind_attempt h₁ (by simp)
    rw [← List.append_nil (Release.liveChars r.live)] at h₂
    rcases Release.hyphen_live_cases h₂ with rfl | ⟨t₃, h₃⟩
    · cases hlive : r.live <;> simp [hlive, Release.liveChars] at h₂
    · simp at h₃

theorem isRevisionChar_toChar (d : Digit) : isRevisionChar d.toChar = true := by
  decide +revert

theorem all_isRevisionChar (n : Numeral) : n.chars.all isRevisionChar = true := by
  rw [Numeral.chars, Digit.chars, List.all_map, List.all_eq_true]
  exact fun d _ => isRevisionChar_toChar d

/-- Only digits and dots stand behind the `-r` of a revision. -/
theorem exists_chars_of_revision (r : Revision) :
    ∃ numbers, r.chars = '-' :: 'r' :: numbers ∧ numbers.all isRevisionChar = true := by
  cases r with
  | bare => exact ⟨[], rfl, rfl⟩
  | numbered first more =>
    refine ⟨first.chars ++ Numeral.dottedChars more, rfl, ?_⟩
    rw [List.all_append, all_isRevisionChar, Numeral.dottedChars, List.all_flatMap, Bool.true_and,
      List.all_eq_true]
    exact fun n _ => all_isRevisionChar n

/-- The text of a version without its revision is cut off from that of the version. -/
theorem chars_withoutRevision (v : Version) : v.withoutRevision.chars = cutRevision v.chars := by
  obtain ⟨base, revision⟩ := v
  have hbase : chars (withoutRevision ⟨base, revision⟩) = baseChars base := List.append_nil _
  rw [hbase, chars_eq, cutRevision]
  cases revision with
  | none =>
    rw [Revision.optChars, List.append_nil, Text.cutAroundLast_eq_none (List.cons_ne_nil _ _)
      (baseChars_ne base)]
  | some r =>
    obtain ⟨numbers, hchars, hall⟩ := exists_chars_of_revision r
    have hyphen : '-' ∉ ['r'] ++ numbers := by
      intro hmem
      rcases List.mem_cons.mp hmem with hr | hnumbers
      · exact absurd hr (by decide)
      · exact absurd (List.all_eq_true.mp hall '-' hnumbers) (by decide)
    have hcut : Text.cutAroundLast ['-', 'r'] (baseChars base ++ '-' :: 'r' :: numbers) =
        some (baseChars base, numbers) := Text.cutAroundLast_append (baseChars base) hyphen
    rw [Revision.optChars, hchars, hcut]
    exact (if_pos hall).symm

theorem components_withoutRevision (v : Version) :
    v.withoutRevision.components = v.components.filter (·.kind != .revision) := by
  have hbase : (baseComponents v.base).filter (·.kind != .revision) = baseComponents v.base :=
    List.filter_eq_self.mpr fun c hc => bne_iff_ne.mpr (kind_ne_revision_of_mem_baseComponents hc)
  have hrevision : v.revisionComponents.filter (·.kind != .revision) = [] := by
    refine List.filter_eq_nil_iff.mpr fun c hc => ?_
    obtain ⟨digits, rfl⟩ := eq_revision_of_mem hc
    exact Bool.false_ne_true
  rw [components, components, List.filter_append, hbase, hrevision]
  rfl

/-- A version is not less than the same version without its revision. -/
theorem withoutRevision_isLE (v : Version) : (v.withoutRevision.compare v).isLE = true := by
  have hnil {bs : List Weight} (h : ∀ w ∈ bs, w.OfRevision) :
      (compareWeights [] bs).isLE = true := by
    induction bs with
    | nil =>
      rw [compareWeights]
      rfl
    | cons b bs ih =>
      rw [List.forall_mem_cons] at h
      rw [compareWeights]
      rcases h.1.compare_finish with rfl | ⟨-, hlt⟩
      · exact ih h.2
      · rw [hlt]
        rfl
  rw [compare_eq_of_base (show v.withoutRevision.baseWeights = v.baseWeights from rfl)]
  exact hnil v.ofRevision_of_mem_revisionWeights

end Version

/-! ## The text of a revision -/

namespace Numeral

/-- The same number without leading zeros; `0` stays. -/
def counted (n : Numeral) : Numeral :=
  match Digit.dropZeros n.digits with
  | [] => ⟨0, []⟩
  | d :: ds => ⟨d, ds⟩

theorem digits_counted (n : Numeral) : n.counted.digits = Component.countDigits n.digits := by
  rw [counted, Component.countDigits]
  cases Digit.dropZeros n.digits <;> rfl

end Numeral

/-- The revision as its text shows it: numbers without leading zeros, `0` for none. -/
def Revision.counted : Option Revision → Revision
  | some (numbered first more) => numbered first.counted (more.map Numeral.counted)
  | _ => numbered ⟨0, []⟩ []

theorem Text.toList_intercalate (sep first : String) (more : List String) :
    (sep.intercalate (first :: more)).toList =
      first.toList ++ more.flatMap fun s => sep.toList ++ s.toList := by
  induction more generalizing first with
  | nil => simp
  | cons s more ih =>
    rw [String.intercalate_cons_cons, String.toList_append, String.toList_append, ih,
      List.flatMap_cons, List.append_assoc, List.append_assoc]

namespace Version

theorem chars_counted (n : Numeral) :
    (Component.revision n.digits).valueChars = n.counted.chars :=
  congrArg Digit.chars n.digits_counted.symm

/-- Behind a hyphen, the text of the revision is that of a revision. -/
theorem toList_revisionText (v : Version) :
    '-' :: v.revisionText.toList = (Revision.counted v.revision).chars := by
  have hnone : Component.valueChars (.revision []) = ['0'] := rfl
  have hzero (s : String) (hs : s.toList = ['r', '0']) :
      '-' :: s.toList = (Revision.numbered ⟨0, []⟩ []).chars := congrArg ('-' :: ·) hs
  obtain ⟨base, revision⟩ := v
  rcases revision with _ | _ | ⟨first, more⟩
  · exact hzero "r0" (by simp)
  · exact hzero _ (by simp [revisionText, revisionComponents, Revision.components, hnone])
  · have hnumbers : (Revision.numbered first more).components.map
        (fun c => String.ofList c.valueChars) =
        String.ofList first.counted.chars :: more.map fun n => String.ofList n.counted.chars := by
      rw [Revision.components, List.map_cons, List.map_map, chars_counted]
      exact congrArg _ (List.map_congr_left fun n _ => congrArg String.ofList (chars_counted n))
    have htext : revisionText ⟨base, some (.numbered first more)⟩ = "r" ++
        ".".intercalate ((Revision.numbered first more).components.map
          fun c => String.ofList c.valueChars) := rfl
    rw [htext, hnumbers, String.toList_append, Text.toList_intercalate]
    simp [Revision.counted, Revision.chars, Numeral.dottedChars, List.flatMap_map]

/-- The version with its revision put back as its text shows it. -/
def putBack (v : Version) : Version := { v with revision := some (Revision.counted v.revision) }

theorem parse_putBack (v : Version) :
    parse (v.withoutRevision.text ++ "-" ++ v.revisionText) = .ok v.putBack := by
  have hbase : v.withoutRevision.chars = baseChars v.base := List.append_nil _
  have hrevision : Revision.optChars v.putBack.revision = '-' :: v.revisionText.toList :=
    v.toList_revisionText.symm
  rw [parse_eq_ok_iff, chars_eq, hrevision, String.toList_append, String.toList_append, text,
    String.toList_ofList, hbase, List.append_assoc]
  rfl

theorem weight_counted (n : Numeral) :
    (Component.revision n.counted.digits).weight false =
      (Component.revision n.digits).weight false := by
  rw [Component.weight, Component.weight, Numeral.digits_counted, Component.value_countDigits]

/-- The revision that is put back ties with the one that was taken off. -/
theorem equals_putBack (v : Version) : v.putBack.equals v = true := by
  have hbase : v.putBack.baseWeights = v.baseWeights := rfl
  rw [equals_iff, compare_eq_of_base hbase]
  obtain ⟨base, revision⟩ := v
  rcases revision with _ | _ | ⟨first, more⟩
  · show compareWeights [Weight.finish] [] = .eq
    rw [compareWeights, compareWeights]
    rfl
  · show compareWeights [Weight.finish] [Weight.finish] = .eq
    exact Std.ReflCmp.compare_self
  · have hweights : revisionWeights (putBack ⟨base, some (.numbered first more)⟩) =
        revisionWeights ⟨base, some (.numbered first more)⟩ := by
      simp only [revisionWeights, revisionComponents, putBack, Revision.counted,
        Revision.components, List.map_cons, List.map_map, weight_counted]
      exact congrArg _ (List.map_congr_left fun n _ => weight_counted n)
    rw [hweights]
    exact Std.ReflCmp.compare_self

/-- Without its revision, a version is written as its text up to the revision, and its components
are those of other kinds. This is read back as it is, has no revision left to take off, and is not
greater. With the text of the revision behind it, it is read as a version equal to the first. -/
theorem taken_off_and_put_back (v : Version) :
    v.withoutRevision.text = String.ofList (cutRevision v.text.toList) ∧
      v.withoutRevision.components = v.components.filter (·.kind != .revision) ∧
      parse v.withoutRevision.text = .ok v.withoutRevision ∧
      v.withoutRevision.revisionText = "r0" ∧
      v.withoutRevision.withoutRevision = v.withoutRevision ∧
      (v.withoutRevision.compare v).isLE = true ∧
      ∃ w, parse (v.withoutRevision.text ++ "-" ++ v.revisionText) = .ok w ∧ w.equals v = true := by
  refine ⟨?_, v.components_withoutRevision, v.withoutRevision.parse_text, rfl, rfl,
    v.withoutRevision_isLE, v.putBack, v.parse_putBack, v.equals_putBack⟩
  rw [text, chars_withoutRevision, text, String.toList_ofList]

end Version

end PackageCatalog
