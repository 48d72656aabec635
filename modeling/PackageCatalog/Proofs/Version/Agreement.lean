import PackageCatalog.Proofs.Version.WithoutRevision

/-!
# What equal versions agree on

Equal versions have bases of one weight and revisions that tie number by number, so they agree on
the kinds of their parts. They need not agree on zeros: those in front of the first number, which
keep it from being all nines, and revision numbers 0 at the end, which the text of the revision
shows (`Version.agree_but_for_zeros`).
-/

namespace PackageCatalog

open Weight (finish)

theorem Suffix.map_kind_components (unbounded : Bool) (ss : List Suffix) :
    (Suffix.components unbounded ss).map Component.kind = ss.map (·.kind.component) := by
  fun_induction Suffix.components unbounded ss with
  | case1 => rfl
  | case2 s => rfl
  | case3 s rest _ ih => exact congrArg (s.kind.component :: ·) ih

theorem SuffixKind.component_ne (k : SuffixKind) :
    k.component ≠ .number ∧ k.component ≠ .attempt ∧ k.component ≠ .scm := by
  cases k <;> decide

namespace Version

variable {a b : Version}

/-! ## Weights of the parts -/

theorem baseWeights_eq_of_equals (h : a.equals b = true) : a.baseWeights = b.baseWeights := by
  rw [equals_iff] at h
  have hab : (a.compare b).isLE = true := by rw [h]; rfl
  have hba : (b.compare a).isLE = true := by rw [Std.OrientedCmp.eq_symm h]; rfl
  exact baseWeights_eq_of_between hab hba rfl

theorem getD_revisionWeights_of_equals (h : a.equals b = true) (i : Nat) :
    a.revisionWeights.getD i finish = b.revisionWeights.getD i finish := by
  have htie := equals_iff.mp h
  rw [compare_eq_of_base (baseWeights_eq_of_equals h)] at htie
  exact compareWeights_eq_eq_iff.mp htie i

/-! ## Kinds of parts -/

def baseKinds (v : Version) : List ComponentKind := (baseComponents v.base).map Component.kind

theorem map_kind_weightsFrom {first : Bool} {cs : List Component}
    (h : ∀ c ∈ cs, c.kind ≠ .revision) :
    (weightsFrom first cs).map Weight.kind = cs.map Component.kind := by
  induction cs generalizing first with
  | nil => rfl
  | cons c cs ih =>
    rw [List.forall_mem_cons] at h
    have hne : c.weight first ≠ finish := fun hfinish =>
      h.1 (Component.weight_eq_finish_iff.mp hfinish).1
    rw [weightsFrom, List.map_cons, List.map_cons, Component.kind_weight hne, ih h.2]

theorem baseKinds_eq_of_equals (h : a.equals b = true) : a.baseKinds = b.baseKinds := by
  have hkinds (v : Version) : v.baseWeights.map Weight.kind = v.baseKinds :=
    map_kind_weightsFrom fun c hc => kind_ne_revision_of_mem_baseComponents hc
  rw [← hkinds, baseWeights_eq_of_equals h, hkinds]

/-- The kinds of the components of a release, one for each part. -/
theorem map_kind_release (r : Release) :
    r.components.map Component.kind =
      .number :: ((r.minors.map fun _ => .number) ++ ((r.letter.map fun _ => .letter).toList ++
        (r.suffixes.map (·.kind.component) ++ ((r.attempt.map fun _ => .attempt).toList ++
          if r.live then [.scm] else [])))) := by
  obtain ⟨major, minors, letter, suffixes, attempt, live⟩ := r
  simp only [Release.components, List.map_append, List.map_cons, Suffix.map_kind_components,
    List.append_assoc, List.cons_append, List.map_map]
  cases letter <;> cases attempt <;> cases live <;> rfl

theorem mem_baseKinds_iff (v : Version) : (.scm ∈ v.baseKinds ↔ v.hasScmPart = true) ∧
    (.attempt ∈ v.baseKinds ↔ v.hasTryPart = true) := by
  rw [baseKinds, hasScmPart, hasTryPart]
  cases v.base with
  | scm => decide
  | release r =>
    have hsuffix (s : Suffix) : s.kind.component ≠ .attempt ∧ s.kind.component ≠ .scm :=
      s.kind.component_ne.2
    rw [baseComponents, map_kind_release]
    simp [hsuffix, Option.isSome_iff_exists]

theorem number_mem_tail_iff (r : Release) :
    .number ∈ (r.components.map Component.kind).tail ↔ r.minors ≠ [] := by
  have hsuffix (s : Suffix) : s.kind.component ≠ .number := s.kind.component_ne.1
  rw [map_kind_release]
  simp [hsuffix, List.eq_nil_iff_forall_not_mem]

theorem parts_eq_of_equals (h : a.equals b = true) :
    a.hasScmPart = b.hasScmPart ∧ a.hasTryPart = b.hasTryPart := by
  constructor
  · rw [Bool.eq_iff_iff, ← (mem_baseKinds_iff a).1, ← (mem_baseKinds_iff b).1,
      baseKinds_eq_of_equals h]
  · rw [Bool.eq_iff_iff, ← (mem_baseKinds_iff a).2, ← (mem_baseKinds_iff b).2,
      baseKinds_eq_of_equals h]

/-! ## Live versions -/

/-- Whether the version has one number only, of four or more nines behind any zeros. -/
def isNines (v : Version) : Bool :=
  match v.base with
  | .scm => false
  | .release r => r.minors.isEmpty && 4 ≤ (Digit.dropZeros r.major.digits).length &&
      (Digit.dropZeros r.major.digits).all (· == 9)

def opensWithZero (v : Version) : Bool :=
  match v.base with
  | .scm => false
  | .release r => r.major.first == 0

/-- Nines are all there is to a number that no zero opens. -/
theorem isLoneNines_eq (v : Version) : v.isLoneNines = (v.isNines && !v.opensWithZero) := by
  rw [isLoneNines, isNines, opensWithZero]
  cases v.base with
  | scm => rfl
  | release r =>
    obtain ⟨⟨d, ds⟩, minors, letter, suffixes, attempt, live⟩ := r
    by_cases hd : d = 0
    · simp [Numeral.digits, hd]
    · simp [Numeral.digits, Digit.dropZeros, hd]

theorem isNines_eq_of_equals (h : a.equals b = true) : a.isNines = b.isNines := by
  have hkinds := baseKinds_eq_of_equals h
  have hweights := baseWeights_eq_of_equals h
  obtain ⟨baseA, revisionA⟩ := a
  obtain ⟨baseB, revisionB⟩ := b
  cases baseA with
  | scm =>
    cases baseB with
    | scm => rfl
    | release s => cases hkinds
  | release r =>
    cases baseB with
    | scm => cases hkinds
    | release s =>
      have hmajor : Digit.value r.major.digits = Digit.value s.major.digits :=
        congrArg Weight.value (List.cons.inj hweights).1
      have hminors : r.minors.isEmpty = s.minors.isEmpty := by
        have htail : r.minors ≠ [] ↔ s.minors ≠ [] := by
          rw [← number_mem_tail_iff, ← number_mem_tail_iff]
          exact iff_of_eq (congrArg (.number ∈ List.tail ·) hkinds)
        rw [Bool.eq_iff_iff, List.isEmpty_iff, List.isEmpty_iff]
        exact not_iff_not.mp htail
      simp only [isNines, Digit.dropZeros_eq_of_value_eq hmajor, hminors]

theorem mem_iff_getD {ws : List Weight} {w : Weight} (hw : w ≠ finish) :
    w ∈ ws ↔ ∃ i, ws.getD i finish = w := by
  constructor
  · intro h
    obtain ⟨i, hi, rfl⟩ := List.mem_iff_getElem.mp h
    exact ⟨i, List.getD_eq_getElem _ _ hi⟩
  · rintro ⟨i, hi⟩
    rcases Nat.lt_or_ge i ws.length with hlt | hge
    · rw [List.getD_eq_getElem _ _ hlt] at hi
      exact hi ▸ List.getElem_mem hlt
    · rw [List.getD_eq_default _ _ hge] at hi
      exact absurd hi.symm hw

theorem hasLiveRevision_iff (v : Version) :
    v.hasLiveRevision = true ↔ ⟨.revision, false, 9999, []⟩ ∈ v.revisionWeights := by
  rw [hasLiveRevision, revisionWeights, List.any_eq_true, List.mem_map]
  refine exists_congr fun c => and_congr_right fun hc => ?_
  obtain ⟨digits, rfl⟩ := eq_revision_of_mem hc
  by_cases hzero : Digit.value digits = 0 <;> simp [Component.weight, hzero, finish]

theorem hasLiveRevision_eq_of_equals (h : a.equals b = true) :
    a.hasLiveRevision = b.hasLiveRevision := by
  have hne : (⟨.revision, false, 9999, []⟩ : Weight) ≠ finish := by decide
  rw [Bool.eq_iff_iff, hasLiveRevision_iff, hasLiveRevision_iff, mem_iff_getD hne, mem_iff_getD hne]
  simp only [getD_revisionWeights_of_equals h]

/-- Only zeros in front of nines make one of two equal versions look live and the other not. -/
theorem isScm_eq_iff_of_equals (h : a.equals b = true) : a.isScm = b.isScm ↔
    (a.hasScmPart = false → a.hasLiveRevision = false → a.isNines = true →
      a.opensWithZero = b.opensWithZero) := by
  rw [isScm, isScm, isLoneNines_eq, isLoneNines_eq, ← (parts_eq_of_equals h).1,
    ← hasLiveRevision_eq_of_equals h, ← isNines_eq_of_equals h]
  cases a.hasScmPart <;> cases a.hasLiveRevision <;> cases a.isNines <;> simp

/-! ## Texts of revisions -/

/-- How many numbers the text of the revision has; where there is no revision, it is `r0`. -/
def revisionLength (v : Version) : Nat := max 1 v.revisionComponents.length

theorem length_putBack (v : Version) : v.putBack.revisionWeights.length = v.revisionLength := by
  obtain ⟨base, revision⟩ := v
  rcases revision with _ | _ | ⟨first, more⟩
  · rfl
  · rfl
  · simp [revisionWeights, revisionLength, revisionComponents, putBack, Revision.counted,
      Revision.components]

theorem counted_eq_of_weight_eq {n m : Numeral}
    (h : (Component.revision n.digits).weight false = (Component.revision m.digits).weight false) :
    n.counted = m.counted := by
  have hvalue : Digit.value n.digits = Digit.value m.digits := by
    rw [← Nat.compare_eq_eq, ← Component.compare_weight_revision false, h]
    exact Std.ReflCmp.compare_self
  rw [Numeral.counted, Numeral.counted, Digit.dropZeros_eq_of_value_eq hvalue]

theorem map_counted_eq_of_weights_eq {ns ms : List Numeral}
    (h : ns.map (fun n => (Component.revision n.digits).weight false) =
      ms.map fun m => (Component.revision m.digits).weight false) :
    ns.map Numeral.counted = ms.map Numeral.counted := by
  induction ns generalizing ms with
  | nil =>
    cases ms with
    | nil => rfl
    | cons m ms => cases h
  | cons n ns ih =>
    cases ms with
    | nil => cases h
    | cons m ms =>
      obtain ⟨hhead, htail⟩ := List.cons.inj h
      rw [List.map_cons, List.map_cons, counted_eq_of_weight_eq hhead, ih htail]

/-- The revision that a text shows has numbers that show nothing else. -/
theorem exists_counted (o : Option Revision) : ∃ (first : Numeral) (more : List Numeral),
    Revision.counted o = .numbered first.counted (more.map Numeral.counted) := by
  rcases o with _ | _ | ⟨first, more⟩
  · exact ⟨⟨0, []⟩, [], rfl⟩
  · exact ⟨⟨0, []⟩, [], rfl⟩
  · exact ⟨first, more, rfl⟩

theorem counted_eq_of_revisionWeights_eq
    (h : a.putBack.revisionWeights = b.putBack.revisionWeights) :
    Revision.counted a.revision = Revision.counted b.revision := by
  obtain ⟨n, ns, ha⟩ := exists_counted a.revision
  obtain ⟨m, ms, hb⟩ := exists_counted b.revision
  have hweights : (n :: ns).map (fun n => (Component.revision n.digits).weight false) =
      (m :: ms).map fun m => (Component.revision m.digits).weight false := by
    simpa [revisionWeights, revisionComponents, putBack, ha, hb, Revision.components,
      weight_counted, Function.comp_def] using h
  obtain ⟨hn, hns⟩ := List.cons.inj (map_counted_eq_of_weights_eq hweights)
  rw [ha, hb, hn, hns]

theorem revisionText_eq_iff_counted : a.revisionText = b.revisionText ↔
    Revision.counted a.revision = Revision.counted b.revision := by
  rw [← String.toList_inj, ← List.cons_inj_right '-', toList_revisionText, toList_revisionText]
  refine ⟨fun h => ?_, fun h => congrArg _ h⟩
  have htake (r : Revision) : Revision.take r.chars = (some r, []) :=
    Revision.take_optChars (some r)
  have hsame := htake (Revision.counted a.revision)
  rw [h, htake] at hsame
  exact (Option.some.inj (congrArg Prod.fst hsame)).symm

/-- Texts of revisions differ only in how many numbers 0 they end in. -/
theorem revisionText_eq_iff_of_equals (h : a.equals b = true) :
    a.revisionText = b.revisionText ↔ a.revisionLength = b.revisionLength := by
  rw [revisionText_eq_iff_counted]
  constructor
  · intro hcounted
    rw [← length_putBack, ← length_putBack]
    simp only [putBack, revisionWeights, revisionComponents, hcounted]
  · intro hlength
    rw [← length_putBack, ← length_putBack] at hlength
    have hequals : a.putBack.equals b.putBack = true :=
      equals_equivalence.trans a.equals_putBack
        (equals_equivalence.trans h (equals_equivalence.symm b.equals_putBack))
    refine counted_eq_of_revisionWeights_eq (List.ext_getElem hlength fun i ha hb => ?_)
    have hi := getD_revisionWeights_of_equals hequals i
    rwa [List.getD_eq_getElem _ _ ha, List.getD_eq_getElem _ _ hb] at hi

/-- Equal versions agree on `-scm` and `-try` and are equal without their revisions. They agree on
whether they look live, but for zeros in front of the nines that make them do, and on the text of
the revision, but for how many numbers 0 it ends in. -/
theorem agree_but_for_zeros (h : a.equals b = true) :
    a.hasScmPart = b.hasScmPart ∧ a.hasTryPart = b.hasTryPart ∧
      (a.isScm = b.isScm ↔ (a.hasScmPart = false → a.hasLiveRevision = false →
        a.isNines = true → a.opensWithZero = b.opensWithZero)) ∧
      (a.revisionText = b.revisionText ↔ a.revisionLength = b.revisionLength) ∧
      a.withoutRevision.equals b.withoutRevision = true :=
  ⟨(parts_eq_of_equals h).1, (parts_eq_of_equals h).2, isScm_eq_iff_of_equals h,
    revisionText_eq_iff_of_equals h, equals_withoutRevision_iff.mpr (baseWeights_eq_of_equals h)⟩

/-- A number of `-try` may be left out, and the zeros of `01.00` count for nothing. -/
theorem agree_on_attempt : ∃ a b : Version,
    parse "1.0-try-scm-r2" = .ok a ∧ parse "01.00-try-scm-r02" = .ok b ∧ a.equals b = true ∧
      a.hasTryPart = b.hasTryPart ∧ a.isScm = b.isScm ∧ a.revisionText = b.revisionText ∧
      a.withoutRevision.equals b.withoutRevision = true := by
  have ha : parse "1.0-try-scm-r2" = .ok ⟨.release ⟨⟨1, []⟩, [⟨0, []⟩], none, [], some [], true⟩,
      some (.numbered ⟨2, []⟩ [])⟩ := parse_eq_ok_iff.mpr (by decide +kernel)
  have hb : parse "01.00-try-scm-r02" = .ok ⟨.release ⟨⟨0, [1]⟩, [⟨0, [0]⟩], none, [], some [],
      true⟩, some (.numbered ⟨0, [2]⟩ [])⟩ := parse_eq_ok_iff.mpr (by decide +kernel)
  refine ⟨_, _, ha, hb, equals_iff_padded.mpr (by decide), ?_⟩
  obtain ⟨-, hattempt, hlive, htext, hbase⟩ := agree_but_for_zeros
    (show equals ⟨.release ⟨⟨1, []⟩, [⟨0, []⟩], none, [], some [], true⟩,
      some (.numbered ⟨2, []⟩ [])⟩ ⟨.release ⟨⟨0, [1]⟩, [⟨0, [0]⟩], none, [], some [], true⟩,
        some (.numbered ⟨0, [2]⟩ [])⟩ = true from equals_iff_padded.mpr (by decide))
  exact ⟨hattempt, hlive.mpr (by intro hscm; cases hscm), htext.mpr rfl, hbase⟩

/-- `9999-r1` equals `09999-r1.0`, but of the two only it looks live, and the texts of the revisions
differ. -/
theorem zeros_tell_equal_versions_apart : ∃ a b : Version,
    parse "9999-r1" = .ok a ∧ parse "09999-r1.0" = .ok b ∧ a.equals b = true ∧
      a.isScm = true ∧ b.isScm = false ∧ a.revisionText = "r1" ∧ b.revisionText = "r1.0" := by
  have ha : parse "9999-r1" = .ok ⟨.release ⟨⟨9, [9, 9, 9]⟩, [], none, [], none, false⟩,
      some (.numbered ⟨1, []⟩ [])⟩ := parse_eq_ok_iff.mpr (by decide +kernel)
  have hb : parse "09999-r1.0" = .ok ⟨.release ⟨⟨0, [9, 9, 9, 9]⟩, [], none, [], none, false⟩,
      some (.numbered ⟨1, []⟩ [⟨0, []⟩])⟩ := parse_eq_ok_iff.mpr (by decide +kernel)
  exact ⟨_, _, ha, hb, equals_iff_padded.mpr (by decide), by decide +kernel, by decide +kernel,
    by decide +kernel, by decide +kernel⟩

end Version

end PackageCatalog
