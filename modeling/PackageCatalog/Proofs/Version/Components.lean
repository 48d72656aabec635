import PackageCatalog.Proofs.Version.Digits
import PackageCatalog.Proofs.Version.Order

/-!
# Components

What the kind, the weight and the value of a component say about each other, and which
components a version has.
-/

namespace PackageCatalog

namespace Component

/-- Only a component without a number exceeds every number. -/
def Proper : Component → Prop
  | suffix _ digits unbounded => unbounded = true → digits = []
  | attempt digits unbounded => unbounded = true → digits = []
  | _ => True

/-! ## Counts -/

theorem value_countDigits (ds : List Digit) : Digit.value (countDigits ds) = Digit.value ds := by
  unfold countDigits
  split
  · next h => rw [Digit.dropZeros_eq_nil_iff.mp h]; rfl
  · exact Digit.value_dropZeros ds

theorem countDigits_eq_of_value_eq {as bs : List Digit} (h : Digit.value as = Digit.value bs) :
    countDigits as = countDigits bs := by
  unfold countDigits
  rw [Digit.dropZeros_eq_of_value_eq h]

theorem countDigits_eq_zero_iff {ds : List Digit} : countDigits ds = [0] ↔ Digit.value ds = 0 := by
  constructor
  · intro h
    rw [← value_countDigits, h]
    rfl
  · intro h
    exact countDigits_eq_of_value_eq (show Digit.value ds = Digit.value [] from h)

theorem chars_countDigits_eq_zero_iff {ds : List Digit} :
    Digit.chars (countDigits ds) = ['0'] ↔ Digit.value ds = 0 := by
  rw [← countDigits_eq_zero_iff]
  constructor
  · intro h
    have hc := Digit.compare_chars (countDigits ds) [0]
    rw [h] at hc
    exact Std.LawfulEqOrd.eq_of_compare (hc.symm.trans rfl)
  · intro h
    rw [h]
    rfl

theorem head?_countDigits_ne {ds : List Digit} {n : Nat} (hn : 0 < n)
    (h : n < (countDigits ds).length) : (countDigits ds).head? ≠ some 0 := by
  unfold countDigits at h ⊢
  split
  · next he =>
    rw [he] at h
    exact absurd h (by simp; omega)
  · exact Digit.head?_dropZeros_ne ds

theorem length_countDigits_pos (ds : List Digit) : 0 < (countDigits ds).length := by
  unfold countDigits
  split
  · decide
  · next h => exact List.length_pos_iff.mpr h

/-! ## Kinds -/

theorem kind_eq_number_iff {c : Component} : c.kind = .number ↔ ∃ n, c = number n := by
  cases c with
  | suffix k ds u => cases k <;> simp [kind, SuffixKind.component]
  | _ => simp [kind]

/-- Components of one kind are made alike. -/
theorem cases_of_kind_eq {c d : Component} (h : c.kind = d.kind) :
    (∃ n m, c = number n ∧ d = number m) ∨ (∃ l m, c = letter l ∧ d = letter m) ∨
      (∃ k as u bs v, c = suffix k as u ∧ d = suffix k bs v) ∨
      (∃ as u bs v, c = attempt as u ∧ d = attempt bs v) ∨ (c = scm ∧ d = scm) ∨
      ∃ as bs, c = revision as ∧ d = revision bs := by
  cases c with
  | suffix k as u =>
    cases d with
    | suffix l bs v =>
      have hkl : k = l := by cases k <;> cases l <;> first | rfl | cases h
      subst hkl
      simp
    | _ => cases k <;> cases h
  | _ =>
    cases d with
    | suffix k bs v => cases k <;> cases h
    | _ => cases h <;> simp

theorem kind_ne_finish (c : Component) : c.kind ≠ .finish := by
  cases c with
  | suffix k _ _ => cases k <;> simp [kind, SuffixKind.component]
  | _ => simp [kind]

/-! ## Weights -/

theorem valueChars_revision_eq_zero_iff {ds : List Digit} :
    (revision ds).valueChars = ['0'] ↔ Digit.value ds = 0 := chars_countDigits_eq_zero_iff

theorem weight_eq_finish_iff {first : Bool} {c : Component} :
    c.weight first = .finish ↔ c.kind = .revision ∧ c.valueChars = ['0'] := by
  cases c with
  | number n =>
    simp only [weight, Weight.finish, kind]
    split <;> (try split) <;> simp
  | suffix k ds u =>
    cases k <;> cases u <;> simp [weight, Weight.finish, kind, SuffixKind.component]
  | attempt ds u => cases u <;> simp [weight, Weight.finish, kind]
  | revision ds =>
    rw [valueChars_revision_eq_zero_iff]
    by_cases h : Digit.value ds = 0 <;> simp [weight, Weight.finish, kind, h]
  | _ => simp [weight, Weight.finish, kind]

theorem kind_weight {first : Bool} {c : Component} (h : c.weight first ≠ .finish) :
    (c.weight first).kind = c.kind := by
  cases c with
  | number n =>
    simp only [weight, kind]
    split <;> (try split) <;> rfl
  | suffix k ds u => cases u <;> rfl
  | attempt ds u => cases u <;> rfl
  | revision ds =>
    have hv : Digit.value ds ≠ 0 := fun hv => h (if_pos hv)
    simp [weight, kind, hv]
  | _ => rfl

theorem compare_weight_revision (first : Bool) (as bs : List Digit) :
    ((revision as).weight first).compare ((revision bs).weight first) =
      compare (Digit.value as) (Digit.value bs) := by
  rw [weight, weight]
  by_cases ha : Digit.value as = 0 <;> by_cases hb : Digit.value bs = 0
  · simp [ha, hb, Weight.finish, Weight.compare_values]
  · simp only [ha, hb, ↓reduceIte, Weight.finish]
    rw [Nat.compare_eq_lt.mpr (by omega)]
    rfl
  · simp only [ha, hb, ↓reduceIte, Weight.finish]
    rw [Nat.compare_eq_gt.mpr (by omega)]
    rfl
  · simp [ha, hb, Weight.compare_values]

end Component

/-! ## The components of a version -/

theorem Suffix.components_proper (unbounded : Bool) (ss : List Suffix) :
    ∀ c ∈ Suffix.components unbounded ss, c.Proper := by
  induction ss with
  | nil => intro c hc; cases hc
  | cons s ss ih =>
    cases ss with
    | nil =>
      intro c hc
      cases List.mem_singleton.mp hc
      intro h
      exact List.isEmpty_iff.mp (Bool.and_eq_true_iff.mp h).2
    | cons t ts =>
      intro c hc
      rcases List.mem_cons.mp hc with rfl | hc
      · intro h
        cases h
      · exact ih c hc

theorem Release.components_proper (r : Release) : ∀ c ∈ r.components, c.Proper := by
  intro c hc
  simp only [components, List.mem_append, List.mem_cons, List.mem_map, Option.mem_toList,
    Option.map_eq_some_iff, List.cons_append] at hc
  rcases hc with rfl | (((⟨n, -, rfl⟩ | ⟨l, -, rfl⟩) | hc) | ⟨ds, -, rfl⟩) | hc
  · trivial
  · trivial
  · trivial
  · exact Suffix.components_proper _ _ c hc
  · intro h
    exact List.isEmpty_iff.mp (Bool.and_eq_true_iff.mp h).2
  · split at hc
    · cases List.mem_singleton.mp hc
      trivial
    · cases hc

namespace Version

theorem eq_revision_of_mem {v : Version} {c : Component} (hc : c ∈ v.revisionComponents) :
    ∃ ds, c = .revision ds := by
  cases hr : v.revision with
  | none => simp [revisionComponents, hr] at hc
  | some r =>
    simp only [revisionComponents, hr] at hc
    cases r with
    | bare => exact ⟨[], List.mem_singleton.mp hc⟩
    | numbered n more =>
      simp only [Revision.components, List.mem_cons, List.mem_map] at hc
      rcases hc with rfl | ⟨m, -, rfl⟩
      · exact ⟨n.digits, rfl⟩
      · exact ⟨m.digits, rfl⟩

theorem components_proper (v : Version) : ∀ c ∈ v.components, c.Proper := by
  intro c hc
  rcases List.mem_append.mp hc with hc | hc
  · cases hb : v.base with
    | scm =>
      rw [hb] at hc
      cases List.mem_singleton.mp hc
      trivial
    | release r =>
      rw [hb] at hc
      exact r.components_proper c hc
  · obtain ⟨ds, rfl⟩ := eq_revision_of_mem hc
    trivial

/-- A version opens with a number, or it is `scm` and has no number at all. -/
theorem components_cases (v : Version) :
    (∃ n cs, v.components = .number n :: cs) ∨
      ∃ cs, v.components = .scm :: cs ∧ ∀ c ∈ cs, c.kind ≠ .number := by
  cases hb : v.base with
  | release r => exact .inl ⟨r.major, _, by rw [components, hb]; rfl⟩
  | scm =>
    refine .inr ⟨v.revisionComponents, by rw [components, hb]; rfl, ?_⟩
    intro c hc
    obtain ⟨ds, rfl⟩ := eq_revision_of_mem hc
    simp [Component.kind]

theorem components_ne_nil (v : Version) : v.components ≠ [] := by
  rcases v.components_cases with ⟨n, cs, h⟩ | ⟨cs, h, -⟩ <;> simp [h]

end Version

end PackageCatalog
