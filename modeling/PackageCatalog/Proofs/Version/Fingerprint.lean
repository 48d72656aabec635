import PackageCatalog.Proofs.Text
import PackageCatalog.Proofs.Version.Components
import PackageCatalog.Proofs.Version.Order

/-!
# Equal versions have one fingerprint

A fingerprint holds an item for each component (`Component.item?`), none for a revision 0.
Components of one weight have one item (`item?_eq_of_weight_eq`), as long as only a component
without a number is unbounded; that holds of the components of every version.
-/

namespace PackageCatalog

namespace Component

/-- The value of a component in the form that equal components share. -/
def sharedChars (first : Bool) (c : Component) : List Char :=
  if first && c.kind == .number then c.valueChars.dropWhile (· == '0')
  else if c.valueChars.head? == some '0' then
    (c.valueChars.reverse.dropWhile (· == '0')).reverse
  else c.valueChars

def item? (first : Bool) (c : Component) : Option (ComponentKind × List Char × Bool) :=
  if c.kind == .revision && c.valueChars == ['0'] then none
  else some (c.kind, c.sharedChars first, c.isUnbounded)

theorem fingerprintOf_cons (first : Bool) (c : Component) (cs : List Component) :
    Version.fingerprintOf first (c :: cs) =
      (c.item? first).toList ++ Version.fingerprintOf false cs := by
  rw [Version.fingerprintOf, item?]
  split <;> rfl

/-! ## Weights and items -/

theorem item?_eq_none_iff {first : Bool} {c : Component} :
    c.item? first = none ↔ c.weight first = .finish := by
  rw [weight_eq_finish_iff, item?]
  split
  · next h => simpa using h
  · next h => simpa using h

theorem sharedChars_first (n : Numeral) :
    (number n).sharedChars true = Digit.chars (Digit.dropZeros n.digits) :=
  Digit.dropWhile_chars n.digits

theorem sharedChars_later (n : Numeral) :
    (number n).sharedChars false =
      if n.first = 0 then Digit.chars (Digit.dropFinalZeros n.digits) else n.chars := by
  simp only [sharedChars, Bool.false_and, Bool.false_eq_true, ↓reduceIte, valueChars,
    beq_iff_eq, Numeral.head?_chars, ← Text.dropTail_eq_reverse]
  rw [Numeral.chars, Digit.dropTail_chars]

theorem sharedChars_number_eq {first : Bool} {n m : Numeral}
    (h : (number n).weight first = (number m).weight first) :
    (number n).sharedChars first = (number m).sharedChars first := by
  cases first with
  | true =>
    have hv : Digit.value n.digits = Digit.value m.digits := congrArg Weight.value h
    rw [sharedChars_first, sharedChars_first, Digit.dropZeros_eq_of_value_eq hv]
  | false =>
    rw [sharedChars_later, sharedChars_later]
    simp only [weight, Bool.false_eq_true, ↓reduceIte] at h
    -- A leading zero shows in the weight, so both numbers have one or neither has.
    by_cases hn : n.first = 0 <;> by_cases hm : m.first = 0
    · rw [if_pos hn, if_pos hm] at h ⊢
      exact congrArg (fun w => Digit.chars w.digits) h
    · rw [if_pos hn, if_neg hm] at h
      cases congrArg Weight.high h
    · rw [if_neg hn, if_pos hm] at h
      cases congrArg Weight.high h
    · rw [if_neg hn, if_neg hm] at h ⊢
      have hd : n.digits = m.digits :=
        Digit.value_injective (by simpa [Numeral.digits] using hn)
          (by simpa [Numeral.digits] using hm) (congrArg Weight.value h)
      rw [Numeral.chars, Numeral.chars, hd]

/-- The value of a count depends on the weight only. -/
theorem valueChars_eq_of_weight_eq {first : Bool} {c d : Component} (hc : c.Proper)
    (hd : d.Proper) (hk : c.kind = d.kind) (hn : c.kind ≠ .number)
    (h : c.weight first = d.weight first) :
    c.valueChars = d.valueChars ∧ c.isUnbounded = d.isUnbounded := by
  have hcount {as bs : List Digit} {u v : Bool} (hu : u = true → as = [])
      (hv : v = true → bs = []) {k : ComponentKind}
      (hw : (if u then (⟨k, true, 0, []⟩ : Weight) else ⟨k, false, Digit.value as, []⟩) =
        if v then ⟨k, true, 0, []⟩ else ⟨k, false, Digit.value bs, []⟩) :
      Digit.chars (countDigits as) = Digit.chars (countDigits bs) ∧ u = v := by
    cases u <;> cases v
    · exact ⟨by rw [countDigits_eq_of_value_eq (congrArg Weight.value hw)], rfl⟩
    · cases congrArg Weight.high hw
    · cases congrArg Weight.high hw
    · rw [hu rfl, hv rfl]
      exact ⟨rfl, rfl⟩
  rcases cases_of_kind_eq hk with ⟨n, m, rfl, rfl⟩ | ⟨l, m, rfl, rfl⟩ |
    ⟨k, as, u, bs, v, rfl, rfl⟩ | ⟨as, u, bs, v, rfl, rfl⟩ | ⟨rfl, rfl⟩ | ⟨as, bs, rfl, rfl⟩
  · exact absurd rfl hn
  · exact ⟨by rw [Fin.ext (congrArg Weight.value h)], rfl⟩
  · exact hcount hc hd h
  · exact hcount hc hd h
  · exact ⟨rfl, rfl⟩
  · have hv : Digit.value as = Digit.value bs := by
      by_cases ha : Digit.value as = 0 <;> by_cases hb : Digit.value bs = 0 <;>
        simp [weight, Weight.finish, ha, hb] at h ⊢
      exact h
    exact ⟨by rw [valueChars, valueChars, countDigits_eq_of_value_eq hv], rfl⟩

/-- Components of one weight add the same to a fingerprint. -/
theorem item?_eq_of_weight_eq {first : Bool} {c d : Component} (hc : c.Proper) (hd : d.Proper)
    (h : c.weight first = d.weight first) : c.item? first = d.item? first := by
  by_cases hf : c.weight first = .finish
  · rw [item?_eq_none_iff.mpr hf, item?_eq_none_iff.mpr (h ▸ hf)]
  · have hk : c.kind = d.kind := by
      rw [← kind_weight hf, ← kind_weight (h ▸ hf), h]
    by_cases hn : c.kind = .number
    · obtain ⟨n, rfl⟩ := kind_eq_number_iff.mp hn
      obtain ⟨m, rfl⟩ := kind_eq_number_iff.mp (hk ▸ hn)
      rw [item?, item?, sharedChars_number_eq h]
      rfl
    · obtain ⟨hv, hu⟩ := valueChars_eq_of_weight_eq hc hd hk hn h
      simp only [item?, sharedChars, hk, hv, hu]

end Component

/-! ## Fingerprints -/

namespace Version

theorem fingerprintOf_eq_nil {bs : List Component}
    (h : compareWeights [] (bs.map (·.weight false)) = .eq) : fingerprintOf false bs = [] := by
  induction bs with
  | nil => rfl
  | cons b bs ih =>
    rw [List.map_cons, compareWeights, Ordering.then_eq_eq] at h
    have hb : b.weight false = .finish := (Weight.eq_of_compare h.1).symm
    rw [Component.fingerprintOf_cons, Component.item?_eq_none_iff.mpr hb, ih h.2]
    rfl

theorem fingerprintOf_later_eq {as bs : List Component} (ha : ∀ c ∈ as, c.Proper)
    (hb : ∀ c ∈ bs, c.Proper)
    (h : compareWeights (as.map (·.weight false)) (bs.map (·.weight false)) = .eq) :
    fingerprintOf false as = fingerprintOf false bs := by
  induction as generalizing bs with
  | nil => rw [fingerprintOf_eq_nil h]; rfl
  | cons a as ih =>
    cases bs with
    | nil => exact fingerprintOf_eq_nil (Std.OrientedCmp.eq_symm h)
    | cons b bs =>
      rw [List.map_cons, List.map_cons, compareWeights, Ordering.then_eq_eq] at h
      rw [Component.fingerprintOf_cons, Component.fingerprintOf_cons,
        Component.item?_eq_of_weight_eq (ha a List.mem_cons_self) (hb b List.mem_cons_self)
          (Weight.eq_of_compare h.1),
        ih (fun c hc => ha c (List.mem_cons_of_mem _ hc))
          (fun c hc => hb c (List.mem_cons_of_mem _ hc)) h.2]

/-- Versions of which neither precedes the other have one fingerprint. -/
theorem fingerprint_eq_of_equals {a b : Version} (h : a.equals b = true) :
    a.fingerprint = b.fingerprint := by
  have hc : compareWeights a.weights b.weights = .eq := equals_iff.mp h
  have hpa := a.components_proper
  have hpb := b.components_proper
  obtain ⟨c, cs, ha⟩ := List.exists_cons_of_ne_nil a.components_ne_nil
  obtain ⟨d, ds, hb⟩ := List.exists_cons_of_ne_nil b.components_ne_nil
  rw [weights, weights, ha, hb, weightsOf, weightsOf, compareWeights, Ordering.then_eq_eq] at hc
  rw [ha] at hpa
  rw [hb] at hpb
  rw [fingerprint, fingerprint, ha, hb, Component.fingerprintOf_cons,
    Component.fingerprintOf_cons,
    Component.item?_eq_of_weight_eq (hpa c List.mem_cons_self) (hpb d List.mem_cons_self)
      (Weight.eq_of_compare hc.1),
    fingerprintOf_later_eq (fun e he => hpa e (List.mem_cons_of_mem _ he))
      (fun e he => hpb e (List.mem_cons_of_mem _ he)) hc.2]

end Version

end PackageCatalog
