import PackageCatalog.Version.Order

/-!
# The order of versions is a total preorder

Weights are linearly ordered (`Weight.compare` is transitive and equates equal weights only).
Two lists of weights are compared as if both were padded to one length with `Weight.finish`
(`compareWeights_eq_compareLex`), so the laws of the lexicographic order carry over to
`Version.compare`.
-/

namespace PackageCatalog

/-! ## Weights -/

namespace ComponentKind

theorem rank_injective {k l : ComponentKind} (h : k.rank = l.rank) : k = l := by
  cases k <;> cases l <;> first | rfl | cases h

end ComponentKind

namespace Weight

theorem compareDigits_eq (as bs : List Digit) : compareDigits as bs = Ord.compare as bs := by
  induction as generalizing bs with
  | nil => cases bs <;> rfl
  | cons a as ih =>
    cases bs with
    | nil => rfl
    | cons b bs =>
      rw [compareDigits, List.compare_cons_cons, ih]
      rfl

theorem compare_eq_compareLex (a b : Weight) :
    compare a b = compareLex (compareOn (·.kind.rank)) (compareLex (compareOn (·.high.toNat))
      (compareLex (compareOn (·.value)) (compareOn (·.digits)))) a b := by
  rw [compare, compareDigits_eq]
  rfl

instance : Std.TransCmp compare := by
  rw [show compare = _ from funext fun a => funext fun b => compare_eq_compareLex a b]
  infer_instance

theorem eq_of_compare {a b : Weight} (h : compare a b = .eq) : a = b := by
  obtain ⟨hk, hh, hv, hd⟩ : a.kind.rank = b.kind.rank ∧ a.high.toNat = b.high.toNat ∧
      a.value = b.value ∧ a.digits = b.digits := by
    simpa only [compare, compareDigits_eq, Ordering.then_eq_eq,
      Std.LawfulEqOrd.compare_eq_iff_eq] using h
  obtain ⟨ka, ha, va, da⟩ := a
  obtain ⟨kb, hb, vb, db⟩ := b
  cases ComponentKind.rank_injective hk
  cases ha <;> cases hb <;> cases hh <;> cases hv <;> cases hd <;> rfl

instance : Std.LawfulEqCmp compare where
  eq_of_compare := eq_of_compare

/-- The kind decides between weights of different kinds. -/
theorem compare_of_kind_ne {a b : Weight} (h : a.kind ≠ b.kind) :
    compare a b = Ord.compare a.kind.rank b.kind.rank := by
  have hne : Ord.compare a.kind.rank b.kind.rank ≠ .eq := fun he =>
    h (ComponentKind.rank_injective (Nat.compare_eq_eq.mp he))
  rw [compare]
  cases hc : Ord.compare a.kind.rank b.kind.rank with
  | eq => exact absurd hc hne
  | lt => rfl
  | gt => rfl

theorem compare_of_rank_lt {a b : Weight} (h : a.kind.rank < b.kind.rank) :
    compare a b = .lt := by
  rw [compare_of_kind_ne (fun he => absurd h (by rw [he]; omega)), Nat.compare_eq_lt.mpr h]

theorem compare_kinds_values (k l : ComponentKind) (h : Bool) (v w : Nat) :
    compare ⟨k, h, v, []⟩ ⟨l, h, w, []⟩ =
      (Ord.compare k.rank l.rank).then (Ord.compare v w) := by
  simp [compare, compareDigits]

theorem compare_values (k : ComponentKind) (h : Bool) (v w : Nat) :
    compare ⟨k, h, v, []⟩ ⟨k, h, w, []⟩ = Ord.compare v w := by
  rw [compare_kinds_values, Nat.compare_eq_eq.mpr rfl, Ordering.eq_then]

theorem compare_digits (k : ComponentKind) (h : Bool) (v : Nat) (as bs : List Digit) :
    compare ⟨k, h, v, as⟩ ⟨k, h, v, bs⟩ = Ord.compare as bs := by
  simp [compare, compareDigits_eq]

theorem compare_low_high (k : ComponentKind) (v w : Nat) (as bs : List Digit) :
    compare ⟨k, false, v, as⟩ ⟨k, true, w, bs⟩ = .lt := by
  simp [compare, Nat.compare_eq_lt.mpr]

theorem compare_high_low (k : ComponentKind) (v w : Nat) (as bs : List Digit) :
    compare ⟨k, true, v, as⟩ ⟨k, false, w, bs⟩ = .gt :=
  Std.OrientedCmp.gt_of_lt (compare_low_high k w v bs as)

end Weight

/-! ## Lists of weights -/

namespace Version

open Weight (finish)

theorem rightpad_succ_nil {α : Type} (n : Nat) (x : α) :
    ([] : List α).rightpad (n + 1) x = x :: [].rightpad n x := by
  simp [List.rightpad, List.replicate_succ]

theorem rightpad_succ_cons {α : Type} (n : Nat) (x y : α) (ys : List α) :
    (y :: ys).rightpad (n + 1) x = y :: ys.rightpad n x := by
  simp [List.rightpad]

/-- The comparison is that of the lists padded to any common length. -/
theorem compareWeights_eq_compareLex {n : Nat} {as bs : List Weight} (ha : as.length ≤ n)
    (hb : bs.length ≤ n) :
    compareWeights as bs =
      List.compareLex Weight.compare (as.rightpad n finish) (bs.rightpad n finish) := by
  induction n generalizing as bs with
  | zero =>
    cases List.eq_nil_of_length_eq_zero (Nat.le_zero.mp ha)
    cases List.eq_nil_of_length_eq_zero (Nat.le_zero.mp hb)
    rw [compareWeights]
    rfl
  | succ n ih =>
    cases as with
    | nil =>
      cases bs with
      | nil =>
        rw [compareWeights]
        exact Std.ReflCmp.compare_self.symm
      | cons b bs =>
        rw [compareWeights, rightpad_succ_nil, rightpad_succ_cons, List.compareLex_cons_cons,
          ih (show ([] : List Weight).length ≤ n from Nat.zero_le n) (by simpa using hb)]
    | cons a as =>
      cases bs with
      | nil =>
        rw [compareWeights, rightpad_succ_nil, rightpad_succ_cons, List.compareLex_cons_cons,
          ih (by simpa using ha) (show ([] : List Weight).length ≤ n from Nat.zero_le n)]
      | cons b bs =>
        rw [compareWeights, rightpad_succ_cons, rightpad_succ_cons, List.compareLex_cons_cons,
          ih (by simpa using ha) (by simpa using hb)]

instance : Std.TransCmp compareWeights where
  eq_swap {as bs} := by
    have ha : as.length ≤ as.length + bs.length := by omega
    have hb : bs.length ≤ as.length + bs.length := by omega
    rw [compareWeights_eq_compareLex ha hb, compareWeights_eq_compareLex hb ha]
    exact Std.OrientedCmp.eq_swap
  isLE_trans {as bs cs} hab hbc := by
    have ha : as.length ≤ as.length + bs.length + cs.length := by omega
    have hb : bs.length ≤ as.length + bs.length + cs.length := by omega
    have hc : cs.length ≤ as.length + bs.length + cs.length := by omega
    rw [compareWeights_eq_compareLex ha hb] at hab
    rw [compareWeights_eq_compareLex hb hc] at hbc
    rw [compareWeights_eq_compareLex ha hc]
    exact Std.TransCmp.isLE_trans hab hbc

/-! ## Versions -/

instance : Std.TransCmp compare where
  eq_swap {a b} := by
    show compareWeights a.weights b.weights = (compareWeights b.weights a.weights).swap
    exact Std.OrientedCmp.eq_swap
  isLE_trans {a b c} hab hbc := by
    show (compareWeights a.weights c.weights).isLE = true
    exact Std.TransCmp.isLE_trans hab hbc

theorem equals_iff {a b : Version} : a.equals b = true ↔ a.compare b = .eq := beq_iff_eq

/-- Padded to the longer of the two, the lists of weights are compared by structural recursion, so
that the order of two given versions can be decided. -/
theorem compare_eq_padded (a b : Version) :
    a.compare b = List.compareLex Weight.compare
      (a.weights.rightpad (max a.weights.length b.weights.length) finish)
      (b.weights.rightpad (max a.weights.length b.weights.length) finish) :=
  compareWeights_eq_compareLex (Nat.le_max_left _ _) (Nat.le_max_right _ _)

theorem equals_iff_padded {a b : Version} : a.equals b = true ↔
    List.compareLex Weight.compare
      (a.weights.rightpad (max a.weights.length b.weights.length) finish)
      (b.weights.rightpad (max a.weights.length b.weights.length) finish) = .eq := by
  rw [equals_iff, compare_eq_padded]

theorem equals_equivalence : Equivalence fun a b : Version => a.equals b = true where
  refl _ := equals_iff.mpr Std.ReflCmp.compare_self
  symm h := equals_iff.mpr (Std.OrientedCmp.eq_symm (equals_iff.mp h))
  trans h₁ h₂ := equals_iff.mpr (Std.TransCmp.eq_trans (equals_iff.mp h₁) (equals_iff.mp h₂))

end Version

end PackageCatalog
