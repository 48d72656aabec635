import Mathlib.Algebra.Group.Nat.Defs
import PackageCatalog.Text
import PackageCatalog.Version.Basic

/-!
# Digits as numbers and as text

The shorter of two lists of digits is the smaller number when the longer one does not start
with a zero, and two of one length are ordered digit by digit (`compare_value`). Texts of
digits are ordered as the digits are (`compare_chars`), and zeros are dropped from a text as
from the digits.
-/

namespace PackageCatalog

namespace Digit

/-! ## Numbers -/

theorem foldl_eq_value (n : Nat) (ds : List Digit) :
    ds.foldl (fun n d => 10 * n + d.val) n = n * 10 ^ ds.length + value ds := by
  induction ds generalizing n with
  | nil => simp [value]
  | cons d ds ih =>
    simp only [value, List.foldl_cons, List.length_cons, Nat.mul_zero, Nat.zero_add]
    rw [ih, ih d.val, Nat.pow_succ, Nat.add_mul, Nat.mul_comm 10 n, Nat.mul_assoc,
      Nat.mul_comm 10 (10 ^ ds.length), Nat.add_assoc]

theorem value_cons (d : Digit) (ds : List Digit) :
    value (d :: ds) = d.val * 10 ^ ds.length + value ds := by
  rw [value, List.foldl_cons, foldl_eq_value]
  simp

theorem value_lt (ds : List Digit) : value ds < 10 ^ ds.length := by
  induction ds with
  | nil => simp [value]
  | cons d ds ih =>
    have hd : d.val * 10 ^ ds.length ≤ 9 * 10 ^ ds.length := Nat.mul_le_mul_right _ (by omega)
    rw [value_cons, List.length_cons, Nat.pow_succ]
    omega

theorem pow_le_value {d : Digit} (hd : d ≠ 0) (ds : List Digit) :
    10 ^ ds.length ≤ value (d :: ds) := by
  have hpos : 1 ≤ d.val := Nat.one_le_iff_ne_zero.mpr fun h => hd (Fin.ext h)
  have := Nat.mul_le_mul_right (10 ^ ds.length) hpos
  rw [value_cons]
  omega

theorem value_lt_of_length_lt {as bs : List Digit} (hb : bs.head? ≠ some 0)
    (h : as.length < bs.length) : value as < value bs := by
  cases bs with
  | nil => simp at h
  | cons b bs =>
    have hle : 10 ^ as.length ≤ 10 ^ bs.length :=
      Nat.pow_le_pow_right (by decide) (by simpa [Nat.lt_succ_iff] using h)
    have hb' := pow_le_value (d := b) (by simpa using hb) bs
    have := value_lt as
    omega

theorem compare_value_of_length_eq {as bs : List Digit} (h : as.length = bs.length) :
    compare (value as) (value bs) = compare as bs := by
  induction as generalizing bs with
  | nil =>
    cases bs with
    | nil => rfl
    | cons b bs => simp at h
  | cons a as ih =>
    cases bs with
    | nil => simp at h
    | cons b bs =>
      have h' : as.length = bs.length := by simpa using h
      have ha := value_lt as
      have hb := value_lt bs
      rw [value_cons, value_cons, h', List.compare_cons_cons, ← ih h']
      rw [h'] at ha
      rcases Nat.lt_trichotomy a.val b.val with hab | hab | hab
      · have := Nat.mul_le_mul_right (10 ^ bs.length) (Nat.succ_le_of_lt hab)
        rw [Nat.succ_mul] at this
        rw [show compare a b = .lt from Nat.compare_eq_lt.mpr hab, Ordering.lt_then]
        exact Nat.compare_eq_lt.mpr (by omega)
      · rw [show compare a b = .eq from Nat.compare_eq_eq.mpr hab, hab, Ordering.eq_then]
        simp only [Nat.compare_eq_ite_lt]
        simp
      · have := Nat.mul_le_mul_right (10 ^ bs.length) (Nat.succ_le_of_lt hab)
        rw [Nat.succ_mul] at this
        rw [show compare a b = .gt from Nat.compare_eq_gt.mpr hab, Ordering.gt_then]
        exact Nat.compare_eq_gt.mpr (by omega)

/-- Numbers are compared by length, then digit by digit, when the longer one does not start
with a zero. -/
theorem compare_value {as bs : List Digit} (ha : bs.length < as.length → as.head? ≠ some 0)
    (hb : as.length < bs.length → bs.head? ≠ some 0) :
    compare (value as) (value bs) = (compare as.length bs.length).then (compare as bs) := by
  rcases Nat.lt_trichotomy as.length bs.length with h | h | h
  · rw [Nat.compare_eq_lt.mpr h, Nat.compare_eq_lt.mpr (value_lt_of_length_lt (hb h) h),
      Ordering.lt_then]
  · rw [compare_value_of_length_eq h, Nat.compare_eq_eq.mpr h, Ordering.eq_then]
  · rw [Nat.compare_eq_gt.mpr h, Nat.compare_eq_gt.mpr (value_lt_of_length_lt (ha h) h),
      Ordering.gt_then]

theorem value_injective {as bs : List Digit} (ha : as.head? ≠ some 0) (hb : bs.head? ≠ some 0)
    (h : value as = value bs) : as = bs := by
  have hc := compare_value (fun _ => ha) (fun _ => hb)
  rw [Nat.compare_eq_eq.mpr h] at hc
  exact Std.LawfulEqOrd.eq_of_compare (Ordering.then_eq_eq.mp hc.symm).2

/-! ## Leading zeros -/

theorem value_dropZeros (ds : List Digit) : value (dropZeros ds) = value ds := by
  induction ds with
  | nil => rfl
  | cons d ds ih =>
    by_cases hd : d = 0
    · subst hd
      rw [value_cons, dropZeros, List.dropWhile_cons_of_pos (by rfl)]
      simpa [dropZeros] using ih
    · rw [dropZeros, List.dropWhile_cons_of_neg (by simpa using hd)]

theorem head?_dropZeros_ne (ds : List Digit) : (dropZeros ds).head? ≠ some 0 := by
  intro h
  have := List.head?_dropWhile_not (· == (0 : Digit)) ds
  rw [show ds.dropWhile (· == 0) = dropZeros ds from rfl, h] at this
  simp at this

theorem dropZeros_eq_of_value_eq {as bs : List Digit} (h : value as = value bs) :
    dropZeros as = dropZeros bs :=
  value_injective (head?_dropZeros_ne as) (head?_dropZeros_ne bs)
    (by rw [value_dropZeros, value_dropZeros, h])

theorem dropZeros_eq_nil_iff {ds : List Digit} : dropZeros ds = [] ↔ value ds = 0 := by
  constructor
  · intro h
    rw [← value_dropZeros, h]
    rfl
  · intro h
    exact dropZeros_eq_of_value_eq (show value ds = value [] from h)

/-! ## Final zeros -/

theorem dropFinalZeros_cons_zero (ds : List Digit) :
    dropFinalZeros (0 :: ds) = [] ∨ ∃ es, dropFinalZeros (0 :: ds) = 0 :: es := by
  rw [dropFinalZeros]
  cases dropFinalZeros ds with
  | nil => exact .inl rfl
  | cons e es => exact .inr ⟨e :: es, rfl⟩

theorem dropFinalZeros_cons_of_ne {d : Digit} (hd : d ≠ 0) (ds : List Digit) :
    dropFinalZeros (d :: ds) = d :: dropFinalZeros ds := by
  rw [dropFinalZeros]
  cases dropFinalZeros ds with
  | nil => simp [hd]
  | cons e es => rfl

/-- Digits that start with a zero precede those that do not, final zeros left out. -/
theorem compare_dropFinalZeros_lt {d : Digit} (hd : d ≠ 0) (as bs : List Digit) :
    compare (dropFinalZeros (0 :: as)) (dropFinalZeros (d :: bs)) = .lt := by
  have hlt : compare (0 : Digit) d = .lt :=
    Nat.compare_eq_lt.mpr (Nat.pos_of_ne_zero fun h => hd (Fin.ext h))
  rw [dropFinalZeros_cons_of_ne hd]
  rcases dropFinalZeros_cons_zero as with h | ⟨es, h⟩
  · rw [h]
    rfl
  · rw [h, List.compare_cons_cons, hlt]
    rfl

/-! ## Texts -/

theorem compare_toChar (a b : Digit) : compare a.toChar b.toChar = compare a b := by
  decide +revert

theorem toChar_eq_zero_iff (d : Digit) : d.toChar = '0' ↔ d = 0 := by
  decide +revert

@[simp]
theorem length_chars (ds : List Digit) : (chars ds).length = ds.length := List.length_map ..

theorem compare_chars (as bs : List Digit) : compare (chars as) (chars bs) = compare as bs := by
  induction as generalizing bs with
  | nil => cases bs <;> rfl
  | cons a as ih =>
    cases bs with
    | nil => rfl
    | cons b bs =>
      simp only [chars, List.map_cons, List.compare_cons_cons, compare_toChar]
      exact congrArg _ (ih bs)

theorem head?_chars (ds : List Digit) : (chars ds).head? = some '0' ↔ ds.head? = some 0 := by
  cases ds with
  | nil => simp [chars]
  | cons d ds => simp [chars, toChar_eq_zero_iff]

theorem dropWhile_chars (ds : List Digit) :
    (chars ds).dropWhile (· == '0') = chars (dropZeros ds) := by
  induction ds with
  | nil => rfl
  | cons d ds ih =>
    by_cases hd : d = 0
    · subst hd
      exact ih
    · rw [dropZeros, List.dropWhile_cons_of_neg (by simpa using hd)]
      exact List.dropWhile_cons_of_neg (by simpa [toChar_eq_zero_iff] using hd)

theorem dropTail_chars (ds : List Digit) :
    Text.dropTail (· == '0') (chars ds) = chars (dropFinalZeros ds) := by
  induction ds with
  | nil => rfl
  | cons d ds ih =>
    have ih' : Text.dropTail (· == '0') (ds.map toChar) = (dropFinalZeros ds).map toChar := ih
    simp only [chars, List.map_cons, Text.dropTail, dropFinalZeros, ih']
    cases h : dropFinalZeros ds with
    | cons e es => rfl
    | nil =>
      by_cases hd : d = 0
      · simp [hd, toChar]
      · have hc : d.toChar ≠ '0' := fun h => hd ((toChar_eq_zero_iff d).mp h)
        simp [hd, hc]

end Digit

theorem Numeral.head?_chars (n : Numeral) : n.chars.head? = some '0' ↔ n.first = 0 := by
  rw [chars, Digit.head?_chars, digits, List.head?_cons, Option.some.injEq]

end PackageCatalog
