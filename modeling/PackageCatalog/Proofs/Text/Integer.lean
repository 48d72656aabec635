import PackageCatalog.Proofs.Name
import PackageCatalog.Text

/-!
# Integers as they are written

The decimal text of an integer is read back (`Text.readInteger_toString`). Digits are taken one by
one and each beginning is checked against the bounds, which is no loss: a beginning lies between
zero and the whole.
-/

namespace PackageCatalog.Text

def IntegerRange.Holds (range : IntegerRange) (n : Int) : Prop := range.low ≤ n ∧ n ≤ range.high

instance (range : IntegerRange) (n : Int) : Decidable (range.Holds n) :=
  inferInstanceAs (Decidable (_ ∧ _))

def signed (negative : Bool) (n : Nat) : Int := if negative then -n else n

theorem le_ofDigitChars (digits : List Char) (n : Nat) : n ≤ Nat.ofDigitChars 10 digits n := by
  induction digits generalizing n with
  | nil => exact Nat.le_refl n
  | cons c digits ih =>
    rw [Nat.ofDigitChars_cons]
    exact Nat.le_trans (by omega) (ih _)

theorem le_toNat_of_isDigit {c : Char} (h : c.isDigit = true) : 48 ≤ c.toNat := by
  simp only [Char.isDigit, Bool.and_eq_true, decide_eq_true_eq] at h
  exact h.1

variable {range : IntegerRange} {n : Int}

theorem IntegerRange.Holds.of_le (hzero : range.Holds 0) {negative : Bool} {m k : Nat}
    (h : range.Holds (signed negative k)) (hle : m ≤ k) : range.Holds (signed negative m) := by
  unfold Holds signed at *
  cases negative
  · simp only [Bool.false_eq_true, ↓reduceIte] at h ⊢
    omega
  · simp only [↓reduceIte] at h ⊢
    omega

theorem readDigits_eq (hzero : range.Holds 0) {negative : Bool} {digits : List Char}
    (hdigits : ∀ c ∈ digits, c.isDigit = true) {m : Nat}
    (h : range.Holds (signed negative (Nat.ofDigitChars 10 digits m))) :
    readDigits range negative (signed negative m) digits =
      .ok (signed negative (Nat.ofDigitChars 10 digits m)) := by
  induction digits generalizing m with
  | nil => rfl
  | cons c digits ih =>
    rw [List.forall_mem_cons] at hdigits
    rw [Nat.ofDigitChars_cons] at h ⊢
    have hnext : (if negative then 10 * signed negative m - ((c.toNat : Int) - 48)
        else 10 * signed negative m + ((c.toNat : Int) - 48)) =
          signed negative (10 * m + (c.toNat - '0'.toNat)) := by
      have hdigit := le_toNat_of_isDigit hdigits.1
      have hzero : '0'.toNat = 48 := rfl
      unfold signed
      cases negative
      · simp only [Bool.false_eq_true, ↓reduceIte]
        omega
      · simp only [↓reduceIte]
        omega
    obtain ⟨hlow, hhigh⟩ := IntegerRange.Holds.of_le hzero h (le_ofDigitChars digits _)
    rw [readDigits, if_pos hdigits.1]
    simp only [hnext]
    rw [if_neg (by omega), if_neg (by omega), ih hdigits.2 h]

theorem readDigits_toDigits (hzero : range.Holds 0) {negative : Bool} {m : Nat}
    (h : range.Holds (signed negative m)) :
    readDigits range negative 0 (Nat.toDigits 10 m) = .ok (signed negative m) := by
  have hvalue : Nat.ofDigitChars 10 (Nat.toDigits 10 m) 0 = m := Nat.ofDigitChars_ten_toDigits
  have hdigits : ∀ c ∈ Nat.toDigits 10 m, c.isDigit = true := fun c hc =>
    Nat.isDigit_of_mem_toDigits (by decide) (by decide) hc
  rw [← hvalue] at h
  have hread := readDigits_eq hzero hdigits h
  rw [hvalue] at hread
  cases negative <;> exact hread

theorem exists_toDigits_eq_cons (m : Nat) :
    ∃ c rest, Nat.toDigits 10 m = c :: rest ∧ c.isDigit = true := by
  obtain ⟨c, rest, hdigits⟩ := List.exists_cons_of_ne_nil (Nat.toDigits_ne_nil (n := m) (b := 10))
  refine ⟨c, rest, hdigits, Nat.isDigit_of_mem_toDigits (b := 10) (n := m) (by decide) (by decide) ?_⟩
  rw [hdigits]
  exact List.mem_cons_self

theorem readInteger_of_digits {s : String} {m : Nat} (h : s.toList = Nat.toDigits 10 m) :
    readInteger range s = readDigits range false 0 (Nat.toDigits 10 m) := by
  obtain ⟨c, rest, hdigits, hc⟩ := exists_toDigits_eq_cons m
  rw [readInteger, h, hdigits]
  split
  · next heq => cases heq
  · next heq => cases heq; cases hc
  · next heq => cases heq; cases hc
  · next heq => cases heq; cases hc
  · next heq => cases heq; cases hc
  · rfl

theorem readInteger_of_minus {s : String} {m : Nat} (h : s.toList = '-' :: Nat.toDigits 10 m) :
    readInteger range s = readDigits range true 0 (Nat.toDigits 10 m) := by
  obtain ⟨c, rest, hdigits, -⟩ := exists_toDigits_eq_cons m
  rw [readInteger, h, hdigits]
  rfl

theorem toList_repr_negSucc (m : Nat) :
    (Int.repr (.negSucc m)).toList = '-' :: Nat.toDigits 10 (m + 1) := by
  show ("-" ++ (m + 1).repr).toList = _
  rw [String.toList_append, Nat.toList_repr]
  rfl

/-- What is written is read back. -/
theorem readInteger_toString (hzero : range.Holds 0) (h : range.Holds n) :
    readInteger range (toString n) = .ok n := by
  rw [Int.toString_eq_repr]
  cases n with
  | ofNat m => exact (readInteger_of_digits Nat.toList_repr).trans (readDigits_toDigits hzero h)
  | negSucc m =>
    exact (readInteger_of_minus (toList_repr_negSucc m)).trans (readDigits_toDigits hzero h)

theorem isBlank_of_isDigit {c : Char} (h : c.isDigit = true) : isBlank c = false :=
  NameKind.isBlank_of_isAlphanumeric (by simp [isAlphanumeric, Char.isAlphanum, h])

theorem isBlank_of_mem_toString {c : Char} (h : c ∈ (toString n).toList) : isBlank c = false := by
  rw [Int.toString_eq_repr] at h
  cases n with
  | ofNat m =>
    have hc : c ∈ Nat.toDigits 10 m := Nat.toList_repr ▸ h
    exact isBlank_of_isDigit (Nat.isDigit_of_mem_toDigits (by decide) (by decide) hc)
  | negSucc m =>
    rw [toList_repr_negSucc] at h
    rcases List.mem_cons.mp h with rfl | hc
    · decide
    · exact isBlank_of_isDigit (Nat.isDigit_of_mem_toDigits (by decide) (by decide) hc)

theorem toString_ne_nil (n : Int) : (toString n).toList ≠ [] := by
  rw [Int.toString_eq_repr]
  cases n with
  | ofNat m => exact Nat.toList_repr ▸ Nat.toDigits_ne_nil
  | negSucc m => exact toList_repr_negSucc m ▸ List.cons_ne_nil _ _

end PackageCatalog.Text
