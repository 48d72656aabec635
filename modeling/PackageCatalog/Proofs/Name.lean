import PackageCatalog.Name
import PackageCatalog.Proofs.Version.Hyphens

/-!
# Names and their characters

Names and versions are made of category characters, none of which is a blank or one of the
marks that atoms are put together with. Names are linearly ordered.
-/

namespace PackageCatalog

namespace NameKind

open Text

variable {c : Char}

theorem isBlank_of_isAlphanumeric (h : isAlphanumeric c = true) : isBlank c = false := by
  have hcases : (decide (65 ≤ c.val ∧ c.val ≤ 90) || (97 ≤ c.val && c.val ≤ 122) ||
      (48 ≤ c.val && c.val ≤ 57)) = true := h
  simp only [Bool.or_eq_true, Bool.and_eq_true, decide_eq_true_eq] at hcases
  have hrange : ((65 ≤ c.toNat ∧ c.toNat ≤ 90) ∨ 97 ≤ c.toNat ∧ c.toNat ≤ 122) ∨
      48 ≤ c.toNat ∧ c.toNat ≤ 57 := hcases
  simp only [isBlank, Bool.or_eq_false_iff, Bool.and_eq_false_iff, decide_eq_false_iff_not,
    beq_eq_false_iff_ne, ne_eq]
  omega

theorem isBlank_of_isCategoryChar (h : isCategoryChar c = true) : isBlank c = false := by
  simp only [isCategoryChar, Bool.or_eq_true, beq_iff_eq] at h
  rcases h with (((h | rfl) | rfl) | rfl) | rfl
  · exact isBlank_of_isAlphanumeric h
  all_goals decide

theorem isCategoryChar_of_isPackageChar (h : isPackageChar c = true) :
    isCategoryChar c = true := by
  simp only [isPackageChar, Bool.or_eq_true] at h
  rcases h with ((h | h) | h) | h <;> simp only [isCategoryChar, h, Bool.or_true, Bool.true_or]

theorem isCategoryChar_of_isRepositoryChar (h : isRepositoryChar c = true) :
    isCategoryChar c = true := by
  simp only [isRepositoryChar, Bool.or_eq_true] at h
  rcases h with (h | h) | h <;> simp only [isCategoryChar, h, Bool.or_true, Bool.true_or]

theorem isCategoryChar_of_isVersionChar (h : isVersionChar c = true) :
    isCategoryChar c = true := by
  simp only [isVersionChar, isStemChar, Bool.or_eq_true] at h
  rcases h with ((h | h) | h) | h <;> simp only [isCategoryChar, h, Bool.or_true, Bool.true_or]

/-- Whether the names of the kind are made of category characters alone. -/
def isPlain : NameKind → Bool
  | category | package | repository => true
  | set | useFlag => false

/-- A version behind a hyphen is found there. -/
theorem hasVersionTail_append (s : List Char) (v : Version) :
    hasVersionTail (s ++ '-' :: v.chars) = true := by
  induction s with
  | nil => rw [List.nil_append, hasVersionTail, v.ofChars?_chars]; rfl
  | cons c s ih => rw [List.cons_append, hasVersionTail, ih, Bool.or_true]

end NameKind

open NameKind

theorem Version.isCategoryChar_of_mem (v : Version) : ∀ c ∈ v.chars, isCategoryChar c = true := by
  intro c h
  exact isCategoryChar_of_isVersionChar (List.all_eq_true.mp v.all_isVersionChar_chars c h)

namespace Name

variable {kind : NameKind}

theorem parse_text (n : Name kind) : parse kind n.text = .ok n :=
  dif_pos n.valid

theorem parse_eq_ok_iff {text : String} {n : Name kind} :
    parse kind text = .ok n ↔ text = n.text := by
  constructor
  · intro h
    unfold parse at h
    split at h
    · cases h
      rfl
    · cases h
  · rintro rfl
    exact n.parse_text

theorem toList_of_parse {s : List Char} {n : Name kind} (h : parse kind (String.ofList s) = .ok n) :
    n.text.toList = s := by
  rw [← parse_eq_ok_iff.mp h, String.toList_ofList]

theorem text_ne_nil (n : Name kind) : n.text.toList ≠ [] := by
  intro h
  have hvalid := n.valid
  rw [accepts, h] at hvalid
  cases kind <;> cases hvalid

theorem isCategoryChar_of_plain (n : Name kind) (hplain : kind.isPlain = true) :
    ∀ c ∈ n.text.toList, isCategoryChar c = true := by
  intro c h
  have hvalid := n.valid
  cases kind with
  | category =>
    simp only [accepts, acceptsChars, Bool.and_eq_true] at hvalid
    exact List.all_eq_true.mp hvalid.2 c h
  | package =>
    simp only [accepts, acceptsChars, Bool.and_eq_true] at hvalid
    exact isCategoryChar_of_isPackageChar (List.all_eq_true.mp hvalid.1.2 c h)
  | repository =>
    simp only [accepts, acceptsChars, Bool.and_eq_true] at hvalid
    exact isCategoryChar_of_isRepositoryChar (List.all_eq_true.mp hvalid.2 c h)
  | set => cases hplain
  | useFlag => cases hplain

theorem slash_not_mem (n : Name kind) (hplain : kind.isPlain = true) : '/' ∉ n.text.toList :=
  Text.not_mem_of_class (n.isCategoryChar_of_plain hplain) (by decide)

theorem head?_ne_dot_of_category (c : CategoryName) : c.text.toList.head? ≠ some '.' := by
  have hvalid := c.valid
  simp only [accepts, acceptsChars, Bool.and_eq_true] at hvalid
  intro hdot
  obtain ⟨rest, hrest⟩ := List.head?_eq_some_iff.mp hdot
  rw [hrest] at hvalid
  exact Bool.false_ne_true hvalid.1

theorem dot_not_mem_of_package (p : PackageName) : '.' ∉ p.text.toList := by
  have hvalid := p.valid
  simp only [accepts, acceptsChars, Bool.and_eq_true] at hvalid
  exact Text.not_mem_of_class (List.all_eq_true.mp hvalid.1.2) (by decide)

theorem isUseFlagChar_of_useFlag (n : UseFlag) :
    ∀ c ∈ n.text.toList, isUseFlagChar c = true := by
  have hvalid := n.valid
  simp only [accepts, acceptsChars, Bool.and_eq_true] at hvalid
  exact List.all_eq_true.mp hvalid.2

theorem exists_cons_of_useFlag (n : UseFlag) :
    ∃ c rest, n.text.toList = c :: rest ∧ Text.isAlphanumeric c = true := by
  have hvalid := n.valid
  simp only [accepts, acceptsChars, Bool.and_eq_true] at hvalid
  cases hchars : n.text.toList with
  | nil =>
    rw [hchars] at hvalid
    exact nomatch hvalid.1
  | cons c rest =>
    rw [hchars] at hvalid
    exact ⟨c, rest, rfl, hvalid.1⟩

theorem eq_of_text {a b : Name kind} (h : a.text = b.text) : a = b := by
  obtain ⟨text, _⟩ := a
  cases h
  rfl

theorem ofText?_eq_some_iff {text : String} {n : Name kind} :
    ofText? kind text = some n ↔ text = n.text := by
  unfold ofText?
  constructor
  · intro h
    split at h
    · cases h
      rfl
    · cases h
  · rintro rfl
    exact dif_pos n.valid

/-! ## The order of names -/

instance : Std.TransCmp (compare : Name kind → Name kind → Ordering) :=
  inferInstanceAs (Std.TransCmp (compareOn Name.text))

instance : Std.LawfulEqCmp (compare : Name kind → Name kind → Ordering) where
  eq_of_compare {a b} h := by
    have hcompare : compare a.text b.text = .eq := h
    exact eq_of_text (Std.LawfulEqCmp.eq_of_compare hcompare)

end Name

namespace QualifiedName

instance : Std.TransCmp compare :=
  inferInstanceAs (Std.TransCmp (compareLex (compareOn category) (compareOn package)))

instance : Std.LawfulEqCmp compare where
  eq_of_compare {a b} h := by
    obtain ⟨hcategory, hpackage⟩ := Ordering.then_eq_eq.mp h
    obtain ⟨category, package⟩ := a
    cases Std.LawfulEqCmp.eq_of_compare hcategory
    cases Std.LawfulEqCmp.eq_of_compare hpackage
    rfl

end QualifiedName

end PackageCatalog
