import PackageCatalog.PackageId
import PackageCatalog.Proofs.Version.ByText
import PackageCatalog.Proofs.Version.Fingerprint

/-!
# Identity

Two versions are equal when they tie in the order of versions, and two package IDs are the
same when name, version and repository agree. Both are equivalences that hashes respect.
-/

namespace PackageCatalog

namespace PackageId

theorem same_iff {x y : PackageId} :
    x.same y = true ↔
      x.name = y.name ∧ x.version.equals y.version = true ∧ x.repository = y.repository := by
  simp [same, and_assoc]

theorem same_equivalence : Equivalence fun x y : PackageId => x.same y = true where
  refl x := same_iff.mpr ⟨rfl, Version.equals_equivalence.refl x.version, rfl⟩
  symm h := by
    obtain ⟨hn, hv, hr⟩ := same_iff.mp h
    exact same_iff.mpr ⟨hn.symm, Version.equals_equivalence.symm hv, hr.symm⟩
  trans h₁ h₂ := by
    obtain ⟨hn₁, hv₁, hr₁⟩ := same_iff.mp h₁
    obtain ⟨hn₂, hv₂, hr₂⟩ := same_iff.mp h₂
    exact same_iff.mpr ⟨hn₁.trans hn₂, Version.equals_equivalence.trans hv₁ hv₂, hr₁.trans hr₂⟩

theorem hash_eq_of_same {x y : PackageId} (h : x.same y = true) : hash x = hash y := by
  obtain ⟨hn, hv, hr⟩ := same_iff.mp h
  show mixHash (hash x.name.text) (mixHash (hash x.version.fingerprint) _) =
    mixHash (hash y.name.text) (mixHash (hash y.version.fingerprint) _)
  rw [hn, hr, Version.fingerprint_eq_of_equals hv]

end PackageId

namespace Version

theorem compare_eq_iff_of_isLE {a b c : Version} (hab : (a.compare b).isLE)
    (hbc : (b.compare c).isLE) : a.compare c = .eq ↔ a.compare b = .eq ∧ b.compare c = .eq := by
  constructor
  · intro h
    have hba : (b.compare a).isLE := by
      rw [Std.TransCmp.congr_right h]
      exact hbc
    have hab' : a.compare b = .eq := Std.OrientedCmp.isLE_antisymm hab hba
    exact ⟨hab', by rwa [← Std.TransCmp.congr_left hab']⟩
  · intro ⟨h₁, h₂⟩
    exact Std.TransCmp.eq_trans h₁ h₂

end Version

def Version.numbered (major : Digit) (minors : List Numeral) (revision : Option Revision) :
    Version :=
  ⟨.release ⟨⟨major, []⟩, minors, none, [], none, false⟩, revision⟩

/-- The comparison of versions, which is that of their texts, is a total preorder. Equality is
its tie, an equivalence, and equal versions are hashed by the same items; so it is with package
IDs. -/
theorem versions_preordered_equal_hashed_alike :
    (∀ a b : Version, a.compare b = a.compareByText b) ∧
      (∀ a : Version, a.compare a = .eq) ∧
      (∀ a b : Version, b.compare a = (a.compare b).swap) ∧
      (∀ a b c : Version, (a.compare b).isLE → (b.compare c).isLE →
        (a.compare c).isLE ∧ (a.compare c = .eq ↔ a.compare b = .eq ∧ b.compare c = .eq)) ∧
      (∀ a b : Version, a.equals b = true ↔ a.compare b = .eq) ∧
      (Equivalence fun a b : Version => a.equals b = true) ∧
      (∀ a b : Version, a.equals b = true → a.fingerprint = b.fingerprint) ∧
      (∀ x y : PackageId, x.same y = true ↔
        x.name = y.name ∧ x.version.equals y.version = true ∧ x.repository = y.repository) ∧
      (Equivalence fun x y : PackageId => x.same y = true) ∧
      ∀ x y : PackageId, x.same y = true →
        x.version.fingerprint = y.version.fingerprint ∧ hash x = hash y := by
  refine ⟨Version.compare_eq_compareByText, fun a => Std.ReflCmp.compare_self,
    fun a b => Std.OrientedCmp.eq_swap, ?_, fun a b => Version.equals_iff,
    Version.equals_equivalence, fun a b h => Version.fingerprint_eq_of_equals h,
    fun x y => PackageId.same_iff, PackageId.same_equivalence, ?_⟩
  · intro a b c hab hbc
    exact ⟨Std.TransCmp.isLE_trans hab hbc, Version.compare_eq_iff_of_isLE hab hbc⟩
  · intro x y h
    obtain ⟨-, hv, -⟩ := PackageId.same_iff.mp h
    exact ⟨Version.fingerprint_eq_of_equals hv, PackageId.hash_eq_of_same h⟩

theorem RepositoryName.accepts_main : NameKind.accepts .repository "main" = true := by
  decide +kernel

def PackageId.sample (v : Version) : PackageId :=
  .bare ⟨⟨"app", by decide +kernel⟩, ⟨"kit", by decide +kernel⟩⟩ v
    ⟨"main", RepositoryName.accepts_main⟩

/-- `1.0` ties with `1.00-r0` and both precede `1.0.0`. -/
theorem one_zero_ties_and_precedes :
    (((Version.numbered 1 [⟨0, []⟩] none).compare
        (Version.numbered 1 [⟨0, [0]⟩] (some (.numbered ⟨0, []⟩ [])))).isLE ∧
      ((Version.numbered 1 [⟨0, [0]⟩] (some (.numbered ⟨0, []⟩ []))).compare
        (Version.numbered 1 [⟨0, []⟩, ⟨0, []⟩] none)).isLE ∧
      ((Version.numbered 1 [⟨0, []⟩] none).compare
        (Version.numbered 1 [⟨0, []⟩, ⟨0, []⟩] none)).isLE) ∧
    ((Version.numbered 1 [⟨0, []⟩] none).equals
        (Version.numbered 1 [⟨0, [0]⟩] (some (.numbered ⟨0, []⟩ []))) = true ∧
      (Version.numbered 1 [⟨0, []⟩] none).fingerprint =
        (Version.numbered 1 [⟨0, [0]⟩] (some (.numbered ⟨0, []⟩ []))).fingerprint) ∧
    ((PackageId.sample (Version.numbered 1 [⟨0, []⟩] none)).same
        (PackageId.sample (Version.numbered 1 [⟨0, [0]⟩] (some (.numbered ⟨0, []⟩ [])))) = true ∧
      hash (PackageId.sample (Version.numbered 1 [⟨0, []⟩] none)) =
        hash (PackageId.sample (Version.numbered 1 [⟨0, [0]⟩] (some (.numbered ⟨0, []⟩ []))))) := by
  obtain ⟨-, -, -, htrans, -, -, hhash, -, -, hid⟩ := versions_preordered_equal_hashed_alike
  have h₁ : ((Version.numbered 1 [⟨0, []⟩] none).compare
      (Version.numbered 1 [⟨0, [0]⟩] (some (.numbered ⟨0, []⟩ [])))).isLE := by
    rw [Version.compare_eq_padded]
    decide
  have h₂ : ((Version.numbered 1 [⟨0, [0]⟩] (some (.numbered ⟨0, []⟩ []))).compare
      (Version.numbered 1 [⟨0, []⟩, ⟨0, []⟩] none)).isLE := by
    rw [Version.compare_eq_padded]
    decide
  have h₃ : (Version.numbered 1 [⟨0, []⟩] none).equals
      (Version.numbered 1 [⟨0, [0]⟩] (some (.numbered ⟨0, []⟩ []))) = true :=
    Version.equals_iff_padded.mpr (by decide)
  have h₄ : (PackageId.sample (Version.numbered 1 [⟨0, []⟩] none)).same
      (PackageId.sample (Version.numbered 1 [⟨0, [0]⟩] (some (.numbered ⟨0, []⟩ [])))) = true :=
    PackageId.same_iff.mpr ⟨rfl, h₃, rfl⟩
  exact ⟨⟨h₁, h₂, (htrans _ _ _ h₁ h₂).1⟩, ⟨h₃, hhash _ _ h₃⟩, ⟨h₄, (hid _ _ h₄).2⟩⟩

end PackageCatalog
