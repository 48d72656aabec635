import PackageCatalog.PackageId
import PackageCatalog.Proofs.Atom.RoundTrip
import PackageCatalog.Proofs.Identity
import PackageCatalog.Proofs.Version.Operator

/-!
# Equal atoms

Atoms are equal when their versions are and all else is as written. They describe the same package
IDs, except that `=` with a star goes by the components of its version, which equal versions need
not share.
-/

namespace PackageCatalog

def VersionRequirement.equals (r s : VersionRequirement) : Bool :=
  r.operator == s.operator && r.version.equals s.version

namespace Atom

/-- The same atom but for the spelling of its version. -/
def equals (a b : Atom) : Bool :=
  a.name == b.name &&
    (match a.version?, b.version? with
      | some r, some s => r.equals s
      | none, none => true
      | _, _ => false) &&
    a.slot? == b.slot? && a.repository? == b.repository?

def fingerprint (a : Atom) : NamePattern ×
    Option (VersionOperator × List (ComponentKind × List Char × Bool)) × Option Slot ×
    Option RepositoryName :=
  (a.name, a.version?.map fun r => (r.operator, r.version.fingerprint), a.slot?, a.repository?)

variable {a b : Atom}

/-- Equal atoms differ in the spelling of a version at most. -/
theorem equals_iff : a.equals b = true ↔
    a.name = b.name ∧ a.slot? = b.slot? ∧ a.repository? = b.repository? ∧
      (a.version? = none ∧ b.version? = none ∨
        ∃ op v w, a.version? = some ⟨op, v⟩ ∧ b.version? = some ⟨op, w⟩ ∧ v.equals w = true) := by
  rw [equals, Bool.and_eq_true, Bool.and_eq_true, Bool.and_eq_true, beq_iff_eq, beq_iff_eq,
    beq_iff_eq]
  constructor
  · rintro ⟨⟨⟨hname, hversion⟩, hslot⟩, hrepository⟩
    refine ⟨hname, hslot, hrepository, ?_⟩
    split at hversion
    · next r s ha hb =>
      obtain ⟨op, v⟩ := r
      obtain ⟨hop, hvw⟩ := Bool.and_eq_true_iff.mp hversion
      cases eq_of_beq hop
      exact .inr ⟨s.operator, v, s.version, ha, hb, hvw⟩
    · next ha hb => exact .inl ⟨ha, hb⟩
    · cases hversion
  · rintro ⟨hname, hslot, hrepository, ⟨ha, hb⟩ | ⟨op, v, w, ha, hb, hvw⟩⟩
    · exact ⟨⟨⟨hname, by rw [ha, hb]⟩, hslot⟩, hrepository⟩
    · refine ⟨⟨⟨hname, ?_⟩, hslot⟩, hrepository⟩
      rw [ha, hb]
      exact Bool.and_eq_true_iff.mpr ⟨beq_self_eq_true op, hvw⟩

theorem fingerprint_eq_of_equals (h : a.equals b = true) : a.fingerprint = b.fingerprint := by
  obtain ⟨hname, hslot, hrepository, ⟨ha, hb⟩ | ⟨op, v, w, ha, hb, hvw⟩⟩ := equals_iff.mp h
  · rw [fingerprint, fingerprint, hname, hslot, hrepository, ha, hb]
  · rw [fingerprint, fingerprint, hname, hslot, hrepository, ha, hb, Option.map_some,
      Option.map_some, Version.fingerprint_eq_of_equals hvw]

/-! ## What equal atoms describe -/

/-- Whether the atom describes a package ID, its version left aside. -/
def describesPlace (a : Atom) (id : PackageId) : Bool :=
  a.name.admits id.name && a.slot?.all (fun wanted => id.slot?.any (admitsSlot wanted)) &&
    a.repository?.all (fun r => r = id.repository)

theorem describes_eq (a : Atom) (id : PackageId) :
    a.describes id = (a.describesPlace id && a.version?.all (·.admits id.version)) := by
  rw [describes, describesPlace]
  ac_rfl

/-- A name that fits the pattern, with the halves of `name` for what is open. -/
def fittingName (name : QualifiedName) : NamePattern → QualifiedName
  | .exact n => n
  | .category c => ⟨c, name.package⟩
  | .package p => ⟨name.category, p⟩
  | .any => name

theorem admits_fittingName (name : QualifiedName) (p : NamePattern) :
    p.admits (fittingName name p) = true := by
  cases p with
  | any => rfl
  | _ => exact beq_self_eq_true _

/-- An ID of a version, at a place that the atom describes. -/
def fittingId (a : Atom) (v : Version) : PackageId :=
  let id := PackageId.sample v
  { id with
    name := fittingName id.name a.name
    slot? := a.slot?
    repository := a.repository?.getD id.repository }

theorem describesPlace_fittingId (a : Atom) (v : Version) :
    a.describesPlace (a.fittingId v) = true := by
  rw [describesPlace, Bool.and_eq_true, Bool.and_eq_true]
  refine ⟨⟨admits_fittingName _ a.name, ?_⟩, ?_⟩
  · show a.slot?.all (fun wanted => a.slot?.any (admitsSlot wanted)) = true
    cases a.slot? with
    | none => rfl
    | some slot =>
      show admitsSlot slot slot = true
      obtain ⟨name, sub?⟩ := slot
      cases sub? <;> simp [admitsSlot]
  · show a.repository?.all (fun r => r = a.repository?.getD (PackageId.sample v).repository) = true
    cases a.repository? with
    | none => rfl
    | some r => exact decide_eq_true rfl

/-- Atoms that differ in their versions alone describe the same IDs when the versions admit the
same candidates. -/
theorem describes_congr_iff (hplace : a.describesPlace = b.describesPlace) :
    (∀ id, a.describes id = b.describes id) ↔
      ∀ candidate, a.version?.all (·.admits candidate) = b.version?.all (·.admits candidate) := by
  constructor
  · intro h candidate
    have hid := h (a.fittingId candidate)
    rwa [describes_eq, describes_eq, ← hplace, describesPlace_fittingId, Bool.true_and,
      Bool.true_and] at hid
  · intro h id
    rw [describes_eq, describes_eq, hplace, h]

/-- Equal atoms are hashed alike, and they describe the same IDs unless a star tells their versions
apart. -/
theorem describes_iff_of_equals (h : a.equals b = true) :
    a.fingerprint = b.fingerprint ∧
      ((∀ id, a.describes id = b.describes id) ↔ ∀ r ∈ a.version?, ∀ s ∈ b.version?,
        r.operator = .equalStar → r.version.SameShape s.version) := by
  refine ⟨fingerprint_eq_of_equals h, ?_⟩
  obtain ⟨hname, hslot, hrepository, hversion⟩ := equals_iff.mp h
  have hplace : a.describesPlace = b.describesPlace := by
    unfold describesPlace
    rw [hname, hslot, hrepository]
  rw [describes_congr_iff hplace]
  rcases hversion with ⟨ha, hb⟩ | ⟨op, v, w, ha, hb, hvw⟩
  · rw [ha, hb]
    exact iff_of_true (fun _ => rfl) fun _ hr => nomatch hr
  · rw [ha, hb]
    refine (VersionOperator.matches?_congr_iff hvw).trans ⟨?_, fun hshape => ?_⟩
    · rintro hshape _ ⟨⟩ _ ⟨⟩
      exact hshape
    · exact hshape ⟨op, v⟩ rfl ⟨op, w⟩ rfl

def starredKit (minor : Numeral) (suffixes : List Suffix) : Atom :=
  let v := Version.suffixed ⟨1, []⟩ [minor] none suffixes
  ⟨.exact (PackageId.sample v).name, some ⟨.equalStar, v⟩, none, none⟩

theorem parse_starredKit {minor : Numeral} {suffixes : List Suffix} {text : String}
    (h : (starredKit minor suffixes).text = text) :
    parse text = .ok (starredKit minor suffixes) :=
  h ▸ parseWith_text (.inr ⟨_, rfl⟩) fun _ hslot => nomatch hslot

theorem equals_starredKit {minor minor' : Numeral} {suffixes suffixes' : List Suffix}
    (h : (Version.suffixed ⟨1, []⟩ [minor] none suffixes).equals
      (.suffixed ⟨1, []⟩ [minor'] none suffixes') = true) :
    (starredKit minor suffixes).equals (starredKit minor' suffixes') = true :=
  equals_iff.mpr ⟨rfl, rfl, rfl, .inr ⟨.equalStar, _, _, rfl, rfl, h⟩⟩

/-- Two spellings of one number tell nothing apart, even under a star. -/
theorem describes_starred_alike : ∃ a b, parse "=app/kit-1.0_p*" = .ok a ∧
    parse "=app/kit-1.00_p*" = .ok b ∧ a.equals b = true ∧
      ∀ id, a.describes id = b.describes id := by
  have hequals : (starredKit ⟨0, []⟩ [⟨.patch, []⟩]).equals (starredKit ⟨0, [0]⟩ [⟨.patch, []⟩]) =
      true := equals_starredKit (Version.equals_iff_padded.mpr (by decide))
  refine ⟨_, _, parse_starredKit (by decide +kernel), parse_starredKit (by decide +kernel),
    hequals, ?_⟩
  refine (describes_iff_of_equals hequals).2.mpr ?_
  rintro _ ⟨⟩ _ ⟨⟩ -
  exact ⟨rfl, rfl⟩

/-- Under a star a suffix without a number stands for every number, and one numbered 0 does not. -/
theorem star_tells_equal_atoms_apart : ∃ a b id, parse "=app/kit-1.0_alpha*" = .ok a ∧
    parse "=app/kit-1.0_alpha0*" = .ok b ∧ a.equals b = true ∧
      a.describes id = true ∧ b.describes id = false := by
  refine ⟨starredKit ⟨0, []⟩ [⟨.alpha, []⟩], starredKit ⟨0, []⟩ [⟨.alpha, [0]⟩],
    PackageId.sample (.suffixed ⟨1, []⟩ [⟨0, []⟩] none [⟨.alpha, [5]⟩]),
    parse_starredKit (by decide +kernel), parse_starredKit (by decide +kernel),
    equals_starredKit (Version.equals_iff_padded.mpr (by decide)), by decide +kernel,
    by decide +kernel⟩

end Atom

end PackageCatalog
