import PackageCatalog.PackageId
import PackageCatalog.Proofs.Atom.RoundTrip
import PackageCatalog.Proofs.Identity

/-!
# The atom of a package ID

Behind an equals sign, the full text of an ID writes an atom (`PackageId.exactAtom`). That atom
describes the IDs that are the same up to equality of versions and have the slot of the ID.
-/

namespace PackageCatalog

namespace PackageId

/-- The atom that names all that the text of the ID names. -/
def exactAtom (id : PackageId) : Atom where
  name := .exact id.name
  version? := some ⟨.equal, id.version⟩
  slot? := id.slot?.map fun s => ⟨s.name, none⟩
  repository? := some id.repository

theorem text_exactAtom (id : PackageId) : id.exactAtom.text = "=" ++ id.text := by
  obtain ⟨name, version, slot?, repository, keys, masks, actions⟩ := id
  cases slot? <;>
    simp [exactAtom, Atom.text, Atom.nameText, Atom.slotText, NamePattern.text, text, placeText,
      VersionOperator.sign, String.append_assoc]

theorem admitsSlot_iff {name : String} {t : Slot} :
    Atom.admitsSlot ⟨name, none⟩ t = true ↔ t.name = name := by
  rw [Atom.admitsSlot, Bool.and_true, decide_eq_true_eq]

theorem all_slot_exactAtom {id x : PackageId} :
    id.exactAtom.slot?.all (fun wanted => x.slot?.any (Atom.admitsSlot wanted)) = true ↔
      ∀ s ∈ id.slot?, ∃ t ∈ x.slot?, t.name = s.name := by
  rw [exactAtom, Option.all_eq_true]
  constructor
  · intro h s hs
    have hany := h ⟨s.name, none⟩ (Option.mem_map_of_mem _ hs)
    obtain ⟨t, ht, hname⟩ := (Option.any_eq_true _ _).mp hany
    exact ⟨t, ht, admitsSlot_iff.mp hname⟩
  · rintro h wanted hwanted
    obtain ⟨s, hs, rfl⟩ := Option.map_eq_some_iff.mp hwanted
    obtain ⟨t, ht, hname⟩ := h s hs
    exact (Option.any_eq_true _ _).mpr ⟨t, ht, admitsSlot_iff.mpr hname⟩

theorem describes_exactAtom {id x : PackageId} :
    id.exactAtom.describes x = true ↔
      x.same id = true ∧ ∀ s ∈ id.slot?, ∃ t ∈ x.slot?, t.name = s.name := by
  have hname : id.exactAtom.name.admits x.name = true ↔ x.name = id.name := by
    rw [exactAtom, NamePattern.admits, beq_iff_eq]
    exact eq_comm
  have hversion : id.exactAtom.version?.all (·.admits x.version) = true ↔
      x.version.equals id.version = true := Iff.rfl
  have hrepository : id.exactAtom.repository?.all (fun r => r = x.repository) = true ↔
      x.repository = id.repository := by
    rw [exactAtom, Option.all_some, decide_eq_true_eq]
    exact eq_comm
  rw [Atom.describes, Bool.and_eq_true, Bool.and_eq_true, Bool.and_eq_true, hname, hversion,
    hrepository, all_slot_exactAtom, same_iff]
  constructor
  · rintro ⟨⟨⟨hn, hv⟩, hs⟩, hr⟩
    exact ⟨⟨hn, hv, hr⟩, hs⟩
  · rintro ⟨⟨hn, hv, hr⟩, hs⟩
    exact ⟨⟨⟨hn, hv⟩, hs⟩, hr⟩

/-- The full text of an ID, behind an equals sign, is read as the atom that describes the ID and
whatever is the same, in the slot of the ID where it has one. -/
theorem exists_atom_of_text {id : PackageId} (h : ∀ s ∈ id.slot?, Atom.isSlotName s.name = true) :
    ∃ a, Atom.parse ("=" ++ id.text) = .ok a ∧ a.describes id = true ∧
      ∀ x : PackageId, a.describes x = true ↔
        x.same id = true ∧ ∀ s ∈ id.slot?, ∃ t ∈ x.slot?, t.name = s.name := by
  have hslot : ∀ s ∈ id.exactAtom.slot?, Atom.IsSlot s := by
    intro wanted hwanted
    obtain ⟨s, hs, rfl⟩ := Option.map_eq_some_iff.mp hwanted
    exact ⟨h s hs, by rintro _ ⟨⟩⟩
  have hparse : Atom.parse ("=" ++ id.text) = .ok id.exactAtom := by
    rw [← text_exactAtom]
    exact Atom.parseWith_text (.inr ⟨id.name, rfl⟩) hslot
  refine ⟨id.exactAtom, hparse, ?_, fun x => describes_exactAtom⟩
  rw [describes_exactAtom]
  exact ⟨same_equivalence.refl id, fun s hs => ⟨s, hs, rfl⟩⟩

/-- The atom of `app/kit-1.0` in slot `2` describes `app/kit-1.00` there, but not `app/kit-1.0` in
another slot. -/
theorem exists_atom_of_text_slotted :
    ∃ a, Atom.parse "=app/kit-1.0:2::main" = .ok a ∧
      a.describes ((sample (.numbered 1 [⟨0, [0]⟩] none)).withSlot ⟨"2", some "5"⟩) = true ∧
      a.describes ((sample (.numbered 1 [⟨0, []⟩] none)).withSlot ⟨"5", none⟩) = false := by
  have hslot : ∀ s ∈ ((sample (.numbered 1 [⟨0, []⟩] none)).withSlot ⟨"2", none⟩).slot?,
      Atom.isSlotName s.name = true := by
    rintro _ ⟨⟩
    decide
  obtain ⟨a, hparse, -, hdescribes⟩ := exists_atom_of_text hslot
  have htext : "=" ++ ((sample (.numbered 1 [⟨0, []⟩] none)).withSlot ⟨"2", none⟩).text =
      "=app/kit-1.0:2::main" := by decide +kernel
  rw [htext] at hparse
  refine ⟨a, hparse, (hdescribes _).mpr ⟨same_iff.mpr
    ⟨rfl, Version.equals_iff_padded.mpr (by decide), rfl⟩, ?_⟩, ?_⟩
  · rintro _ ⟨⟩
    exact ⟨⟨"2", some "5"⟩, rfl, rfl⟩
  · rw [Bool.eq_false_iff, ne_eq, hdescribes]
    rintro ⟨-, h⟩
    obtain ⟨_, ⟨⟩, hname⟩ := h ⟨"2", none⟩ rfl
    revert hname
    decide

end PackageId

end PackageCatalog
