import PackageCatalog.Proofs.Atom.RoundTrip
import PackageCatalog.Proofs.Identity

/-!
# What is read as an atom is its text

Each step of `Atom.parseWith` accounts for all of the text that it takes, so that an atom's text is
the token that it was read from (`Atom.textOver_of_parseWith`). Only a package name that stands
alone is written otherwise, by the full name that it is resolved to.
-/

namespace PackageCatalog

namespace Atom

open Text NameKind

/-! ## The name -/

/-- A text stands for a name pattern: it is how the pattern is written, or a package name alone that
is resolved to the one name of the pattern. -/
inductive Dialect.Reads (dialect : Dialect) : String → NamePattern → Prop where
  | written (p : NamePattern) : Reads dialect p.text p
  | resolved {resolve : PackageName → Except Error QualifiedName} {package : PackageName}
      {name : QualifiedName} (hresolve : dialect.resolve? = some resolve)
      (hname : resolve package = .ok name) : Reads dialect package.text (.exact name)

variable {input : String} {dialect : Dialect} {s t : List Char}

theorem reads_of_halves {p : NamePattern} (h : s = p.left ++ '/' :: p.right) :
    dialect.Reads (String.ofList s) p := by
  rw [h, ← p.toList_text, String.ofList_toList]
  exact .written p

theorem reads_of_parseName {p : NamePattern} (h : parseName input dialect s = .ok p) :
    dialect.Reads (String.ofList s) p := by
  unfold parseName at h
  split at h
  · split at h
    · next resolve hresolve =>
      obtain ⟨package, hpackage, h⟩ := Result.bind_eq_ok_iff.mp h
      obtain ⟨name, hname, h⟩ := Result.bind_eq_ok_iff.mp h
      cases h
      rw [Name.parse_eq_ok_iff.mp hpackage]
      exact .resolved hresolve hname
    · cases h
  · next category package hcut =>
    obtain ⟨c, hc, rfl⟩ := exists_of_cutAt hcut
    cases eq_of_beq hc
    refine reads_of_halves ?_
    split at h
    · cases h
    · split at h
      · next hcategory =>
        cases eq_of_beq hcategory
        split at h
        · next hpackage =>
          cases eq_of_beq hpackage
          cases h
          rfl
        · obtain ⟨n, hn, h⟩ := Result.bind_eq_ok_iff.mp h
          cases h
          rw [NamePattern.left, NamePattern.right, Name.toList_of_parse hn]
      · split at h
        · next hpackage =>
          cases eq_of_beq hpackage
          obtain ⟨n, hn, h⟩ := Result.bind_eq_ok_iff.mp h
          cases h
          rw [NamePattern.left, NamePattern.right, Name.toList_of_parse hn]
        · obtain ⟨n, hn, h⟩ := Result.bind_eq_ok_iff.mp h
          cases h
          obtain ⟨c, hc, hn⟩ := Result.bind_eq_ok_iff.mp hn
          obtain ⟨p, hp, hn⟩ := Result.bind_eq_ok_iff.mp hn
          cases hn
          rw [NamePattern.left, NamePattern.right, Name.toList_of_parse hc, Name.toList_of_parse hp]

/-! ## The operator and the version -/

def signChars (op? : Option VersionOperator) : List Char := op?.elim [] (·.sign.toList)

theorem signChars_takeOperator (s : List Char) :
    signChars (takeOperator s).1 ++ (takeOperator s).2 = s ∧
      (takeOperator s).1 ≠ some .equalStar := by
  unfold takeOperator
  split <;> exact ⟨rfl, by simp⟩

/-- The star behind a version belongs to its operator. -/
theorem append_starChars {starred : Bool} {op : VersionOperator} (hop : op ≠ .equalStar)
    (hstarred : starred = true → ['*'] <:+ s) (h : (if starred then s.dropLast else s) = t) :
    s = t ++ starChars (if starred then .equalStar else op) := by
  cases starred with
  | true =>
    obtain ⟨front, rfl⟩ := hstarred rfl
    rw [← h, if_pos rfl, if_pos rfl, List.dropLast_concat]
    rfl
  | false =>
    rw [← h, if_neg Bool.false_ne_true, if_neg Bool.false_ne_true, starChars, if_neg hop,
      List.append_nil]

theorem sign_starred {starred : Bool} {op : VersionOperator}
    (h : (starred && op != .equal) = false) :
    (if starred then VersionOperator.equalStar else op).sign = op.sign := by
  cases starred with
  | false => rfl
  | true =>
    rw [Bool.true_and, bne_eq_false_iff_eq] at h
    rw [h]
    rfl

theorem of_parseNameVersion {p : NamePattern} {r? : Option VersionRequirement}
    (h : parseNameVersion input dialect s = .ok (p, r?)) :
    ∃ name, dialect.Reads name p ∧ s = (nameTextOver name r?).toList := by
  obtain ⟨hsign, hop⟩ := signChars_takeOperator s
  unfold parseNameVersion at h
  rcases htake : takeOperator s with ⟨op?, rest⟩
  rw [htake] at h hsign hop
  dsimp only at h hsign hop
  split at h
  · cases h
  · cases op? with
    | none =>
      dsimp only at h
      split at h
      · cases h
      · obtain ⟨p, hname, h⟩ := Result.bind_eq_ok_iff.mp h
        cases h
        exact ⟨String.ofList rest, reads_of_parseName hname, hsign ▸ String.toList_ofList.symm⟩
    | some op =>
      dsimp only at h
      split at h
      · cases h
      · next hstarred =>
        split at h
        · cases h
        · next name v hsplit =>
          obtain ⟨p, hname, h⟩ := Result.bind_eq_ok_iff.mp h
          cases h
          refine ⟨String.ofList name, reads_of_parseName hname, ?_⟩
          have hrest := append_starChars (fun heq => hop (congrArg some heq))
            List.isSuffixOf_iff_suffix.mp (splitVersion?_eq_some_iff.mp hsplit).2
          rw [toList_nameTextOver, String.toList_ofList, sign_starred (Bool.not_eq_true _ ▸ hstarred),
            ← hrest, ← hsign]
          rfl

/-! ## The slot and the repository -/

theorem slotOf?_eq_some_iff {text : String} {slot : Slot} :
    slotOf? text = some slot ↔ IsSlot slot ∧ text = slotText slot := by
  constructor
  · intro h
    unfold slotOf? at h
    split at h
    · next name sub hsplit =>
      split at h
      · next hvalid =>
        cases h
        obtain ⟨hname, hsub⟩ := Bool.and_eq_true_iff.mp hvalid
        refine ⟨⟨hname, fun _ h => Option.some.inj h ▸ hsub⟩, ?_⟩
        rw [← String.toList_inj, toList_of_splitOnce hsplit, slotText, String.toList_append,
          String.toList_append, List.append_assoc]
        rfl
      · cases h
    · split at h
      · next hvalid =>
        cases h
        exact ⟨⟨hvalid, by rintro _ ⟨⟩⟩, rfl⟩
      · cases h
  · rintro ⟨hslot, rfl⟩
    exact slotOf?_text hslot

theorem of_parseSlot {slot? : Option Slot} (h : parseSlot input s = .ok (t, slot?)) :
    s = t ++ slotChars slot? ∧ ∀ slot ∈ slot?, IsSlot slot := by
  unfold parseSlot at h
  split at h
  · next rest text hcut =>
    obtain ⟨c, hc, rfl⟩ := exists_of_cutAt hcut
    cases eq_of_beq hc
    split at h
    · next slot hslot =>
      cases h
      obtain ⟨hvalid, htext⟩ := slotOf?_eq_some_iff.mp hslot
      refine ⟨?_, fun _ h => Option.some.inj h ▸ hvalid⟩
      rw [slotChars, ← htext, String.toList_ofList]
    · cases h
  · cases h
    exact ⟨(List.append_nil s).symm, by rintro _ ⟨⟩⟩

theorem of_parseRepository {r? : Option RepositoryName} (h : parseRepository s = .ok (t, r?)) :
    s = t ++ repositoryChars r? := by
  unfold parseRepository at h
  split at h
  · next rest text hcut =>
    obtain ⟨r, hr, h⟩ := Result.bind_eq_ok_iff.mp h
    cases h
    rw [repositoryChars, Name.toList_of_parse hr]
    exact eq_append_of_cutAround hcut
  · cases h
    exact (List.append_nil s).symm

/-! ## The atom -/

/-- An atom is read from its own text over some spelling of its name. -/
theorem textOver_of_parseWith {a : Atom} (h : parseWith dialect input = .ok a) :
    (∀ slot ∈ a.slot?, IsSlot slot) ∧
      ∃ name, dialect.Reads name a.name ∧ a.textOver name = trim input := by
  obtain ⟨-, s, t, hrepository, hslot, hname⟩ := parseWith_eq_ok_iff.mp h
  obtain ⟨hs, hvalid⟩ := of_parseSlot hslot
  obtain ⟨name, hreads, ht⟩ := of_parseNameVersion hname
  refine ⟨hvalid, name, hreads, ?_⟩
  rw [← String.toList_inj, toList_textOver, trim, String.toList_ofList, ← ht, ← List.append_assoc,
    ← hs, ← of_parseRepository hrepository]

/-- What is read without a resolver is written as it was read. -/
theorem text_of_parseWith {a : Atom} (hdialect : dialect.resolve? = none)
    (h : parseWith dialect input = .ok a) : a.text = trim input := by
  obtain ⟨-, name, hreads, htext⟩ := textOver_of_parseWith h
  obtain ⟨p, version?, slot?, repository?⟩ := a
  cases hreads with
  | written =>
    rw [← htext]
    exact (textOver_text _).symm
  | resolved hresolve =>
    rw [hdialect] at hresolve
    cases hresolve

/-- An atom is written as it was read, but for the blanks at its ends. Where a package name alone is
resolved, the name that it stands for is written in its place, and what is written is read back to
the same atom. -/
theorem written_as_read (input : String) (a : Atom) :
    (parse input = .ok a ∨ parseWildcard input = .ok a → a.text = trim input) ∧
      ∀ resolve, parseWith ⟨true, some resolve⟩ input = .ok a →
        parseWildcard a.text = .ok a ∧
          (trim input = a.text ∨ ∃ package name, resolve package = .ok name ∧
            a.name = .exact name ∧ trim input = a.textOver package.text) := by
  refine ⟨?_, fun resolve h => ?_⟩
  · rintro (h | h)
    · exact text_of_parseWith rfl h
    · exact text_of_parseWith rfl h
  · obtain ⟨hslot, name, hreads, htext⟩ := textOver_of_parseWith h
    refine ⟨parseWith_text (.inl rfl) hslot, ?_⟩
    obtain ⟨p, version?, slot?, repository?⟩ := a
    cases hreads with
    | written => exact .inl (htext ▸ textOver_text _)
    | resolved hresolve hname =>
      cases hresolve
      exact .inr ⟨_, _, hname, rfl, htext.symm⟩

def slottedKit : Atom where
  name := .exact (PackageId.sample ⟨.scm, none⟩).name
  version? := some ⟨.tilde, .numbered 2 [] none⟩
  slot? := some ⟨"0", none⟩
  repository? := none

def resolveInApp (p : PackageName) : Except Error QualifiedName :=
  .ok ⟨(PackageId.sample ⟨.scm, none⟩).name.category, p⟩

/-- With its category or without, `app/kit` is read between blanks. -/
theorem written_as_read_kit :
    (parse " ~app/kit-2:0\n" = .ok slottedKit ∧ slottedKit.text = trim " ~app/kit-2:0\n") ∧
      parseWith ⟨true, some resolveInApp⟩ " ~kit-2:0\n" = .ok slottedKit ∧
        parseWildcard slottedKit.text = .ok slottedKit := by
  have hparse : parse " ~app/kit-2:0\n" = .ok slottedKit := by
    have htrim : trimChars " ~app/kit-2:0\n".toList =
        ['~', 'a', 'p', 'p', '/', 'k', 'i', 't', '-', '2', ':', '0'] := by decide +kernel
    rw [parse, parseWith_eq_ok_iff, htrim]
    exact ⟨by simp [IsToken, isBlank], _, "~app/kit-2".toList, rfl,
      Result.eq_ok_of_toOption (by decide +kernel), Result.eq_ok_of_toOption (by decide +kernel)⟩
  have hresolved : parseWith ⟨true, some resolveInApp⟩ " ~kit-2:0\n" = .ok slottedKit := by
    have htrim : trimChars " ~kit-2:0\n".toList =
        ['~', 'k', 'i', 't', '-', '2', ':', '0'] := by decide +kernel
    rw [parseWith_eq_ok_iff, htrim]
    exact ⟨by simp [IsToken, isBlank], _, "~kit-2".toList, rfl,
      Result.eq_ok_of_toOption (by decide +kernel), Result.eq_ok_of_toOption (by decide +kernel)⟩
  exact ⟨⟨hparse, (written_as_read _ _).1 (.inl hparse)⟩, hresolved,
    ((written_as_read _ _).2 _ hresolved).1⟩

end Atom

end PackageCatalog
