import PackageCatalog.Proofs.Atom.Split
import PackageCatalog.Proofs.Result

/-!
# Atoms are read back from their text

The marks `::`, `:`, `/`, `*` and the signs of the operators stand outside of every name and
version, so that each step of `Atom.parseWith` finds the part that was written.
-/

namespace PackageCatalog

open Text NameKind

/-! ## The halves of a pattern -/

namespace NamePattern

/-- What stands in front of the slash. -/
def left : NamePattern → List Char
  | exact n => n.category.text.toList
  | category c => c.text.toList
  | package _ => ['*']
  | any => ['*']

/-- What stands behind the slash. -/
def right : NamePattern → List Char
  | exact n => n.package.text.toList
  | category _ => ['*']
  | package p => p.text.toList
  | any => ['*']

theorem toList_text (p : NamePattern) : p.text.toList = p.left ++ '/' :: p.right := by
  cases p with
  | exact n => rw [text, QualifiedName.text, String.toList_append, String.toList_append,
      List.append_assoc]; rfl
  | category c => rw [text, String.toList_append]; rfl
  | package p => rw [text, String.toList_append]; rfl
  | any => rfl

def isHalfChar (c : Char) : Bool := isCategoryChar c || c == '*'

theorem isHalfChar_of_mem (p : NamePattern) :
    ∀ c, c ∈ p.left ∨ c ∈ p.right → isHalfChar c = true := by
  intro c hc
  rw [isHalfChar, Bool.or_eq_true, beq_iff_eq]
  cases p with
  | exact n => exact .inl (hc.elim (n.category.isCategoryChar_of_plain rfl c)
      (n.package.isCategoryChar_of_plain rfl c))
  | category n => exact hc.imp (n.isCategoryChar_of_plain rfl c) List.mem_singleton.mp
  | package n => exact hc.symm.imp (n.isCategoryChar_of_plain rfl c) List.mem_singleton.mp
  | any => exact .inr (hc.elim List.mem_singleton.mp List.mem_singleton.mp)

theorem slash_not_mem (p : NamePattern) : '/' ∉ p.left ∧ '/' ∉ p.right :=
  ⟨not_mem_of_class (fun c hc => p.isHalfChar_of_mem c (.inl hc)) (by decide),
    not_mem_of_class (fun c hc => p.isHalfChar_of_mem c (.inr hc)) (by decide)⟩

theorem exists_left_eq_cons (p : NamePattern) :
    ∃ c t, p.left = c :: t ∧ isHalfChar c = true := by
  have hne : p.left ≠ [] := by
    cases p with
    | exact n => exact n.category.text_ne_nil
    | category n => exact n.text_ne_nil
    | package n => exact List.cons_ne_nil _ _
    | any => exact List.cons_ne_nil _ _
  obtain ⟨c, t, hleft⟩ := List.exists_cons_of_ne_nil hne
  refine ⟨c, t, hleft, p.isHalfChar_of_mem c (.inl ?_)⟩
  rw [hleft]
  exact List.mem_cons_self

/-- The last half is a star or a package name. -/
theorem right_cases (p : NamePattern) :
    p.right = ['*'] ∨ ∃ n : PackageName, p.right = n.text.toList := by
  cases p with
  | exact n => exact .inr ⟨n.package, rfl⟩
  | category n => exact .inl rfl
  | package n => exact .inr ⟨n, rfl⟩
  | any => exact .inl rfl

theorem isVersionable_text (p : NamePattern) :
    Atom.isVersionable (p.left ++ '/' :: p.right) = true := by
  rw [Atom.isVersionable, Atom.lastPart_cut p.slash_not_mem.2, Bool.or_eq_true]
  rcases p.right_cases with h | ⟨n, h⟩
  · exact .inr (by rw [h]; rfl)
  · exact .inl (by rw [h]; exact n.valid)

/-- Only a star that stands for a half ends the text of a pattern. -/
theorem isSuffixOf_star_right (p : NamePattern) :
    (['*'].isSuffixOf (p.left ++ '/' :: p.right) &&
      !(['/', '*'].isSuffixOf (p.left ++ '/' :: p.right))) = false := by
  rcases p.right_cases with h | ⟨n, h⟩
  · rw [h, List.isSuffixOf_iff_suffix.mpr (List.suffix_append p.left ['/', '*']), Bool.not_true,
      Bool.and_false]
  · have hstar : '*' ∉ '/' :: p.right := by
      rw [h]
      refine List.not_mem_cons_of_ne_of_not_mem (by decide) ?_
      exact not_mem_of_class (n.isCategoryChar_of_plain rfl) (by decide)
    rw [isSuffixOf_append_of_not_mem (List.cons_ne_nil _ _) hstar, Bool.false_and]

end NamePattern

namespace Atom

/-! ## Reading the name -/

def Dialect.Admits (dialect : Dialect) (p : NamePattern) : Prop :=
  dialect.wildcards = true ∨ ∃ n, p = .exact n

theorem beq_star {s : List Char} (h : ∀ c ∈ s, isCategoryChar c = true) : (s == ['*']) = false := by
  rw [beq_eq_false_iff_ne]
  rintro rfl
  exact not_mem_of_class h (by decide) (List.mem_singleton_self '*')

theorem parseName_text (input : String) {dialect : Dialect} {p : NamePattern}
    (h : dialect.Admits p) : parseName input dialect (p.left ++ '/' :: p.right) = .ok p := by
  rw [parseName, cutAt_append (beq_of_not_mem p.slash_not_mem.1) (by decide)]
  cases p with
  | exact n =>
    simp only [NamePattern.left, NamePattern.right,
      beq_star (n.category.isCategoryChar_of_plain rfl),
      beq_star (n.package.isCategoryChar_of_plain rfl), Bool.or_self, Bool.false_and,
      Bool.false_eq_true, ↓reduceIte, String.ofList_toList, QualifiedName.ofParts,
      Name.parse_text]
    rfl
  | category n =>
    rcases h with h | ⟨m, hm⟩
    · simp only [NamePattern.left, NamePattern.right, beq_star (n.isCategoryChar_of_plain rfl), h,
        Bool.not_true, Bool.and_false, Bool.false_eq_true, ↓reduceIte, String.ofList_toList,
        Name.parse_text, BEq.rfl]
      rfl
    · cases hm
  | package n =>
    rcases h with h | ⟨m, hm⟩
    · simp only [NamePattern.left, NamePattern.right, beq_star (n.isCategoryChar_of_plain rfl), h,
        Bool.not_true, Bool.and_false, Bool.false_eq_true, ↓reduceIte, String.ofList_toList,
        Name.parse_text, BEq.rfl]
      rfl
    · cases hm
  | any =>
    rcases h with h | ⟨m, hm⟩
    · simp only [NamePattern.left, NamePattern.right, h, Bool.not_true, Bool.and_false,
        Bool.false_eq_true, ↓reduceIte, BEq.rfl]
    · cases hm

/-- A package name that stands alone is resolved. -/
theorem parseName_package (input : String) {dialect : Dialect}
    {resolve : PackageName → Except Error QualifiedName}
    (hresolve : dialect.resolve? = some resolve) (p : PackageName) :
    parseName input dialect p.text.toList = (resolve p).map .exact := by
  rw [parseName, cutAt_eq_none (beq_of_not_mem (p.slash_not_mem rfl)), hresolve]
  simp only [String.ofList_toList, Name.parse_text]
  show (resolve p >>= fun name => pure (NamePattern.exact name)) = _
  cases resolve p <;> rfl

/-! ## Reading the operator and the version -/

theorem isOperatorChar_of_isHalfChar {c : Char} (h : NamePattern.isHalfChar c = true) :
    isOperatorChar c = false := by
  simp only [isOperatorChar, Bool.or_eq_false_iff, beq_eq_false_iff_ne]
  refine ⟨⟨⟨?_, ?_⟩, ?_⟩, ?_⟩ <;> exact ne_of_class h (by decide)

/-- A text that can stand for a name in an atom: it starts like a name, a version can follow, and it
ends in a star only behind a slash. -/
structure IsSpelling (s : List Char) : Prop where
  starts : ∃ c t, s = c :: t ∧ NamePattern.isHalfChar c = true
  chars : ∀ c ∈ s, NamePattern.isHalfChar c = true ∨ c = '/'
  versionable : isVersionable s = true
  starless : (['*'].isSuffixOf s && !(['/', '*'].isSuffixOf s)) = false

theorem isSpelling_pattern (p : NamePattern) : IsSpelling p.text.toList := by
  rw [p.toList_text]
  refine ⟨?_, fun c hc => ?_, p.isVersionable_text, p.isSuffixOf_star_right⟩
  · obtain ⟨c, t, hleft, hc⟩ := p.exists_left_eq_cons
    exact ⟨c, t ++ '/' :: p.right, by rw [hleft, List.cons_append], hc⟩
  · rw [List.mem_append, List.mem_cons] at hc
    rcases hc with hc | rfl | hc
    · exact .inl (p.isHalfChar_of_mem c (.inl hc))
    · exact .inr rfl
    · exact .inl (p.isHalfChar_of_mem c (.inr hc))

/-- A package name can stand for a full one. -/
theorem isSpelling_package (p : PackageName) : IsSpelling p.text.toList := by
  have hhalf : ∀ c ∈ p.text.toList, NamePattern.isHalfChar c = true := fun c hc => by
    rw [NamePattern.isHalfChar, p.isCategoryChar_of_plain rfl c hc, Bool.true_or]
  refine ⟨?_, fun c hc => .inl (hhalf c hc), isVersionable_of_package p, ?_⟩
  · obtain ⟨c, t, htext⟩ := List.exists_cons_of_ne_nil p.text_ne_nil
    exact ⟨c, t, htext, hhalf c (htext ▸ List.mem_cons_self)⟩
  · have hstar : '*' ∉ p.text.toList := not_mem_of_class (p.isCategoryChar_of_plain rfl) (by decide)
    rw [← List.nil_append p.text.toList,
      isSuffixOf_append_of_not_mem p.text_ne_nil hstar, Bool.false_and]

namespace IsSpelling

variable {s : List Char}

/-- A name starts with no sign of an operator. -/
theorem head? (h : IsSpelling s) (rest : List Char) :
    (s ++ rest).head?.any isOperatorChar = false := by
  obtain ⟨c, t, rfl, hc⟩ := h.starts
  exact isOperatorChar_of_isHalfChar hc

theorem takeOperator (h : IsSpelling s) (rest : List Char) :
    Atom.takeOperator (s ++ rest) = (none, s ++ rest) := by
  obtain ⟨c, t, rfl, hc⟩ := h.starts
  have hop := isOperatorChar_of_isHalfChar hc
  simp only [isOperatorChar, Bool.or_eq_false_iff, beq_eq_false_iff_ne] at hop
  obtain ⟨⟨⟨hlt, hgt⟩, heq⟩, htilde⟩ := hop
  simp [Atom.takeOperator, hlt, hgt, heq, htilde]

end IsSpelling

/-- The operator that a sign stands for where no star follows. -/
def unstarred : VersionOperator → VersionOperator
  | .equalStar => .equal
  | op => op

theorem IsSpelling.takeOperator_sign {s : List Char} (h : IsSpelling s) (op : VersionOperator)
    (rest : List Char) :
    Atom.takeOperator (op.sign.toList ++ (s ++ rest)) = (some (unstarred op), s ++ rest) := by
  obtain ⟨c, t, rfl, hc⟩ := h.starts
  -- `<` and `>` must not be read as `<=` and `>=`.
  have heq : c ≠ '=' := ne_of_class hc (by decide)
  cases op with
  | less =>
    show Atom.takeOperator ('<' :: c :: (t ++ rest)) = _
    simp [Atom.takeOperator, heq, unstarred]
  | greater =>
    show Atom.takeOperator ('>' :: c :: (t ++ rest)) = _
    simp [Atom.takeOperator, heq, unstarred]
  | _ => rfl

def starChars (op : VersionOperator) : List Char := if op = .equalStar then ['*'] else []

theorem star_not_mem_version (v : Version) : '*' ∉ v.chars :=
  not_mem_of_class v.isCategoryChar_of_mem (by decide)

/-- A text with a version at its end has a star only from its operator. -/
theorem isSuffixOf_starChars (s : List Char) (v : Version) (op : VersionOperator) :
    ['*'].isSuffixOf (s ++ '-' :: v.chars ++ starChars op) = (op == .equalStar) := by
  by_cases h : op = .equalStar
  · rw [starChars, if_pos h, h, List.isSuffixOf_iff_suffix.mpr (List.suffix_append _ _)]
    rfl
  · have hstar : '*' ∉ '-' :: v.chars :=
      List.not_mem_cons_of_ne_of_not_mem (by decide) (star_not_mem_version v)
    rw [starChars, if_neg h, List.append_nil,
      isSuffixOf_append_of_not_mem (List.cons_ne_nil _ _) hstar, beq_eq_false_iff_ne.mpr h]

theorem dropLast_starChars (s : List Char) (op : VersionOperator) :
    (if op == .equalStar then (s ++ starChars op).dropLast else s ++ starChars op) = s := by
  by_cases h : op = .equalStar
  · rw [h]
    exact List.dropLast_concat
  · rw [beq_eq_false_iff_ne.mpr h, starChars, if_neg h, List.append_nil]
    rfl

/-- The name and version part of a text, over the given spelling of the name. -/
def nameTextOver (name : String) : Option VersionRequirement → String
  | some r => r.operator.sign ++ name ++ "-" ++ r.version.text ++
      (if r.operator = .equalStar then "*" else "")
  | none => name

theorem nameText_eq (a : Atom) : a.nameText = nameTextOver a.name.text a.version? := by
  rw [nameText]
  cases a.version? <;> rfl

theorem toList_nameTextOver (name : String) (r : VersionRequirement) :
    (nameTextOver name (some r)).toList = r.operator.sign.toList ++
      (name.toList ++ '-' :: r.version.chars ++ starChars r.operator) := by
  have hversion : r.version.text.toList = r.version.chars := String.toList_ofList
  have hstar : (if r.operator = .equalStar then "*" else "").toList = starChars r.operator := by
    rw [starChars]
    split <;> rfl
  simp only [nameTextOver, String.toList_append, hversion, hstar, List.append_assoc]
  rfl

theorem toList_nameText (a : Atom) :
    a.nameText.toList =
      match a.version? with
      | some r => r.operator.sign.toList ++
          (a.name.left ++ '/' :: a.name.right ++ '-' :: r.version.chars ++ starChars r.operator)
      | none => a.name.left ++ '/' :: a.name.right := by
  rw [nameText_eq]
  cases a.version? with
  | none => exact a.name.toList_text
  | some r => rw [toList_nameTextOver, a.name.toList_text]

/-- The name is read, whatever the version. -/
theorem parseNameVersion_over (input : String) {dialect : Dialect} {name : String}
    (h : IsSpelling name.toList) (version? : Option VersionRequirement) :
    parseNameVersion input dialect (nameTextOver name version?).toList =
      (parseName input dialect name.toList).map (·, version?) := by
  cases version? with
  | none =>
    have htake := h.takeOperator []
    have hhead := h.head? []
    rw [List.append_nil] at htake hhead
    simp only [nameTextOver, parseNameVersion, htake, hhead, h.starless, Bool.false_eq_true,
      ↓reduceIte]
    cases parseName input dialect name.toList <;> rfl
  | some r =>
    obtain ⟨op, v⟩ := r
    have hsplit := splitVersion?_append h.versionable v
    have htake := h.takeOperator_sign op ('-' :: v.chars ++ starChars op)
    have hhead := h.head? ('-' :: v.chars ++ starChars op)
    have hunstarred : (op == .equalStar && unstarred op != .equal) = false := by
      cases op <;> rfl
    have hrestored : (if op == .equalStar then .equalStar else unstarred op) = op := by
      cases op <;> rfl
    rw [toList_nameTextOver, parseNameVersion]
    simp only [← List.append_assoc] at htake hhead ⊢
    simp only [htake, hhead, isSuffixOf_starChars, hunstarred, hrestored, dropLast_starChars,
      hsplit, Bool.false_eq_true, ↓reduceIte]
    cases parseName input dialect name.toList <;> rfl

/-! ## Reading the slot and the repository -/

/-- A slot restriction that can be written: the slot and the sub-slot have valid names. -/
def IsSlot (s : Slot) : Prop := isSlotName s.name = true ∧ ∀ sub ∈ s.sub?, isSlotName sub = true

theorem isCategoryChar_of_isSlotName {s : String} (h : isSlotName s = true) :
    ∀ c ∈ s.toList, isCategoryChar c = true := by
  rw [isSlotName, Bool.and_eq_true] at h
  exact List.all_eq_true.mp h.2

theorem toList_ne_nil_of_isSlotName {s : String} (h : isSlotName s = true) : s.toList ≠ [] := by
  intro hs
  rw [isSlotName, hs] at h
  cases h

theorem slotOf?_text {s : Slot} (h : IsSlot s) : slotOf? (slotText s) = some s := by
  obtain ⟨name, sub?⟩ := s
  obtain ⟨hname, hsub⟩ := h
  have hslash : '/' ∉ name.toList :=
    not_mem_of_class (isCategoryChar_of_isSlotName hname) (by decide)
  cases sub? with
  | none =>
    show slotOf? name = _
    rw [slotOf?, splitOnce, cutAt_eq_none (beq_of_not_mem hslash)]
    exact if_pos hname
  | some sub =>
    have htext : (slotText ⟨name, some sub⟩).toList = name.toList ++ '/' :: sub.toList := by
      rw [slotText, String.toList_append, String.toList_append, List.append_assoc]
      rfl
    rw [slotOf?, splitOnce, htext, cutAt_append (beq_of_not_mem hslash) (by decide)]
    simp only [Option.map_some, String.ofList_toList, hname, hsub sub rfl, Bool.and_self,
      ↓reduceIte]

/-- What may stand in the text of a slot. -/
theorem isCategoryChar_of_slotText {s : Slot} (h : IsSlot s) :
    ∀ c ∈ (slotText s).toList, isCategoryChar c = true ∨ c = '/' := by
  obtain ⟨name, sub?⟩ := s
  obtain ⟨hname, hsub⟩ := h
  intro c hc
  cases sub? with
  | none => exact .inl (isCategoryChar_of_isSlotName hname c hc)
  | some sub =>
    simp only [slotText, String.toList_append, List.mem_append] at hc
    rcases hc with (hc | hc) | hc
    · exact .inl (isCategoryChar_of_isSlotName hname c hc)
    · exact .inr (List.mem_singleton.mp hc)
    · exact .inl (isCategoryChar_of_isSlotName (hsub sub rfl) c hc)

def slotChars : Option Slot → List Char
  | some s => ':' :: (slotText s).toList
  | none => []

def repositoryChars : Option RepositoryName → List Char
  | some r => ':' :: ':' :: r.text.toList
  | none => []

/-- The text of an atom, over the given spelling of its name. -/
def textOver (a : Atom) (name : String) : String :=
  nameTextOver name a.version? ++
    (match a.slot? with
      | some s => ":" ++ slotText s
      | none => "") ++
    (match a.repository? with
      | some r => "::" ++ r.text
      | none => "")

theorem textOver_text (a : Atom) : a.textOver a.name.text = a.text := by
  obtain ⟨name, version?, slot?, repository?⟩ := a
  cases version? <;> rfl

theorem toList_textOver (a : Atom) (name : String) : (a.textOver name).toList =
    (nameTextOver name a.version?).toList ++ (slotChars a.slot? ++ repositoryChars a.repository?) := by
  rw [textOver]
  obtain ⟨_, version?, slot?, repository?⟩ := a
  cases slot? <;> cases repository? <;>
    simp [slotChars, repositoryChars, String.toList_append, List.append_assoc]

theorem toList_text (a : Atom) :
    a.text.toList = a.nameText.toList ++ (slotChars a.slot? ++ repositoryChars a.repository?) := by
  rw [← textOver_text, toList_textOver, nameText_eq]

theorem parseSlot_text (input : String) {o : Option Slot} (h : ∀ s ∈ o, IsSlot s) {t : List Char}
    (ht : ':' ∉ t) : parseSlot input (t ++ slotChars o) = .ok (t, o) := by
  cases o with
  | none =>
    rw [slotChars, List.append_nil, parseSlot, cutAt_eq_none (beq_of_not_mem ht)]
  | some s =>
    rw [slotChars, parseSlot, cutAt_append (beq_of_not_mem ht) (by decide)]
    simp only [String.ofList_toList, slotOf?_text (h s rfl)]

theorem ne_colon_of_slotText {s : Slot} (h : IsSlot s) : ∀ c ∈ (slotText s).toList, c ≠ ':' := by
  intro c hc
  rcases isCategoryChar_of_slotText h c hc with hc | rfl
  · exact ne_of_class hc (by decide)
  · decide

theorem toList_slotText_ne_nil {s : Slot} (h : IsSlot s) : (slotText s).toList ≠ [] := by
  have hname := toList_ne_nil_of_isSlotName h.1
  rw [slotText]
  cases s.sub? with
  | none => exact hname
  | some sub => simp [String.toList_append]

/-- The colon of a slot is no repository mark. -/
theorem cutAround_slotChars {o : Option Slot} (h : ∀ s ∈ o, IsSlot s) (rest : List Char) :
    cutAround [':', ':'] (slotChars o ++ rest) =
      (cutAround [':', ':'] rest).map fun (before, after) => (slotChars o ++ before, after) := by
  cases o with
  | none => exact Option.map_id'.symm
  | some s =>
    have hcolon := ne_colon_of_slotText (h s rfl)
    have hpass := cutAround_append hcolon [':'] rest
    obtain ⟨c, t, hs⟩ := List.exists_cons_of_ne_nil (toList_slotText_ne_nil (h s rfl))
    rw [hs] at hcolon hpass
    have hprefix : [':', ':'].isPrefixOf (':' :: (c :: t ++ rest)) = false := by
      simp [List.isPrefixOf, (hcolon c List.mem_cons_self).symm]
    rw [slotChars, hs, List.cons_append, cutAround, hprefix, hpass]
    cases cutAround [':', ':'] rest <;> rfl

theorem parseRepository_text {o : Option Slot} (h : ∀ s ∈ o, IsSlot s) (r? : Option RepositoryName)
    {t : List Char} (ht : ':' ∉ t) :
    parseRepository (t ++ (slotChars o ++ repositoryChars r?)) = .ok (t ++ slotChars o, r?) := by
  have hcolon : ∀ c ∈ t, c ≠ ':' := fun c hc => ne_of_mem_of_not_mem hc ht
  rw [parseRepository, cutAround_append hcolon, cutAround_slotChars h]
  cases r? with
  | none =>
    rw [repositoryChars, List.append_nil]
    rfl
  | some r =>
    have hcut : cutAround [':', ':'] (repositoryChars (some r)) = some ([], r.text.toList) := rfl
    simp only [hcut, Option.map_some, List.append_nil, String.ofList_toList, Name.parse_text]
    rfl

/-! ## Reading an atom -/

def isNameTextChar (c : Char) : Bool :=
  isCategoryChar c || ['*', '/', '<', '=', '>', '~'].contains c

theorem isNameTextChar_of_isCategoryChar {c : Char} (h : isCategoryChar c = true) :
    isNameTextChar c = true := by
  rw [isNameTextChar, h, Bool.true_or]

theorem isNameTextChar_of_isHalfChar {c : Char} (h : NamePattern.isHalfChar c = true) :
    isNameTextChar c = true := by
  rw [NamePattern.isHalfChar, Bool.or_eq_true, beq_iff_eq] at h
  rcases h with h | rfl
  · exact isNameTextChar_of_isCategoryChar h
  · decide

theorem IsSpelling.isNameTextChar {s : List Char} (h : IsSpelling s) :
    ∀ c ∈ s, Atom.isNameTextChar c = true := by
  intro c hc
  rcases h.chars c hc with hc | rfl
  · exact isNameTextChar_of_isHalfChar hc
  · decide

theorem isNameTextChar_of_nameTextOver {name : String} (h : IsSpelling name.toList)
    (version? : Option VersionRequirement) :
    ∀ c ∈ (nameTextOver name version?).toList, isNameTextChar c = true := by
  cases version? with
  | none => exact h.isNameTextChar
  | some r =>
    have hname : name.toList.all isNameTextChar = true := List.all_eq_true.mpr h.isNameTextChar
    have hsign : r.operator.sign.toList.all isNameTextChar = true := by
      cases r.operator <;> decide
    have hversion : r.version.chars.all isNameTextChar = true := by
      rw [List.all_eq_true]
      exact fun c hc => isNameTextChar_of_isCategoryChar (r.version.isCategoryChar_of_mem c hc)
    have hstar : (starChars r.operator).all isNameTextChar = true := by
      rw [starChars]
      split <;> rfl
    rw [toList_nameTextOver, ← List.all_eq_true]
    simp only [List.all_append, List.all_cons, hname, hsign, hversion, hstar]
    rfl

section TextOver

variable {a : Atom} {name : String}

/-- The text of an atom is put together from names and marks. -/
theorem isNameTextChar_or_colon (hname : IsSpelling name.toList)
    (hslot : ∀ s ∈ a.slot?, IsSlot s) :
    ∀ c ∈ (a.textOver name).toList, isNameTextChar c = true ∨ c = ':' := by
  intro c hc
  rw [toList_textOver, List.mem_append, List.mem_append] at hc
  rcases hc with hc | hc | hc
  · exact .inl (isNameTextChar_of_nameTextOver hname a.version? c hc)
  · cases hs : a.slot? with
    | none => rw [hs] at hc; cases hc
    | some s =>
      rw [hs, slotChars, List.mem_cons] at hc
      rcases hc with hc | hc
      · exact .inr hc
      · rcases isCategoryChar_of_slotText (hslot s hs) c hc with hc | rfl
        · exact .inl (isNameTextChar_of_isCategoryChar hc)
        · exact .inl (by decide)
  · cases hr : a.repository? with
    | none => rw [hr] at hc; cases hc
    | some r =>
      rw [hr, repositoryChars, List.mem_cons, List.mem_cons] at hc
      rcases hc with hc | hc | hc
      · exact .inr hc
      · exact .inr hc
      · exact .inl (isNameTextChar_of_isCategoryChar (r.isCategoryChar_of_plain rfl c hc))

theorem isBlank_of_isNameTextChar {c : Char} (h : isNameTextChar c = true) : isBlank c = false := by
  rw [isNameTextChar, Bool.or_eq_true, List.contains_iff_mem] at h
  rcases h with h | h
  · exact isBlank_of_isCategoryChar h
  · simp only [List.mem_cons, List.not_mem_nil, or_false] at h
    rcases h with rfl | rfl | rfl | rfl | rfl | rfl <;> decide

theorem isBlank_of_mem_textOver (hname : IsSpelling name.toList)
    (hslot : ∀ s ∈ a.slot?, IsSlot s) : ∀ c ∈ (a.textOver name).toList, isBlank c = false := by
  intro c hc
  rcases isNameTextChar_or_colon hname hslot c hc with hc | rfl
  · exact isBlank_of_isNameTextChar hc
  · decide

theorem not_mem_textOver (hname : IsSpelling name.toList) (hslot : ∀ s ∈ a.slot?, IsSlot s)
    {d : Char} (hd : isNameTextChar d = false) (hcolon : d ≠ ':') :
    d ∉ (a.textOver name).toList := by
  intro hmem
  rcases isNameTextChar_or_colon hname hslot d hmem with hc | hc
  · exact ne_of_class hc hd rfl
  · exact hcolon hc

/-- A single token that asks neither for a block nor for USE flags. -/
def IsToken (s : List Char) : Prop :=
  s ≠ [] ∧ (∀ c ∈ s, isBlank c = false) ∧ s.head? ≠ some '!' ∧ '[' ∉ s

theorem isToken_textOver (hname : IsSpelling name.toList) (hslot : ∀ s ∈ a.slot?, IsSlot s) :
    IsToken (a.textOver name).toList := by
  refine ⟨?_, isBlank_of_mem_textOver hname hslot, ?_,
    not_mem_textOver hname hslot (by decide) (by decide)⟩
  · obtain ⟨c, t, htext, -⟩ := hname.starts
    rw [toList_textOver]
    cases a.version? with
    | none => simp [nameTextOver, htext]
    | some r => simp [toList_nameTextOver]
  · exact fun hhead =>
      not_mem_textOver hname hslot (by decide) (by decide) (List.mem_of_mem_head? hhead)

end TextOver

/-- Of a token the repository, the slot and the name are read in turn. -/
theorem parseWith_of_isToken {dialect : Dialect} {input : String}
    (h : IsToken (trimChars input.toList)) :
    parseWith dialect input = do
      let (s, repository?) ← parseRepository (trimChars input.toList)
      let (s, slot?) ← parseSlot input s
      let (name, version?) ← parseNameVersion input dialect s
      return ⟨name, version?, slot?, repository?⟩ := by
  obtain ⟨hne, hblank, hblocker, huse⟩ := h
  unfold parseWith
  dsimp only
  rw [if_neg, if_neg, if_neg]
  · rwa [List.contains_iff_mem]
  · rwa [beq_iff_eq]
  · rw [Bool.or_eq_true, List.isEmpty_iff, List.any_eq_true]
    rintro (h | ⟨c, hc, h⟩)
    · exact hne h
    · exact Bool.false_ne_true ((hblank c hc).symm.trans h)

/-- What is read is a token of which the repository, the slot and the name are read in turn. -/
theorem parseWith_eq_ok_iff {dialect : Dialect} {input : String} {a : Atom} :
    parseWith dialect input = .ok a ↔
      IsToken (trimChars input.toList) ∧ ∃ s t,
        parseRepository (trimChars input.toList) = .ok (s, a.repository?) ∧
          parseSlot input s = .ok (t, a.slot?) ∧
            parseNameVersion input dialect t = .ok (a.name, a.version?) := by
  constructor
  · intro h
    unfold parseWith at h
    dsimp only at h
    split at h
    · cases h
    · next htoken =>
      split at h
      · cases h
      · next hblocker =>
        split at h
        · cases h
        · next huse =>
          rw [Bool.or_eq_true, not_or, List.isEmpty_iff, List.any_eq_true, not_exists] at htoken
          rw [beq_iff_eq] at hblocker
          rw [List.contains_iff_mem] at huse
          obtain ⟨⟨s, _⟩, hrepository, h⟩ := Result.bind_eq_ok_iff.mp h
          obtain ⟨⟨t, _⟩, hslot, h⟩ := Result.bind_eq_ok_iff.mp h
          obtain ⟨⟨_, _⟩, hname, h⟩ := Result.bind_eq_ok_iff.mp h
          cases h
          refine ⟨⟨htoken.1, fun c hc => ?_, hblocker, huse⟩, s, t, hrepository, hslot, hname⟩
          exact Bool.eq_false_iff.mpr fun h => htoken.2 c ⟨hc, h⟩
  · rintro ⟨htoken, s, t, hrepository, hslot, hname⟩
    rw [parseWith_of_isToken htoken]
    refine Result.bind_eq_ok_iff.mpr ⟨_, hrepository, Result.bind_eq_ok_iff.mpr ⟨_, hslot, ?_⟩⟩
    exact Result.bind_eq_ok_iff.mpr ⟨_, hname, rfl⟩

/-- The text of an atom over a spelling of its name is read as the atom of the name that the
dialect finds, if it finds one. -/
theorem parseWith_textOver {dialect : Dialect} {a : Atom} {name input : String}
    (hname : IsSpelling name.toList) (hslot : ∀ s ∈ a.slot?, IsSlot s)
    (htext : trim input = a.textOver name) : parseWith dialect input =
      (parseName input dialect name.toList).map fun p => { a with name := p } := by
  have htrim : trimChars input.toList = (a.textOver name).toList := by
    rw [← htext, trim, String.toList_ofList]
  have hcolon : ':' ∉ (nameTextOver name a.version?).toList :=
    not_mem_of_class (isNameTextChar_of_nameTextOver hname a.version?) (by decide)
  rw [parseWith_of_isToken (htrim ▸ isToken_textOver hname hslot), htrim, toList_textOver,
    parseRepository_text hslot a.repository? hcolon]
  show (parseSlot input _ >>= fun (s, slot?) => _) = _
  rw [parseSlot_text input hslot hcolon]
  show (parseNameVersion input dialect _ >>= fun (p, version?) => _) = _
  rw [parseNameVersion_over input hname]
  cases parseName input dialect name.toList <;> rfl

/-- An atom that the dialect can write is read back from its text. -/
theorem parseWith_text {dialect : Dialect} {a : Atom} (hname : dialect.Admits a.name)
    (hslot : ∀ s ∈ a.slot?, IsSlot s) : parseWith dialect a.text = .ok a := by
  have hspelling := isSpelling_pattern a.name
  have htrim : trim a.text = a.textOver a.name.text := by
    rw [← textOver_text, trim, trimChars_eq_self (isBlank_of_mem_textOver hspelling hslot),
      String.ofList_toList]
  rw [parseWith_textOver hspelling hslot htrim, a.name.toList_text, parseName_text a.text hname]
  rfl

/-- Every atom that can be written is read back from its text, stars included. -/
theorem parseWildcard_text {a : Atom} (h : ∀ s ∈ a.slot?, IsSlot s) :
    parseWildcard a.text = .ok a :=
  parseWith_text (.inl rfl) h

def starred : Atom where
  name := .package ⟨"gtk-doc", by decide +kernel⟩
  version? := some ⟨.equalStar, ⟨.release ⟨⟨2, []⟩, [⟨0, []⟩], none, [], none, true⟩,
    some (.numbered ⟨1, []⟩ [])⟩⟩
  slot? := some ⟨"0", some "2"⟩
  repository? := some ⟨"main", by decide +kernel⟩

theorem parseWildcard_text_starred :
    (∀ s ∈ starred.slot?, IsSlot s) ∧
      parseWildcard "=*/gtk-doc-2.0-scm-r1*:0/2::main" = .ok starred := by
  have hslot : ∀ s ∈ starred.slot?, IsSlot s := by
    rintro _ ⟨⟩
    refine ⟨by decide, ?_⟩
    rintro _ ⟨⟩
    decide
  have htext : starred.text = "=*/gtk-doc-2.0-scm-r1*:0/2::main" := by decide +kernel
  refine ⟨hslot, ?_⟩
  rw [← htext]
  exact parseWildcard_text hslot

end Atom

end PackageCatalog
