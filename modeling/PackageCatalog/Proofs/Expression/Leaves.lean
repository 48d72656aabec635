import PackageCatalog.Expression.Leaf
import PackageCatalog.Proofs.Expression.Scanning

/-!
# Reading and writing leaves

`LeafFormat.Lawful` is what a format must keep to for whole expressions to be read again from
their text: a leaf opens with the word that it was taken from, taking it loses nothing but
blanks, and its text is taken again wherever it does not run into what follows. A format of words
is lawful (`lawful_wordFormat`), and so is that of the files of `SRC_URI` (`lawful_fetchFormat`),
where only an arrow can be run into.
-/

namespace PackageCatalog.Expression

open Text

def AtArrow (s : List Char) : Prop := ['-', '>'] <+: dropSpacing s

/-- How reading and writing of leaves fit together. -/
structure LeafFormat.Lawful {α : Type} (format : LeafFormat α) : Prop where
  /-- The text of a leaf starts with the word that the leaf was taken from. -/
  word {s rest : List Char} {a : α} : format.take? s = some (a, rest) →
    ∃ word more tail, s = word ++ more ∧ format.chars a = word ++ tail ∧ Parted tail ∧
      word ≠ [] ∧ ∀ c ∈ word, isSpacing c = false
  nonBlanks {s rest : List Char} {a : α} : format.take? s = some (a, rest) →
    nonBlanks s = Text.nonBlanks (format.chars a) ++ Text.nonBlanks rest
  /-- The text of a leaf is taken as that leaf, unless an arrow follows it that did not follow
  the leaf where it was taken from. -/
  again {s rest other : List Char} {a : α} : format.take? s = some (a, rest) →
    Parted other → (AtArrow other → AtArrow rest) →
      format.take? (format.chars a ++ other) = some (a, other)

/-! ## Runs of characters -/

section runs

variable {p : Char → Bool} {accepts : List Char → Bool} {s run rest : List Char}

theorem takeRun?_eq_some_iff :
    takeRun? p accepts s = some (run, rest) ↔
      s = run ++ rest ∧ run ≠ [] ∧ (∀ c ∈ run, p c = true) ∧ accepts run = true ∧
        ∀ c ∈ rest.head?, p c = false := by
  constructor
  · intro h
    unfold takeRun? at h
    split at h
    · cases h
    · next c more hrun =>
      split at h
      · next haccepts =>
        cases h
        refine ⟨?_, List.cons_ne_nil c more, ?_, haccepts, fun _ => of_mem_head?_dropWhile⟩
        · rw [← hrun, List.takeWhile_append_dropWhile]
        · rw [← hrun]
          exact fun _ => of_mem_takeWhile
      · cases h
  · rintro ⟨rfl, hne, hrun, haccepts, hrest⟩
    obtain ⟨c, more, rfl⟩ := List.exists_cons_of_ne_nil hne
    rw [takeRun?, takeWhile_run hrun hrest, dropWhile_run hrun hrest]
    exact if_pos haccepts

theorem Parted.not_class (hp : ∀ c, p c = true → isBlank c = false) (h : Parted s) :
    ∀ c ∈ s.head?, p c = false := by
  intro c hc
  rw [Bool.eq_false_iff]
  intro hpc
  have hspacing := isSpacing_of_not_isBlank (hp c hpc)
  rw [h c hc] at hspacing
  cases hspacing

theorem isSpacing_of_class (hp : ∀ c, p c = true → isBlank c = false)
    (h : ∀ c ∈ s, p c = true) : ∀ c ∈ s, isSpacing c = false :=
  fun c hc => isSpacing_of_not_isBlank (hp c (h c hc))

theorem isBlank_of_isNameChar {c : Char} (h : isNameChar c = true) : isBlank c = false := by
  simp only [isNameChar, Bool.or_eq_true, beq_iff_eq] at h
  rcases h with (((h | rfl) | rfl) | rfl) | rfl
  · exact NameKind.isBlank_of_isAlphanumeric h
  all_goals decide

theorem isBlank_of_isUriChar {c : Char} (h : isUriChar c = true) : isBlank c = false := by
  simp only [isUriChar, Bool.and_eq_true, Bool.not_eq_true'] at h
  exact h.1.1

end runs

/-! ## Words -/

section words

variable {allowsAny : Bool} {p : Char → Bool} {accepts : List Char → Bool} {fault : Error}
  {s rest : List Char} {a : String}

theorem take?_wordFormat_iff :
    (wordFormat allowsAny p accepts fault).take? s = some (a, rest) ↔
      takeRun? p accepts s = some (a.toList, rest) := by
  refine Option.map_eq_some_iff.trans ⟨?_, fun h =>
    ⟨(a.toList, rest), h, congrArg (·, rest) String.ofList_toList⟩⟩
  rintro ⟨⟨run, rest'⟩, h, heq⟩
  cases heq
  rwa [String.toList_ofList]

/-- A word that was taken is taken again in front of any spacing. -/
theorem take?_wordFormat_again {other : List Char} (hp : ∀ c, p c = true → isBlank c = false)
    (h : (wordFormat allowsAny p accepts fault).take? s = some (a, rest)) (hother : Parted other) :
    (wordFormat allowsAny p accepts fault).take? (a.toList ++ other) = some (a, other) := by
  rw [take?_wordFormat_iff, takeRun?_eq_some_iff] at h ⊢
  exact ⟨rfl, h.2.1, h.2.2.1, h.2.2.2.1, hother.not_class hp⟩

theorem lawful_wordFormat (hp : ∀ c, p c = true → isBlank c = false) :
    (wordFormat allowsAny p accepts fault).Lawful where
  word h := by
    rw [take?_wordFormat_iff, takeRun?_eq_some_iff] at h
    obtain ⟨hs, hne, hrun, -, -⟩ := h
    exact ⟨_, _, [], hs, (List.append_nil _).symm, parted_nil, hne, isSpacing_of_class hp hrun⟩
  nonBlanks h := by
    rw [take?_wordFormat_iff, takeRun?_eq_some_iff] at h
    rw [h.1, nonBlanks_append]
    rfl
  again h hother _ := take?_wordFormat_again hp h hother

end words

/-! ## Files to be fetched -/

namespace FetchUri

variable {s rest : List Char} {u : FetchUri}

theorem takeArrow?_eq_none_iff : takeArrow? s = none ↔ ¬ AtArrow s := by
  unfold takeArrow? AtArrow
  split
  · next rest heq =>
    rw [heq]
    exact iff_of_false (fun h => nomatch h) fun h => h ⟨rest, rfl⟩
  · next hne => exact iff_of_true rfl fun ⟨rest, h⟩ => hne rest h.symm

theorem takeArrow?_eq_some {after : List Char} (h : takeArrow? s = some after) :
    ∃ gap gap', IsGap gap ∧ IsGap gap' ∧ s = gap ++ '-' :: '>' :: (gap' ++ after) := by
  unfold takeArrow? at h
  split at h
  · next rest heq =>
    cases h
    obtain ⟨gap, hgap, hs⟩ := exists_gap s
    obtain ⟨gap', hgap', hrest⟩ := exists_gap rest
    exact ⟨gap, gap', hgap, hgap', by rw [← hrest, ← heq, ← hs]⟩
  · cases h

theorem takeArrow?_space {name : List Char} (h : ∀ c ∈ name.head?, isSpacing c = false) :
    takeArrow? (' ' :: '-' :: '>' :: ' ' :: name) = some name := by
  have hspace : IsGap [' '] := List.forall_mem_singleton.mpr (by decide)
  have hlead : dropSpacing (' ' :: '-' :: '>' :: ' ' :: name) = '-' :: '>' :: ' ' :: name :=
    dropSpacing_gap_append (s := '-' :: '>' :: ' ' :: name) hspace (by rintro c ⟨⟩; decide)
  have hname : dropSpacing (' ' :: name) = name := dropSpacing_gap_append hspace h
  unfold takeArrow?
  rw [hlead]
  exact congrArg some hname

/-- What a file was taken from: its URI, and behind an arrow its name if it has one. -/
theorem take?_cases (h : take? s = some (u, rest)) :
    ∃ run behind, takeRun? isUriChar isFetchUri s = some (run, behind) ∧
      ((u = ⟨String.ofList run, none⟩ ∧ rest = behind ∧ ¬ AtArrow behind) ∨
        ∃ after name, u = ⟨String.ofList run, some (String.ofList name)⟩ ∧
          takeArrow? behind = some after ∧
          takeRun? isNameChar (fun _ => true) after = some (name, rest)) := by
  unfold take? at h
  split at h
  · cases h
  · next run behind hrun =>
    refine ⟨run, behind, hrun, ?_⟩
    split at h
    · next harrow =>
      cases h
      exact .inl ⟨rfl, rfl, takeArrow?_eq_none_iff.mp harrow⟩
    · next after harrow =>
      obtain ⟨⟨name, r⟩, hname, heq⟩ := Option.map_eq_some_iff.mp h
      cases heq
      exact .inr ⟨after, name, rfl, harrow, hname⟩

theorem chars_unnamed (run : List Char) : chars ⟨String.ofList run, none⟩ = run :=
  String.toList_ofList

theorem chars_named (run name : List Char) :
    chars ⟨String.ofList run, some (String.ofList name)⟩ =
      run ++ ' ' :: '-' :: '>' :: ' ' :: name := by
  unfold chars
  dsimp only
  rw [String.toList_ofList, String.toList_ofList, List.append_assoc]
  rfl

theorem take?_unnamed {run behind : List Char}
    (hrun : takeRun? isUriChar isFetchUri s = some (run, behind)) (h : ¬ AtArrow behind) :
    take? s = some (⟨String.ofList run, none⟩, behind) := by
  unfold take?
  rw [hrun]
  dsimp only
  rw [takeArrow?_eq_none_iff.mpr h]

theorem take?_named {run behind after name : List Char}
    (hrun : takeRun? isUriChar isFetchUri s = some (run, behind))
    (harrow : takeArrow? behind = some after)
    (hname : takeRun? isNameChar (fun _ => true) after = some (name, rest)) :
    take? s = some (⟨String.ofList run, some (String.ofList name)⟩, rest) := by
  unfold take?
  rw [hrun]
  dsimp only
  rw [harrow]
  dsimp only
  rw [hname]
  rfl

end FetchUri

open FetchUri

theorem lawful_fetchFormat : fetchFormat.Lawful where
  word h := by
    obtain ⟨run, behind, hrun, h⟩ := FetchUri.take?_cases h
    obtain ⟨hs, hne, hclass, -, -⟩ := takeRun?_eq_some_iff.mp hrun
    have hspacing := isSpacing_of_class (fun _ => isBlank_of_isUriChar) hclass
    rcases h with ⟨rfl, -, -⟩ | ⟨after, name, rfl, -, -⟩
    · exact ⟨run, behind, [], hs, (chars_unnamed run).trans (List.append_nil run).symm,
        parted_nil, hne, hspacing⟩
    · exact ⟨run, behind, _, hs, chars_named run name, parted_space _, hne, hspacing⟩
  nonBlanks {s rest a} h := by
    obtain ⟨run, behind, hrun, h⟩ := FetchUri.take?_cases h
    rw [(takeRun?_eq_some_iff.mp hrun).1, nonBlanks_append]
    rcases h with ⟨rfl, rfl, -⟩ | ⟨after, name, rfl, harrow, hname⟩
    · exact congrArg (Text.nonBlanks · ++ _) (chars_unnamed run).symm
    · obtain ⟨gap, gap', hgap, hgap', hbehind⟩ := takeArrow?_eq_some harrow
      have hchars : fetchFormat.chars ⟨String.ofList run, some (String.ofList name)⟩ =
          run ++ ([' '] ++ (['-', '>'] ++ ([' '] ++ name))) := chars_named run name
      have hsource : behind = gap ++ (['-', '>'] ++ (gap' ++ (name ++ rest))) := by
        rw [hbehind, (takeRun?_eq_some_iff.mp hname).1]
        rfl
      have hspace : Text.nonBlanks [' '] = [] := by decide
      rw [hchars, hsource]
      simp only [nonBlanks_append, nonBlanks_eq_nil hgap, nonBlanks_eq_nil hgap', hspace,
        List.nil_append, List.append_assoc]
  again {s rest other a} h hother harrows := by
    obtain ⟨run, behind, hrun, h⟩ := FetchUri.take?_cases h
    obtain ⟨-, hne, hclass, haccepts, -⟩ := takeRun?_eq_some_iff.mp hrun
    rcases h with ⟨rfl, rfl, harrow⟩ | ⟨after, name, rfl, -, hname⟩
    · have hrun' : takeRun? isUriChar isFetchUri (run ++ other) = some (run, other) :=
        takeRun?_eq_some_iff.mpr
          ⟨rfl, hne, hclass, haccepts, hother.not_class fun _ => isBlank_of_isUriChar⟩
      have hchars : fetchFormat.chars ⟨String.ofList run, none⟩ = run := chars_unnamed run
      rw [hchars]
      exact take?_unnamed hrun' fun h => harrow (harrows h)
    · obtain ⟨-, hnameNe, hnameClass, -, -⟩ := takeRun?_eq_some_iff.mp hname
      have hname' : takeRun? isNameChar (fun _ => true) (name ++ other) = some (name, other) :=
        takeRun?_eq_some_iff.mpr
          ⟨rfl, hnameNe, hnameClass, rfl, hother.not_class fun _ => isBlank_of_isNameChar⟩
      have hhead : ∀ c ∈ (name ++ other).head?, isSpacing c = false := by
        obtain ⟨c, more, rfl⟩ := List.exists_cons_of_ne_nil hnameNe
        rintro d ⟨⟩
        exact isSpacing_of_class (fun _ => isBlank_of_isNameChar) hnameClass c List.mem_cons_self
      have hrun' : takeRun? isUriChar isFetchUri
          (run ++ ' ' :: '-' :: '>' :: ' ' :: (name ++ other)) = some (run, _) :=
        takeRun?_eq_some_iff.mpr ⟨rfl, hne, hclass, haccepts, by rintro c ⟨⟩; decide⟩
      have hagain := take?_named hrun' (takeArrow?_space hhead) hname'
      have hchars : fetchFormat.chars ⟨String.ofList run, some (String.ofList name)⟩ =
          run ++ ' ' :: '-' :: '>' :: ' ' :: name := chars_named run name
      rw [hchars, List.append_assoc]
      exact hagain

end PackageCatalog.Expression
