import PackageCatalog.Proofs.Sorted
import PackageCatalog.Proofs.Text
import PackageCatalog.Settings

/-!
# Merged values

A variable that accumulates holds what is left of the tokens of all its assignments
(`wordsOf_foldl_assign`). Of what is left, a token is one just when it was last added rather
than removed (`mem_mergeTokens_iff`); the removals themselves are never left
(`not_isRemoval_of_mem_mergeTokens`).
-/

namespace PackageCatalog.Settings

open Text

variable {name token : String} {tokens old new : List String}

/-! ## Changes -/

def IsRemoval (token : String) : Prop := token.toList.head? = some '-'

def mention (name : String) (on : Bool) : String := if on then name else "-" ++ name

theorem toList_removal (name : String) : ("-" ++ name).toList = '-' :: name.toList := by
  rw [String.toList_append]
  rfl

theorem ofToken_of_not_isRemoval (h : ¬ IsRemoval token) : Change.ofToken token = .add token := by
  unfold Change.ofToken
  split
  · next hclear => exact absurd (by rw [IsRemoval, hclear]; rfl) h
  · next hremove => exact absurd (by rw [IsRemoval, hremove]; rfl) h
  · rfl

theorem ofToken_removal (h : name ≠ "*") : Change.ofToken ("-" ++ name) = .remove name := by
  unfold Change.ofToken
  rw [toList_removal]
  split
  · next hclear =>
    have hstar : name.toList = "*".toList := (List.cons.inj hclear).2
    exact absurd (String.toList_inj.mp hstar) h
  · next hremove =>
    rw [← (List.cons.inj hremove).2, String.ofList_toList]
  · next hother => exact absurd rfl (hother name.toList)

/-- Tokens that neither mention a name nor clear everything leave it as it is. -/
theorem mem_apply_ofToken (hadd : token ≠ name) (hremove : token ≠ "-" ++ name)
    (hclear : token ≠ "-*") : name ∈ (Change.ofToken token).apply tokens ↔ name ∈ tokens := by
  unfold Change.ofToken
  split
  · next htext => exact absurd (String.toList_inj.mp htext) hclear
  · next rest _ htext =>
    have hne : name ≠ String.ofList rest := by
      rintro rfl
      refine hremove (String.toList_inj.mp ?_)
      rw [htext, toList_removal, String.toList_ofList]
    simp only [Change.apply, List.mem_filter, bne_iff_ne, and_iff_left_iff_imp]
    exact fun _ => hne
  · rw [Change.apply]
    split
    · rfl
    · rw [List.mem_append, List.mem_singleton, or_iff_left hadd.symm]

theorem mem_apply_add : token ∈ (Change.add token).apply tokens := by
  rw [Change.apply]
  split
  · next h => exact List.contains_iff_mem.mp h
  · exact List.mem_append_right tokens (List.mem_singleton.mpr rfl)

theorem not_mem_apply_remove : token ∉ (Change.remove token).apply tokens := by
  rw [Change.apply, List.mem_filter]
  rintro ⟨-, hne⟩
  rw [bne_self_eq_false] at hne
  cases hne

/-! ## Merging -/

/-- The last token that mentions `name` turns it on or off, and no later one clears it away. -/
def LastMention (name : String) (on : Bool) (tokens : List String) : Prop :=
  ∃ before after, tokens = before ++ mention name on :: after ∧
    ∀ token ∈ after, token ≠ name ∧ token ≠ "-" ++ name ∧ token ≠ "-*"

theorem mergeTokens_append (old new later : List String) :
    mergeTokens old (new ++ later) = mergeTokens (mergeTokens old new) later :=
  List.foldl_append

theorem mem_mergeTokens_of_untouched
    (h : ∀ token ∈ new, token ≠ name ∧ token ≠ "-" ++ name ∧ token ≠ "-*") :
    name ∈ mergeTokens old new ↔ name ∈ old := by
  induction new generalizing old with
  | nil => rfl
  | cons token new ih =>
    obtain ⟨⟨hadd, hremove, hclear⟩, hnew⟩ := List.forall_mem_cons.mp h
    exact (ih hnew).trans (mem_apply_ofToken hadd hremove hclear)

/-- The last mention of a name decides whether it is left. -/
theorem mem_mergeTokens_iff {on : Bool} (hname : ¬ IsRemoval name) (hstar : name ≠ "*")
    (h : LastMention name on new) : name ∈ mergeTokens old new ↔ on = true := by
  obtain ⟨before, after, rfl, hafter⟩ := h
  -- nothing after the mention concerns the name, and what came before it is overruled
  have hlast : name ∈ mergeTokens old (before ++ mention name on :: after) ↔
      name ∈ (Change.ofToken (mention name on)).apply (mergeTokens old before) := by
    rw [mergeTokens_append]
    exact mem_mergeTokens_of_untouched hafter
  rw [hlast]
  cases on with
  | true =>
    rw [mention, if_pos rfl, ofToken_of_not_isRemoval hname]
    exact iff_of_true mem_apply_add rfl
  | false =>
    rw [mention, if_neg Bool.false_ne_true, ofToken_removal hstar]
    exact iff_of_false not_mem_apply_remove Bool.false_ne_true

/-- What a change leaves was there or is the token that it adds. -/
theorem mem_of_mem_apply_ofToken {other : String}
    (h : other ∈ (Change.ofToken token).apply tokens) :
    other ∈ tokens ∨ other = token ∧ ¬ IsRemoval token := by
  by_cases hremoval : IsRemoval token
  · unfold Change.ofToken at h
    split at h
    · cases h
    · exact .inl (List.mem_filter.mp h).1
    · next hother =>
      obtain ⟨rest, hrest⟩ : ∃ rest, token.toList = '-' :: rest := List.head?_eq_some_iff.mp hremoval
      exact absurd hrest (hother rest)
  · rw [ofToken_of_not_isRemoval hremoval, Change.apply] at h
    split at h
    · exact .inl h
    · rcases List.mem_append.mp h with h | h
      · exact .inl h
      · exact .inr ⟨List.mem_singleton.mp h, hremoval⟩

theorem mem_of_mem_mergeTokens (h : token ∈ mergeTokens old new) :
    token ∈ old ∨ token ∈ new ∧ ¬ IsRemoval token := by
  induction new generalizing old with
  | nil => exact .inl h
  | cons first new ih =>
    rcases ih h with h | ⟨hmem, hplain⟩
    · rcases mem_of_mem_apply_ofToken h with h | ⟨rfl, hplain⟩
      · exact .inl h
      · exact .inr ⟨List.mem_cons_self, hplain⟩
    · exact .inr ⟨List.mem_cons_of_mem first hmem, hplain⟩

theorem not_isRemoval_of_mem_mergeTokens (h : token ∈ mergeTokens [] new) : ¬ IsRemoval token :=
  (mem_of_mem_mergeTokens h).elim (fun h => absurd h List.not_mem_nil) And.right

theorem words_merge (old new : String) :
    words (merge old new) = mergeTokens (words old) (words new) := by
  refine words_join fun token h => ?_
  rcases mem_of_mem_mergeTokens h with h | ⟨h, -⟩
  · exact isWord_of_mem_words h
  · exact isWord_of_mem_words h

/-! ## Assigning -/

variable {accumulates : String → Bool} {settings : Settings}

def wordsOf (settings : Settings) (name : String) : List String :=
  words ((settings.get? name).getD "")

/-- The words of all values that a variable is assigned, each in the settings of its time. -/
def tokensOf (accumulates : String → Bool) (name : String) :
    Settings → List (String × List Char) → List String
  | _, [] => []
  | settings, a :: rest =>
    (if a.1 = name then words (settings.unquote a.2) else []) ++
      tokensOf accumulates name (assign accumulates settings a) rest

theorem get?_set {key value : String} :
    (settings.set key value).get? name = if name = key then some value else settings.get? name :=
  Sorted.find?_alter

theorem wordsOf_assign (h : accumulates name = true) (a : String × List Char) :
    wordsOf (assign accumulates settings a) name = mergeTokens (wordsOf settings name)
      (if a.1 = name then words (settings.unquote a.2) else []) := by
  unfold wordsOf assign
  dsimp only
  rw [get?_set]
  by_cases hname : a.1 = name
  · rw [if_pos hname.symm, if_pos hname, hname, h, if_pos rfl]
    exact words_merge _ _
  · rw [if_neg (Ne.symm hname), if_neg hname]
    rfl

/-- A variable that accumulates holds what is left of all its tokens. -/
theorem wordsOf_foldl_assign (h : accumulates name = true) (found : List (String × List Char)) :
    wordsOf (found.foldl (assign accumulates) settings) name =
      mergeTokens (wordsOf settings name) (tokensOf accumulates name settings found) := by
  induction found generalizing settings with
  | nil => rfl
  | cons a rest ih => rw [List.foldl_cons, ih, wordsOf_assign h, tokensOf, mergeTokens_append]

end PackageCatalog.Settings
