import Mathlib.Data.List.Induction
import PackageCatalog.Proofs.Settings

/-!
# Values merged in turn

Merging loses nothing between two values, so values that are merged in turn leave what their tokens
leave in one row (`words_foldl_merge`). A token is left just if the last one that concerns it adds
it (`mem_mergeTokens_nil_iff`), by induction from the last token.
-/

namespace PackageCatalog.Settings

open Text

variable {name token : String} {tokens old new : List String}

/-! ## Rows of tokens -/

theorem merge_merge (old a b : String) : merge (merge old a) b = merge old (a ++ " " ++ b) := by
  rw [merge, words_merge, merge, words_append, mergeTokens_append]

theorem words_foldl_merge (values : List String) (old : String) :
    words (values.foldl merge old) = mergeTokens (words old) (values.flatMap words) := by
  induction values generalizing old with
  | nil => rfl
  | cons value values ih =>
    rw [List.foldl_cons, ih, words_merge, List.flatMap_cons, mergeTokens_append]

theorem nodup_apply (change : Change) (h : tokens.Nodup) : (change.apply tokens).Nodup := by
  cases change with
  | clear => exact List.nodup_nil
  | remove token => exact h.filter _
  | add token =>
    rw [Change.apply]
    split
    · exact h
    · next hnew =>
      refine List.nodup_append.mpr ⟨h, List.pairwise_singleton _ _, fun a ha b hb => ?_⟩
      rw [List.mem_singleton.mp hb]
      rintro rfl
      exact hnew (List.contains_iff_mem.mpr ha)

theorem nodup_mergeTokens (new : List String) (h : old.Nodup) : (mergeTokens old new).Nodup :=
  List.foldlRecOn new _ h fun _ h token _ => nodup_apply (Change.ofToken token) h

/-! ## The last token that concerns a name -/

/-- The token adds the name, removes it or clears everything. -/
def Concerns (name token : String) : Prop := token = name ∨ token = "-" ++ name ∨ token = "-*"

/-- One token more decides about a name if it concerns it. -/
theorem mem_apply_ofToken_iff (hname : ¬ IsRemoval name) :
    name ∈ (Change.ofToken token).apply tokens ↔
      token = name ∨ ¬ Concerns name token ∧ name ∈ tokens := by
  by_cases hadd : token = name
  · rw [hadd, ofToken_of_not_isRemoval hname]
    exact iff_of_true mem_apply_add (.inl rfl)
  by_cases hclear : token = "-*"
  · have hconcerns : Concerns name token := .inr (.inr hclear)
    refine iff_of_false ?_ fun h => h.elim hadd fun h => h.1 hconcerns
    rw [hclear]
    exact List.not_mem_nil
  by_cases hremove : token = "-" ++ name
  · have hconcerns : Concerns name token := .inr (.inl hremove)
    have hstar : name ≠ "*" := fun hstar => hclear (by rw [hremove, hstar]; rfl)
    refine iff_of_false ?_ fun h => h.elim hadd fun h => h.1 hconcerns
    rw [hremove, ofToken_removal hstar]
    exact not_mem_apply_remove
  have hleft : ¬ Concerns name token := fun h => h.elim hadd fun h => h.elim hremove hclear
  rw [mem_apply_ofToken hadd hremove hclear, or_iff_right hadd, and_iff_right hleft]

theorem lastMention_concat_iff : LastMention name true (tokens ++ [token]) ↔
    token = name ∨ ¬ Concerns name token ∧ LastMention name true tokens := by
  unfold LastMention Concerns
  simp only [mention, if_true, not_or]
  constructor
  · rintro ⟨before, after, htokens, hafter⟩
    rcases List.eq_nil_or_concat after with rfl | ⟨front, last, rfl⟩
    · obtain ⟨-, hlast⟩ := List.append_inj' htokens rfl
      exact .inl (List.singleton_inj.mp hlast)
    · rw [List.concat_eq_append, ← List.cons_append, ← List.append_assoc] at htokens
      obtain ⟨rfl, hlast⟩ := List.append_inj' htokens rfl
      rw [List.concat_eq_append, List.forall_mem_append, List.forall_mem_singleton] at hafter
      exact .inr ⟨List.singleton_inj.mp hlast ▸ hafter.2, before, front, rfl, hafter.1⟩
  · rintro (rfl | ⟨hleft, before, after, rfl, hafter⟩)
    · exact ⟨tokens, [], rfl, fun _ h => absurd h List.not_mem_nil⟩
    · refine ⟨before, after ++ [token], ?_, ?_⟩
      · rw [List.append_assoc, List.cons_append]
      · rw [List.forall_mem_append, List.forall_mem_singleton]
        exact ⟨hafter, hleft⟩

/-- A token is left of a row just if the last one that concerns it adds it. -/
theorem mem_mergeTokens_nil_iff (hname : ¬ IsRemoval name) :
    name ∈ mergeTokens [] tokens ↔ LastMention name true tokens := by
  induction tokens using List.reverseRecOn with
  | nil =>
    refine iff_of_false List.not_mem_nil ?_
    rintro ⟨before, after, htokens, -⟩
    exact List.append_ne_nil_of_right_ne_nil before (List.cons_ne_nil _ after) htokens.symm
  | append_singleton tokens token ih =>
    rw [mergeTokens_append, lastMention_concat_iff, ← ih]
    exact mem_apply_ofToken_iff hname

/-! ## All values of a variable -/

/-- Merging value by value is merging all of them at once. What is left has no token twice and no
removal; any other token is left just if the last one that concerns it adds it. This holds of a
star, too, which is removed by the token that clears everything. So a variable that accumulates
holds the tokens that its assignments last add. -/
theorem merged_by_last_mention :
    (∀ old a b : String, merge (merge old a) b = merge old (a ++ " " ++ b)) ∧
    (∀ values : List String,
      (words (values.foldl merge "")).Nodup ∧
      (∀ token ∈ words (values.foldl merge ""), ¬ IsRemoval token) ∧
      ∀ token, ¬ IsRemoval token →
        (token ∈ words (values.foldl merge "") ↔
          LastMention token true (values.flatMap words))) ∧
    ∀ (accumulates : String → Bool) (name : String) (found : List (String × List Char)),
      accumulates name = true → ∀ token, ¬ IsRemoval token →
        (token ∈ wordsOf (found.foldl (assign accumulates) []) name ↔
          LastMention token true (tokensOf accumulates name [] found)) := by
  refine ⟨merge_merge, fun values => ?_, fun accumulates name found hname token htoken => ?_⟩
  · have hwords : words (values.foldl merge "") = mergeTokens [] (values.flatMap words) :=
      words_foldl_merge values ""
    rw [hwords]
    exact ⟨nodup_mergeTokens _ List.nodup_nil, fun _ => not_isRemoval_of_mem_mergeTokens,
      fun _ => mem_mergeTokens_nil_iff⟩
  · have hwords : wordsOf (found.foldl (assign accumulates) []) name =
        mergeTokens [] (tokensOf accumulates name [] found) := wordsOf_foldl_assign hname found
    rw [hwords]
    exact mem_mergeTokens_nil_iff htoken

/-- Assignments of a variable that take two tokens away and give one back. -/
def givenBack : List (String × List Char) :=
  [("USE", "x y".toList), ("USE", "-x -y".toList), ("USE", "x".toList)]

/-- A star comes back after it was cleared away; so does a token after its removal. -/
theorem merged_again :
    "*" ∈ words (["a *", "-* b", "* b -a"].foldl merge "") ∧
      "x" ∈ wordsOf (givenBack.foldl (assign (· == "USE")) []) "USE" := by
  obtain ⟨-, hvalues, hassigned⟩ := merged_by_last_mention
  have hrow : ["a *", "-* b", "* b -a"].flatMap words = ["a", "*", "-*", "b", "*", "b", "-a"] := by
    decide +kernel
  have hgiven : tokensOf (· == "USE") "USE" [] givenBack = ["x", "y", "-x", "-y", "x"] := by
    decide +kernel
  refine ⟨?_, ?_⟩
  · rw [(hvalues _).2.2 "*" (by rw [IsRemoval]; decide), hrow]
    exact ⟨["a", "*", "-*", "b"], ["b", "-a"], rfl, by decide⟩
  · rw [hassigned (· == "USE") "USE" givenBack rfl "x" (by rw [IsRemoval]; decide), hgiven]
    exact ⟨["x", "y", "-x", "-y"], [], rfl, by decide⟩

end PackageCatalog.Settings
