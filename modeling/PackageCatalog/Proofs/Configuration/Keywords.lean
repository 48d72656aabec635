import PackageCatalog.Proofs.Configuration.Loading
import PackageCatalog.Proofs.Identity

/-!
# Accepted keywords

The tokens for a package ID are taken in one after the other: a keyword is accepted once it is
listed and until a later token takes it back (`mem_foldl_applyKeyword_iff`). `-*` takes back
everything, but `-amd64` only what names `amd64`, so a wildcard of an earlier line stays in force
behind it (`acceptsKeywords_of_last`).
-/

namespace PackageCatalog

namespace Keyword

variable {arch token : String} {k w : Keyword}

/-! ## Tokens -/

/-- The token adds itself to what is accepted. -/
def Grants (k : Keyword) : Prop := k.stability ≠ .disabledAll ∧ k.stability ≠ .disabled

/-- The token takes `w` back. -/
def Revokes (k w : Keyword) : Prop :=
  k.stability = .disabledAll ∨ k.stability = .disabled ∧ k.arch = w.arch

/-- Only a star can be `**` or `-*`, and a star is not removed by itself. -/
structure Proper (k : Keyword) : Prop where
  any : k.stability = .any → k.arch = "*"
  disabledAll : k.stability = .disabledAll → k.arch = "*"
  disabled : k.stability = .disabled → k.arch ≠ "*"

theorem proper_splitToken (token : String) : (splitToken token).Proper := by
  unfold splitToken
  split
  · exact ⟨fun _ => rfl, fun _ => rfl, nofun⟩
  · exact ⟨fun _ => rfl, fun _ => rfl, nofun⟩
  · exact ⟨nofun, nofun, nofun⟩
  · next rest hstar _ =>
    refine ⟨nofun, nofun, fun _ h => hstar ?_⟩
    have hrest : (String.ofList rest).toList = ['*'] := congrArg String.toList h
    rwa [String.toList_ofList] at hrest
  · exact ⟨nofun, nofun, nofun⟩

theorem proper_of_parse (h : parse token = .ok k) : k.Proper := by
  unfold parse at h
  split at h
  · cases h
  · dsimp only at h
    split at h
    · cases h
      exact proper_splitToken token
    · cases h

/-- The tokens that bear on an architecture: its own, and the wildcards. -/
def bearingOn (arch : String) : List Keyword :=
  [⟨arch, .stable⟩, ⟨arch, .testing⟩, ⟨arch, .disabled⟩, ⟨"*", .stable⟩, ⟨"*", .testing⟩,
    ⟨"*", .any⟩, ⟨"*", .disabledAll⟩]

theorem Proper.mem_bearingOn (h : k.Proper) (harch : k.arch = arch ∨ k.arch = "*") :
    k ∈ bearingOn arch := by
  obtain ⟨a, s⟩ := k
  obtain ⟨hany, hall, hdisabled⟩ := h
  dsimp only at harch hany hall hdisabled
  by_cases hstar : a = "*"
  · subst hstar
    cases s with
    | disabled => exact absurd rfl (hdisabled rfl)
    | _ => simp [bearingOn]
  · cases harch.resolve_right hstar
    cases s with
    | any => exact absurd (hany rfl) hstar
    | disabledAll => exact absurd (hall rfl) hstar
    | _ => simp [bearingOn]

theorem arch_ne_star (h : isArch arch = true) : arch ≠ "*" := by
  rintro rfl
  exact absurd h (by decide)

theorem arch_of_admits (h : w.admits k = true) (hproper : w.Proper) :
    w.arch = k.arch ∨ w.arch = "*" := by
  have hsame : (w.arch == k.arch || w.isWildcard) = true ∨ w.stability = .any := by
    unfold admits at h
    dsimp only at h
    split at h
    · next hany => exact .inr hany
    · next hany => exact .inr hany
    · exact .inl h
    · exact .inl h
    · exact .inl h
    · cases h
  rcases hsame with hsame | hany
  · rw [Bool.or_eq_true, isWildcard, beq_iff_eq, beq_iff_eq] at hsame
    exact hsame
  · exact .inr (hproper.any hany)

/-! ## Taking in tokens -/

/-- One of the tokens grants `k`, and no later one revokes it. -/
def Stands (k : Keyword) (tokens : List Keyword) : Prop :=
  k.Grants ∧ ∃ before after, tokens = before ++ k :: after ∧ ∀ t ∈ after, ¬ t.Revokes k

theorem Stands.mem {tokens : List Keyword} (h : k.Stands tokens) : k ∈ tokens := by
  obtain ⟨-, before, after, rfl, -⟩ := h
  exact List.mem_append_right before List.mem_cons_self

theorem stands_cons_iff {tokens : List Keyword} : w.Stands (k :: tokens) ↔
    w.Stands tokens ∨ w = k ∧ w.Grants ∧ ∀ t ∈ tokens, ¬ t.Revokes w := by
  constructor
  · rintro ⟨hgrants, before, after, htokens, hafter⟩
    rcases List.cons_eq_append_iff.mp htokens with ⟨rfl, hk⟩ | ⟨more, rfl, rfl⟩
    · cases hk
      exact .inr ⟨rfl, hgrants, hafter⟩
    · exact .inl ⟨hgrants, more, after, rfl, hafter⟩
  · rintro (⟨hgrants, before, after, rfl, hafter⟩ | ⟨rfl, hgrants, hafter⟩)
    · exact ⟨hgrants, k :: before, after, rfl, hafter⟩
    · exact ⟨hgrants, [], tokens, rfl, hafter⟩

end Keyword

namespace Configuration

open Keyword

variable {w token : Keyword} {accepted tokens before after : List Keyword}

theorem mem_applyKeyword_iff : w ∈ applyKeyword accepted token ↔
    w ∈ accepted ∧ ¬ token.Revokes w ∨ w = token ∧ w.Grants := by
  obtain ⟨arch, s⟩ := token
  unfold applyKeyword
  cases s with
  | disabledAll =>
    refine iff_of_false List.not_mem_nil ?_
    rintro (⟨-, hkept⟩ | ⟨rfl, hgrants⟩)
    · exact hkept (.inl rfl)
    · exact hgrants.1 rfl
  | disabled =>
    dsimp only
    rw [List.mem_filter, bne_iff_ne]
    constructor
    · rintro ⟨hw, hne⟩
      refine .inl ⟨hw, ?_⟩
      rintro (hall | ⟨-, hsame⟩)
      · cases hall
      · exact hne hsame.symm
    · rintro (⟨hw, hkept⟩ | ⟨rfl, hgrants⟩)
      · exact ⟨hw, fun hsame => hkept (.inr ⟨rfl, hsame.symm⟩)⟩
      · exact absurd rfl hgrants.2
  | _ =>
    dsimp only
    rw [List.mem_append, List.mem_singleton]
    refine or_congr (and_iff_left ?_).symm (and_iff_left_of_imp ?_).symm
    · rintro (hall | ⟨hdisabled, -⟩)
      · cases hall
      · cases hdisabled
    · rintro rfl
      exact ⟨nofun, nofun⟩

/-- Accepted is what was and no token revokes, and what the tokens grant for good. -/
theorem mem_foldl_applyKeyword_iff : w ∈ tokens.foldl applyKeyword accepted ↔
    (w ∈ accepted ∧ ∀ t ∈ tokens, ¬ t.Revokes w) ∨ w.Stands tokens := by
  induction tokens generalizing accepted with
  | nil =>
    refine ⟨fun h => .inl ⟨h, fun _ ht => absurd ht List.not_mem_nil⟩, ?_⟩
    rintro (⟨h, -⟩ | h)
    · exact h
    · exact absurd h.mem List.not_mem_nil
  | cons token tokens ih =>
    rw [List.foldl_cons, ih, mem_applyKeyword_iff, stands_cons_iff, List.forall_mem_cons]
    constructor
    · rintro (⟨⟨hw, hkept⟩ | ⟨rfl, hgrants⟩, hlater⟩ | hstands)
      · exact .inl ⟨hw, hkept, hlater⟩
      · exact .inr (.inr ⟨rfl, hgrants, hlater⟩)
      · exact .inr (.inl hstands)
    · rintro (⟨hw, hkept, hlater⟩ | hstands | ⟨rfl, hgrants, hlater⟩)
      · exact .inl ⟨.inl ⟨hw, hkept⟩, hlater⟩
      · exact .inr hstands
      · exact .inl ⟨.inr ⟨rfl, hgrants⟩, hlater⟩

theorem mem_accepted_iff : w ∈ tokens.foldl applyKeyword [] ↔ w.Stands tokens :=
  mem_foldl_applyKeyword_iff.trans (or_iff_right fun h => absurd h.1 List.not_mem_nil)

theorem stands_append_iff : w.Stands (before ++ after) ↔
    w.Stands before ∧ (∀ t ∈ after, ¬ t.Revokes w) ∨ w.Stands after := by
  rw [← mem_accepted_iff, List.foldl_append, mem_foldl_applyKeyword_iff, mem_accepted_iff]

/-! ## What a configuration accepts -/

variable {files : FileTree} {dir : Path} {c : Configuration} {id : PackageId} {arch : String}

theorem acceptsKeywords_singleton_iff {k : Keyword} (h : k.arch ≠ "*") :
    c.acceptsKeywords [k] id = true ↔
      ∃ w : Keyword, w.admits k = true ∧ w.Stands (Rule.valuesFor c.keywords id) := by
  have hplain : k.isWildcard = false := beq_eq_false_iff_ne.mpr h
  unfold acceptsKeywords anyAccepted acceptedBy
  simp only [List.any_cons, List.any_nil, Bool.or_false, hplain, Bool.not_false, Bool.true_and,
    List.any_eq_true, mem_accepted_iff, and_comm]

theorem proper_of_mem_valuesFor (h : load files dir = .ok c) {k : Keyword}
    (hk : k ∈ Rule.valuesFor c.keywords id) : k.Proper := by
  obtain ⟨general, hloaded⟩ := exists_loaded h
  obtain ⟨lines, -, hvalues⟩ := exists_lines_of_readRules hloaded.keywords
  obtain ⟨token, -, htoken⟩ := Result.exists_of_mem_mapM (hvalues id) hk
  exact proper_of_parse htoken

/-- Behind the last token that bears on an architecture, nothing is granted or revoked. -/
theorem stands_iff_of_last {last : Keyword} (hlast : ¬ last.Grants)
    (hproper : ∀ k ∈ after, k.Proper) (hafter : ∀ k ∈ after, k ∉ bearingOn arch)
    (hw : w.arch = arch ∨ w.arch = "*") :
    w.Stands (before ++ last :: after) ↔ w.Stands before ∧ ¬ last.Revokes w := by
  have hnone : ¬ w.Stands after := fun h =>
    hafter w h.mem ((hproper w h.mem).mem_bearingOn hw)
  have hkept : ∀ k ∈ after, ¬ k.Revokes w := by
    intro k hk hrevokes
    refine hafter k hk ((hproper k hk).mem_bearingOn ?_)
    rcases hrevokes with hall | ⟨-, hsame⟩
    · exact .inr ((hproper k hk).disabledAll hall)
    · rw [hsame]
      exact hw
  rw [stands_append_iff, stands_cons_iff, List.forall_mem_cons]
  constructor
  · rintro (⟨hbefore, hnow, -⟩ | hstands | ⟨rfl, hgrants, -⟩)
    · exact ⟨hbefore, hnow⟩
    · exact absurd hstands hnone
    · exact absurd hgrants hlast
  · rintro ⟨hbefore, hnow⟩
    exact .inl ⟨hbefore, hnow, hkept⟩

/-- Behind a last token that grants nothing, a keyword is accepted by what stood in front of that
token and is not revoked by it. -/
theorem acceptsKeywords_iff_of_last {last : Keyword} (h : load files dir = .ok c)
    (harch : isArch arch = true) (hvalues : Rule.valuesFor c.keywords id = before ++ last :: after)
    (hafter : ∀ k ∈ after, k ∉ bearingOn arch) (hlast : ¬ last.Grants) (s : Stability) :
    c.acceptsKeywords [⟨arch, s⟩] id = true ↔
      ∃ w : Keyword, w.admits ⟨arch, s⟩ = true ∧ w.Stands before ∧ ¬ last.Revokes w := by
  have hproper : ∀ k ∈ before ++ last :: after, k.Proper := by
    rw [← hvalues]
    exact fun k hk => proper_of_mem_valuesFor h hk
  have hafterProper : ∀ k ∈ after, k.Proper := fun k hk =>
    hproper k (List.mem_append_right before (List.mem_cons_of_mem last hk))
  have hstar : (⟨arch, s⟩ : Keyword).arch ≠ "*" := arch_ne_star harch
  rw [acceptsKeywords_singleton_iff hstar, hvalues]
  refine exists_congr fun w => and_congr_right fun hadmits => ?_
  -- either side makes `w` one of the tokens, so that it bears on the architecture
  constructor
  · intro hw
    have harchs := arch_of_admits hadmits (hproper w hw.mem)
    exact (stands_iff_of_last hlast hafterProper hafter harchs).mp hw
  · rintro ⟨hbefore, hkept⟩
    have harchs := arch_of_admits hadmits (hproper w (List.mem_append_left _ hbefore.mem))
    exact (stands_iff_of_last hlast hafterProper hafter harchs).mpr ⟨hbefore, hkept⟩

/-- Where the last token that bears on an architecture is `-*`, nothing is accepted for it. Where
it removes the architecture, what a wildcard in front of it accepts stays accepted. -/
theorem acceptsKeywords_of_last {last : Keyword} (h : load files dir = .ok c)
    (harch : isArch arch = true) (hvalues : Rule.valuesFor c.keywords id = before ++ last :: after)
    (hafter : ∀ k ∈ after, k ∉ bearingOn arch) (s : Stability) :
    (last = ⟨"*", .disabledAll⟩ → c.acceptsKeywords [⟨arch, s⟩] id = false) ∧
    (last = ⟨arch, .disabled⟩ → (c.acceptsKeywords [⟨arch, s⟩] id = true ↔
      ∃ w : Keyword, w.isWildcard = true ∧ w.admits ⟨arch, s⟩ = true ∧ w.Stands before)) := by
  constructor
  · rintro rfl
    rw [Bool.eq_false_iff, ne_eq,
      acceptsKeywords_iff_of_last h harch hvalues hafter (fun hgrants => hgrants.1 rfl)]
    rintro ⟨w, -, -, hkept⟩
    exact hkept (.inl rfl)
  · rintro rfl
    rw [acceptsKeywords_iff_of_last h harch hvalues hafter (fun hgrants => hgrants.2 rfl)]
    constructor
    · rintro ⟨w, hadmits, hbefore, hkept⟩
      have hmem : w ∈ Rule.valuesFor c.keywords id := by
        rw [hvalues]
        exact List.mem_append_left _ hbefore.mem
      have harchs := arch_of_admits hadmits (proper_of_mem_valuesFor h hmem)
      have hne : w.arch ≠ arch := fun hsame => hkept (.inr ⟨rfl, hsame.symm⟩)
      have hstar : w.arch = "*" := harchs.resolve_left hne
      exact ⟨w, beq_iff_eq.mpr hstar, hadmits, hbefore⟩
    · rintro ⟨w, hwild, hadmits, hbefore⟩
      have hstar : w.arch = "*" := beq_iff_eq.mp hwild
      refine ⟨w, hadmits, hbefore, ?_⟩
      rintro (hall | ⟨-, hsame⟩)
      · cases hall
      · exact arch_ne_star harch (hsame.trans hstar)

/-! ## A wildcard that a removal leaves in force -/

/-- A configuration that removes an architecture behind a wildcard, and then everything. -/
def revoking : FileTree where
  entries := [(["conf"], .directory),
    (["conf", "keywords.conf"], .text "*/* * ~amd64\napp/kit -amd64\napp/kit:2 ** -*")]
  workingDirectory := []
  modified := fun _ => 0

def unslotted : PackageId := .sample ⟨.scm, none⟩

def slotted : PackageId := unslotted.withSlot ⟨"2", none⟩

def removal : List Keyword := [⟨"*", .stable⟩, ⟨"amd64", .testing⟩, ⟨"amd64", .disabled⟩]

def clearing : List Keyword := [⟨"*", .any⟩, ⟨"*", .disabledAll⟩]

theorem exists_load_revoking : ∃ c, load revoking ⟨"/conf"⟩ = .ok c ∧
    Rule.valuesFor c.keywords unslotted = removal ∧
    Rule.valuesFor c.keywords slotted = removal ++ clearing := by
  have hvalues : (load revoking ⟨"/conf"⟩).toOption.map (fun c =>
      (Rule.valuesFor c.keywords unslotted, Rule.valuesFor c.keywords slotted)) =
      some (removal, removal ++ clearing) := by decide +kernel
  obtain ⟨c, hload, hc⟩ := Result.exists_of_map_toOption hvalues
  exact ⟨c, hload, Prod.mk.inj hc⟩

/-- Behind `-amd64`, `amd64` is accepted and `~amd64` is not; behind `-*`, neither is. -/
theorem acceptsKeywords_revoking : ∃ c, load revoking ⟨"/conf"⟩ = .ok c ∧
    c.acceptsKeywords [⟨"amd64", .stable⟩] unslotted = true ∧
    c.acceptsKeywords [⟨"amd64", .testing⟩] unslotted = false ∧
    c.acceptsKeywords [⟨"amd64", .stable⟩] slotted = false ∧
    c.acceptsKeywords [⟨"amd64", .testing⟩] slotted = false := by
  obtain ⟨c, hload, hunslotted, hslotted⟩ := exists_load_revoking
  have harch : isArch "amd64" = true := by decide
  have hnothing : ∀ k ∈ ([] : List Keyword), k ∉ bearingOn "amd64" := fun _ h =>
    absurd h List.not_mem_nil
  have hremoval : Rule.valuesFor c.keywords unslotted =
      [⟨"*", .stable⟩, ⟨"amd64", .testing⟩] ++ ⟨"amd64", .disabled⟩ :: [] := hunslotted
  have hclearing : Rule.valuesFor c.keywords slotted =
      (removal ++ [⟨"*", .any⟩]) ++ ⟨"*", .disabledAll⟩ :: [] := hslotted
  have hremoved (s : Stability) :=
    (acceptsKeywords_of_last hload harch hremoval hnothing s).2 rfl
  have hcleared (s : Stability) :=
    (acceptsKeywords_of_last hload harch hclearing hnothing s).1 rfl
  refine ⟨c, hload, ?_, ?_, hcleared .stable, hcleared .testing⟩
  · refine (hremoved .stable).mpr ⟨⟨"*", .stable⟩, by decide, by decide, ⟨nofun, nofun⟩, [],
      [⟨"amd64", .testing⟩], rfl, ?_⟩
    intro t ht
    rw [List.mem_singleton.mp ht]
    rintro (hall | ⟨hdisabled, -⟩)
    · cases hall
    · cases hdisabled
  · rw [Bool.eq_false_iff, ne_eq, hremoved .testing]
    rintro ⟨w, hwild, hadmits, hstands⟩
    have hmem := hstands.mem
    rw [List.mem_cons, List.mem_singleton] at hmem
    rcases hmem with rfl | rfl
    · exact absurd hadmits (by decide)
    · exact absurd hwild (by decide)

/-- The last token that bears on `amd64` removes it, and yet a stable `amd64` is accepted. -/
theorem accepted_behind_removal : ∃ c, load revoking ⟨"/conf"⟩ = .ok c ∧
    isArch "amd64" = true ∧
    Rule.valuesFor c.keywords unslotted =
      [⟨"*", .stable⟩, ⟨"amd64", .testing⟩] ++ ⟨"amd64", .disabled⟩ :: [] ∧
    c.acceptsKeywords [⟨"amd64", .stable⟩] unslotted = true := by
  obtain ⟨c, hload, hvalues, -⟩ := exists_load_revoking
  refine ⟨c, hload, by decide, hvalues, ?_⟩
  unfold acceptsKeywords
  rw [hvalues]
  decide

end Configuration

end PackageCatalog
