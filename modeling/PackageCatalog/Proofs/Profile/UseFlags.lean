import PackageCatalog.Proofs.Identity
import PackageCatalog.Proofs.Name
import PackageCatalog.Proofs.Profile.Load
import PackageCatalog.Proofs.Repository.Opening
import PackageCatalog.Proofs.Settings
import PackageCatalog.Proofs.UseFlag

/-!
# The flags of a profile

The flags of a profile are what the mentions in its settings last say (`find?_flagsOf`). What `USE`
holds is what the assignments of all directories leave (`exists_useTokens`), so a flag that is last
turned on is enabled, and one that is last turned off is as if it had never been mentioned
(`useState_of_lastMention`).
-/

namespace PackageCatalog

open Settings

/-! ## Flags and tokens -/

section tokens

variable {flag : UseFlag} {token : String}

theorem UseFlag.not_isRemoval (flag : UseFlag) : ¬ IsRemoval flag.text := by
  intro h
  have hvalid := flag.valid
  simp only [NameKind.accepts, NameKind.acceptsChars, Bool.and_eq_true] at hvalid
  rw [show flag.text.toList.head? = some '-' from h] at hvalid
  exact absurd hvalid.1 (by decide)

theorem UseFlag.text_ne_star (flag : UseFlag) : flag.text ≠ "*" := by
  intro h
  have hvalid := flag.valid
  rw [h] at hvalid
  exact absurd hvalid (by decide)

theorem splitRemoval_of_not_isRemoval (h : ¬ IsRemoval token) :
    splitRemoval token = (token, true) := by
  have hlead : "-".toList.isPrefixOf token.toList = false := by
    rw [Bool.eq_false_iff, ne_eq, List.isPrefixOf_iff_prefix]
    rintro ⟨rest, hrest⟩
    exact h (by rw [IsRemoval, ← hrest]; rfl)
  rw [splitRemoval, Text.afterLead, hlead]
  rfl

end tokens

namespace FlagLine

def mentionsFor (lines : List FlagLine) (id : PackageId) : List (UseFlag × Bool) :=
  (lines.filter (·.atom.describes id)).flatMap flags

theorem lookup_eq (lines : List FlagLine) (flag : UseFlag) (id : PackageId) :
    lookup lines flag id = flag.lastMention? (mentionsFor lines id) := rfl

end FlagLine

namespace Profile

variable {settings : Settings} {flag : UseFlag} {flags : List (UseFlag × Bool)}

def expansions (settings : Settings) : List String :=
  (wordsOf settings "USE_EXPAND").flatMap fun name =>
    (wordsOf settings name).map (name.toLower ++ "_" ++ ·)

def turnedOn (names : List String) : List (UseFlag × Bool) :=
  names.filterMap fun name => (Name.ofText? .useFlag name).map fun flag => (flag, true)

/-- What `USE` and then `USE_EXPAND` say about flags. -/
def useMentions (settings : Settings) : List (UseFlag × Bool) :=
  FlagLine.flagsOf (wordsOf settings "USE") ++ turnedOn (expansions settings)

def setMention (flags : List (UseFlag × Bool)) (mention : UseFlag × Bool) :
    List (UseFlag × Bool) :=
  setFlag flags mention.1 mention.2

theorem find?_foldl_setMention (mentions : List (UseFlag × Bool)) :
    Sorted.find? compare flag (mentions.foldl setMention flags) =
      (flag.lastMention? mentions).or (Sorted.find? compare flag flags) := by
  induction mentions generalizing flags with
  | nil => rfl
  | cons mention mentions ih =>
    rw [List.foldl_cons, ih, UseFlag.lastMention?_cons, Option.or_assoc, setMention, setFlag,
      Sorted.find?_alter]
    by_cases hflag : flag = mention.1
    · rw [if_pos hflag, if_pos hflag.symm, Option.some_or]
    · rw [if_neg hflag, if_neg (Ne.symm hflag), Option.none_or]

theorem foldl_applyUseToken (tokens : List String) :
    tokens.foldl applyUseToken flags = (FlagLine.flagsOf tokens).foldl setMention flags := by
  rw [FlagLine.flagsOf, List.foldl_filterMap]
  refine congrArg (fun step => tokens.foldl step flags) (funext fun flags => funext fun token => ?_)
  delta applyUseToken
  generalize splitRemoval token = entry
  obtain ⟨name, on⟩ := entry
  dsimp only
  cases Name.ofText? .useFlag name <;> rfl

theorem foldl_applyExpansion (names : List String) :
    names.foldl (applyExpansion settings) flags =
      (turnedOn (names.flatMap fun name =>
        (wordsOf settings name).map (name.toLower ++ "_" ++ ·))).foldl setMention flags := by
  induction names generalizing flags with
  | nil => rfl
  | cons name names ih =>
    have hstep : applyExpansion settings flags name =
        (turnedOn ((wordsOf settings name).map (name.toLower ++ "_" ++ ·))).foldl setMention
          flags := by
      rw [turnedOn, List.foldl_filterMap, List.foldl_map]
      refine congrArg (fun step => (wordsOf settings name).foldl step flags)
        (funext fun flags => funext fun value => ?_)
      cases Name.ofText? .useFlag (name.toLower ++ "_" ++ value) <;> rfl
    rw [List.foldl_cons, ih, hstep, List.flatMap_cons, turnedOn, turnedOn, turnedOn,
      List.filterMap_append, List.foldl_append]

/-- The flags are what the mentions of `USE` and `USE_EXPAND` last say. -/
theorem find?_flagsOf :
    Sorted.find? compare flag (flagsOf settings) = flag.lastMention? (useMentions settings) := by
  have hflags : flagsOf settings = (useMentions settings).foldl setMention [] := by
    rw [useMentions, List.foldl_append, ← foldl_applyUseToken]
    exact foldl_applyExpansion _
  rw [hflags, find?_foldl_setMention]
  exact Option.or_none

theorem flagsOf_of_not_isRemoval {tokens : List String}
    (h : ∀ token ∈ tokens, ¬ IsRemoval token) : FlagLine.flagsOf tokens = turnedOn tokens := by
  induction tokens with
  | nil => rfl
  | cons token tokens ih =>
    obtain ⟨htoken, htokens⟩ := List.forall_mem_cons.mp h
    have hrest := ih htokens
    unfold FlagLine.flagsOf turnedOn at hrest ⊢
    rw [List.filterMap_cons, List.filterMap_cons, splitRemoval_of_not_isRemoval htoken, hrest]

theorem lastMention?_turnedOn (names : List String) :
    flag.lastMention? (turnedOn names) = if flag.text ∈ names then some true else none := by
  induction names with
  | nil => rfl
  | cons name names ih =>
    have hcons : flag.lastMention? (turnedOn (name :: names)) =
        (flag.lastMention? (turnedOn names)).or (if flag.text = name then some true else none) := by
      rw [turnedOn, List.filterMap_cons, ← turnedOn]
      cases hname : Name.ofText? .useFlag name with
      | none =>
        rw [if_neg fun htext => ?_]
        · exact Option.or_none.symm
        · rw [Name.ofText?_eq_some_iff.mpr htext.symm] at hname
          cases hname
      | some other =>
        rw [Name.ofText?_eq_some_iff] at hname
        refine UseFlag.lastMention?_cons.trans ?_
        by_cases hflag : other = flag
        · rw [if_pos hflag, if_pos (by rw [hname, hflag])]
        · have hne : flag.text ≠ name := fun htext =>
            hflag (Name.eq_of_text (hname.symm.trans htext.symm))
          rw [if_neg hflag, if_neg hne]
    rw [hcons, ih]
    by_cases hmem : flag.text ∈ names
    · rw [if_pos hmem, if_pos (List.mem_cons_of_mem name hmem), Option.some_or]
    · simp only [List.mem_cons, hmem, or_false, if_false, Option.none_or]

/-- Where `USE` holds no removals, the flags are those of the names in it and of the
expansions, all of them on. -/
theorem lastMention?_useMentions (h : ∀ token ∈ wordsOf settings "USE", ¬ IsRemoval token) :
    flag.lastMention? (useMentions settings) =
      if flag.text ∈ wordsOf settings "USE" ++ expansions settings then some true else none := by
  rw [← lastMention?_turnedOn, useMentions, flagsOf_of_not_isRemoval h, turnedOn, turnedOn,
    turnedOn, List.filterMap_append]

/-! ## The assignments of a profile -/

variable {files : FileTree} {path : Path} {p q : Profile}

def assignmentsIn (files : FileTree) : List Path → Except Error (List (String × List Char))
  | [] => .ok []
  | dir :: dirs => do
    let found ← Settings.assignmentsOf files (dir / "make.defaults")
    let more ← assignmentsIn files dirs
    return found ++ more

/-- The tokens that the directories of a profile assign to `USE`, in the order of loading. -/
def useTokens (files : FileTree) (p : Profile) : Except Error (List String) := do
  return tokensOf accumulating.contains "USE" [] (← assignmentsIn files p.directories)

theorem exists_assignmentsIn {dirs : List (List String)}
    (h : dirs.foldlM (applyNames files) p = .ok q) :
    ∃ found, assignmentsIn files (dirs.map Path.ofNames) = .ok found ∧
      q.settings = found.foldl (assign accumulating.contains) p.settings := by
  induction dirs generalizing p with
  | nil =>
    cases h
    exact ⟨[], rfl, rfl⟩
  | cons dir dirs ih =>
    obtain ⟨applied, hdir, hdirs⟩ := Result.foldlM_cons_eq_ok_iff.mp h
    obtain ⟨found, hfound, hsettings⟩ := settings_of_applyDirectory hdir
    obtain ⟨more, hmore, hrest⟩ := ih hdirs
    refine ⟨found ++ more, ?_, ?_⟩
    · rw [List.map_cons, assignmentsIn, hfound, hmore]
      rfl
    · rw [hrest, hsettings, List.foldl_append]

/-- What `USE` holds is what is left of the tokens that the directories assign to it. -/
theorem exists_useTokens (h : load files path = .ok p) :
    ∃ tokens, useTokens files p = .ok tokens ∧
      wordsOf p.settings "USE" = mergeTokens [] tokens ∧ p.useFlags = flagsOf p.settings := by
  obtain ⟨dir, t, applied, -, -, hdirectories, hfold, rfl⟩ := exists_parentTree_of_load h
  obtain ⟨found, hfound, hsettings⟩ := exists_assignmentsIn hfold
  refine ⟨tokensOf accumulating.contains "USE" [] found, ?_, ?_, rfl⟩
  · rw [useTokens, hdirectories, hfound]
    rfl
  · have haccumulates : accumulating.contains "USE" = true := by decide
    show wordsOf applied.settings "USE" = _
    rw [hsettings]
    exact wordsOf_foldl_assign haccumulates found

/-! ## The state of a flag -/

theorem lookup_eq_none {lines : List FlagLine} {id : PackageId}
    (h : ∀ line ∈ lines, line.atom.describes id = true → ∀ entry ∈ line.flags, entry.1 ≠ flag) :
    FlagLine.lookup lines flag id = none := by
  rw [FlagLine.lookup_eq, UseFlag.lastMention?_eq_none_iff]
  intro entry hentry
  obtain ⟨line, hline, hentry⟩ := List.mem_flatMap.mp hentry
  obtain ⟨hline, hdescribes⟩ := List.mem_filter.mp hline
  exact h line hline hdescribes entry hentry

/-- What neither a mask nor a force fixes is left to `package.use` and then to the variables. -/
theorem useState_eq_ofLayers {id : PackageId} (hflags : p.useFlags = flagsOf p.settings)
    (hmasked : p.masksUse flag id = false) (hforced : p.forcesUse flag id = false) :
    p.useState flag id = UseState.ofLayers flag .unspecified
      [FlagLine.mentionsFor p.packageUse id, useMentions p.settings] := by
  unfold useState UseState.ofLayers UseState.ofLayers UseState.ofLayers
  rw [hmasked, hforced, hflags, find?_flagsOf, FlagLine.lookup_eq]
  cases flag.lastMention? (FlagLine.mentionsFor p.packageUse id) with
  | some on => rfl
  | none => cases flag.lastMention? (useMentions p.settings) <;> rfl

/-- A loaded profile's flags are on, or it does not know them. -/
theorem find?_useFlags_of_load {tokens : List String} (h : load files path = .ok p)
    (htokens : useTokens files p = .ok tokens) :
    Sorted.find? compare flag p.useFlags =
      if flag.text ∈ mergeTokens [] tokens ++ expansions p.settings then some true else none := by
  obtain ⟨tokens', htokens', hwords, hflags⟩ := exists_useTokens h
  rw [htokens'] at htokens
  cases htokens
  -- merging has dropped every `-token`, so no token is left that would turn a flag off
  have hplain : ∀ token ∈ wordsOf p.settings "USE", ¬ IsRemoval token := by
    rw [hwords]
    exact fun _ => not_isRemoval_of_mem_mergeTokens
  rw [hflags, find?_flagsOf, lastMention?_useMentions hplain, hwords]

/-- Masks, forces, `package.use` and `USE_EXPAND` say nothing about a flag for a package ID. -/
structure LeftToUse (p : Profile) (flag : UseFlag) (id : PackageId) : Prop where
  notMasked : p.masksUse flag id = false
  notForced : p.forcesUse flag id = false
  notOfPackage : ∀ line ∈ p.packageUse, line.atom.describes id = true →
    ∀ entry ∈ line.flags, entry.1 ≠ flag
  notExpanded : flag.text ∉ expansions p.settings

theorem useState_eq_of_leftToUse {tokens : List String} {id : PackageId} {on : Bool}
    (h : load files path = .ok p) (htokens : useTokens files p = .ok tokens)
    (hleft : p.LeftToUse flag id) (hlast : LastMention flag.text on tokens) :
    p.useState flag id = if on then .enabled else .unspecified := by
  have hon : flag.text ∈ mergeTokens [] tokens ++ expansions p.settings ↔ on = true := by
    rw [List.mem_append, or_iff_left hleft.notExpanded]
    exact mem_mergeTokens_iff flag.not_isRemoval flag.text_ne_star hlast
  unfold useState
  rw [hleft.notMasked, hleft.notForced, lookup_eq_none hleft.notOfPackage, Option.none_or,
    find?_useFlags_of_load h htokens]
  simp only [hon]
  cases on <;> rfl

/-- The last mention of a flag in `USE` decides about it where nothing else does: turned on, it is
enabled. Turned off, it is not disabled but unspecified, so that for a package of a repository
the default that it declares decides. -/
theorem useState_of_lastMention (h : load files path = .ok p) :
    ∃ tokens, useTokens files p = .ok tokens ∧
      ∀ (flag : UseFlag) (id : PackageId) (on : Bool), p.LeftToUse flag id →
        LastMention flag.text on tokens →
          p.useState flag id = (if on then .enabled else .unspecified) ∧
          ∀ (r : Repository) (tree : EbuildTree), r.tree? = some tree → tree.profile = p →
            r.useState flag id = if on then .enabled else Repository.declaredState flag id := by
  obtain ⟨tokens, htokens, -⟩ := exists_useTokens h
  refine ⟨tokens, htokens, fun flag id on hleft hlast => ?_⟩
  have hstate := useState_eq_of_leftToUse h htokens hleft hlast
  refine ⟨hstate, fun r tree htree hprofile => ?_⟩
  have hkind : r.kind = .ebuilds tree := Repository.kind_of_tree?_eq_some htree
  unfold Repository.useState
  rw [hkind]
  dsimp only
  rw [hprofile, hstate]
  cases on <;> rfl

/-! ## A flag that is only ever turned off -/

/-- A profile that turns on `plain` and turns off `fancy`, which nothing turned on before. -/
def removing : FileTree where
  entries := [(["base"], .directory), (["base", "make.defaults"], .text "USE=\"plain\""),
    (["leaf"], .directory), (["leaf", "parent"], .text "../base"),
    (["leaf", "make.defaults"], .text "USE=\"-fancy\"")]
  workingDirectory := []
  modified := fun _ => 0

def plain : UseFlag := ⟨"plain", by decide⟩

def fancy : UseFlag := ⟨"fancy", by decide⟩

theorem lastMention_plain : LastMention plain.text true ["plain", "-fancy"] :=
  ⟨[], ["-fancy"], rfl, by decide⟩

theorem lastMention_fancy : LastMention fancy.text false ["plain", "-fancy"] :=
  ⟨["plain"], [], rfl, fun _ h => absurd h List.not_mem_nil⟩

theorem exists_load_removing : ∃ p, load removing ⟨"/leaf"⟩ = .ok p ∧
    useTokens removing p = .ok ["plain", "-fancy"] ∧ ∀ flag id, p.LeftToUse flag id := by
  have hfacts : (load removing ⟨"/leaf"⟩).toOption.map (fun p =>
      ([p.useMask.length, p.useForce.length, p.packageUse.length, p.packageUseMask.length,
        p.packageUseForce.length], expansions p.settings, (useTokens removing p).toOption)) =
      some ([0, 0, 0, 0, 0], [], some ["plain", "-fancy"]) := by
    rw [load_eq_getD]
    decide +kernel
  obtain ⟨p, hload, hp⟩ := Result.exists_of_map_toOption hfacts
  simp only [Prod.mk.injEq, List.cons.injEq, List.length_eq_zero_iff, and_true] at hp
  obtain ⟨⟨huseMask, huseForce, hpackageUse, hpackageUseMask, hpackageUseForce⟩, hexpansions,
    htokens⟩ := hp
  obtain ⟨tokens, htokens', -⟩ := exists_useTokens hload
  rw [htokens'] at htokens
  refine ⟨p, hload, ?_, fun flag id => ⟨?_, ?_, ?_, ?_⟩⟩
  · rw [htokens', Option.some.inj htokens]
  · rw [masksUse, hpackageUseMask, huseMask]
    rfl
  · rw [forcesUse, hpackageUseForce, huseForce]
    rfl
  · rw [hpackageUse]
    exact fun _ h => absurd h List.not_mem_nil
  · rw [hexpansions]
    exact List.not_mem_nil

theorem useState_removing : ∃ p, load removing ⟨"/leaf"⟩ = .ok p ∧
    ∀ id, p.useState plain id = .enabled ∧ p.useState fancy id = .unspecified := by
  obtain ⟨p, hload, htokens, hleft⟩ := exists_load_removing
  obtain ⟨tokens, htokens', hstate⟩ := useState_of_lastMention hload
  rw [htokens] at htokens'
  cases htokens'
  refine ⟨p, hload, fun id => ⟨?_, ?_⟩⟩
  · exact (hstate plain id true (hleft plain id) lastMention_plain).1
  · exact (hstate fancy id false (hleft fancy id) lastMention_fancy).1

def kit : PackageId :=
  (PackageId.sample ⟨.scm, none⟩).withKey (.ofVariable "IUSE" "+fancy")

def repositoryWith (p : Profile) : Repository :=
  ⟨kit.repository, [], .empty, .ebuilds ⟨⟨"/repo"⟩, none, [], ⟨[], []⟩, [], .empty, p⟩⟩

/-- Nothing but `-fancy` mentions `fancy`, and yet it is not disabled, but on for `kit`. -/
theorem not_disabled_of_removing : ∃ p, load removing ⟨"/leaf"⟩ = .ok p ∧
    useTokens removing p = .ok ["plain", "-fancy"] ∧ p.LeftToUse fancy kit ∧
    LastMention fancy.text false ["plain", "-fancy"] ∧ p.useState fancy kit ≠ .disabled ∧
    (repositoryWith p).useState fancy kit = .enabled := by
  obtain ⟨p, hload, htokens, hleft⟩ := exists_load_removing
  have hstate : p.useState fancy kit = .unspecified :=
    useState_eq_of_leftToUse hload htokens (hleft fancy kit) lastMention_fancy
  have hdeclared : Repository.declaredState fancy kit = .enabled := by decide +kernel
  refine ⟨p, hload, htokens, hleft fancy kit, lastMention_fancy, ?_, ?_⟩
  · rw [hstate]
    decide
  · unfold Repository.useState repositoryWith
    dsimp only
    rw [hstate]
    exact hdeclared

end Profile

end PackageCatalog
