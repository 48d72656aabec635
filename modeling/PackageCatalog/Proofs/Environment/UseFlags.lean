import PackageCatalog.Environment
import PackageCatalog.Proofs.Profile.UseFlags
import PackageCatalog.Proofs.Repository.Provenance
import PackageCatalog.Proofs.Repository.Switching

/-!
# Who decides about a flag

A repository's masks come first, then its forces. What they leave open is decided by layers of
mentions: `use.conf`, then for an ebuild repository `package.use`, the variables of its profile
and the defaults that the package declares. `Environment.useState_decided` says so of every layer
at once, since each of them checks the masks and forces again.
-/

namespace PackageCatalog

variable {flag : UseFlag} {id : PackageId} {tree : EbuildTree} {r : Repository}

/-! ## Declared flags -/

/-- The flags that a key declares are in strict order. -/
theorem Metadata.Key.strict_of_value {k : Key} {set : List DeclaredFlag}
    (h : k.value = .ok (.declaredFlagSet set)) : Sorted.Strict DeclaredFlag.byName set := by
  obtain ⟨raw, hraw⟩ := exists_raw_of_value h rfl (by decide)
  obtain ⟨found, hfound, hraw⟩ := Result.bind_eq_ok_iff.mp hraw
  cases hraw
  exact DeclaredFlag.strict_of_parseSet hfound

def PackageId.declaredMentions (id : PackageId) : List (UseFlag × Bool) :=
  match (id.key? "IUSE").map Metadata.Key.value with
  | some (.ok (.declaredFlagSet set)) => DeclaredFlag.mentionsOf set
  | _ => []

namespace Repository

theorem declaredState_eq_ofLayers (flag : UseFlag) (id : PackageId) :
    declaredState flag id = UseState.ofLayers flag .unspecified [id.declaredMentions] := by
  have hstrict : ∀ set, (id.key? "IUSE").map Metadata.Key.value =
      some (.ok (.declaredFlagSet set)) → Sorted.Strict DeclaredFlag.byName set := by
    intro set hset
    obtain ⟨key, -, hvalue⟩ := Option.map_eq_some_iff.mp hset
    exact Metadata.Key.strict_of_value hvalue
  unfold declaredState PackageId.declaredMentions
  generalize (id.key? "IUSE").map Metadata.Key.value = value? at hstrict ⊢
  rcases value? with _ | fault | value
  · rfl
  · rfl
  · cases value with
    | declaredFlagSet set =>
      dsimp only
      rw [UseState.ofLayers, DeclaredFlag.lastMention?_mentionsOf (hstrict set rfl)]
      cases DeclaredFlag.find? set flag with
      | none => rfl
      | some d =>
        rw [Option.bind_some]
        unfold DeclaredFlag.state
        dsimp only
        cases d.default? <;> rfl
    | _ => rfl

/-! ## Repositories -/

theorem finished_of_chosenProfile {files : FileTree} {options : EbuildOptions}
    {profiles : List ProfileListing} {p : Profile}
    (h : chosenProfile files options profiles = .ok p) :
    p.useFlags = Profile.flagsOf p.settings := by
  obtain ⟨path, hload⟩ | rfl := of_chosenProfile h
  · obtain ⟨applied, -, rfl⟩ := Profile.load_eq_ok_iff.mp hload
    rfl
  · decide

/-- The flags of the profile are those that its settings give. -/
theorem Loaded.useFlags_eq (h : r.Loaded) (htree : r.tree? = some tree) :
    tree.profile.useFlags = Profile.flagsOf tree.profile.settings := by
  cases h with
  | ebuilds hopen =>
    obtain ⟨tree', hopened⟩ := exists_opened hopen
    have hkind := kind_of_tree?_eq_some htree
    rw [hopened.kind] at hkind
    cases hkind
    exact finished_of_chosenProfile hopened.profile
  | switched _ _ hset =>
    obtain ⟨profile, index, hprofile, -, rfl⟩ := setProfile_eq_ok_iff.mp hset
    cases htree
    obtain ⟨applied, -, rfl⟩ := Profile.load_eq_ok_iff.mp hprofile
    rfl
  | installed hopen =>
    unfold openInstalled at hopen
    split at hopen
    · cases hopen
    · obtain ⟨index, -, hopen⟩ := Result.bind_eq_ok_iff.mp hopen
      cases hopen
      cases htree
  | filled hfilled =>
    obtain ⟨-, installed, hkind⟩ := hfilled.consistent
    rw [kind_of_tree?_eq_some htree] at hkind
    cases hkind

theorem masksUse_of_tree? (htree : r.tree? = some tree) :
    r.masksUse flag id = tree.profile.masksUse flag id := by
  rw [masksUse, htree]
  rfl

theorem forcesUse_of_tree? (htree : r.tree? = some tree) :
    r.forcesUse flag id = tree.profile.forcesUse flag id := by
  rw [forcesUse, htree]
  rfl

theorem useState_of_tree? (htree : r.tree? = some tree) : r.useState flag id =
    match tree.profile.useState flag id with
    | .unspecified => declaredState flag id
    | s => s := by
  have hkind := kind_of_tree?_eq_some htree
  obtain ⟨name, keys, index, kind⟩ := r
  cases hkind
  rfl

theorem useState_of_masked (h : r.masksUse flag id = true) : r.useState flag id = .disabled := by
  obtain ⟨tree, htree, hmasked⟩ := (Option.any_eq_true _ _).mp h
  have hstate : tree.profile.useState flag id = .disabled := if_pos hmasked
  rw [useState_of_tree? htree, hstate]

theorem useState_of_forced (hmasked : r.masksUse flag id = false)
    (h : r.forcesUse flag id = true) : r.useState flag id = .enabled := by
  obtain ⟨tree, htree, hforced⟩ := (Option.any_eq_true _ _).mp h
  rw [masksUse_of_tree? htree] at hmasked
  have hstate : tree.profile.useState flag id = .enabled := by
    unfold Profile.useState
    rw [hmasked, hforced]
    rfl
  rw [useState_of_tree? htree, hstate]

/-- A repository's own answer heeds its masks and forces already. -/
theorem effectiveUse_eq_useState (r : Repository) :
    r.effectiveUse flag id = r.useState flag id := by
  unfold effectiveUse
  split
  · next hmasked => exact (useState_of_masked hmasked).symm
  · next hmasked =>
    split
    · next hforced => exact (useState_of_forced (Bool.eq_false_iff.mpr hmasked) hforced).symm
    · rfl

/-- What is neither masked nor forced in an ebuild repository is decided by `package.use`, the
variables of the profile and the declared defaults, in this order. -/
theorem useState_eq_ofLayers (hloaded : r.Loaded) (htree : r.tree? = some tree)
    (hmasked : r.masksUse flag id = false) (hforced : r.forcesUse flag id = false) :
    r.useState flag id = UseState.ofLayers flag .unspecified
      [FlagLine.mentionsFor tree.profile.packageUse id,
        Profile.useMentions tree.profile.settings, id.declaredMentions] := by
  rw [masksUse_of_tree? htree] at hmasked
  rw [forcesUse_of_tree? htree] at hforced
  rw [useState_of_tree? htree,
    Profile.useState_eq_ofLayers (hloaded.useFlags_eq htree) hmasked hforced,
    declaredState_eq_ofLayers]
  exact (UseState.ofLayers_append _ _).symm

end Repository

/-! ## Environments -/

namespace Environment

variable {e : Environment} {c : Configuration}

theorem loaded_of_owner? (hloaded : ∀ r ∈ e.catalog.repositories, r.Loaded)
    (howner : e.owner? id = some r) : r.Loaded := by
  obtain ⟨⟨importance, r⟩, hfind, rfl⟩ := Option.map_eq_some_iff.mp howner
  exact hloaded r (List.mem_map_of_mem (List.mem_of_find?_eq_some hfind))

theorem repositoryUse_of_owner? (howner : e.owner? id = some r) :
    e.repositoryUse flag id = r.useState flag id := by
  rw [repositoryUse, howner]
  exact r.effectiveUse_eq_useState

theorem fixesUse_of_owner? (howner : e.owner? id = some r) :
    e.fixesUse flag id = (r.masksUse flag id || r.forcesUse flag id) := by
  rw [fixesUse, howner, Option.any_some]

theorem repositoryUse_of_unknown (howner : e.owner? id = none) :
    e.repositoryUse flag id = .unspecified := by
  rw [repositoryUse, howner]

/-- What the repository fixes, no mention changes. -/
theorem useState_of_fixes (h : e.fixesUse flag id = true) :
    e.useState flag id = e.repositoryUse flag id := by
  unfold useState
  cases e.policy with
  | configured c =>
    dsimp only
    rw [h]
    rfl
  | _ => rfl

theorem useState_of_not_fixes (hpolicy : e.policy = .configured c)
    (h : e.fixesUse flag id = false) : e.useState flag id =
      UseState.ofLayers flag (e.repositoryUse flag id) [Rule.valuesFor c.useFlags id] := by
  unfold useState
  rw [hpolicy]
  dsimp only
  rw [h]
  rfl

/-- A masked flag is off and a forced one on, whoever is asked. Otherwise the last mention in
`use.conf` decides, or else the repository: an ebuild repository by its `package.use`, then by the
variables of its profile, then by the default that the package declares. Where the repository is
not known, only `use.conf` can say anything. -/
theorem useState_decided (hpolicy : e.policy = .configured c)
    (hloaded : ∀ r ∈ e.catalog.repositories, r.Loaded) (flag : UseFlag) (id : PackageId) :
    (∀ r, e.owner? id = some r →
      (r.masksUse flag id = true →
        e.useState flag id = .disabled ∧ e.repositoryUse flag id = .disabled ∧
          r.useState flag id = .disabled) ∧
      (r.masksUse flag id = false → r.forcesUse flag id = true →
        e.useState flag id = .enabled ∧ e.repositoryUse flag id = .enabled ∧
          r.useState flag id = .enabled) ∧
      (r.masksUse flag id = false → r.forcesUse flag id = false →
        UseState.Decided flag (r.useState flag id) [Rule.valuesFor c.useFlags id]
          (e.useState flag id) ∧
        e.repositoryUse flag id = r.useState flag id ∧
        ∀ tree, r.tree? = some tree →
          UseState.Decided flag .unspecified
            [FlagLine.mentionsFor tree.profile.packageUse id,
              Profile.useMentions tree.profile.settings, id.declaredMentions]
            (r.useState flag id))) ∧
    (e.owner? id = none →
      UseState.Decided flag .unspecified [Rule.valuesFor c.useFlags id] (e.useState flag id) ∧
        e.repositoryUse flag id = .unspecified) := by
  refine ⟨fun r howner => ?_, fun howner => ?_⟩
  · have hrepository : e.repositoryUse flag id = r.useState flag id :=
      repositoryUse_of_owner? howner
    have hfixes : e.fixesUse flag id = (r.masksUse flag id || r.forcesUse flag id) :=
      fixesUse_of_owner? howner
    refine ⟨fun hmasked => ?_, fun hmasked hforced => ?_, fun hmasked hforced => ?_⟩
    · rw [hmasked, Bool.true_or] at hfixes
      rw [useState_of_fixes hfixes, hrepository, Repository.useState_of_masked hmasked]
      exact ⟨rfl, rfl, rfl⟩
    · rw [hforced, Bool.or_true] at hfixes
      rw [useState_of_fixes hfixes, hrepository, Repository.useState_of_forced hmasked hforced]
      exact ⟨rfl, rfl, rfl⟩
    · rw [hmasked, hforced, Bool.or_false] at hfixes
      refine ⟨UseState.decided_iff.mpr ?_, hrepository, fun tree htree =>
        UseState.decided_iff.mpr ?_⟩
      · rw [useState_of_not_fixes hpolicy hfixes, hrepository]
      · exact (Repository.useState_eq_ofLayers (loaded_of_owner? hloaded howner) htree hmasked
          hforced).symm
  · have hfixes : e.fixesUse flag id = false := by
      rw [fixesUse, howner, Option.any_none]
    refine ⟨UseState.decided_iff.mpr ?_, repositoryUse_of_unknown howner⟩
    rw [useState_of_not_fixes hpolicy hfixes, repositoryUse_of_unknown howner]

/-! ## One flag for each that decides -/

/-- A repository's profile that masks a flag, forces another and turns on a third. -/
def settled : FileTree where
  entries := [(["r"], .directory), (["r", "profiles"], .directory),
    (["r", "profiles", "categories"], .text "app"), (["base"], .directory),
    (["base", "make.defaults"], .text "USE=\"used\""), (["base", "use.mask"], .text "hidden"),
    (["base", "use.force"], .text "needed")]
  workingDirectory := []
  modified := fun _ => 0

def hidden : UseFlag := ⟨"hidden", by decide⟩

def needed : UseFlag := ⟨"needed", by decide⟩

def chosen : UseFlag := ⟨"chosen", by decide⟩

def used : UseFlag := ⟨"used", by decide⟩

def offered : UseFlag := ⟨"offered", by decide⟩

/-- A configuration that goes against the mask and the force, and turns on a flag of its own. -/
def choosing : Configuration where
  directory := ⟨"/conf"⟩
  distribution := "gentoo"
  keywords := []
  licenses := []
  useFlags := [⟨⟨.any, none, none, none⟩, [(hidden, true), (needed, false), (chosen, true)]⟩]
  mirrors := []
  packageMask := []
  packageUnmask := []
  world := []
  sets := []

def offering : PackageId :=
  (PackageId.sample ⟨.scm, none⟩).withKey (.ofVariable "IUSE" "+offered")

def stray : PackageId := { offering with repository := ⟨"other", by decide +kernel⟩ }

theorem declaredMentions_offering : offering.declaredMentions = [(offered, true)] := by
  decide +kernel

def settledOptions : EbuildOptions where
  location := ⟨"/r"⟩
  name? := some offering.repository
  profile? := some ⟨"/base"⟩
  syncUri? := none

/-- What the repository of `settled` fixes, and what it says about flags. -/
abbrev Settles (r : Repository) : Prop :=
  r.name = offering.repository ∧
    [hidden, needed, chosen, offered].map (r.masksUse · offering) = [true, false, false, false] ∧
    [hidden, needed, chosen, offered].map (r.forcesUse · offering) =
      [false, true, false, false] ∧
    r.tree?.map (fun tree => (FlagLine.mentionsFor tree.profile.packageUse offering,
      Profile.useMentions tree.profile.settings)) = some ([], [(used, true)])

theorem exists_open_settled :
    ∃ r, Repository.openEbuilds settled settledOptions = .ok r ∧ Settles r := by
  have hfacts : (Repository.openEbuilds settled settledOptions).toOption.map
      (fun r => decide (Settles r)) = some true := by
    rw [Repository.openEbuilds_of_directory settledOptions (by decide +kernel)]
    simp only [Repository.chosenProfile, Profile.load_eq_getD]
    decide +kernel
  obtain ⟨r, hopen, hr⟩ := Result.exists_of_map_toOption hfacts
  exact ⟨r, hopen, of_decide_eq_true hr⟩

def choosingOver (r : Repository) : Environment := ⟨.configured choosing, ⟨[(0, r)]⟩⟩

theorem useState_settled : ∃ r, Repository.openEbuilds settled settledOptions = .ok r ∧
    (choosingOver r).useState hidden offering = .disabled ∧
    (choosingOver r).useState needed offering = .enabled ∧
    (choosingOver r).useState chosen offering = .enabled ∧
    (choosingOver r).useState offered offering = .enabled ∧
    (choosingOver r).useState chosen stray = .enabled ∧
    (choosingOver r).useState offered stray = .unspecified := by
  obtain ⟨r, hopen, hname, hmasks, hforces, hmentions⟩ := exists_open_settled
  simp only [List.map_cons, List.map_nil, List.cons.injEq, and_true] at hmasks hforces
  obtain ⟨hhidden, hneeded, hchosen, hoffered⟩ := hmasks
  obtain ⟨-, hneeded', hchosen', hoffered'⟩ := hforces
  obtain ⟨tree, htree, hlayers⟩ := Option.map_eq_some_iff.mp hmentions
  obtain ⟨hpackage, hvariables⟩ := Prod.mk.inj hlayers
  have hloaded : ∀ r' ∈ (choosingOver r).catalog.repositories, r'.Loaded := by
    intro r' hr'
    rw [List.mem_singleton.mp hr']
    exact .ebuilds hopen
  have howner : (choosingOver r).owner? offering = some r := by
    rw [owner?, Catalog.find?]
    exact congrArg (Option.map Prod.snd) (List.find?_cons_of_pos (decide_eq_true hname))
  have hstray : (choosingOver r).owner? stray = none := by
    have hne : ¬ decide (r.name = stray.repository) = true := by
      rw [hname]
      decide
    rw [owner?, Catalog.find?]
    exact congrArg (Option.map Prod.snd) (List.find?_cons_of_neg hne)
  have hdecided (flag : UseFlag) (id : PackageId) :=
    useState_decided (e := choosingOver r) rfl hloaded flag id
  refine ⟨r, hopen, ?_, ?_, ?_, ?_, ?_, ?_⟩
  · exact (((hdecided hidden offering).1 r howner).1 hhidden).1
  · exact (((hdecided needed offering).1 r howner).2.1 hneeded hneeded').1
  · obtain ⟨huser, -⟩ := ((hdecided chosen offering).1 r howner).2.2 hchosen hchosen'
    exact (UseState.decided_iff.mp huser).symm
  · obtain ⟨huser, -, hrepository⟩ :=
      ((hdecided offered offering).1 r howner).2.2 hoffered hoffered'
    have hdeclared := UseState.decided_iff.mp (hrepository tree htree)
    rw [hpackage, hvariables] at hdeclared
    rw [← UseState.decided_iff.mp huser, ← hdeclared, declaredMentions_offering]
    decide
  · exact (UseState.decided_iff.mp ((hdecided chosen stray).2 hstray).1).symm
  · exact (UseState.decided_iff.mp ((hdecided offered stray).2 hstray).1).symm

end Environment

end PackageCatalog
