import PackageCatalog.Proofs.Result
import PackageCatalog.Repository.Ebuild
import PackageCatalog.Repository.Installed

/-!
# How package IDs are built

Both loaders start from a bare ID and add slots, masks, keys and actions to it. What such additions
keep (`PackageId.Kept`) holds of every ID that is loaded if it holds of the bare one
(`Kept.ofEbuild`, `Kept.ofInstalled`): its name, its version, and which files the values of its keys
are read from (`PackageId.ReadsOnly`). Where a value comes from is told by the value itself
(`Metadata.Key.exists_raw_of_value`, `Metadata.Key.source_of_value`).
-/

namespace PackageCatalog

/-! ## Values -/

namespace Metadata

/-- The kind of text that writes the value. The place of a file is not written by any. -/
def Value.kind? : Value → Option Kind
  | string _ => some .string
  | stringSet _ => some .stringSet
  | keywordSet _ => some .keywordSet
  | useFlagSet _ => some .useFlagSet
  | declaredFlagSet _ => some .declaredFlagSet
  | time _ => some .time
  | path _ => some .path
  | contents _ => some .contents
  | contentsFile _ => none
  | dependencyTree _ => some .dependencyTree
  | licenseTree _ => some .licenseTree
  | plainTextTree _ => some .plainTextTree
  | simpleUriTree _ => some .simpleUriTree
  | fetchableUriTree _ _ => some .fetchableUriTree
  | maskInfo _ => some .maskInfo

namespace Key

variable {k : Key} {v : Value} {kind : Kind}

theorem kind?_of_parseValue {raw : String} (h : parseValue raw kind = .ok v) :
    v.kind? = some kind := by
  cases kind with
  | string | stringSet | path | maskInfo =>
    cases h
    rfl
  | _ =>
    obtain ⟨_, -, h⟩ := Result.bind_eq_ok_iff.mp h
    cases h
    rfl

/-- A value of a kind that no other source gives was written by a text. -/
theorem exists_raw_of_value (h : k.value = .ok v) (hkind : v.kind? = some kind)
    (hwritten : kind ∉ [.time, .path, .fetchableUriTree, .maskInfo]) :
    ∃ raw, parseValue raw kind = .ok v := by
  unfold value at h
  split at h
  · next raw _ =>
    have hsame := kind?_of_parseValue h
    rw [hkind, Option.some.injEq] at hsame
    exact ⟨raw, hsame ▸ h⟩
  · obtain ⟨_, -, h⟩ := Result.bind_eq_ok_iff.mp h
    obtain ⟨_, -, h⟩ := Result.bind_eq_ok_iff.mp h
    cases h
    cases hkind
    exact absurd (by decide) hwritten
  · cases h
    cases hkind
    exact absurd (by decide) hwritten
  · cases h
    cases hkind
    exact absurd (by decide) hwritten
  · cases h
    cases hkind
  · cases h
    cases hkind
    exact absurd (by decide) hwritten

/-- A value that is not in the key itself is where the key says. -/
theorem source_of_value {p : Path} (h : k.value = .ok (.contentsFile p)) :
    k.source = .contentsFile p := by
  unfold value at h
  split at h
  · cases kind?_of_parseValue h
  · obtain ⟨_, -, h⟩ := Result.bind_eq_ok_iff.mp h
    obtain ⟨_, -, h⟩ := Result.bind_eq_ok_iff.mp h
    cases h
  · cases h
  · cases h
  · next hsource =>
    cases h
    exact hsource
  · cases h

end Key

end Metadata

namespace PackageId

/-- What holds of an ID still does once it gets a slot, a mask, actions that are allowed, or a key
whose value is in no file but those of the given paths. -/
structure Kept (sources : Path → Prop) (allowed : Action → Bool) (P : PackageId → Prop) :
    Prop where
  slot : ∀ id slot, P id → P (id.withSlot slot)
  mask : ∀ id mask, P id → P (id.withMask mask)
  actions : ∀ id more, (∀ a ∈ more, allowed a = true) → P id → P (id.withActions more)
  key : ∀ id (key : Metadata.Key), (∀ p, key.source = .contentsFile p → sources p) → P id →
    P (id.withKey key)

variable {sources : Path → Prop} {allowed : Action → Bool} {id id' : PackageId}

theorem kept_identity (sources : Path → Prop) (name : QualifiedName) (v : Version) :
    Kept sources (fun _ => true) fun id => id.name = name ∧ id.version = v :=
  ⟨fun _ _ h => h, fun _ _ h => h, fun _ _ _ h => h, fun _ _ _ h => h⟩

/-! ## Where the values of keys are -/

theorem mem_putKey {key k : Metadata.Key} {keys : List Metadata.Key} (h : k ∈ putKey key keys) :
    k = key ∨ k ∈ keys := by
  induction keys with
  | nil => exact .inl (List.mem_singleton.mp h)
  | cons first rest ih =>
    rw [putKey] at h
    split at h
    · exact (List.mem_cons.mp h).imp_right (List.mem_cons_of_mem first)
    · rcases List.mem_cons.mp h with rfl | h
      · exact .inr List.mem_cons_self
      · exact (ih h).imp_right (List.mem_cons_of_mem first)

/-- The values of the keys are in the keys themselves or in files of the given paths. -/
def ReadsOnly (sources : Path → Prop) (id : PackageId) : Prop :=
  ∀ k ∈ id.keys, ∀ p, k.source = .contentsFile p → sources p

theorem kept_readsOnly : Kept sources (fun _ => true) (ReadsOnly sources) where
  slot _ _ h := h
  mask _ _ h := h
  actions _ _ _ h := h
  key _ _ hkey h k hk := (mem_putKey hk).elim (fun heq => heq ▸ hkey) (h k)

/-- Where its files are the same, the values of the keys are. -/
theorem ReadsOnly.load_eq {files files' : FileTree} (h : id.ReadsOnly sources)
    (hfiles : ∀ p, sources p → files'.read p = files.read p) {k : Metadata.Key} (hk : k ∈ id.keys) :
    k.load files' = k.load files := by
  unfold Metadata.Key.load
  refine Result.bind_congr_of_ok fun value hvalue => ?_
  cases value with
  | contentsFile p =>
    dsimp only
    unfold Contents.load FileTree.readRequired
    rw [hfiles p (h k hk p (Metadata.Key.source_of_value hvalue))]
  | _ => rfl

/-! ## The loaders -/

namespace Kept

variable {P : PackageId → Prop} (hP : Kept sources allowed P)

include hP

theorem variableKey (h : P id) (name value : String) : P (id.withKey (.ofVariable name value)) := by
  refine hP.key id _ (fun p hsource => ?_) h
  unfold Metadata.Key.ofVariable at hsource
  split at hsource <;> cases hsource

theorem variableKeyIf {p : Prop} [Decidable p] (h : P id) (name value : String) :
    P (if p then id.withKey (.ofVariable name value) else id) := by
  split
  · exact hP.variableKey h name value
  · exact h

theorem maskUnless {p : Prop} [Decidable p] (h : P id) (mask : Mask) :
    P (if p then id else id.withMask mask) := by
  split
  · exact h
  · exact hP.mask id mask h

theorem addVariable {entry : CacheEntry} {eapi? : Option Eapi} (h : P id) (x : String × String) :
    P (EbuildTree.addVariable entry eapi? id x) := by
  unfold EbuildTree.addVariable
  split
  · exact h
  · split
    · exact h
    · split
      · exact hP.key id _ nofun h
      · exact hP.variableKey h _ _

theorem addEntry (h : P id) (entry : CacheEntry) : P (EbuildTree.addEntry id entry) := by
  unfold EbuildTree.addEntry
  dsimp only
  -- from the last step back to the slot, with which it begins
  refine hP.variableKeyIf (List.foldlRecOn (motive := P) _ _ ?_ fun id h x _ =>
    hP.addVariable h x) _ _
  refine hP.maskUnless (hP.variableKey ?_ _ _) _
  cases entry.slot with
  | ok slot => exact hP.slot id slot h
  | error e => exact h

theorem addMasks (h : P id) (mask profileMask : MaskList) :
    P (EbuildTree.addMasks mask profileMask id) := by
  have hkeys : P ((id.withKey (.ofMaskInfo "repository_mask" (mask.find? id))).withKey
      (.ofMaskInfo "profile_mask" (profileMask.find? id))) :=
    hP.key _ _ nofun (hP.key _ _ nofun h)
  unfold EbuildTree.addMasks
  dsimp only
  split
  · split
    · exact hP.mask _ _ (hP.mask _ _ hkeys)
    · exact hP.mask _ _ hkeys
  · split
    · exact hP.mask _ _ hkeys
    · exact hkeys

/-- What is kept and holds of a bare ID holds of that of an ebuild. -/
theorem ofEbuild {s : EbuildTree.Source} {name : QualifiedName} {v : Version}
    (hactions : ∀ a ∈ Action.ofEbuilds, allowed a = true)
    (h : P (PackageId.bare name v s.repository)) (files : FileTree) :
    P (s.buildId files name v) := by
  have hbare := hP.actions _ Action.ofEbuilds hactions h
  unfold EbuildTree.Source.buildId
  dsimp only
  refine hP.addMasks (hP.key _ _ (by intro p hsource; cases hsource) ?_) _ _
  split
  · exact hP.addEntry hbare _
  · exact hP.mask _ _ hbare

theorem addInstalledVariable (h : P id) (name value : String) :
    P (InstalledDatabase.addVariable id name value) := by
  unfold InstalledDatabase.addVariable
  split
  · cases Slot.parse value with
    | ok slot => exact hP.slot id slot h
    | error e => exact h
  · split
    · exact h
    · exact hP.variableKey h _ _

theorem contentsKeyIf {p : Prop} [Decidable p] {path : Path} (hpath : sources path) (h : P id) :
    P (if p then id.withKey (.contentsFile path) else id) := by
  split
  · refine hP.key id _ (fun p hsource => ?_) h
    cases hsource
    exact hpath
  · exact h

theorem timeKey (h : P id) (time? : Option Int) (name title : String) :
    P (match time? with
      | some seconds => id.withKey (.ofTime name title seconds)
      | none => id) := by
  cases time? with
  | none => exact h
  | some seconds => exact hP.key id _ (by intro p hsource; cases hsource) h

/-- What is kept and holds of an ID holds of it still once what is in the directory of an installed
package is added. -/
theorem ofInstalled {files : FileTree} {dir : Path} (hcontents : sources (dir / "CONTENTS"))
    (hactions : ∀ a ∈ Action.ofInstalled, allowed a = true) (hconfig : allowed .config = true)
    (h : P id) (hbuild : InstalledDatabase.buildId files dir id = .ok id') : P id' := by
  obtain ⟨names, -, hbuild⟩ := Result.bind_eq_ok_iff.mp hbuild
  cases hbuild
  have hvariables := List.foldlRecOn (motive := P) (InstalledDatabase.readVariables files dir names)
    (fun id v => InstalledDatabase.addVariable id v.1 v.2) h
    fun id h v _ => hP.addInstalledVariable h v.1 v.2
  have hinstalled := hP.actions _ Action.ofInstalled hactions (hP.timeKey
    (hP.contentsKeyIf (p := files.isFile (dir / "CONTENTS") = true) hcontents hvariables)
    (InstalledDatabase.installedTime? files dir) "INSTALLED_TIME" "Installed time")
  split
  · exact hP.actions _ _ (List.forall_mem_singleton.mpr hconfig) hinstalled
  · exact hinstalled

end Kept

end PackageId

end PackageCatalog
