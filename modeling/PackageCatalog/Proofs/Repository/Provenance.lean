import PackageCatalog.Proofs.Repository.Building
import PackageCatalog.Proofs.Repository.Index
import PackageCatalog.Proofs.Repository.Opening
import PackageCatalog.Repository.Manual

/-!
# Where package IDs come from

`Repository.Loaded`: the repository was opened or filled by the operations of the library.
Every such repository is consistent: its index is well formed, and its IDs carry its name and
support only what the repository announces (`Loaded.consistent`). A bare ID is decorated with slots,
keys and masks, none of which matters here (`PackageId.Decorates`), so that the loaders keep what
holds of it (`PackageId.kept_belongs`).
-/

namespace PackageCatalog

namespace PackageId

/-! ## Decorations -/

/-- The first ID is the second but for its slot, keys and masks. -/
structure Decorates (id' id : PackageId) : Prop where
  name : id'.name = id.name
  repository : id'.repository = id.repository
  actions : id'.actions = id.actions

variable {id id' : PackageId}

theorem Decorates.refl (id : PackageId) : id.Decorates id := ⟨rfl, rfl, rfl⟩

theorem Decorates.withSlot (h : id'.Decorates id) (slot : Slot) :
    (id'.withSlot slot).Decorates id := ⟨h.name, h.repository, h.actions⟩

theorem Decorates.withKey (h : id'.Decorates id) (key : Metadata.Key) :
    (id'.withKey key).Decorates id := ⟨h.name, h.repository, h.actions⟩

theorem Decorates.withMask (h : id'.Decorates id) (mask : Mask) :
    (id'.withMask mask).Decorates id := ⟨h.name, h.repository, h.actions⟩

/-! ## Actions -/

theorem mem_addAction {actions : List Action} {a b : Action} :
    a ∈ addAction actions b ↔ a ∈ actions ∨ a = b := by
  unfold addAction
  split
  · next h =>
    refine ⟨.inl, fun hab => hab.elim id fun hab => ?_⟩
    rw [hab]
    exact List.contains_iff_mem.mp h
  · rw [List.mem_append, List.mem_singleton]

theorem supports_withActions {more : List Action} {a : Action} :
    (id.withActions more).supports a = true ↔ id.supports a = true ∨ a ∈ more := by
  unfold withActions supports
  rw [List.contains_iff_mem, List.contains_iff_mem]
  dsimp only
  generalize id.actions = actions
  induction more generalizing actions with
  | nil => simp only [List.foldl_nil, List.not_mem_nil, or_false]
  | cons b more ih => rw [List.foldl_cons, ih, mem_addAction, List.mem_cons, or_assoc]

/-- The ID is in the repository of that name and supports only what `announced` allows. -/
structure Belongs (repository : RepositoryName) (announced : Action → Bool) (id : PackageId) :
    Prop where
  repository : id.repository = repository
  announced : ∀ a, id.supports a = true → announced a = true

theorem Belongs.of_decorates {repository : RepositoryName} {announced : Action → Bool}
    (h : id.Belongs repository announced) (hdecorates : id'.Decorates id) :
    id'.Belongs repository announced where
  repository := hdecorates.repository.trans h.repository
  announced a ha := by
    unfold supports at ha
    rw [hdecorates.actions] at ha
    exact h.announced a ha

theorem belongs_bare {name : QualifiedName} {v : Version} {repository : RepositoryName}
    {announced : Action → Bool} : (bare name v repository).Belongs repository announced :=
  ⟨rfl, fun _ h => by cases h⟩

theorem Belongs.withActions {repository : RepositoryName} {announced : Action → Bool}
    (h : id.Belongs repository announced) {more : List Action}
    (hmore : ∀ a ∈ more, announced a = true) :
    (id.withActions more).Belongs repository announced where
  repository := h.repository
  announced a ha := (supports_withActions.mp ha).elim (h.announced a) (hmore a)

theorem kept_belongs (sources : Path → Prop) (repository : RepositoryName)
    (announced : Action → Bool) : Kept sources announced (Belongs repository announced) where
  slot id slot h := h.of_decorates ((Decorates.refl id).withSlot slot)
  mask id mask h := h.of_decorates ((Decorates.refl id).withMask mask)
  actions _ _ hmore h := h.withActions hmore
  key id key _ h := h.of_decorates ((Decorates.refl id).withKey key)

end PackageId

open PackageId

/-! ## Ebuild repositories -/

namespace EbuildTree

variable {s : Source} {files : FileTree}

theorem Source.belongs_buildId (name : QualifiedName) (v : Version) :
    (s.buildId files name v).Belongs s.repository Action.ofEbuilds.contains :=
  (kept_belongs (fun _ => False) _ _).ofEbuild (fun _ ha => List.contains_iff_mem.mpr ha)
    belongs_bare files

section wellFormed

variable {P : PackageId → Prop} {index index' : PackageIndex}

theorem Source.wellFormed_addPackage (hP : ∀ name v, P (s.buildId files name v))
    (h : index.WellFormed P) {c : CategoryName} {dirName : String}
    (hadd : s.addPackage files c index dirName = .ok index') : index'.WellFormed P := by
  unfold Source.addPackage at hadd
  dsimp only at hadd
  split at hadd
  · split at hadd
    · cases hadd
      exact h
    · obtain ⟨versions, -, hadd⟩ := Result.bind_eq_ok_iff.mp hadd
      cases hadd
      exact List.foldlRecOn versions _ h fun _ h v _ => h.insert (hP _ v)
  · cases hadd
    exact h

theorem Source.wellFormed_addCategory (hP : ∀ name v, P (s.buildId files name v))
    (h : index.WellFormed P) {c : CategoryName}
    (hadd : s.addCategory files index c = .ok index') : index'.WellFormed P := by
  obtain ⟨names, -, hadd⟩ := Result.bind_eq_ok_iff.mp hadd
  exact Result.foldlM_keeps (fun _ _ _ _ h hadd => wellFormed_addPackage hP h hadd) h hadd

/-- What holds of every ID that can be built holds of those in the index. -/
theorem Source.wellFormed_index (hP : ∀ name v, P (s.buildId files name v))
    (h : s.index files = .ok index) : index.WellFormed P := by
  obtain ⟨categories, -, hfold⟩ := Result.bind_eq_ok_iff.mp h
  exact Result.foldlM_keeps (fun _ _ _ _ h hadd => wellFormed_addCategory hP h hadd)
    PackageIndex.wellFormed_empty hfold

end wellFormed

/-- What holds of the index of an ebuild repository. -/
abbrev Source.Indexes (s : Source) (index : PackageIndex) : Prop :=
  index.WellFormed (Belongs s.repository Action.ofEbuilds.contains)

theorem Source.indexes {index : PackageIndex} (h : s.index files = .ok index) :
    s.Indexes index :=
  wellFormed_index Source.belongs_buildId h

end EbuildTree

/-! ## Installed packages -/

namespace InstalledDatabase

def announces (a : Action) : Bool := Action.ofInstalled.contains a || a = .config

theorem announces_of_mem {a : Action} (h : a ∈ Action.ofInstalled) : announces a = true := by
  rw [announces, List.contains_iff_mem.mpr h, Bool.true_or]

theorem announces_config : ∀ a ∈ [Action.config], announces a = true := by
  intro a h
  rw [List.mem_singleton.mp h]
  rfl

variable {files : FileTree} {dir : Path} {options : InstalledOptions}

theorem belongs_of_buildId {id id' : PackageId} {repository : RepositoryName}
    (h : id.Belongs repository announces) (hbuild : buildId files dir id = .ok id') :
    id'.Belongs repository announces :=
  (kept_belongs (fun _ => True) _ _).ofInstalled trivial (fun _ => announces_of_mem) rfl h hbuild

/-- What holds of the index of a database as it is filled. -/
abbrev Indexes (options : InstalledOptions) (index : PackageIndex) : Prop :=
  index.WellFormed (Belongs options.name announces)

theorem Indexes.addEntry {index : PackageIndex} (h : Indexes options index) (c : CategoryName)
    (entry : String) : Indexes options (addEntry files options.name c dir index entry) := by
  unfold InstalledDatabase.addEntry
  split
  · split
    · exact h
    · split
      · next hbuild => exact h.insert (belongs_of_buildId belongs_bare hbuild)
      · exact h
  · exact h

theorem Indexes.addCategory {index index' : PackageIndex} {name : String}
    (h : Indexes options index) (hadd : addCategory files options index name = .ok index') :
    Indexes options index' := by
  unfold InstalledDatabase.addCategory at hadd
  dsimp only at hadd
  split at hadd
  · split at hadd
    · cases hadd
      exact h
    · obtain ⟨entries, -, hadd⟩ := Result.bind_eq_ok_iff.mp hadd
      cases hadd
      exact List.foldlRecOn entries _ h fun _ h entry _ => h.addEntry _ entry
  · cases hadd
    exact h

theorem indexes {found : PackageIndex} (h : index files options = .ok found) :
    Indexes options found := by
  obtain ⟨names, -, hfold⟩ := Result.bind_eq_ok_iff.mp h
  exact Result.foldlM_keeps (fun _ _ _ _ h hadd => h.addCategory hadd)
    PackageIndex.wellFormed_empty hfold

end InstalledDatabase

namespace Repository

/-! ## All kinds -/

/-- The repository was filled by hand, one step after the other. -/
inductive Filled : Repository → Prop
  | manual {name : String} {installed : Bool} {r : Repository} :
      manual name installed = .ok r → Filled r
  | addCategory {r r' : Repository} {category : String} {c : CategoryName} :
      Filled r → r.addCategory category = .ok (c, r') → Filled r'
  | addPackage {r r' : Repository} {text : String} {name : QualifiedName} :
      Filled r → r.addPackage text = .ok (name, r') → Filled r'
  | addVersion {r r' : Repository} {name version : String} {id : PackageId} :
      Filled r → r.addVersion name version = .ok (id, r') → Filled r'
  | addVersionOfParts {r r' : Repository} {category package version : String} {id : PackageId} :
      Filled r → r.addVersionOfParts category package version = .ok (id, r') → Filled r'

/-- The repository was opened, switched to other profiles perhaps, or filled by hand. -/
inductive Loaded : Repository → Prop
  | ebuilds {files : FileTree} {options : EbuildOptions} {r : Repository} :
      openEbuilds files options = .ok r → Loaded r
  | switched {files : FileTree} {path : Path} {tree : EbuildTree} {r r' : Repository} :
      Loaded r → r.tree? = some tree → r.setProfile files tree path = .ok r' → Loaded r'
  | installed {files : FileTree} {options : InstalledOptions} {r : Repository} :
      openInstalled files options = .ok r → Loaded r
  | filled {r : Repository} : Filled r → Loaded r

/-- The index is well formed, and its IDs carry the name of the repository and support only
what it announces. -/
def Consistent (r : Repository) : Prop :=
  r.index.WellFormed (Belongs r.name r.mightSupport)

variable {r r' : Repository} {files : FileTree}

theorem consistent_of_openEbuilds {options : EbuildOptions}
    (h : openEbuilds files options = .ok r) : r.Consistent := by
  obtain ⟨tree, hopened⟩ := exists_opened h
  have hindexes := EbuildTree.Source.indexes hopened.index
  unfold Consistent mightSupport
  rw [hopened.kind]
  exact hindexes

theorem consistent_of_setProfile {tree : EbuildTree} {path : Path}
    (hset : r.setProfile files tree path = .ok r') : r'.Consistent := by
  obtain ⟨profile, -, hset⟩ := Result.bind_eq_ok_iff.mp hset
  obtain ⟨index, hindex, hset⟩ := Result.bind_eq_ok_iff.mp hset
  cases hset
  exact EbuildTree.Source.indexes hindex

theorem consistent_of_openInstalled {options : InstalledOptions}
    (h : openInstalled files options = .ok r) : r.Consistent := by
  unfold openInstalled at h
  split at h
  · cases h
  · obtain ⟨index, hindex, h⟩ := Result.bind_eq_ok_iff.mp h
    cases h
    exact InstalledDatabase.indexes hindex

theorem belongs_defaultId {installed : Bool} (hkind : r.kind = .manual installed)
    (name : QualifiedName) (v : Version) :
    (r.defaultId name v).Belongs r.name r.mightSupport := by
  obtain ⟨repositoryName, keys, index, kind⟩ := r
  cases hkind
  have hslotted {announced : Action → Bool} :
      ((bare name v repositoryName).withSlot ⟨"0", none⟩).Belongs repositoryName announced :=
    belongs_bare.of_decorates ((Decorates.refl _).withSlot _)
  cases installed with
  | true =>
    refine (hslotted.withActions fun _ h => ?_).withActions ?_
    · exact InstalledDatabase.announces_of_mem h
    · exact InstalledDatabase.announces_config
  | false =>
    refine (hslotted.of_decorates ?_).withActions fun _ h => List.contains_iff_mem.mpr h
    exact ((Decorates.refl _).withKey _).withKey _

theorem Consistent.addDefault {installed : Bool} {name : QualifiedName} {version : String}
    {id : PackageId} (hkind : r.kind = .manual installed) (h : r.Consistent)
    (hadd : r.addDefault name version = .ok (id, r')) :
    r'.Consistent ∧ r'.kind = .manual installed := by
  obtain ⟨v, -, hadd⟩ := Result.bind_eq_ok_iff.mp hadd
  cases hadd
  exact ⟨PackageIndex.WellFormed.insert h (belongs_defaultId hkind name v), hkind⟩

theorem Filled.consistent (h : r.Filled) : r.Consistent ∧ ∃ installed, r.kind = .manual installed := by
  induction h with
  | manual h =>
    obtain ⟨name, -, h⟩ := Result.bind_eq_ok_iff.mp h
    cases h
    exact ⟨PackageIndex.wellFormed_empty, _, rfl⟩
  | addCategory _ hadd ih =>
    obtain ⟨_, -, hadd⟩ := Result.bind_eq_ok_iff.mp hadd
    cases hadd
    exact ⟨PackageIndex.WellFormed.addCategory ih.1 _, ih.2⟩
  | addPackage _ hadd ih =>
    obtain ⟨_, -, hadd⟩ := Result.bind_eq_ok_iff.mp hadd
    cases hadd
    exact ⟨PackageIndex.WellFormed.addPackage ih.1 _, ih.2⟩
  | addVersion _ hadd ih =>
    obtain ⟨name, -, hadd⟩ := Result.bind_eq_ok_iff.mp hadd
    obtain ⟨installed, hkind⟩ := ih.2
    exact (ih.1.addDefault hkind hadd).imp_right fun h => ⟨installed, h⟩
  | addVersionOfParts _ hadd ih =>
    obtain ⟨name, -, hadd⟩ := Result.bind_eq_ok_iff.mp hadd
    obtain ⟨installed, hkind⟩ := ih.2
    exact (ih.1.addDefault hkind hadd).imp_right fun h => ⟨installed, h⟩

/-- Whatever way a repository came about, it is consistent. -/
theorem Loaded.consistent (h : r.Loaded) : r.Consistent := by
  induction h with
  | ebuilds h => exact consistent_of_openEbuilds h
  | switched _ _ hset _ => exact consistent_of_setProfile hset
  | installed h => exact consistent_of_openInstalled h
  | filled h => exact h.consistent.1

end Repository

end PackageCatalog
