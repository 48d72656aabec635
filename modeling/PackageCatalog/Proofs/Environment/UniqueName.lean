import Mathlib.Data.List.Find
import PackageCatalog.Query
import PackageCatalog.Proofs.Atom.Reading
import PackageCatalog.Proofs.Catalog
import PackageCatalog.Proofs.Query.Choosing
import PackageCatalog.Proofs.Query.Pruning
import PackageCatalog.Proofs.Repository.Announcing

/-!
# What a package name alone stands for

A package name alone stands for the full names that some repository lists; with a filter, only for
those of which it lets an ID through. If there is one such name it is the answer, and otherwise they
are told in order, each once (`Environment.Resolves`). Neither the order of the repositories nor
their importance matters (`Environment.Rearranges`).

A filter is not asked about the IDs of a repository that it skips. What belongs to its repository is
never skipped, but an ID that was put in ready-made may be (`Environment.loses_ready_name`).
-/

namespace PackageCatalog

open Text

/-! ## The names in question -/

def Repository.Lists (r : Repository) (name : QualifiedName) : Prop :=
  name.category ∈ r.categoryNames ∧ name ∈ r.packageNames name.category

namespace Environment

/-- The full names that a package name can stand for: those that some repository lists, and if there
is a filter, of which it lets some ID through. -/
def namesMeant (e : Environment) (p : PackageName) (filter? : Option Filter) :
    Set QualifiedName :=
  {q | q.package = p ∧ (∃ r ∈ e.catalog.repositories, r.Lists q) ∧
    ∀ f ∈ filter?, ∃ r ∈ e.catalog.repositories, ∃ id ∈ r.packageIds q, f.passes e r id = true}

/-- Those of them of which the filter lets an ID through in a repository that it does not skip. -/
def namesReached (e : Environment) (p : PackageName) (filter? : Option Filter) :
    Set QualifiedName :=
  {q ∈ e.namesMeant p filter? | ∀ f ∈ filter?, ∃ r ∈ e.catalog.repositories,
    f.mightPass r = true ∧ ∃ id ∈ r.packageIds q, f.passes e r id = true}

/-- The answer about a package name that can stand for some names: the only one, or else an error
that tells that there are none, or which ones. -/
structure Resolves (p : PackageName) (names : Set QualifiedName)
    (answer : Except Error QualifiedName) : Prop where
  unique : ∀ q, answer = .ok q ↔ names = {q}
  unknown : answer = .error (.noSuchPackage p.text) ↔ names = ∅
  ambiguous : names.Nontrivial → ∃ ordered, Sorted.Strict QualifiedName.compare ordered ∧
    {q | q ∈ ordered} = names ∧
    answer = .error (.ambiguousPackage p.text (ordered.map QualifiedName.text))

variable {e : Environment} {p : PackageName} {filter? : Option Filter} {q : QualifiedName}

theorem mem_qualifiedNames {c : Catalog} :
    q ∈ c.qualifiedNames p ↔ q.package = p ∧ ∃ r ∈ c.repositories, r.Lists q := by
  rw [Catalog.qualifiedNames, Sorted.mem_distinct, List.mem_flatMap]
  constructor
  · rintro ⟨r, hr, hq⟩
    obtain ⟨category, hcategory, rfl⟩ := List.mem_map.mp hq
    obtain ⟨hlisted, hany⟩ := List.mem_filter.mp hcategory
    obtain ⟨name, hname, hpackage⟩ := List.any_eq_true.mp hany
    have heq : name = ⟨category, p⟩ := by
      rw [← (PackageIndex.mem_packageNames_iff.mp hname).2, ← of_decide_eq_true hpackage]
    rw [heq] at hname
    exact ⟨rfl, r, hr, hlisted, hname⟩
  · rintro ⟨rfl, r, hr, hcategory, hname⟩
    refine ⟨r, hr, List.mem_map.mpr ⟨q.category, List.mem_filter.mpr ⟨hcategory, ?_⟩, rfl⟩⟩
    exact List.any_eq_true.mpr ⟨q, hname, decide_eq_true rfl⟩

theorem hasPassing_iff : e.hasPassing filter? q = true ↔ ∀ f ∈ filter?,
    ∃ r ∈ e.catalog.repositories, f.mightPass r = true ∧
      ∃ id ∈ r.packageIds q, f.passes e r id = true := by
  cases filter? with
  | none => exact iff_of_true rfl nofun
  | some f =>
    simp only [hasPassing, Option.mem_some_iff, forall_eq', Bool.not_eq_true',
      List.isEmpty_eq_false_iff_exists_mem, Query.mem_hits, List.mem_singleton, forall_eq,
      Scope.candidates]
    constructor
    · rintro ⟨hit, r, hr, hid, hmight, hpasses⟩
      exact ⟨r, List.mem_of_getElem? hr, hmight, hit.id, hid, hpasses⟩
    · rintro ⟨r, hr, hmight, id, hid, hpasses⟩
      obtain ⟨rank, hrank⟩ := List.getElem?_of_mem hr
      exact ⟨⟨rank, id⟩, r, hrank, hid, hmight, hpasses⟩

theorem mem_meanings : q ∈ e.meanings p filter? ↔ q ∈ e.namesReached p filter? := by
  rw [meanings, List.mem_filter, mem_qualifiedNames, hasPassing_iff]
  constructor
  · rintro ⟨⟨hpackage, hlisted⟩, hpassing⟩
    refine ⟨⟨hpackage, hlisted, fun f hf => ?_⟩, hpassing⟩
    obtain ⟨r, hr, -, hid⟩ := hpassing f hf
    exact ⟨r, hr, hid⟩
  · rintro ⟨⟨hpackage, hlisted, -⟩, hpassing⟩
    exact ⟨⟨hpackage, hlisted⟩, hpassing⟩

theorem strict_meanings : Sorted.Strict QualifiedName.compare (e.meanings p filter?) :=
  Sorted.strict_distinct.filter _

/-! ## The answer -/

theorem resolves_uniqueName :
    Resolves p (e.namesReached p filter?) (e.uniqueName p filter?) := by
  have hnames : e.namesReached p filter? = {q | q ∈ e.meanings p filter?} :=
    Set.ext fun q => mem_meanings.symm
  have hstrict : Sorted.Strict QualifiedName.compare (e.meanings p filter?) := strict_meanings
  rw [hnames, uniqueName]
  generalize e.meanings p filter? = ordered at hstrict ⊢
  rcases ordered with _ | ⟨a, _ | ⟨b, rest⟩⟩
  · have hempty : {q : QualifiedName | q ∈ []} = ∅ :=
      Set.eq_empty_of_forall_notMem fun _ => List.not_mem_nil
    rw [hempty]
    exact ⟨fun q => iff_of_false nofun (Set.singleton_ne_empty q).symm, iff_of_true rfl rfl,
      fun h => absurd h Set.not_nontrivial_empty⟩
  · have hsingle : {q | q ∈ [a]} = {a} := Set.ext fun _ => List.mem_singleton
    rw [hsingle]
    exact ⟨fun q => by rw [Set.singleton_eq_singleton_iff, Except.ok.injEq],
      iff_of_false nofun (Set.singleton_ne_empty a), fun h => absurd h Set.not_nontrivial_singleton⟩
  · have hseveral : {q | q ∈ a :: b :: rest}.Nontrivial := by
      refine ⟨a, List.mem_cons_self, b, List.mem_cons_of_mem a List.mem_cons_self, ?_⟩
      exact List.ne_of_not_mem_cons (List.nodup_cons.mp (Sorted.nodup_of_strict hstrict)).1
    refine ⟨fun q => iff_of_false nofun fun h => ?_, iff_of_false nofun hseveral.nonempty.ne_empty,
      fun _ => ⟨_, hstrict, rfl, rfl⟩⟩
    exact Set.not_nontrivial_singleton (h ▸ hseveral)

/-- An ID that belongs to its repository is not hidden from a filter that lets it through. -/
theorem namesReached_eq (h : ∀ r ∈ e.catalog.repositories, ∀ name, ∀ id ∈ r.packageIds name,
    id.Belongs r.name r.mightSupport) : e.namesReached p filter? = e.namesMeant p filter? := by
  refine Set.sep_eq_self_iff_mem_true.mpr fun q hq f hf => ?_
  obtain ⟨r, hr, id, hid, hpasses⟩ := hq.2.2 f hf
  exact ⟨r, hr, Filter.mightPass_of_passes (h r hr q id hid) hpasses, id, hid, hpasses⟩

theorem namesReached_none : e.namesReached p none = e.namesMeant p none :=
  Set.sep_eq_self_iff_mem_true.mpr fun _ _ _ hf => nomatch hf

/-! ## The order of the repositories -/

/-- Two environments with the same policy and repositories, in whatever order and of whatever
importance. A standalone environment has only one repository. -/
structure Rearranges (e e' : Environment) : Prop where
  policy : e'.policy = e.policy
  repositories : e'.catalog.repositories.Perm e.catalog.repositories
  names : e.catalog.names.Nodup
  standalone : ∀ location, e.policy = .standalone location → e.catalog.repositories.length ≤ 1

/-- Neither the order in which repositories are added nor their importance is the environment's. -/
theorem rearranges_of_perm {policy : Policy} {additions additions' : List (Int × Repository)}
    (hpolicy : ∀ location, policy ≠ .standalone location)
    (hdistinct : (additions.map (·.2.name)).Nodup)
    (hperm : (additions'.map Prod.snd).Perm (additions.map Prod.snd)) :
    Rearranges ⟨policy, Catalog.empty.takeAll additions⟩
      ⟨policy, Catalog.empty.takeAll additions'⟩ where
  policy := rfl
  repositories := by
    have hdistinct' : (additions'.map (·.2.name)).Nodup := by
      have hnames := hperm.map Repository.name
      rw [List.map_map, List.map_map] at hnames
      exact hnames.nodup_iff.mpr hdistinct
    exact (Catalog.repositories_takeAll_perm hdistinct').trans
      (hperm.trans (Catalog.repositories_takeAll_perm hdistinct).symm)
  names := Catalog.nodup_names_takeAll additions
  standalone location h := absurd h (hpolicy location)

namespace Rearranges

variable {e' : Environment} {r : Repository} {id : PackageId} {f : Filter}

theorem mem_iff (h : e.Rearranges e') :
    r ∈ e'.catalog.repositories ↔ r ∈ e.catalog.repositories := h.repositories.mem_iff

theorem owner?_eq (h : e.Rearranges e') (id : PackageId) : e'.owner? id = e.owner? id := by
  have hfind (c : Catalog) : (c.find? id.repository).map Prod.snd =
      c.repositories.find? (·.name = id.repository) := by
    rw [Catalog.find?, Catalog.repositories, List.find?_map]
    rfl
  rw [owner?, owner?, hfind, hfind]
  refine List.find?_eq_find?_of_perm h.repositories fun r hr s hs => ?_
  have hname : r.name = s.name := (of_decide_eq_true hr.2).trans (of_decide_eq_true hs.2).symm
  exact List.inj_on_of_nodup_map h.names (h.mem_iff.mp hr.1) (h.mem_iff.mp hs.1) hname

theorem main?_eq (h : e.Rearranges e') {location : Path}
    (hpolicy : e.policy = .standalone location) : e'.main? = e.main? := by
  have hlength := h.standalone location hpolicy
  have hperm := h.repositories
  rw [main?, main?]
  match e.catalog.repositories, hlength, hperm with
  | [], _, hperm => rw [hperm.eq_nil]
  | [r], _, hperm => rw [List.perm_singleton.mp hperm]

theorem acceptsKeywords_eq (h : e.Rearranges e') (keywords : List Keyword) (id : PackageId) :
    e'.acceptsKeywords keywords id = e.acceptsKeywords keywords id := by
  rw [acceptsKeywords, acceptsKeywords, h.policy]
  cases hpolicy : e.policy with
  | standalone location => rw [h.main?_eq hpolicy]
  | _ => rfl

theorem acceptsLicense_eq (h : e.Rearranges e') (license : String) (id : PackageId) :
    e'.acceptsLicense license id = e.acceptsLicense license id := by
  rw [acceptsLicense, acceptsLicense, h.policy]

theorem useState_eq (h : e.Rearranges e') (flag : UseFlag) (id : PackageId) :
    e'.useState flag id = e.useState flag id := by
  rw [useState, useState, repositoryUse, repositoryUse, fixesUse, fixesUse, h.policy,
    h.owner?_eq]

theorem repositoryMasks_eq (h : e.Rearranges e') (id : PackageId) :
    e'.repositoryMasks id = e.repositoryMasks id := by
  rw [repositoryMasks, repositoryMasks, userUnmasks, userUnmasks, h.policy]

theorem keywordMask?_eq (h : e.Rearranges e') (id : PackageId) :
    e'.keywordMask? id = e.keywordMask? id := by
  simp only [keywordMask?, h.acceptsKeywords_eq]

theorem licenseMask?_eq (h : e.Rearranges e') (id : PackageId) :
    e'.licenseMask? id = e.licenseMask? id := by
  simp only [licenseMask?, h.acceptsLicense_eq, h.useState_eq]

theorem isMasked_eq (h : e.Rearranges e') (id : PackageId) : e'.isMasked id = e.isMasked id := by
  rw [isMasked, isMasked, masks, masks, userMasks, userMasks, userUnmasks, userUnmasks,
    h.repositoryMasks_eq, h.keywordMask?_eq, h.licenseMask?_eq, h.policy]

theorem passes_eq (h : e.Rearranges e') : f.passes e' r id = f.passes e r id := by
  cases f with
  | notMasked => exact congrArg (!·) (h.isMasked_eq id)
  | _ => rfl

theorem uniqueName_eq (h : e.Rearranges e') (p : PackageName) (filter? : Option Filter) :
    e'.uniqueName p filter? = e.uniqueName p filter? := by
  have hmeanings : e'.meanings p filter? = e.meanings p filter? := by
    refine Sorted.eq_of_mem_iff strict_meanings strict_meanings fun q => ?_
    rw [mem_meanings, mem_meanings]
    simp only [namesReached, namesMeant, Set.mem_ofPred_eq, h.mem_iff, h.passes_eq]
  rw [uniqueName, uniqueName, hmeanings]

end Rearranges

/-! ## Atoms -/

/-- A text whose name is a package name alone is read with the name that it stands for. -/
theorem parseAtom_of_package {a : Atom} {input : String} (hslot : ∀ s ∈ a.slot?, Atom.IsSlot s)
    (htext : trim input = a.textOver p.text) :
    e.parseAtom input = (e.uniqueName p none).map fun q => { a with name := .exact q } := by
  rw [parseAtom, Atom.parseWith_textOver (Atom.isSpelling_package p) hslot htext,
    Atom.parseName_package input rfl]
  cases e.uniqueName p none <;> rfl

/-- A package name is resolved to the only name that it can stand for, or the names are told; as it
is resolved, so are the atoms that leave out the category. The names are all that can be meant, if
what the repositories hold belongs to them or there is no filter. -/
theorem only_name_or_told (e : Environment) (p : PackageName) (filter? : Option Filter) :
    Resolves p (e.namesReached p filter?) (e.uniqueName p filter?) ∧
    (filter? = none ∨ (∀ r ∈ e.catalog.repositories, ∀ name, ∀ id ∈ r.packageIds name,
        id.Belongs r.name r.mightSupport) →
      Resolves p (e.namesMeant p filter?) (e.uniqueName p filter?)) ∧
    (∀ e', e.Rearranges e' → e'.uniqueName p filter? = e.uniqueName p filter?) ∧
    ∀ (a : Atom) (input : String), (∀ s ∈ a.slot?, Atom.IsSlot s) →
      trim input = a.textOver p.text →
      e.parseAtom input = (e.uniqueName p none).map fun q => { a with name := .exact q } := by
  refine ⟨resolves_uniqueName, fun h => ?_, fun e' h => h.uniqueName_eq p filter?,
    fun a input hslot htext => parseAtom_of_package hslot htext⟩
  have hall : e.namesReached p filter? = e.namesMeant p filter? := by
    rcases h with rfl | hbelongs
    · exact namesReached_none
    · exact namesReached_eq hbelongs
  exact hall ▸ resolves_uniqueName

def kit : PackageName := (PackageId.sample (.numbered 1 [] none)).name.package

def appKit : QualifiedName := (PackageId.sample (.numbered 1 [] none)).name

def libKit : QualifiedName := ⟨⟨"lib", by decide +kernel⟩, kit⟩

/-- Of two packages of one name neither is chosen, whichever repository comes first. -/
theorem told_of_shelves : ∃ low high : Repository,
    Query.shelf "low" false ["app/kit"] = .ok low ∧
    Query.shelf "high" false ["app/kit", "lib/kit"] = .ok high ∧
    let e : Environment := ⟨.test, Catalog.empty.takeAll [(0, low), (5, high)]⟩
    let e' : Environment := ⟨.test, Catalog.empty.takeAll [(5, low), (0, high)]⟩
    Resolves kit (e.namesMeant kit (some (.supports .install)))
      (e.uniqueName kit (some (.supports .install))) ∧
    e.uniqueName kit none = .error (.ambiguousPackage "kit" ["app/kit", "lib/kit"]) ∧
    e'.uniqueName kit none = .error (.ambiguousPackage "kit" ["app/kit", "lib/kit"]) ∧
    e.parseAtom " ~kit-2:0\n" = .error (.ambiguousPackage "kit" ["app/kit", "lib/kit"]) := by
  obtain ⟨low, hlow, hlowLoaded⟩ := Query.exists_shelf
    (show (Query.shelf "low" false ["app/kit"]).toOption.isSome = true by decide +kernel)
  obtain ⟨high, hhigh, hhighLoaded⟩ := Query.exists_shelf
    (show (Query.shelf "high" false ["app/kit", "lib/kit"]).toOption.isSome = true by
      decide +kernel)
  refine ⟨low, high, hlow, hhigh, ?_⟩
  intro e e'
  have hbelongs : ∀ r ∈ e.catalog.repositories, ∀ name, ∀ id ∈ r.packageIds name,
      id.Belongs r.name r.mightSupport := by
    have hloaded : ∀ r ∈ [low, high], r.Loaded :=
      List.forall_mem_cons.mpr ⟨hlowLoaded, List.forall_mem_singleton.mpr hhighLoaded⟩
    intro r hr name id hid
    exact ((hloaded r (Catalog.mem_additions_of_mem hr)).consistent.of_mem_packageIds hid).2
  have hdistinct : low.name ≠ high.name := by
    apply of_decide_eq_false
    apply Result.eq_of_both hlow hhigh
    decide +kernel
  have hrearranges : e.Rearranges e' :=
    rearranges_of_perm (fun _ h => by cases h)
      (List.nodup_cons.mpr ⟨mt List.mem_singleton.mp hdistinct, List.nodup_singleton _⟩) (.refl _)
  have htold : e.uniqueName kit none = .error (.ambiguousPackage "kit" ["app/kit", "lib/kit"]) := by
    have hlisted : ((Catalog.empty.takeAll [(0, low), (5, high)]).repositories.flatMap fun r =>
        (r.categoriesContaining kit).map (QualifiedName.mk · kit)) = [appKit, libKit, appKit] := by
      apply Result.eq_of_both hlow hhigh
      decide +kernel
    have hnames : e.catalog.qualifiedNames kit = [appKit, libKit] := by
      refine Sorted.eq_of_mem_iff Sorted.strict_distinct (by decide +kernel) fun q => ?_
      rw [Catalog.qualifiedNames, Sorted.mem_distinct, hlisted]
      grind
    rw [uniqueName, meanings, hnames]
    rfl
  have hslot : ∀ s ∈ Atom.slottedKit.slot?, Atom.IsSlot s := by
    rintro _ ⟨⟩
    exact ⟨by decide, by rintro _ ⟨⟩⟩
  have htext : trim " ~kit-2:0\n" = Atom.slottedKit.textOver kit.text := by decide +kernel
  obtain ⟨-, hmeant, -, -⟩ := only_name_or_told e kit (some (.supports .install))
  obtain ⟨-, -, hany, hread⟩ := only_name_or_told e kit none
  refine ⟨hmeant (.inr hbelongs), htold, (hany e' hrearranges).trans htold, ?_⟩
  rw [hread Atom.slottedKit _ hslot htext, htold]
  rfl

/-- A name of which the only ID was put in ready-made is lost, if the filter is for an action that
its repository does not announce. -/
theorem loses_ready_name :
    let e : Environment := ⟨.test, Catalog.empty.takeAll [(0, Query.kitShelf [.config])]⟩
    Repository.Reached [Query.readyKit [.config]] (Query.kitShelf [.config]) ∧
    e.namesMeant kit (some (.supports .config)) = {(Query.readyKit [.config]).name} ∧
    e.uniqueName kit (some (.supports .config)) = .error (.noSuchPackage "kit") := by
  intro e
  have hnames : (Query.kitShelf [.config]).index.packages.map Prod.fst =
      [(Query.readyKit [.config]).name] := rfl
  have hlists {q : QualifiedName} (h : (Query.kitShelf [.config]).Lists q) :
      q = (Query.readyKit [.config]).name := by
    have hq := (PackageIndex.mem_packageNames_iff.mp h.2).1
    rw [hnames] at hq
    exact List.mem_singleton.mp hq
  have hmeanings : e.meanings kit (some (.supports .config)) = [] := by decide +kernel
  refine ⟨Query.reached_kitShelf _, Set.ext fun q => ⟨?_, ?_⟩, by rw [uniqueName, hmeanings]; rfl⟩
  · rintro ⟨-, ⟨r, hr, hlisted⟩, -⟩
    cases List.mem_singleton.mp hr
    exact hlists hlisted
  · rintro rfl
    refine ⟨by decide +kernel, ⟨_, List.mem_singleton_self _, ?_⟩, ?_⟩
    · exact ⟨List.mem_singleton_self _,
        PackageIndex.mem_packageNames_iff.mpr ⟨hnames ▸ List.mem_singleton_self _, rfl⟩⟩
    · rintro _ ⟨⟩
      exact ⟨_, List.mem_singleton_self _, Query.readyKit [.config], List.mem_singleton_self _,
        by decide +kernel⟩

end Environment

end PackageCatalog
