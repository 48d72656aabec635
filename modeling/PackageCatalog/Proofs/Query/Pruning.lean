import Mathlib.Data.List.Basic
import PackageCatalog.Proofs.Repository.Provenance
import PackageCatalog.Query

/-!
# Skipping repositories is sound

A query leaves out whole repositories, and looks up a name instead of walking all IDs. Neither
loses or adds a hit: what it finds is what going through every ID of every repository would
find (`hits_eq_unpruned`).
-/

namespace PackageCatalog

open PackageId

variable {r : Repository} {id : PackageId}

def Scope.denotes (r : Repository) (id : PackageId) : Scope → Bool
  | .all => true
  | .category c => id.name.category = c
  | .package name => id.name = name
  | .repository name => r.name = name
  | .matching a => a.describes id

namespace Atom

variable {a : Atom}

theorem name_of_describes {name : QualifiedName} (hname : a.packageName? = some name)
    (h : a.describes id = true) : id.name = name := by
  simp only [describes, Bool.and_eq_true] at h
  have hadmits := h.1.1.1
  unfold packageName? at hname
  cases hpattern : a.name with
  | exact n =>
    rw [hpattern] at hname hadmits
    cases hname
    exact (eq_of_beq hadmits).symm
  | category c =>
    rw [hpattern] at hname
    cases hname
  | package p =>
    rw [hpattern] at hname
    cases hname
  | any =>
    rw [hpattern] at hname
    cases hname

theorem repository_of_describes {name : RepositoryName} (hname : a.repository? = some name)
    (h : a.describes id = true) : name = id.repository := by
  simp only [describes, Bool.and_eq_true, hname, Option.all_some, decide_eq_true_eq] at h
  exact h.2

end Atom

/-- The candidates of a scope are the IDs that it denotes. -/
theorem Scope.candidates_eq (h : r.Consistent) (scope : Scope) :
    scope.candidates r = r.ids.filter (scope.denotes r ·) := by
  cases scope with
  | all => exact (List.filter_eq_self.mpr fun _ _ => rfl).symm
  | category c => exact (Repository.filter_category h c).symm
  | package name => exact (Repository.filter_name h name).symm
  | repository name =>
    simp only [candidates, denotes]
    by_cases hname : r.name = name
    · rw [if_pos hname, decide_eq_true hname]
      exact (List.filter_eq_self.mpr fun _ _ => rfl).symm
    · rw [if_neg hname, decide_eq_false hname]
      exact (List.filter_eq_nil_iff.mpr fun _ _ => Bool.false_ne_true).symm
  | matching a =>
    simp only [candidates, denotes]
    split
    · next helsewhere =>
      -- an atom that names another repository describes none of the IDs of this one
      refine (List.filter_eq_nil_iff.mpr fun id hid hdescribes => ?_).symm
      cases hrepository : a.repository? with
      | none =>
        rw [hrepository] at helsewhere
        cases helsewhere
      | some name =>
        rw [hrepository, Option.any_some, bne_iff_ne] at helsewhere
        have howner := a.repository_of_describes hrepository hdescribes
        exact helsewhere (howner.trans (Repository.of_mem_ids h hid).repository)
    · split
      · next name hname =>
        rw [← Repository.filter_name h name, List.filter_filter]
        refine List.filter_congr fun id _ => ?_
        cases hdescribes : a.describes id with
        | false => rfl
        | true => exact decide_eq_true (a.name_of_describes hname hdescribes)
      · rfl

namespace Filter

/-- A filter that lets an ID of a repository through might do so. -/
theorem mightPass_of_passes {e : Environment} {f : Filter} (h : id.Belongs r.name r.mightSupport)
    (hpasses : f.passes e r id = true) : f.mightPass r = true := by
  cases f with
  | supports a => exact h.announced a hpasses
  | notMasked => rfl
  | installedAt root =>
    unfold passes isRootOf at hpasses
    unfold mightPass
    cases hroot : r.installedRoot? with
    | none =>
      rw [hroot] at hpasses
      cases hpasses
    | some key => rfl
  | inRepository name =>
    have hname : id.repository = name := of_decide_eq_true hpasses
    exact decide_eq_true (h.repository.symm.trans hname)

end Filter

namespace Query

theorem hitsIn_eq (e : Environment) (q : Query) (h : r.Consistent) (rank : Nat) :
    q.hitsIn e r rank =
      (r.ids.filter fun id => q.scope.denotes r id && q.filters.all (·.passes e r id)).map
        (⟨rank, ·⟩) := by
  have hall : (r.ids.filter fun id => q.scope.denotes r id && q.filters.all (·.passes e r id)) =
      (q.scope.candidates r).filter fun id => q.filters.all (·.passes e r id) := by
    rw [Scope.candidates_eq h, List.filter_filter]
    exact List.filter_congr fun _ _ => Bool.and_comm _ _
  rw [hall]
  unfold hitsIn
  split
  · rfl
  · next hskipped =>
    -- an ID that every filter let through would have kept the repository from being skipped
    have hnone : ∀ id ∈ q.scope.candidates r, ¬ q.filters.all (·.passes e r id) = true := by
      intro id hid hpasses
      rw [Scope.candidates_eq h] at hid
      have hbelongs := Repository.of_mem_ids h (List.mem_filter.mp hid).1
      refine hskipped (List.all_eq_true.mpr fun f hf => ?_)
      exact Filter.mightPass_of_passes hbelongs (List.all_eq_true.mp hpasses f hf)
    rw [List.filter_eq_nil_iff.mpr hnone]
    rfl

/-- A query finds what going through all IDs would find, in the same order and with the same
ranks. -/
theorem hits_eq_unpruned (e : Environment) (q : Query)
    (h : ∀ r ∈ e.catalog.repositories, r.Loaded) :
    q.hits e = e.catalog.repositories.zipIdx.flatMap fun (r, rank) =>
      (r.ids.filter fun id => q.scope.denotes r id && q.filters.all (·.passes e r id)).map
        (⟨rank, ·⟩) := by
  refine List.flatMap_congr fun (r, rank) hmem => ?_
  exact hitsIn_eq e q (h r (List.fst_mem_of_mem_zipIdx hmem)).consistent rank

def shelf (name : String) (installed : Bool) (packages : List String) :
    Except Error Repository := do
  let empty ← Repository.manual name installed
  packages.foldlM (fun r package => do return (← r.addVersion package "1.0").2) empty

theorem loaded_shelf {name : String} {installed : Bool} {packages : List String}
    (h : shelf name installed packages = .ok r) : r.Loaded := by
  obtain ⟨empty, hempty, hfold⟩ := Result.bind_eq_ok_iff.mp h
  refine .filled (Result.foldlM_keeps (fun r package r' _ hr hadd => ?_) (.manual hempty) hfold)
  obtain ⟨⟨id, added⟩, hadded, hadd⟩ := Result.bind_eq_ok_iff.mp hadd
  cases hadd
  exact hr.addVersion hadded

theorem exists_shelf {name : String} {installed : Bool} {packages : List String}
    (h : (shelf name installed packages).toOption.isSome = true) :
    ∃ r, shelf name installed packages = .ok r ∧ r.Loaded := by
  obtain ⟨r, hr⟩ := Result.exists_ok_of_isSome h
  exact ⟨r, hr, loaded_shelf hr⟩

/-- What can be installed: the installed packages are skipped, but keep their rank. -/
theorem hits_installable : ∃ installed main : Repository,
    shelf "installed" true ["app/kit"] = .ok installed ∧
    shelf "main" false ["lib/box", "app/kit", "app/bag"] = .ok main ∧
    (∀ r ∈ [installed, main], r.Loaded) ∧
    ((Query.mk .all .all [.supports .install]).hits ⟨.test, ⟨[(1, installed), (0, main)]⟩⟩).map
        (fun hit => (hit.rank, hit.id.text)) =
      [(1, "app/bag-1.0:0::main"), (1, "app/kit-1.0:0::main"), (1, "lib/box-1.0:0::main")] := by
  obtain ⟨installed, hinstalled⟩ := Result.exists_ok_of_isSome
    (show (shelf "installed" true ["app/kit"]).toOption.isSome = true by decide +kernel)
  obtain ⟨main, hmain⟩ := Result.exists_ok_of_isSome
    (show (shelf "main" false ["lib/box", "app/kit", "app/bag"]).toOption.isSome = true by
      decide +kernel)
  have hloaded : ∀ r ∈ [installed, main], r.Loaded :=
    List.forall_mem_cons.mpr ⟨loaded_shelf hinstalled,
      List.forall_mem_singleton.mpr (loaded_shelf hmain)⟩
  refine ⟨installed, main, hinstalled, hmain, hloaded, ?_⟩
  rw [hits_eq_unpruned ⟨.test, ⟨[(1, installed), (0, main)]⟩⟩ _ hloaded]
  have hvalue : ([installed, main].zipIdx.flatMap fun (r, rank) =>
      (r.ids.filter fun id => Scope.all.denotes r id && id.supports .install).map fun id =>
        (rank, id.text)) =
      [(1, "app/bag-1.0:0::main"), (1, "app/kit-1.0:0::main"), (1, "lib/box-1.0:0::main")] := by
    apply Result.eq_of_both hinstalled hmain
    decide +kernel
  rw [← hvalue, List.map_flatMap]
  refine List.flatMap_congr fun (r, rank) _ => ?_
  rw [List.map_map]
  simp only [List.all_cons, List.all_nil, Bool.and_true]
  rfl

end Query

end PackageCatalog
