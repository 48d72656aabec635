import Mathlib.Data.List.Basic
import Mathlib.Data.List.Flatten
import PackageCatalog.Proofs.Expression.RoundTrip

/-!
# What decides an expression

The active leaves of a tree are some of its leaves, in the order in which they are written. They
alone decide whether the tree is satisfied: accepting more of them satisfies no fewer trees, and
accepting all of them satisfies the tree. Without `|| ( … )` groups it takes all of them
(`decided_by_active_leaves`).
-/

namespace PackageCatalog.Expression

variable {α : Type} {children es : List (Expression α)} {enabled : UseFlag → Bool}
  {accept accept' : α → Bool} {flag : UseFlag} {negated : Bool} {a : α}

/-! ## Induction over trees -/

/-- What holds of a group if it holds of its members holds of every tree. -/
@[elab_as_elim, induction_eliminator]
theorem induct {motive : Expression α → Prop} (leaf : ∀ a, motive (.leaf a))
    (all : ∀ children, (∀ e ∈ children, motive e) → motive (.all children))
    (any : ∀ children, (∀ e ∈ children, motive e) → motive (.any children))
    (when : ∀ flag negated children, (∀ e ∈ children, motive e) →
      motive (.when flag negated children)) (e : Expression α) : motive e :=
  @Expression.rec α motive (fun es => ∀ e ∈ es, motive e) leaf all any when
    (fun _ h => absurd h List.not_mem_nil) (fun _ _ he hes => List.forall_mem_cons.mpr ⟨he, hes⟩) e

/-! ## Walks over the members of a group -/

theorem leavesOf_eq (es : List (Expression α)) : leavesOf es = es.flatMap leaves := by
  induction es with
  | nil => rfl
  | cons e es ih => rw [leavesOf, ih, List.flatMap_cons]

theorem tokensOf_eq (es : List (Expression α)) : tokensOf es = es.flatMap tokens := by
  induction es with
  | nil => rfl
  | cons e es ih => rw [tokensOf, ih, List.flatMap_cons]

theorem activeLeavesOf_eq (enabled : UseFlag → Bool) (es : List (Expression α)) :
    activeLeavesOf enabled es = es.flatMap (activeLeaves enabled) := by
  induction es with
  | nil => rfl
  | cons e es ih => rw [activeLeavesOf, ih, List.flatMap_cons]

theorem evaluateAll_eq_true_iff :
    evaluateAll enabled accept es = true ↔ ∀ e ∈ es, e.evaluate enabled accept = true := by
  induction es with
  | nil => simp [evaluateAll]
  | cons e es ih => simp [evaluateAll, ih]

theorem evaluateAny_eq_true_iff :
    evaluateAny enabled accept es = true ↔ ∃ e ∈ es, e.evaluate enabled accept = true := by
  induction es with
  | nil => simp [evaluateAny]
  | cons e es ih => simp [evaluateAny, ih]

/-! ## Satisfied groups -/

@[simp] theorem evaluate_all_iff : (all children).evaluate enabled accept = true ↔
    ∀ e ∈ children, e.evaluate enabled accept = true := evaluateAll_eq_true_iff

@[simp] theorem evaluate_any_iff : (any children).evaluate enabled accept = true ↔
    children = [] ∨ ∃ e ∈ children, e.evaluate enabled accept = true := by
  rw [evaluate, Bool.or_eq_true, List.isEmpty_iff, evaluateAny_eq_true_iff]

@[simp] theorem evaluate_when_iff : (when flag negated children).evaluate enabled accept = true ↔
    enabled flag = negated ∨ ∀ e ∈ children, e.evaluate enabled accept = true := by
  rw [evaluate, Bool.or_eq_true, beq_iff_eq, evaluateAll_eq_true_iff]

/-! ## Leaves of groups -/

def Token.leaf? : Token α → Option α
  | leaf a => some a
  | _ => none

/-- Leaves are listed in the order in which they are written. -/
theorem leaves_eq_tokens (e : Expression α) : e.leaves = e.tokens.filterMap Token.leaf? := by
  have hgroup (children : List (Expression α)) (o : Opening)
      (ih : ∀ e ∈ children, e.leaves = e.tokens.filterMap Token.leaf?) :
      leavesOf children = (o.group children).tokens.filterMap Token.leaf? := by
    simp only [tokens_group, List.filterMap_append, List.filterMap_cons, List.filterMap_nil,
      Token.leaf?, List.append_nil, leavesOf_eq, tokensOf_eq, List.filterMap_flatMap]
    exact List.flatMap_congr ih
  induction e with
  | leaf a => rfl
  | all children ih => exact hgroup children .all ih
  | any children ih => exact hgroup children .any ih
  | when flag negated children ih => exact hgroup children (.when flag negated) ih

theorem exists_take?_of_mem_leaves {format : LeafFormat α} {text : String} {e : Expression α}
    (h : parse format text = .ok e) (ha : a ∈ e.leaves) :
    ∃ s rest, format.take? s = some (a, rest) := by
  obtain ⟨es, rfl, hscan⟩ := parse_eq_ok_iff.mp h
  rw [leaves_eq_tokens] at ha
  obtain ⟨t, ht, hleaf⟩ := List.mem_filterMap.mp ha
  cases t with
  | leaf b =>
    cases hleaf
    have hmem : Token.leaf a ∈ .opens .all :: tokensOf es ++ [.closes] := ht
    simp only [List.mem_append, List.mem_cons, List.not_mem_nil, reduceCtorEq, false_or,
      or_false] at hmem
    exact Token.exists_take?_of_mem_scan? hscan hmem
  | _ => cases hleaf

/-- The leaves of a license are names of licenses. -/
theorem isLicense_of_mem_leaves {text a : String} {e : Expression String}
    (h : parse licenseFormat text = .ok e) (ha : a ∈ e.leaves) : isLicense a.toList = true := by
  obtain ⟨s, rest, htaken⟩ := exists_take?_of_mem_leaves h ha
  exact (takeRun?_eq_some_iff.mp (take?_wordFormat_iff.mp htaken)).2.2.2.1

theorem activeLeaves_when : (when flag negated children).activeLeaves enabled =
    if enabled flag = negated then [] else activeLeavesOf enabled children := by
  rw [activeLeaves]
  cases enabled flag <;> cases negated <;> rfl

section properties

variable {P : α → Prop}

theorem forall_active_leaf : (∀ b ∈ (leaf a).activeLeaves enabled, P b) ↔ P a :=
  List.forall_mem_singleton

theorem forall_activeLeavesOf : (∀ a ∈ activeLeavesOf enabled es, P a) ↔
    ∀ e ∈ es, ∀ a ∈ e.activeLeaves enabled, P a := by
  rw [activeLeavesOf_eq, List.forall_mem_flatMap]

theorem forall_active_all : (∀ a ∈ (all children).activeLeaves enabled, P a) ↔
    ∀ e ∈ children, ∀ a ∈ e.activeLeaves enabled, P a := forall_activeLeavesOf

theorem forall_active_any : (∀ a ∈ (any children).activeLeaves enabled, P a) ↔
    ∀ e ∈ children, ∀ a ∈ e.activeLeaves enabled, P a := forall_activeLeavesOf

theorem forall_active_when : (∀ a ∈ (when flag negated children).activeLeaves enabled, P a) ↔
    enabled flag = negated ∨ ∀ e ∈ children, ∀ a ∈ e.activeLeaves enabled, P a := by
  rw [activeLeaves_when]
  split
  · next hinactive => exact iff_of_true (fun _ h => absurd h List.not_mem_nil) (.inl hinactive)
  · next hactive => rw [or_iff_right hactive, forall_activeLeavesOf]

end properties

theorem activeLeavesOf_sublist
    (h : ∀ e ∈ children, (e.activeLeaves enabled).Sublist e.leaves) :
    (activeLeavesOf enabled children).Sublist (leavesOf children) := by
  rw [activeLeavesOf_eq, leavesOf_eq]
  exact List.Sublist.flatMap_right children h

theorem activeLeaves_sublist (e : Expression α) (enabled : UseFlag → Bool) :
    (e.activeLeaves enabled).Sublist e.leaves := by
  induction e with
  | leaf a => exact .refl _
  | all children ih => exact activeLeavesOf_sublist ih
  | any children ih => exact activeLeavesOf_sublist ih
  | when flag negated children ih =>
    rw [activeLeaves_when]
    split
    · exact List.nil_sublist _
    · exact activeLeavesOf_sublist ih

/-! ## Accepting leaves -/

/-- Accepting more of the active leaves satisfies no fewer trees. -/
theorem evaluate_mono {e : Expression α}
    (h : ∀ a ∈ e.activeLeaves enabled, accept a = true → accept' a = true)
    (hsatisfied : e.evaluate enabled accept = true) : e.evaluate enabled accept' = true := by
  induction e with
  | leaf a => exact forall_active_leaf.mp h hsatisfied
  | all children ih =>
    rw [forall_active_all] at h
    rw [evaluate_all_iff] at hsatisfied ⊢
    exact fun e he => ih e he (h e he) (hsatisfied e he)
  | any children ih =>
    rw [forall_active_any] at h
    rw [evaluate_any_iff] at hsatisfied ⊢
    refine hsatisfied.imp_right fun ⟨e, he, hmember⟩ => ?_
    exact ⟨e, he, ih e he (h e he) hmember⟩
  | when flag negated children ih =>
    rw [forall_active_when] at h
    rw [evaluate_when_iff] at hsatisfied ⊢
    rcases h with hinactive | h
    · exact .inl hinactive
    · exact hsatisfied.imp_right fun hall e he => ih e he (h e he) (hall e he)

theorem evaluate_congr {e : Expression α}
    (h : ∀ a ∈ e.activeLeaves enabled, accept a = accept' a) :
    e.evaluate enabled accept = e.evaluate enabled accept' := by
  refine Bool.eq_iff_iff.mpr
    ⟨evaluate_mono fun a ha haccept => ?_, evaluate_mono fun a ha haccept => ?_⟩
  · rwa [← h a ha]
  · rwa [h a ha]

/-- A tree all of whose leaves are accepted is satisfied. -/
theorem evaluate_of_accepting (e : Expression α) (enabled : UseFlag → Bool) :
    e.evaluate enabled (fun _ => true) = true := by
  induction e with
  | leaf a => rfl
  | all children ih => exact evaluate_all_iff.mpr ih
  | any children ih =>
    rw [evaluate_any_iff]
    cases children with
    | nil => exact .inl rfl
    | cons e es => exact .inr ⟨e, List.mem_cons_self, ih e List.mem_cons_self⟩
  | when flag negated children ih => exact evaluate_when_iff.mpr (.inr ih)

/-- Without `|| ( … )` groups a tree needs all of its active leaves. -/
theorem accept_of_evaluate {e : Expression α} (hbuilt : Built (fun _ => True) false e)
    (h : e.evaluate enabled accept = true) : ∀ a ∈ e.activeLeaves enabled, accept a = true := by
  induction hbuilt with
  | leaf => exact forall_active_leaf.mpr h
  | all _ ih =>
    rw [evaluate_all_iff] at h
    exact forall_active_all.mpr fun e he => ih e he (h e he)
  | any hallowed => cases hallowed
  | when _ ih =>
    rw [evaluate_when_iff] at h
    exact forall_active_when.mpr (h.imp_right fun h e he => ih e he (h e he))

/-- The active leaves are some of those written, in their order. A tree is satisfied if all of them
are accepted, and only then if it has no `|| ( … )` groups. No other leaf matters, and accepting
more leaves leaves a satisfied tree satisfied. -/
theorem decided_by_active_leaves (e : Expression α) (enabled : UseFlag → Bool) :
    e.leaves = e.tokens.filterMap Token.leaf? ∧
    (e.activeLeaves enabled).Sublist e.leaves ∧
    (∀ accept : α → Bool, (∀ a ∈ e.activeLeaves enabled, accept a = true) →
      e.evaluate enabled accept = true) ∧
    (Built (fun _ => True) false e → ∀ accept : α → Bool,
      e.evaluate enabled accept = true ↔ ∀ a ∈ e.activeLeaves enabled, accept a = true) ∧
    (∀ accept accept' : α → Bool, (∀ a ∈ e.activeLeaves enabled, accept a = accept' a) →
      e.evaluate enabled accept = e.evaluate enabled accept') ∧
    (∀ accept accept' : α → Bool, (∀ a, accept a = true → accept' a = true) →
      e.evaluate enabled accept = true → e.evaluate enabled accept' = true) := by
  have hall (accept : α → Bool) (h : ∀ a ∈ e.activeLeaves enabled, accept a = true) :
      e.evaluate enabled accept = true :=
    evaluate_mono (fun a ha _ => h a ha) (e.evaluate_of_accepting enabled)
  refine ⟨e.leaves_eq_tokens, e.activeLeaves_sublist enabled, hall, fun hbuilt accept => ?_,
    fun _ _ => evaluate_congr, fun _ _ h => evaluate_mono fun a _ => h a⟩
  exact ⟨accept_of_evaluate hbuilt, hall accept⟩

def licensesBySsl : Expression String :=
  .all [.leaf "MIT", .when ssl false [.leaf "OpenSSL"], .when ssl true [.leaf "BSD"]]

theorem built_licensesBySsl : Built (fun _ => True) false licensesBySsl := by
  refine .all ?_
  simp only [List.forall_mem_cons]
  exact ⟨.leaf trivial, .when (List.forall_mem_singleton.mpr (.leaf trivial)),
    .when (List.forall_mem_singleton.mpr (.leaf trivial)), nofun⟩

/-- With `ssl` off, the license that goes with it need not be accepted, but the others must. -/
theorem decided_without_ssl :
    licensesBySsl.activeLeaves (fun _ => false) = ["MIT", "BSD"] ∧
    licensesBySsl.evaluate (fun _ => false) (· != "OpenSSL") = true ∧
    licensesBySsl.evaluate (fun _ => false) (· != "BSD") = false ∧
    licensesBySsl.evaluate (fun _ => false) (· != "GPL-2") = true := by
  obtain ⟨-, -, hall, hiff, hcongr, hmono⟩ :=
    decided_by_active_leaves licensesBySsl fun _ => false
  have hsatisfied : licensesBySsl.evaluate (fun _ => false) (· != "OpenSSL") = true :=
    hall _ (by decide)
  refine ⟨rfl, hsatisfied, ?_, ?_⟩
  · rw [Bool.eq_false_iff, ne_eq, hiff built_licensesBySsl]
    decide
  · rw [hcongr (· != "GPL-2") (fun _ => true) (by decide)]
    exact hmono _ _ (fun _ _ => rfl) hsatisfied

end PackageCatalog.Expression
