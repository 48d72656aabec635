import PackageCatalog.Proofs.Expression.Evaluation

/-!
# Conditions that do not hold

A tree can be rid of its conditions: those that do not hold are left out, and the others become
plain groups (`resolved`). This changes the answer only where an `|| ( … )` group loses a member
and keeps another, since a condition that does not hold satisfies the group that it is a member of
(`inactive_member_satisfies`).
-/

namespace PackageCatalog.Expression

variable {α : Type} {children es : List (Expression α)} {e : Expression α} {waives : Bool}
  {enabled other : UseFlag → Bool} {accept : α → Bool} {flag : UseFlag} {negated : Bool}

def isInactive (enabled : UseFlag → Bool) : Expression α → Bool
  | when flag negated _ => enabled flag == negated
  | _ => false

mutual

/-- The tree without conditions: members that do not hold are left out, and those that hold are
groups. If `waives` is set, an `any` group that loses a member is satisfied without the others. -/
def resolved (waives : Bool) (enabled : UseFlag → Bool) : Expression α → Expression α
  | leaf a => leaf a
  | all children => all (resolvedOf waives enabled children)
  | any children =>
    if waives && children.any (·.isInactive enabled) then all []
    else any (resolvedOf waives enabled children)
  | when flag negated children =>
    if enabled flag == negated then all [] else all (resolvedOf waives enabled children)

def resolvedOf (waives : Bool) (enabled : UseFlag → Bool) :
    List (Expression α) → List (Expression α)
  | [] => []
  | e :: rest =>
    if e.isInactive enabled then resolvedOf waives enabled rest
    else e.resolved waives enabled :: resolvedOf waives enabled rest

end

/-- No `any` group under conditions that hold has members that hold beside others that do not. -/
inductive Unmixed (enabled : UseFlag → Bool) : Expression α → Prop
  | leaf (a : α) : Unmixed enabled (.leaf a)
  | all {children : List (Expression α)} :
      (∀ e ∈ children, Unmixed enabled e) → Unmixed enabled (.all children)
  | any {children : List (Expression α)} : (∀ e ∈ children, Unmixed enabled e) →
      ((∀ e ∈ children, e.isInactive enabled = true) ∨
        ∀ e ∈ children, e.isInactive enabled = false) → Unmixed enabled (.any children)
  | inactive {flag : UseFlag} {negated : Bool} {children : List (Expression α)} :
      enabled flag = negated → Unmixed enabled (.when flag negated children)
  | active {flag : UseFlag} {negated : Bool} {children : List (Expression α)} :
      (∀ e ∈ children, Unmixed enabled e) → Unmixed enabled (.when flag negated children)

/-! ## Conditions that do not hold -/

theorem evaluate_of_isInactive (h : e.isInactive enabled = true) :
    e.evaluate enabled accept = true := by
  cases e with
  | when flag negated children => exact evaluate_when_iff.mpr (.inl (eq_of_beq h))
  | _ => cases h

theorem activeLeaves_of_isInactive (h : e.isInactive enabled = true) :
    e.activeLeaves enabled = [] := by
  cases e with
  | when flag negated children => rw [activeLeaves_when, if_pos (eq_of_beq h)]
  | _ => cases h

/-- An `|| ( … )` group is satisfied if it is empty, by a condition that does not hold, or by
another member that is. -/
theorem evaluate_any_iff_cases : (any children).evaluate enabled accept = true ↔
    children = [] ∨ (∃ e ∈ children, e.isInactive enabled = true) ∨
      ∃ e ∈ children, e.isInactive enabled = false ∧ e.evaluate enabled accept = true := by
  rw [evaluate_any_iff]
  refine or_congr_right ⟨fun ⟨e, he, hsatisfied⟩ => ?_, ?_⟩
  · cases hinactive : e.isInactive enabled with
    | true => exact .inl ⟨e, he, hinactive⟩
    | false => exact .inr ⟨e, he, hinactive, hsatisfied⟩
  · rintro (⟨e, he, hinactive⟩ | ⟨e, he, -, hsatisfied⟩)
    · exact ⟨e, he, evaluate_of_isInactive hinactive⟩
    · exact ⟨e, he, hsatisfied⟩

/-! ## Resolved groups -/

theorem resolvedOf_eq (waives : Bool) (enabled : UseFlag → Bool) (es : List (Expression α)) :
    resolvedOf waives enabled es =
      (es.filter fun e => !e.isInactive enabled).map (resolved waives enabled) := by
  induction es with
  | nil => rfl
  | cons e es ih =>
    rw [resolvedOf, ih, List.filter_cons]
    cases e.isInactive enabled <;> rfl

theorem forall_resolvedOf {P : Expression α → Prop} : (∀ e ∈ resolvedOf waives enabled es, P e) ↔
    ∀ e ∈ es, e.isInactive enabled = true ∨ P (e.resolved waives enabled) := by
  simp only [resolvedOf_eq, List.forall_mem_map, List.mem_filter, Bool.not_eq_true', and_imp,
    ← Bool.not_eq_true, or_iff_not_imp_left]

theorem exists_resolvedOf {P : Expression α → Prop} : (∃ e ∈ resolvedOf waives enabled es, P e) ↔
    ∃ e ∈ es, e.isInactive enabled = false ∧ P (e.resolved waives enabled) := by
  simp only [resolvedOf_eq, List.mem_map, List.mem_filter, Bool.not_eq_true']
  constructor
  · rintro ⟨_, ⟨e, ⟨he, hactive⟩, rfl⟩, hP⟩
    exact ⟨e, he, hactive, hP⟩
  · rintro ⟨e, he, hactive, hP⟩
    exact ⟨_, ⟨e, ⟨he, hactive⟩, rfl⟩, hP⟩

theorem resolvedOf_eq_nil_iff :
    resolvedOf waives enabled es = [] ↔ ∀ e ∈ es, e.isInactive enabled = true := by
  simp [resolvedOf_eq]

theorem evaluate_resolved_all_iff :
    ((all children).resolved waives enabled).evaluate other accept = true ↔
      ∀ e ∈ children, e.isInactive enabled = true ∨
        (e.resolved waives enabled).evaluate other accept = true :=
  evaluate_all_iff.trans forall_resolvedOf

theorem evaluate_resolved_when_iff :
    ((when flag negated children).resolved waives enabled).evaluate other accept = true ↔
      enabled flag = negated ∨ ∀ e ∈ children, e.isInactive enabled = true ∨
        (e.resolved waives enabled).evaluate other accept = true := by
  rw [resolved]
  split
  · next hinactive => exact iff_of_true rfl (.inl (eq_of_beq hinactive))
  · next hactive =>
    rw [or_iff_right (mt beq_iff_eq.mpr hactive), evaluate_all_iff, forall_resolvedOf]

theorem evaluate_resolved_any_iff :
    ((any children).resolved waives enabled).evaluate other accept = true ↔
      (waives = true ∧ ∃ e ∈ children, e.isInactive enabled = true) ∨
      (∀ e ∈ children, e.isInactive enabled = true) ∨
      ∃ e ∈ children, e.isInactive enabled = false ∧
        (e.resolved waives enabled).evaluate other accept = true := by
  rw [resolved, ← List.any_eq_true, ← Bool.and_eq_true]
  split
  · next hwaived => exact iff_of_true rfl (.inl hwaived)
  · next hkept =>
    rw [or_iff_right hkept, evaluate_any_iff, resolvedOf_eq_nil_iff, exists_resolvedOf]

/-- The leaves that are left are the active ones. -/
theorem leaves_resolved (e : Expression α) (enabled : UseFlag → Bool) :
    (e.resolved false enabled).leaves = e.activeLeaves enabled := by
  have hgroup (children : List (Expression α))
      (ih : ∀ e ∈ children, (e.resolved false enabled).leaves = e.activeLeaves enabled) :
      leavesOf (resolvedOf false enabled children) = activeLeavesOf enabled children := by
    induction children with
    | nil => rfl
    | cons e es ihs =>
      obtain ⟨he, hes⟩ := List.forall_mem_cons.mp ih
      rw [resolvedOf, activeLeavesOf, ← ihs hes]
      split
      · next hinactive => rw [activeLeaves_of_isInactive hinactive, List.nil_append]
      · rw [leavesOf, he]
  induction e with
  | leaf a => rfl
  | all children ih => exact hgroup children ih
  | any children ih => exact hgroup children ih
  | when flag negated children ih =>
    rw [activeLeaves_when, resolved]
    simp only [beq_iff_eq]
    split
    · rfl
    · exact hgroup children ih

/-- No condition is left. -/
theorem ne_when_of_mem_tokens (e : Expression α) :
    ∀ t ∈ (e.resolved waives enabled).tokens, t ≠ .opens (.when flag negated) := by
  have hgroup (o : Opening) (ho : o ≠ .when flag negated) {members : List (Expression α)}
      (h : ∀ e ∈ members, ∀ t ∈ e.tokens, t ≠ .opens (.when flag negated)) :
      ∀ t ∈ (o.group members).tokens, t ≠ .opens (.when flag negated) := by
    intro t ht
    rw [tokens_group, List.mem_append, List.mem_cons, mem_tokensOf, List.mem_singleton] at ht
    rcases ht with (rfl | ⟨e, he, ht⟩) | rfl
    · exact fun heq => ho (Token.opens.inj heq)
    · exact h e he t ht
    · nofun
  have hnone : ∀ t ∈ (Expression.all (α := α) []).tokens, t ≠ .opens (.when flag negated) :=
    hgroup .all nofun nofun
  induction e with
  | leaf a => exact List.forall_mem_singleton.mpr nofun
  | all children ih => exact hgroup .all nofun (forall_resolvedOf.mpr fun e he => .inr (ih e he))
  | any children ih =>
    rw [resolved]
    split
    · exact hnone
    · exact hgroup .any nofun (forall_resolvedOf.mpr fun e he => .inr (ih e he))
  | when flag' negated' children ih =>
    rw [resolved]
    split
    · exact hnone
    · exact hgroup .all nofun (forall_resolvedOf.mpr fun e he => .inr (ih e he))

/-! ## The same answer -/

theorem evaluate_of_resolved (h : (e.resolved waives enabled).evaluate other accept = true) :
    e.evaluate enabled accept = true := by
  induction e with
  | leaf a => exact h
  | all children ih =>
    rw [evaluate_resolved_all_iff] at h
    exact evaluate_all_iff.mpr fun e he => (h e he).elim evaluate_of_isInactive (ih e he)
  | any children ih =>
    rw [evaluate_resolved_any_iff] at h
    rw [evaluate_any_iff_cases]
    rcases h with ⟨-, hlost⟩ | hall | ⟨e, he, hactive, hsatisfied⟩
    · exact .inr (.inl hlost)
    · cases children with
      | nil => exact .inl rfl
      | cons e es => exact .inr (.inl ⟨e, List.mem_cons_self, hall e List.mem_cons_self⟩)
    · exact .inr (.inr ⟨e, he, hactive, ih e he hsatisfied⟩)
  | when flag negated children ih =>
    rw [evaluate_resolved_when_iff] at h
    refine evaluate_when_iff.mpr (h.imp_right fun h e he => ?_)
    exact (h e he).elim evaluate_of_isInactive (ih e he)

/-- What is satisfied stays so without its conditions, where groups that lose a member are waived
or are left with none. -/
theorem resolved_of_evaluate (hgroups : waives = true ∨ e.Unmixed enabled)
    (h : e.evaluate enabled accept = true) :
    (e.resolved waives enabled).evaluate other accept = true := by
  induction e with
  | leaf a => exact h
  | all children ih =>
    rw [evaluate_all_iff] at h
    refine evaluate_resolved_all_iff.mpr fun e he => .inr (ih e he ?_ (h e he))
    exact hgroups.imp_right fun | .all hmembers => hmembers e he
  | any children ih =>
    rw [evaluate_any_iff_cases] at h
    rw [evaluate_resolved_any_iff]
    rcases h with rfl | hlost | ⟨e, he, hactive, hsatisfied⟩
    · exact .inr (.inl nofun)
    · rcases hgroups with hwaives | hunmixed
      · exact .inl ⟨hwaives, hlost⟩
      · cases hunmixed with
        | any _ hsides =>
          obtain ⟨e, he, hinactive⟩ := hlost
          refine .inr (.inl (hsides.resolve_right fun hactive => ?_))
          rw [hactive e he] at hinactive
          cases hinactive
    · refine .inr (.inr ⟨e, he, hactive, ih e he ?_ hsatisfied⟩)
      exact hgroups.imp_right fun | .any hmembers _ => hmembers e he
  | when flag negated children ih =>
    rw [evaluate_when_iff] at h
    rw [evaluate_resolved_when_iff]
    rcases h with hinactive | h
    · exact .inl hinactive
    · by_cases hinactive : enabled flag = negated
      · exact .inl hinactive
      · refine .inr fun e he => .inr (ih e he ?_ (h e he))
        refine hgroups.imp_right fun hunmixed => ?_
        cases hunmixed with
        | inactive h => exact absurd h hinactive
        | active hmembers => exact hmembers e he

theorem evaluate_resolved (hgroups : waives = true ∨ e.Unmixed enabled) :
    (e.resolved waives enabled).evaluate other accept = e.evaluate enabled accept :=
  Bool.eq_iff_iff.mpr ⟨evaluate_of_resolved, resolved_of_evaluate hgroups⟩

/-- A tree is satisfied just when it is without its conditions, an `|| ( … )` group that loses a
member being satisfied by that. Otherwise it is satisfied too, if it is without its conditions; and
only then, if no group loses one member and keeps another. -/
theorem inactive_member_satisfies (e : Expression α) (enabled other : UseFlag → Bool)
    (accept : α → Bool) :
    (e.resolved true enabled).evaluate other accept = e.evaluate enabled accept ∧
    ((e.resolved false enabled).evaluate other accept = true → e.evaluate enabled accept = true) ∧
    (e.Unmixed enabled →
      (e.resolved false enabled).evaluate other accept = e.evaluate enabled accept) ∧
    (∀ children : List (Expression α), (any children).evaluate enabled accept = true ↔
      children = [] ∨ (∃ e ∈ children, e.isInactive enabled = true) ∨
        ∃ e ∈ children, e.isInactive enabled = false ∧ e.evaluate enabled accept = true) ∧
    (e.resolved false enabled).leaves = e.activeLeaves enabled ∧
    ∀ waives flag negated, ∀ t ∈ (e.resolved waives enabled).tokens,
      t ≠ .opens (.when flag negated) :=
  ⟨evaluate_resolved (.inl rfl), evaluate_of_resolved, fun h => evaluate_resolved (.inr h),
    fun _ => evaluate_any_iff_cases, e.leaves_resolved enabled,
    fun _ _ _ => e.ne_when_of_mem_tokens⟩

/-- The license without a condition is the only one of its group that is left, and it is not
accepted. -/
def choiceBySsl : Expression String := .all [.any [.when ssl false [.leaf "OpenSSL"], .leaf "BSD"]]

/-- Licenses that go with `ssl` and without, so that one group loses all of its members. -/
def groupsBySsl : Expression String :=
  .all [.any [.when ssl false [.leaf "OpenSSL"]], .any [.when ssl true [.leaf "MIT"], .leaf "BSD"]]

theorem unmixed_groupsBySsl : groupsBySsl.Unmixed fun _ => false := by
  refine .all ?_
  simp only [List.forall_mem_cons]
  refine ⟨.any ?_ (.inl (by decide)), .any ?_ (.inr (by decide)), nofun⟩
  · exact List.forall_mem_singleton.mpr (.inactive rfl)
  · simp only [List.forall_mem_cons]
    exact ⟨.active (List.forall_mem_singleton.mpr (.leaf _)), .leaf _, nofun⟩

/-- Where a group loses all of its members or none, the conditions make no difference. -/
theorem resolved_groupsBySsl :
    (groupsBySsl.Unmixed fun _ => false) ∧
    groupsBySsl.evaluate (fun _ => false) (· != "MIT") = true ∧
    groupsBySsl.evaluate (fun _ => false) (fun _ => false) = false ∧
    choiceBySsl.evaluate (fun _ => false) (· != "OpenSSL") = true := by
  have hsame (accept : String → Bool) :=
    (inactive_member_satisfies groupsBySsl (fun _ => false) (fun _ => false) accept).2.2.1
      unmixed_groupsBySsl
  refine ⟨unmixed_groupsBySsl, ?_, ?_, ?_⟩
  · rw [← hsame]
    rfl
  · rw [← hsame]
    rfl
  · exact (inactive_member_satisfies choiceBySsl (fun _ => false) (fun _ => false) _).2.1 rfl

/-- The condition that does not hold satisfies its group, though the license that is left is not
accepted. -/
theorem satisfied_by_inactive_member :
    parse licenseFormat "|| ( ssl? ( OpenSSL ) BSD )" = .ok choiceBySsl ∧
    choiceBySsl.activeLeaves (fun _ => false) = ["BSD"] ∧
    (choiceBySsl.resolved false fun _ => false).evaluate (fun _ => false) (fun _ => false) = false ∧
    choiceBySsl.evaluate (fun _ => false) (fun _ => false) = true := by
  refine ⟨?_, rfl, rfl, rfl⟩
  have htext : text licenseFormat choiceBySsl = "|| ( ssl? ( OpenSSL ) BSD )" := by decide
  have hbuilt : ∀ e ∈ [any [.when ssl false [.leaf "OpenSSL"], .leaf "BSD"]],
      Built IsLicenseName true e := by
    refine List.forall_mem_singleton.mpr (.any rfl ?_)
    simp only [List.forall_mem_cons]
    exact ⟨.when (List.forall_mem_singleton.mpr (.leaf rfl)), .leaf rfl, nofun⟩
  rw [← htext]
  exact parse_text_of_legible (lawful_wordFormat fun _ => isBlank_of_isNameChar)
    (legible_of_built (fun a ha rest hrest => leafAt_of_name ha hrest) hbuilt)

end PackageCatalog.Expression
