import PackageCatalog.Proofs.Version.Operator
import PackageCatalog.Proofs.Version.Staged

/-!
# A version and its revision

The weights of a version are those of its base and then those of its revision. The kinds of a
revision stand next to each other in the order, between the suffixes of a release, and no weight of
a base is of them. So a version between two of one base has that base, too
(`Version.eq_of_between`), and `~` is the order among the versions of one base
(`Version.meetsTilde_iff_base`).
-/

namespace PackageCatalog

theorem ComponentKind.eq_of_rank_between {k : ComponentKind} (h₁ : finish.rank ≤ k.rank)
    (h₂ : k.rank ≤ revision.rank) : k = .finish ∨ k = .revision := by
  cases k <;> revert h₁ h₂ <;> decide

/-! ## One weight -/

namespace Weight

/-- The weight of a number of a revision; a 0 weighs as much as the end of a version. -/
def OfRevision (w : Weight) : Prop := w = finish ∨ w.kind = .revision

def OfBase (w : Weight) : Prop := w.kind ≠ .finish ∧ w.kind ≠ .revision

variable {a b c : Weight}

theorem eq_of_isLE (hab : (compare a b).isLE = true) (hba : (compare b a).isLE = true) : a = b :=
  eq_of_compare (Std.OrientedCmp.isLE_antisymm hab hba)

theorem rank_le_of_isLE (h : (compare a b).isLE = true) : a.kind.rank ≤ b.kind.rank := by
  refine Nat.not_lt.mp fun hlt => ?_
  rw [Std.OrientedCmp.gt_of_lt (compare_of_rank_lt hlt)] at h
  cases h

theorem OfRevision.rank_bounds (h : a.OfRevision) :
    ComponentKind.finish.rank ≤ a.kind.rank ∧ a.kind.rank ≤ ComponentKind.revision.rank := by
  rcases h with rfl | h
  · decide
  · rw [h]
    decide

/-- The end of a version is the least that may stand for a revision. -/
theorem OfRevision.compare_finish (h : a.OfRevision) :
    a = finish ∨ a.kind = .revision ∧ compare finish a = .lt := by
  refine h.imp_right fun hkind => ⟨hkind, compare_of_rank_lt ?_⟩
  rw [hkind]
  decide

theorem OfRevision.kind_cases (h : a.OfRevision) : a.kind = .finish ∨ a.kind = .revision :=
  h.imp_left fun heq => congrArg Weight.kind heq

/-- What exceeds a revision is no end. -/
theorem OfRevision.kind_of_gt (ha : a.OfRevision) (hb : b.OfRevision) (h : compare a b = .gt) :
    a.kind = .revision := by
  rcases ha with rfl | ha
  · rcases hb.compare_finish with rfl | ⟨-, hlt⟩
    · cases h
    · rw [hlt] at h
      cases h
  · exact ha

theorem OfBase.not_ofRevision (hbase : a.OfBase) (h : a.OfRevision) : False := by
  rcases h with rfl | h
  · exact hbase.1 rfl
  · exact hbase.2 h

/-- No weight of a base stands between two of revisions. -/
theorem OfBase.not_between (hb : b.OfBase) (ha : a.OfRevision) (hc : c.OfRevision)
    (hab : (compare a b).isLE = true) (hbc : (compare b c).isLE = true) : False := by
  have hlow := Nat.le_trans ha.rank_bounds.1 (rank_le_of_isLE hab)
  have hhigh := Nat.le_trans (rank_le_of_isLE hbc) hc.rank_bounds.2
  rcases ComponentKind.eq_of_rank_between hlow hhigh with h | h
  · exact hb.1 h
  · exact hb.2 h

theorem OfRevision.headD {ws : List Weight} (h : ∀ w ∈ ws, w.OfRevision) :
    (ws.headD finish).OfRevision := by
  cases ws with
  | nil => exact .inl rfl
  | cons w ws => exact h w List.mem_cons_self

end Weight

/-! ## The components of a base -/

theorem Suffix.kind_ne_revision_of_mem (unbounded : Bool) (ss : List Suffix) :
    ∀ c ∈ Suffix.components unbounded ss, c.kind ≠ .revision := by
  have hsuffix (kind : SuffixKind) : kind.component ≠ .revision := by cases kind <;> decide
  fun_induction Suffix.components unbounded ss with
  | case1 => rintro _ ⟨⟩
  | case2 s => exact List.forall_mem_singleton.mpr (hsuffix s.kind)
  | case3 s rest _ ih => exact List.forall_mem_cons.mpr ⟨hsuffix s.kind, ih⟩

theorem Release.kind_ne_revision_of_mem (r : Release) :
    ∀ c ∈ r.components, c.kind ≠ .revision := by
  intro c hc
  simp only [components, List.mem_append, List.mem_cons, List.mem_map, Option.mem_toList,
    Option.map_eq_some_iff, List.cons_append] at hc
  rcases hc with rfl | (((⟨n, -, rfl⟩ | ⟨l, -, rfl⟩) | hc) | ⟨digits, -, rfl⟩) | hc
  · exact (by decide : ComponentKind.number ≠ .revision)
  · exact (by decide : ComponentKind.number ≠ .revision)
  · exact (by decide : ComponentKind.letter ≠ .revision)
  · exact Suffix.kind_ne_revision_of_mem _ _ c hc
  · exact (by decide : ComponentKind.attempt ≠ .revision)
  · split at hc
    · cases List.mem_singleton.mp hc
      decide
    · cases hc

/-! ## Lists of weights -/

namespace Version

open Weight (finish)

section lists

variable {p q as bs cs : List Weight}

theorem compareWeights_append (p as bs : List Weight) :
    compareWeights (p ++ as) (p ++ bs) = compareWeights as bs := by
  induction p with
  | nil => rfl
  | cons w p ih =>
    have hself : Weight.compare w w = .eq := Std.ReflCmp.compare_self
    rw [List.cons_append, List.cons_append, compareWeights, ih, hself, Ordering.eq_then]

theorem isLE_headD (h : (compareWeights as bs).isLE = true) :
    ((as.headD finish).compare (bs.headD finish)).isLE = true := by
  rw [compareWeights_eq_then, Ordering.isLE_then_iff_and] at h
  exact h.1

theorem isLE_tail (h : (compareWeights as bs).isLE = true)
    (hhead : as.headD finish = bs.headD finish) :
    (compareWeights as.tail bs.tail).isLE = true := by
  have hself : Weight.compare (bs.headD finish) (bs.headD finish) = .eq := Std.ReflCmp.compare_self
  rw [compareWeights_eq_then, hhead, hself, Ordering.eq_then] at h
  exact h

/-- A list of weights between two that share a base has that base. -/
theorem eq_of_between (hp : ∀ w ∈ p, w.OfBase) (hq : ∀ w ∈ q, w.OfBase)
    (has : ∀ w ∈ as, w.OfRevision) (hbs : ∀ w ∈ bs, w.OfRevision) (hcs : ∀ w ∈ cs, w.OfRevision)
    (hab : (compareWeights (p ++ as) (q ++ bs)).isLE = true)
    (hbc : (compareWeights (q ++ bs) (p ++ cs)).isLE = true) : p = q := by
  induction p generalizing q with
  | nil =>
    cases q with
    | nil => rfl
    | cons y q =>
      exact ((hq y List.mem_cons_self).not_between (.headD has) (.headD hcs) (isLE_headD hab)
        (isLE_headD hbc)).elim
  | cons x p ih =>
    have hhead : x = (q ++ bs).headD finish := Weight.eq_of_isLE (isLE_headD hab) (isLE_headD hbc)
    cases q with
    | nil =>
      refine ((hp x List.mem_cons_self).not_ofRevision ?_).elim
      rw [hhead]
      exact .headD hbs
    | cons y q =>
      obtain rfl : x = y := hhead
      rw [List.forall_mem_cons] at hp hq
      rw [ih hp.2 hq.2 (isLE_tail hab rfl) (isLE_tail hbc rfl)]

/-! ## The walk of `~` -/

theorem atLeastRevision_append (p as bs : List Weight) :
    atLeastRevision (p ++ as) (p ++ bs) = atLeastRevision as bs := by
  induction p with
  | nil => rfl
  | cons w p ih =>
    have hself : Weight.compare w w = .eq := Std.ReflCmp.compare_self
    rw [List.cons_append, List.cons_append, atLeastRevision, hself, ih]

/-- The walk goes on while the weights tie, and ends at a higher revision. -/
theorem atLeastRevision_cases (h : atLeastRevision as bs = true) :
    as.headD finish = bs.headD finish ∧ atLeastRevision as.tail bs.tail = true ∨
      (as.headD finish).kind = .revision ∧
        ((bs.headD finish).kind = .finish ∨ (bs.headD finish).kind = .revision) := by
  cases as with
  | nil =>
    cases bs with
    | nil => exact .inl ⟨rfl, h⟩
    | cons b bs =>
      rw [atLeastRevision, Bool.and_eq_true, beq_iff_eq] at h
      exact .inl ⟨Weight.eq_of_compare h.1, h.2⟩
  | cons a as =>
    cases bs with
    | nil =>
      rw [atLeastRevision] at h
      split at h
      · next heq => exact .inl ⟨Weight.eq_of_compare (beq_iff_eq.mp heq), h⟩
      · exact .inr ⟨beq_iff_eq.mp h, .inl rfl⟩
    | cons b bs =>
      rw [atLeastRevision] at h
      split at h
      · next heq => exact .inl ⟨Weight.eq_of_compare heq, h⟩
      · rw [Bool.and_eq_true, Bool.or_eq_true, beq_iff_eq, beq_iff_eq, beq_iff_eq] at h
        exact .inr h
      · cases h

/-- No walk ends within a base. -/
theorem eq_of_atLeastRevision (hp : ∀ w ∈ p, w.OfBase) (hq : ∀ w ∈ q, w.OfBase)
    (has : ∀ w ∈ as, w.OfRevision) (hbs : ∀ w ∈ bs, w.OfRevision)
    (h : atLeastRevision (p ++ as) (q ++ bs) = true) : p = q := by
  induction p generalizing q with
  | nil =>
    cases q with
    | nil => rfl
    | cons y q =>
      have hy := hq y List.mem_cons_self
      rcases atLeastRevision_cases h with ⟨hhead, -⟩ | ⟨-, hfinish | hrevision⟩
      · obtain rfl : as.headD finish = y := hhead
        exact (hy.not_ofRevision (.headD has)).elim
      · exact absurd hfinish hy.1
      · exact absurd hrevision hy.2
  | cons x p ih =>
    have hx := hp x List.mem_cons_self
    rcases atLeastRevision_cases h with ⟨hhead, htail⟩ | ⟨hrevision, -⟩
    · cases q with
      | nil =>
        obtain rfl : x = bs.headD finish := hhead
        exact (hx.not_ofRevision (.headD hbs)).elim
      | cons y q =>
        obtain rfl : x = y := hhead
        rw [List.forall_mem_cons] at hp hq
        rw [ih hp.2 hq.2 htail]
    · exact absurd hrevision hx.2

/-- Among revisions, the walk is the order. -/
theorem atLeastRevision_eq_isGE (has : ∀ w ∈ as, w.OfRevision) (hbs : ∀ w ∈ bs, w.OfRevision) :
    atLeastRevision as bs = (compareWeights as bs).isGE := by
  fun_induction compareWeights as bs with
  | case1 =>
    rw [atLeastRevision]
    rfl
  | case2 b bs ih =>
    rw [List.forall_mem_cons] at hbs
    rw [atLeastRevision, ih has hbs.2]
    rcases hbs.1.compare_finish with rfl | ⟨-, hlt⟩
    · rfl
    · rw [hlt]
      rfl
  | case3 a as ih =>
    rw [List.forall_mem_cons] at has
    rw [atLeastRevision, ih has.2 hbs]
    rcases has.1.compare_finish with rfl | ⟨hkind, hlt⟩
    · rfl
    · rw [hkind, Std.OrientedCmp.gt_of_lt hlt]
      rfl
  | case4 a as b bs ih =>
    rw [List.forall_mem_cons] at has hbs
    rw [atLeastRevision, ih has.2 hbs.2]
    cases hab : Weight.compare a b with
    | eq => rfl
    | lt => rfl
    | gt =>
      have hkind : (b.kind == .finish || b.kind == .revision) = true := by
        rw [Bool.or_eq_true, beq_iff_eq, beq_iff_eq]
        exact hbs.1.kind_cases
      rw [has.1.kind_of_gt hbs.1 hab, hkind]
      rfl

end lists

/-! ## Bases and revisions of versions -/

def baseWeights (v : Version) : List Weight := weightsFrom true (baseComponents v.base)

theorem exists_of_mem_weightsFrom {first : Bool} {cs : List Component} {w : Weight}
    (h : w ∈ weightsFrom first cs) : ∃ c ∈ cs, ∃ leading, w = c.weight leading := by
  induction cs generalizing first with
  | nil => cases h
  | cons c cs ih =>
    rcases List.mem_cons.mp h with rfl | h
    · exact ⟨c, List.mem_cons_self, first, rfl⟩
    · obtain ⟨d, hd, hw⟩ := ih h
      exact ⟨d, List.mem_cons_of_mem c hd, hw⟩

theorem kind_ne_revision_of_mem_baseComponents {b : VersionBase} {c : Component}
    (h : c ∈ baseComponents b) : c.kind ≠ .revision := by
  cases b with
  | scm =>
    cases List.mem_singleton.mp h
    decide
  | release r => exact r.kind_ne_revision_of_mem c h

theorem ofBase_of_mem_baseWeights (v : Version) : ∀ w ∈ v.baseWeights, w.OfBase := by
  intro w hw
  obtain ⟨c, hc, leading, rfl⟩ := exists_of_mem_weightsFrom hw
  have hkind := kind_ne_revision_of_mem_baseComponents hc
  have hne : c.weight leading ≠ finish := fun h => hkind (Component.weight_eq_finish_iff.mp h).1
  rw [Weight.OfBase, Component.kind_weight hne]
  exact ⟨c.kind_ne_finish, hkind⟩

theorem ofRevision_of_mem_revisionWeights (v : Version) : ∀ w ∈ v.revisionWeights, w.OfRevision := by
  intro w hw
  obtain ⟨c, hc, rfl⟩ := List.mem_map.mp hw
  obtain ⟨digits, rfl⟩ := eq_revision_of_mem hc
  rw [Component.weight]
  split
  · exact .inl rfl
  · exact .inr rfl

theorem weights_eq_append (v : Version) : v.weights = v.baseWeights ++ v.revisionWeights := by
  have hfirst : (true && (baseComponents v.base).isEmpty) = false := by
    cases v.base <;> rfl
  rw [weights_eq_weightsFrom, components, weightsFrom_append, hfirst, weightsFrom_false]
  rfl

theorem weights_withoutRevision (v : Version) : v.withoutRevision.weights = v.baseWeights := by
  rw [weights_eq_append]
  exact List.append_nil _

variable {a b c s : Version}

theorem equals_withoutRevision_iff :
    a.withoutRevision.equals b.withoutRevision = true ↔ a.baseWeights = b.baseWeights := by
  rw [equals_iff, compare, weights_withoutRevision, weights_withoutRevision]
  constructor
  · intro h
    have hab : (compareWeights (a.baseWeights ++ []) (b.baseWeights ++ [])).isLE = true := by
      rw [List.append_nil, List.append_nil, h]
      rfl
    have hba : (compareWeights (b.baseWeights ++ []) (a.baseWeights ++ [])).isLE = true := by
      rw [List.append_nil, List.append_nil, Std.OrientedCmp.eq_symm h]
      rfl
    have hnil : ∀ w ∈ ([] : List Weight), w.OfRevision := by rintro _ ⟨⟩
    exact eq_of_between a.ofBase_of_mem_baseWeights b.ofBase_of_mem_baseWeights hnil hnil hnil
      hab hba
  · intro h
    rw [h]
    exact Std.ReflCmp.compare_self

theorem compare_eq_of_base (h : a.baseWeights = b.baseWeights) :
    a.compare b = compareWeights a.revisionWeights b.revisionWeights := by
  rw [compare, weights_eq_append, weights_eq_append, h, compareWeights_append]

theorem baseWeights_eq_of_between (hab : (a.compare b).isLE = true) (hbc : (b.compare c).isLE = true)
    (h : a.baseWeights = c.baseWeights) : a.baseWeights = b.baseWeights := by
  rw [compare, weights_eq_append a, weights_eq_append b] at hab
  rw [compare, weights_eq_append b, weights_eq_append c, ← h] at hbc
  exact eq_of_between a.ofBase_of_mem_baseWeights b.ofBase_of_mem_baseWeights
    a.ofRevision_of_mem_revisionWeights b.ofRevision_of_mem_revisionWeights
    c.ofRevision_of_mem_revisionWeights hab hbc

/-- `~` is met by the versions of the same base that are not less. -/
theorem meetsTilde_iff_base :
    a.meetsTilde s = true ↔ a.baseWeights = s.baseWeights ∧ (a.compare s).isGE = true := by
  have hwalk : a.baseWeights = s.baseWeights → a.meetsTilde s = (a.compare s).isGE := by
    intro h
    rw [compare_eq_of_base h, meetsTilde, weights_eq_append, weights_eq_append, h,
      atLeastRevision_append, atLeastRevision_eq_isGE a.ofRevision_of_mem_revisionWeights
        s.ofRevision_of_mem_revisionWeights]
  constructor
  · intro h
    have hbase : a.baseWeights = s.baseWeights := by
      rw [meetsTilde, weights_eq_append, weights_eq_append] at h
      exact eq_of_atLeastRevision a.ofBase_of_mem_baseWeights s.ofBase_of_mem_baseWeights
        a.ofRevision_of_mem_revisionWeights s.ofRevision_of_mem_revisionWeights h
    exact ⟨hbase, hwalk hbase ▸ h⟩
  · rintro ⟨hbase, h⟩
    rw [hwalk hbase, h]

/-- A version meets `~` just when it is the same without the revision, and not less. -/
theorem meetsTilde_iff (a s : Version) : a.meetsTilde s = true ↔
    a.withoutRevision.equals s.withoutRevision = true ∧ (a.compare s).isGE = true := by
  rw [equals_withoutRevision_iff]
  exact meetsTilde_iff_base

end Version

end PackageCatalog
