import PackageCatalog.Proofs.Version.ByText

/-!
# Comparison in stages

[PMS 3.3](https://projects.gentoo.org/pms/9/pms.html#version-comparison) compares versions
without `-try` and `-scm` in stages: numbers, letter, suffixes, revision, where each stage
decides only if all before it tie. The order of versions has no stages; it goes through the
weights of all components in one pass. Every stage of that pass leaves the next one alone
because the kinds of later components rank below those of the stage
(`compareWeights_append_stage`); only a suffix has to be told from a revision and from the end
of the version (`compareWeights_append_suffixes`).
-/

namespace PackageCatalog

/-! ## The stages -/

/-- Numbers behind the first: as texts without final zeros if one of them has a leading zero,
as integers otherwise. -/
def Numeral.compareMinor (n m : Numeral) : Ordering :=
  if n.first = 0 ∨ m.first = 0 then
    compare (Text.dropTail (· == '0') n.chars) (Text.dropTail (· == '0') m.chars)
  else compare (Digit.value n.digits) (Digit.value m.digits)

def SuffixKind.place : SuffixKind → Nat
  | alpha => 0
  | beta => 1
  | pre => 2
  | rc => 3
  | patch => 4

namespace Suffix

/-- Suffixes are ordered by kind, those of one kind by number, a missing number being 0. -/
def compare (s t : Suffix) : Ordering :=
  (Ord.compare s.kind.place t.kind.place).then
    (Ord.compare (Digit.value s.digits) (Digit.value t.digits))

/-- Suffixes in pairs. Where one list goes on, it is the greater one if it goes on with `_p`
and the smaller one otherwise. -/
def compareAll : List Suffix → List Suffix → Ordering
  | [], [] => .eq
  | [], t :: _ => if t.kind = .patch then .lt else .gt
  | s :: _, [] => if s.kind = .patch then .gt else .lt
  | s :: ss, t :: ts => (s.compare t).then (compareAll ss ts)

end Suffix

/-- The stages for two releases: first number, further numbers (of which more are greater),
letter (none before `a`), suffixes. -/
def Release.compareStaged (r s : Release) : Ordering :=
  (compare (Digit.value r.major.digits) (Digit.value s.major.digits)).then <|
    (r.minors.compareLex Numeral.compareMinor s.minors).then <|
      (compare r.letter s.letter).then (Suffix.compareAll r.suffixes s.suffixes)

namespace Version

/-- The number of the revision, 0 when it is missing. -/
def revisionNumber (v : Version) : Nat :=
  match v.revision with
  | none => 0
  | some .bare => 0
  | some (.numbered first _) => Digit.value first.digits

/-- The stages for two versions; `scm` exceeds every release. -/
def compareStaged (a b : Version) : Ordering :=
  match a.base, b.base with
  | .release r, .release s =>
    (r.compareStaged s).then (Ord.compare a.revisionNumber b.revisionNumber)
  | .release _, .scm => .lt
  | .scm, .release _ => .gt
  | .scm, .scm => Ord.compare a.revisionNumber b.revisionNumber

/-- Versions that the stages are for: without `-try` and `-scm`, and with one number in the
revision at most. -/
structure Plain (v : Version) : Prop where
  no_scm : v.hasScmPart = false
  no_try : v.hasTryPart = false
  one_revision : v.revisionComponents.length ≤ 1

/-! ## Passing a stage -/

open Weight (finish)

/-- Only the heads matter as long as they differ. -/
theorem compareWeights_eq_then (as bs : List Weight) :
    compareWeights as bs =
      ((as.headD finish).compare (bs.headD finish)).then (compareWeights as.tail bs.tail) := by
  cases as with
  | nil =>
    cases bs with
    | nil => rw [List.tail_nil, compareWeights]; rfl
    | cons b bs => rw [compareWeights]; rfl
  | cons a as =>
    cases bs with
    | nil => rw [compareWeights]; rfl
    | cons b bs => rw [compareWeights]; rfl

theorem compareWeights_of_head {as bs : List Weight} {o : Ordering} (ho : o ≠ .eq)
    (h : (as.headD finish).compare (bs.headD finish) = o) : compareWeights as bs = o := by
  rw [compareWeights_eq_then, h]
  cases o with
  | lt => rfl
  | eq => exact absurd rfl ho
  | gt => rfl

/-- The rank of the kind that comes next, be it the end of the version. -/
def nextRank (ws : List Weight) : Nat := (ws.headD finish).kind.rank

/-- A stage whose weights exceed what follows is decided by its own order. -/
theorem compareWeights_append_stage {α : Type} {f : α → Weight} {cmp : α → α → Ordering}
    {xs ys : List Weight} (hf : ∀ a b, (f a).compare (f b) = cmp a b)
    (hx : ∀ a, nextRank xs < (f a).kind.rank) (hy : ∀ a, nextRank ys < (f a).kind.rank)
    (as bs : List α) :
    compareWeights (as.map f ++ xs) (bs.map f ++ ys) =
      (as.compareLex cmp bs).then (compareWeights xs ys) := by
  induction as generalizing bs with
  | nil =>
    cases bs with
    | nil => rfl
    | cons b bs => exact compareWeights_of_head nofun (Weight.compare_of_rank_lt (hx b))
  | cons a as ih =>
    cases bs with
    | nil =>
      exact compareWeights_of_head nofun
        (Std.OrientedCmp.gt_of_lt (Weight.compare_of_rank_lt (hy a)))
    | cons b bs =>
      rw [List.map_cons, List.map_cons, List.cons_append, List.cons_append, compareWeights, hf,
        ih, List.compareLex_cons_cons, Ordering.then_assoc]

theorem nextRank_append_le {α : Type} {f : α → Weight} {xs : List Weight} {n : Nat}
    (hf : ∀ a, (f a).kind.rank ≤ n) (hx : nextRank xs ≤ n) (as : List α) :
    nextRank (as.map f ++ xs) ≤ n := by
  cases as with
  | nil => exact hx
  | cons a as => exact hf a

end Version

/-! ## The weights of each stage -/

namespace Numeral

def minorWeight (n : Numeral) : Weight := (Component.number n).weight false

theorem kind_minorWeight (n : Numeral) : n.minorWeight.kind = .number :=
  Component.kind_weight (by simp [Component.weight_eq_finish_iff, Component.kind])

theorem compare_minorWeight (n m : Numeral) :
    n.minorWeight.compare m.minorWeight = n.compareMinor m := by
  rw [minorWeight, minorWeight, ← Component.compareNumbers_eq, Component.compareNumbers,
    compareMinor]
  simp only [Bool.false_eq_true, ↓reduceIte, head?_chars]
  split
  · rfl
  · next h =>
    rw [not_or] at h
    exact Component.compareLengthFirst_chars (fun _ => by simpa [Numeral.digits] using h.1)
      (fun _ => by simpa [Numeral.digits] using h.2)

end Numeral

def Letter.weight (l : Letter) : Weight := ⟨.letter, false, l.val, []⟩

theorem Letter.compare_weight (l m : Letter) :
    (Letter.weight l).compare (Letter.weight m) = compare l m := Weight.compare_values _ _ _ _

theorem SuffixKind.compare_place (k l : SuffixKind) :
    compare k.component.rank l.component.rank = compare k.place l.place := by
  cases k <;> cases l <;> rfl

namespace Suffix

def weight (s : Suffix) : Weight := ⟨s.kind.component, false, Digit.value s.digits, []⟩

theorem compare_weight (s t : Suffix) : s.weight.compare t.weight = s.compare t := by
  rw [weight, weight, Weight.compare_kinds_values, SuffixKind.compare_place]
  rfl

theorem map_weight_components (ss : List Suffix) :
    (Suffix.components false ss).map (·.weight false) = ss.map weight := by
  induction ss with
  | nil => rfl
  | cons s ss ih =>
    cases ss with
    | nil => rfl
    | cons t ts =>
      rw [components, List.map_cons, ih]
      · rfl
      · intro h
        cases h

/-- The end and a revision stand between `_rc` and `_p`. -/
theorem compare_end_weight {w : Weight} (hw : w.kind = .finish ∨ w.kind = .revision)
    (t : Suffix) : w.compare t.weight = if t.kind = .patch then .lt else .gt := by
  obtain ⟨k, ds⟩ := t
  have hne : w.kind ≠ k.component := by
    rcases hw with hw | hw <;> rw [hw] <;> cases k <;> simp [SuffixKind.component]
  rw [weight, Weight.compare_of_kind_ne hne]
  rcases hw with hw | hw <;> rw [hw] <;> cases k <;> rfl

end Suffix

namespace Version

open Weight (finish)

/-- The suffix stage; behind it come a revision or the end. -/
theorem compareWeights_append_suffixes {xs ys : List Weight}
    (hx : (xs.headD finish).kind = .finish ∨ (xs.headD finish).kind = .revision)
    (hy : (ys.headD finish).kind = .finish ∨ (ys.headD finish).kind = .revision)
    (ss ts : List Suffix) :
    compareWeights (ss.map Suffix.weight ++ xs) (ts.map Suffix.weight ++ ys) =
      (Suffix.compareAll ss ts).then (compareWeights xs ys) := by
  induction ss generalizing ts with
  | nil =>
    cases ts with
    | nil => rfl
    | cons t ts =>
      have hc := Suffix.compare_end_weight hx t
      rw [Suffix.compareAll]
      by_cases ht : t.kind = .patch
      · rw [if_pos ht] at hc ⊢
        exact compareWeights_of_head nofun hc
      · rw [if_neg ht] at hc ⊢
        exact compareWeights_of_head nofun hc
  | cons s ss ih =>
    cases ts with
    | nil =>
      have hc := Suffix.compare_end_weight hy s
      rw [Suffix.compareAll]
      by_cases hs : s.kind = .patch
      · rw [if_pos hs] at hc ⊢
        exact compareWeights_of_head nofun (Std.OrientedCmp.gt_of_lt hc)
      · rw [if_neg hs] at hc ⊢
        exact compareWeights_of_head nofun (Std.OrientedCmp.lt_of_gt hc)
    | cons t ts =>
      rw [List.map_cons, List.map_cons, List.cons_append, List.cons_append, compareWeights,
        Suffix.compare_weight, ih, Suffix.compareAll, Ordering.then_assoc]

def revisionWeights (v : Version) : List Weight := v.revisionComponents.map (·.weight false)

theorem head_revisionWeights (v : Version) :
    ∃ ds, v.revisionWeights.headD finish = (Component.revision ds).weight false ∧
      v.revisionNumber = Digit.value ds := by
  rw [revisionWeights, revisionComponents, revisionNumber]
  rcases v.revision with _ | _ | ⟨n, more⟩
  · exact ⟨[], rfl, rfl⟩
  · exact ⟨[], rfl, rfl⟩
  · exact ⟨n.digits, rfl, rfl⟩

theorem kind_head_revisionWeights (v : Version) :
    (v.revisionWeights.headD finish).kind = .finish ∨
      (v.revisionWeights.headD finish).kind = .revision := by
  obtain ⟨ds, h, -⟩ := v.head_revisionWeights
  rw [h, Component.weight]
  split
  · exact .inl rfl
  · exact .inr rfl

theorem compareWeights_revisionWeights {a b : Version} (ha : a.revisionComponents.length ≤ 1)
    (hb : b.revisionComponents.length ≤ 1) :
    compareWeights a.revisionWeights b.revisionWeights =
      Ord.compare a.revisionNumber b.revisionNumber := by
  have htail {v : Version} (h : v.revisionComponents.length ≤ 1) : v.revisionWeights.tail = [] := by
    rw [← List.length_eq_zero_iff, List.length_tail, revisionWeights, List.length_map]
    omega
  obtain ⟨as, ha', hna⟩ := a.head_revisionWeights
  obtain ⟨bs, hb', hnb⟩ := b.head_revisionWeights
  rw [compareWeights_eq_then, ha', hb', hna, hnb, Component.compare_weight_revision, htail ha,
    htail hb, compareWeights, Ordering.then_eq]

/-- The weights of a plain version, stage by stage. -/
theorem Plain.weights_eq {v : Version} (h : v.Plain) :
    ∃ r, v.base = .release r ∧
      v.weights = (Component.number r.major).weight true ::
        (r.minors.map Numeral.minorWeight ++
          (r.letter.toList.map Letter.weight ++
            (r.suffixes.map Suffix.weight ++ v.revisionWeights))) := by
  have hscm := h.no_scm
  have htry := h.no_try
  rw [hasScmPart] at hscm
  rw [hasTryPart] at htry
  cases hb : v.base with
  | scm => simp [hb] at hscm
  | release r =>
    simp only [hb] at hscm htry
    have hattempt : r.attempt = none := by simpa using htry
    refine ⟨r, rfl, ?_⟩
    rw [weights, components, hb, baseComponents, Release.components, hscm, hattempt]
    have hletter : ((r.letter.map Component.letter).toList).map (·.weight false) =
        r.letter.toList.map Letter.weight := by
      cases r.letter <;> rfl
    have hminors : (r.minors.map Component.number).map (·.weight false) =
        r.minors.map Numeral.minorWeight := List.map_map
    simp only [Bool.false_and, Option.map_none, Option.toList_none, List.append_nil,
      Bool.false_eq_true, ↓reduceIte, List.cons_append, weightsOf, List.map_append, hminors,
      hletter, Suffix.map_weight_components, List.append_assoc, revisionWeights]

/-! ## What each stage is followed by -/

theorem nextRank_revision (v : Version) :
    nextRank v.revisionWeights ≤ ComponentKind.revision.rank := by
  rw [nextRank]
  rcases v.kind_head_revisionWeights with h | h
  · rw [h]
    decide
  · exact Nat.le_of_eq (congrArg ComponentKind.rank h)

theorem nextRank_suffixes (v : Version) (ss : List Suffix) :
    nextRank (ss.map Suffix.weight ++ v.revisionWeights) ≤ ComponentKind.patch.rank := by
  refine nextRank_append_le ?_ (Nat.le_trans v.nextRank_revision (by decide)) ss
  rintro ⟨k, ds⟩
  show k.component.rank ≤ _
  cases k <;> decide

theorem nextRank_letter (v : Version) (ls : List Letter) (ss : List Suffix) :
    nextRank (ls.map Letter.weight ++ (ss.map Suffix.weight ++ v.revisionWeights)) ≤
      ComponentKind.letter.rank := by
  have hs : nextRank (ss.map Suffix.weight ++ v.revisionWeights) ≤ ComponentKind.letter.rank :=
    Nat.le_trans (v.nextRank_suffixes ss) (by decide)
  have hl (l : Letter) : (Letter.weight l).kind.rank ≤ ComponentKind.letter.rank := Nat.le_refl _
  exact nextRank_append_le hl hs ls

theorem compareLex_toList (l m : Option Letter) :
    l.toList.compareLex Ord.compare m.toList = Ord.compare l m := by
  cases l with
  | none => cases m <;> rfl
  | some l =>
    cases m with
    | none => rfl
    | some m =>
      rw [Option.toList_some, Option.toList_some, List.compareLex_cons_cons,
        List.compareLex_nil_nil, Ordering.then_eq]
      rfl

/-- One pass over the components decides as the stages do. -/
theorem compare_eq_compareStaged {a b : Version} (ha : a.Plain) (hb : b.Plain) :
    a.compare b = a.compareStaged b := by
  obtain ⟨r, hr, hwr⟩ := ha.weights_eq
  obtain ⟨s, hs, hws⟩ := hb.weights_eq
  have hfirst : ((Component.number r.major).weight true).compare
      ((Component.number s.major).weight true) =
        Ord.compare (Digit.value r.major.digits) (Digit.value s.major.digits) :=
    Weight.compare_values _ _ _ _
  have hnum (v : Version) (ls : List Letter) (ss : List Suffix) (n : Numeral) :
      nextRank (ls.map Letter.weight ++ (ss.map Suffix.weight ++ v.revisionWeights)) <
        n.minorWeight.kind.rank := by
    rw [n.kind_minorWeight]
    exact Nat.lt_of_le_of_lt (v.nextRank_letter ls ss) (by decide)
  have hlet (v : Version) (ss : List Suffix) (l : Letter) :
      nextRank (ss.map Suffix.weight ++ v.revisionWeights) < (Letter.weight l).kind.rank := by
    rw [Letter.weight]
    exact Nat.lt_of_le_of_lt (v.nextRank_suffixes ss) (Nat.lt_succ_self _)
  rw [compare, hwr, hws, compareWeights, hfirst,
    compareWeights_append_stage Numeral.compare_minorWeight (hnum a _ _) (hnum b _ _),
    compareWeights_append_stage Letter.compare_weight (hlet a _) (hlet b _),
    compareWeights_append_suffixes a.kind_head_revisionWeights b.kind_head_revisionWeights,
    compareWeights_revisionWeights ha.one_revision hb.one_revision, compareLex_toList,
    compareStaged, hr, hs]
  simp only [Release.compareStaged, Ordering.then_assoc]

/-- `2.010_alpha-r1` precedes `2.01_alpha_p`: the numbers tie as texts, and a further `_p`
decides before the revision does. -/
theorem compare_staged_patch_before_revision :
    Plain ⟨.release ⟨⟨2, []⟩, [⟨0, [1, 0]⟩], none, [⟨.alpha, []⟩], none, false⟩,
        some (.numbered ⟨1, []⟩ [])⟩ ∧
      Plain ⟨.release ⟨⟨2, []⟩, [⟨0, [1]⟩], none, [⟨.alpha, []⟩, ⟨.patch, []⟩], none, false⟩,
        none⟩ ∧
      compare ⟨.release ⟨⟨2, []⟩, [⟨0, [1, 0]⟩], none, [⟨.alpha, []⟩], none, false⟩,
          some (.numbered ⟨1, []⟩ [])⟩
        ⟨.release ⟨⟨2, []⟩, [⟨0, [1]⟩], none, [⟨.alpha, []⟩, ⟨.patch, []⟩], none, false⟩,
          none⟩ = .lt := by
  have ha : Plain ⟨.release ⟨⟨2, []⟩, [⟨0, [1, 0]⟩], none, [⟨.alpha, []⟩], none, false⟩,
      some (.numbered ⟨1, []⟩ [])⟩ := ⟨rfl, rfl, by decide⟩
  have hb : Plain ⟨.release ⟨⟨2, []⟩, [⟨0, [1]⟩], none, [⟨.alpha, []⟩, ⟨.patch, []⟩], none,
      false⟩, none⟩ := ⟨rfl, rfl, by decide⟩
  exact ⟨ha, hb, (compare_eq_compareStaged ha hb).trans rfl⟩

end Version

end PackageCatalog
