import Mathlib.Data.List.GetD
import PackageCatalog.Proofs.Version.Components
import PackageCatalog.Version.Operator

/-!
# Operators and equal versions

Equal versions admit the same candidates under every operator but `=` with a star, which goes by
components: there they do just when they have equally many, and both or neither end in a suffix
without a number (`VersionOperator.matches?_congr_iff`).
-/

namespace PackageCatalog

namespace Version

open Weight (finish)

/-! ## Weights of equal versions -/

/-- The weights of components, the first of which opens a version if `first`. -/
def weightsFrom (first : Bool) : List Component → List Weight
  | [] => []
  | c :: rest => c.weight first :: weightsFrom false rest

theorem weightsFrom_false (cs : List Component) : weightsFrom false cs = cs.map (·.weight false) := by
  induction cs with
  | nil => rfl
  | cons c cs ih => rw [weightsFrom, ih, List.map_cons]

theorem weights_eq_weightsFrom (v : Version) : v.weights = weightsFrom true v.components := by
  rw [weights]
  cases v.components with
  | nil => rfl
  | cons c cs => rw [weightsOf, weightsFrom, weightsFrom_false]

theorem tail_weightsFrom (first : Bool) (cs : List Component) :
    (weightsFrom first cs).tail = weightsFrom false cs.tail := by
  cases cs <;> rfl

theorem length_weightsFrom (first : Bool) (cs : List Component) :
    (weightsFrom first cs).length = cs.length := by
  induction cs generalizing first with
  | nil => rfl
  | cons c cs ih => rw [weightsFrom, List.length_cons, List.length_cons, ih]

/-- Lists of weights tie when they agree at every place, past their ends as well. -/
theorem compareWeights_eq_eq_iff {as bs : List Weight} :
    compareWeights as bs = .eq ↔ ∀ i, as.getD i finish = bs.getD i finish := by
  fun_induction compareWeights as bs with
  | case1 => exact iff_of_true rfl fun _ => rfl
  | case2 b bs ih =>
    rw [Ordering.then_eq_eq, Std.LawfulEqCmp.compare_eq_iff_eq, ih]
    exact Nat.and_forall_add_one (p := fun i => [].getD i finish = (b :: bs).getD i finish)
  | case3 a as ih =>
    rw [Ordering.then_eq_eq, Std.LawfulEqCmp.compare_eq_iff_eq, ih]
    exact Nat.and_forall_add_one (p := fun i => (a :: as).getD i finish = [].getD i finish)
  | case4 a as b bs ih =>
    rw [Ordering.then_eq_eq, Std.LawfulEqCmp.compare_eq_iff_eq, ih]
    exact Nat.and_forall_add_one (p := fun i => (a :: as).getD i finish = (b :: bs).getD i finish)

theorem equals_iff_getD {a b : Version} : a.equals b = true ↔
    ∀ i, a.weights.getD i finish = b.weights.getD i finish :=
  equals_iff.trans compareWeights_eq_eq_iff

/-! ## Tilde -/

theorem not_lt_finish_of_revision {c : Weight} (h : c.kind = .revision) :
    Weight.compare c finish ≠ .lt := by
  rw [Weight.compare_of_kind_ne (by rw [h]; nofun), h]
  decide

theorem atLeastRevision_finish_cons {bs : List Weight}
    (h : ∀ cs, atLeastRevision cs bs = atLeastRevision cs []) (cs : List Weight) :
    atLeastRevision cs (finish :: bs) = atLeastRevision cs [] := by
  cases cs with
  | nil =>
    have hcons : atLeastRevision [] (finish :: bs) =
        (Weight.compare finish finish == .eq && atLeastRevision [] bs) := by rw [atLeastRevision]
    rw [hcons, h]
    rfl
  | cons c cs =>
    rw [atLeastRevision, atLeastRevision, h]
    cases hc : Weight.compare c finish with
    | eq => rfl
    | gt => exact Bool.and_true _
    | lt =>
      have hkind : (c.kind == .revision) = false :=
        beq_eq_false_iff_ne.mpr fun hkind => not_lt_finish_of_revision hkind hc
      rw [hkind]
      rfl

theorem atLeastRevision_congr {as bs : List Weight} (h : compareWeights as bs = .eq)
    (cs : List Weight) : atLeastRevision cs as = atLeastRevision cs bs := by
  fun_induction compareWeights as bs generalizing cs with
  | case1 => rfl
  | case2 b bs ih =>
    obtain ⟨hb, hbs⟩ := Ordering.then_eq_eq.mp h
    cases Std.LawfulEqCmp.compare_eq_iff_eq.mp hb
    exact (atLeastRevision_finish_cons (fun cs => (ih hbs cs).symm) cs).symm
  | case3 a as ih =>
    obtain ⟨ha, has⟩ := Ordering.then_eq_eq.mp h
    cases Std.LawfulEqCmp.compare_eq_iff_eq.mp ha
    exact atLeastRevision_finish_cons (ih has) cs
  | case4 a as b bs ih =>
    obtain ⟨hab, hrest⟩ := Ordering.then_eq_eq.mp h
    cases Std.LawfulEqCmp.compare_eq_iff_eq.mp hab
    cases cs with
    | nil => rw [atLeastRevision, atLeastRevision, ih hrest]
    | cons c cs => rw [atLeastRevision, atLeastRevision, ih hrest]

/-! ## Star -/

def endsBare (cs : List Component) : Bool := cs.getLast?.any Component.isBareSuffix

theorem weight_ne_finish_of_isBareSuffix {first : Bool} {c : Component}
    (h : c.isBareSuffix = true) : c.weight first ≠ finish := by
  intro hweight
  obtain ⟨hkind, -⟩ := Component.weight_eq_finish_iff.mp hweight
  cases c with
  | suffix kind digits unbounded => cases kind <;> cases hkind
  | _ => cases h

theorem kind_eq_of_weight_eq {first : Bool} {c d : Component} (hc : c.isBareSuffix = true)
    (h : c.weight first = d.weight first) : c.kind = d.kind := by
  have hne : c.weight first ≠ finish := weight_ne_finish_of_isBareSuffix hc
  rw [← Component.kind_weight hne, h]
  exact Component.kind_weight (h ▸ hne)

/-- All but a bare suffix at the end asks for its weight. -/
theorem startWith_cons_iff {first : Bool} {s : Component} {xs rest : List Component}
    (h : (rest.isEmpty && s.isBareSuffix) = false) :
    startWith first xs (s :: rest) = true ↔
      (weightsFrom first xs).headD finish = s.weight first ∧ startWith false xs.tail rest = true := by
  rw [startWith, h, Bool.false_and, if_neg Bool.false_ne_true, Bool.and_eq_true]
  refine and_congr_left fun _ => ?_
  cases xs <;> exact beq_iff_eq.trans Std.LawfulEqCmp.compare_eq_iff_eq

/-- Components of equal weights, of which both or neither end in a bare suffix, open the same
lists. -/
theorem startWith_congr {first : Bool} {xs ys : List Component}
    (hweights : weightsFrom first xs = weightsFrom first ys) (hbare : endsBare xs = endsBare ys)
    (cs : List Component) : startWith first cs xs = startWith first cs ys := by
  induction xs generalizing first ys cs with
  | nil =>
    cases ys with
    | nil => rfl
    | cons y ys => cases hweights
  | cons x xs ih =>
    cases ys with
    | nil => cases hweights
    | cons y ys =>
      obtain ⟨hxy, hrest⟩ := List.cons.inj hweights
      rw [startWith, startWith, hxy]
      cases xs with
      | nil =>
        cases ys with
        | cons _ _ => cases hrest
        | nil =>
          have hboth : x.isBareSuffix = y.isBareSuffix := hbare
          cases hx : x.isBareSuffix with
          | false =>
            rw [← hboth, hx]
            rfl
          | true =>
            rw [← hboth, hx, kind_eq_of_weight_eq hx hxy]
      | cons x' xs =>
        cases ys with
        | nil => cases hrest
        | cons y' ys =>
          rw [ih hrest hbare]
          rfl

/-- Components open every list whose weights start with theirs. -/
theorem startWith_of_prefix {first : Bool} {xs cs : List Component}
    (h : weightsFrom first xs <+: weightsFrom first cs) : startWith first cs xs = true := by
  induction xs generalizing first cs with
  | nil => rw [startWith]
  | cons x xs ih =>
    cases cs with
    | nil => exact absurd (List.prefix_nil.mp h) (List.cons_ne_nil _ _)
    | cons c cs =>
      obtain ⟨hxc, hrest⟩ := List.cons_prefix_cons.mp h
      rw [startWith]
      split
      · rfl
      · rw [Bool.and_eq_true]
        refine ⟨?_, ih hrest⟩
        exact beq_iff_eq.mpr (Std.LawfulEqCmp.compare_eq_iff_eq.mpr hxc.symm)

/-- What components open agrees with them at every place, but for a bare suffix. -/
theorem getD_eq_of_startWith {first : Bool} {cs spec : List Component} {i : Nat}
    (h : startWith first cs spec = true) (hi : i < spec.length) (hs : spec[i].isBareSuffix = false) :
    (weightsFrom first cs).getD i finish = (weightsFrom first spec).getD i finish := by
  induction spec generalizing first cs i with
  | nil => exact absurd hi (Nat.not_lt_zero i)
  | cons s rest ih =>
    have hasks : (rest.isEmpty && s.isBareSuffix) = false := by
      cases i with
      | zero => exact (congrArg (rest.isEmpty && ·) hs).trans (Bool.and_false _)
      | succ i =>
        cases rest with
        | nil => exact absurd (Nat.lt_of_succ_lt_succ hi) (Nat.not_lt_zero i)
        | cons _ _ => rfl
    obtain ⟨hhead, htail⟩ := (startWith_cons_iff hasks).mp h
    cases i with
    | zero => cases cs <;> exact hhead
    | succ i =>
      have hrest := ih htail (Nat.lt_of_succ_lt_succ hi) hs
      cases cs <;> exact hrest

theorem exists_getD_weightsFrom {first : Bool} {cs : List Component} {i : Nat}
    (hi : i < cs.length) :
    ∃ leading, (weightsFrom first cs).getD i finish = cs[i].weight leading := by
  induction cs generalizing first i with
  | nil => exact absurd hi (Nat.not_lt_zero i)
  | cons c cs ih =>
    cases i with
    | zero => exact ⟨first, rfl⟩
    | succ i => exact ih (Nat.lt_of_succ_lt_succ hi)

/-- Behind a common front, a bare suffix opens every suffix of its kind. -/
theorem startWith_bare {c s : Component} (hs : s.isBareSuffix = true) (hkind : c.kind = s.kind)
    (first : Bool) (front : List Component) :
    startWith first (front ++ [c]) (front ++ [s]) = true := by
  induction front generalizing first with
  | nil =>
    rw [List.nil_append, List.nil_append, startWith, hs]
    exact if_pos (beq_iff_eq.mpr hkind)
  | cons x front ih =>
    rw [List.cons_append, List.cons_append, startWith]
    split
    · rfl
    · rw [Bool.and_eq_true]
      exact ⟨beq_iff_eq.mpr Std.ReflCmp.compare_self, ih false⟩

/-! ## Versions that tell equal ones apart -/

theorem weightsFrom_append (first : Bool) (cs ds : List Component) :
    weightsFrom first (cs ++ ds) =
      weightsFrom first cs ++ weightsFrom (first && cs.isEmpty) ds := by
  induction cs generalizing first with
  | nil =>
    rw [List.isEmpty_nil, Bool.and_true]
    rfl
  | cons c cs ih =>
    rw [List.cons_append, weightsFrom, weightsFrom, ih, List.isEmpty_cons, Bool.and_false,
      Bool.false_and]
    rfl

end Version

def Revision.raise : Option Revision → Revision
  | none => numbered ⟨1, []⟩ []
  | some bare => numbered ⟨0, []⟩ [⟨1, []⟩]
  | some (numbered first more) => numbered first (more ++ [⟨1, []⟩])

namespace Version

open Weight (finish)

def raised (v : Version) : Version := { v with revision := some (Revision.raise v.revision) }

theorem weights_raised (v : Version) :
    v.raised.weights = v.weights ++ [⟨.revision, false, 1, []⟩] := by
  obtain ⟨base, revision⟩ := v
  rw [weights_eq_weightsFrom, weights_eq_weightsFrom, components, components, weightsFrom_append,
    weightsFrom_append, List.append_assoc]
  refine congrArg (weightsFrom true (baseComponents base) ++ ·) ?_
  rcases revision with _ | _ | ⟨first, more⟩
  · rfl
  · rfl
  · have hmore : (Revision.numbered first (more ++ [⟨1, []⟩])).components =
        (Revision.numbered first more).components ++ [.revision [1]] :=
      congrArg (List.cons _) List.map_append
    show weightsFrom _ (Revision.numbered first (more ++ [⟨1, []⟩])).components = _
    rw [hmore, weightsFrom_append]
    rfl

theorem endsBare_append (cs : List Component) {ds : List Component} (h : ds ≠ []) :
    endsBare (cs ++ ds) = endsBare ds := by
  rw [endsBare, endsBare, List.getLast?_append]
  cases hlast : ds.getLast? with
  | none => exact absurd (List.getLast?_eq_none_iff.mp hlast) h
  | some c => rfl

theorem endsBare_eq_false {cs : List Component} (h : ∀ c ∈ cs, c.isBareSuffix = false) :
    endsBare cs = false := by
  rw [endsBare]
  cases hlast : cs.getLast? with
  | none => rfl
  | some c => exact h c (List.mem_of_getLast? hlast)

theorem components_suffixes (ss : List Suffix) :
    Suffix.components false ss = ss.map fun s => .suffix s.kind s.digits false := by
  induction ss with
  | nil => rfl
  | cons s ss ih =>
    cases ss with
    | nil => rfl
    | cons t ss => exact congrArg (List.cons _) ih

/-- The components of a release in front of its suffixes. -/
def openingOf (major : Numeral) (minors : List Numeral) (letter : Option Letter) :
    List Component :=
  .number major :: minors.map .number ++ (letter.map .letter).toList

/-- A release with nothing behind its suffixes. -/
def suffixed (major : Numeral) (minors : List Numeral) (letter : Option Letter)
    (suffixes : List Suffix) : Version :=
  ⟨.release ⟨major, minors, letter, suffixes, none, false⟩, none⟩

variable {major : Numeral} {minors : List Numeral} {letter : Option Letter} {suffixes : List Suffix}

theorem components_suffixed : (suffixed major minors letter suffixes).components =
    openingOf major minors letter ++ suffixes.map fun s => .suffix s.kind s.digits false := by
  rw [← components_suffixes]
  show openingOf major minors letter ++ Suffix.components false suffixes ++ [] ++ [] ++ [] = _
  rw [List.append_nil, List.append_nil, List.append_nil]

theorem not_isBareSuffix_of_mem_openingOf {c : Component} (h : c ∈ openingOf major minors letter) :
    c.isBareSuffix = false := by
  rw [openingOf, List.mem_append, List.mem_cons, List.mem_map, Option.mem_toList,
    Option.map_eq_some_iff] at h
  rcases h with (rfl | ⟨n, -, rfl⟩) | ⟨l, -, rfl⟩ <;> rfl

/-- Nothing stands behind a suffix that ends a version. -/
theorem exists_suffixed_of_endsBare {v : Version} (h : endsBare v.components = true) :
    ∃ major minors letter suffixes, v = suffixed major minors letter suffixes := by
  obtain ⟨base, revision⟩ := v
  cases revision with
  | some r =>
    have hrevision : ∀ c ∈ revisionComponents ⟨base, some r⟩, c.isBareSuffix = false := by
      intro c hc
      obtain ⟨digits, rfl⟩ := eq_revision_of_mem hc
      rfl
    have hne : revisionComponents ⟨base, some r⟩ ≠ [] := by cases r <;> exact List.cons_ne_nil _ _
    rw [components, endsBare_append _ hne, endsBare_eq_false hrevision] at h
    cases h
  | none =>
    cases base with
    | scm => cases h
    | release r =>
      obtain ⟨major, minors, letter, suffixes, attempt, live⟩ := r
      rw [components, revisionComponents, List.append_nil, baseComponents, Release.components] at h
      dsimp only at h
      cases live with
      | true =>
        rw [if_pos rfl, endsBare_append _ (List.cons_ne_nil _ _)] at h
        cases h
      | false =>
        cases attempt with
        | none => exact ⟨major, minors, letter, suffixes, rfl⟩
        | some digits =>
          rw [if_neg Bool.false_ne_true, List.append_nil, Option.map_some, Option.toList_some,
            endsBare_append _ (List.cons_ne_nil _ _)] at h
          cases h

/-- A version that ends in a suffix without a number has a sibling with one. -/
theorem exists_renumbered {v : Version} (h : endsBare v.components = true) :
    ∃ front kind, ∃ w : Version, v.components = front ++ [.suffix kind [] false] ∧
      w.components = front ++ [.suffix kind [1] false] := by
  obtain ⟨major, minors, letter, suffixes, rfl⟩ := exists_suffixed_of_endsBare h
  rw [components_suffixed] at h
  rcases List.eq_nil_or_concat suffixes with rfl | ⟨front, s, rfl⟩
  · rw [List.map_nil, List.append_nil,
      endsBare_eq_false fun c hc => not_isBareSuffix_of_mem_openingOf hc] at h
    cases h
  · rw [List.concat_eq_append, List.map_append, ← List.append_assoc, List.map_singleton,
      endsBare_append _ (List.cons_ne_nil _ _)] at h
    obtain ⟨kind, digits⟩ := s
    cases List.isEmpty_iff.mp (show digits.isEmpty = true from h)
    refine ⟨openingOf major minors letter ++ front.map fun s => .suffix s.kind s.digits false, kind,
      suffixed major minors letter (front ++ [⟨kind, [1]⟩]), ?_, ?_⟩
    · rw [components_suffixed, List.concat_eq_append, List.map_append, List.append_assoc]
      rfl
    · rw [components_suffixed, List.map_append, List.append_assoc]
      rfl

theorem getD_weightsFrom_concat (first : Bool) (front : List Component) (c : Component) :
    (weightsFrom first (front ++ [c])).getD front.length finish =
      c.weight (first && front.isEmpty) := by
  rw [weightsFrom_append, ← length_weightsFrom first front,
    List.getD_append_right _ _ _ _ (Nat.le_refl _), Nat.sub_self]
  rfl

/-! ## Equal versions under a star -/

/-- Two versions have equally many components, and both or neither end in a suffix without a
number. -/
def SameShape (a b : Version) : Prop :=
  a.components.length = b.components.length ∧ endsBare a.components = endsBare b.components

variable {a b : Version}

theorem length_weights (v : Version) : v.weights.length = v.components.length := by
  rw [weights_eq_weightsFrom, length_weightsFrom]

theorem SameShape.weights_eq (h : a.SameShape b) (hequals : a.equals b = true) :
    a.weights = b.weights := by
  refine List.ext_getElem (by rw [length_weights, length_weights, h.1]) fun i ha hb => ?_
  have hi := equals_iff_getD.mp hequals i
  rwa [List.getD_eq_getElem _ _ ha, List.getD_eq_getElem _ _ hb] at hi

/-- With the revision raised, the shorter version still opens the candidate, and the longer one does
not. -/
theorem exists_apart_of_length_lt (h : a.equals b = true)
    (hlt : a.components.length < b.components.length) :
    ∃ v : Version, v.meetsStar a = true ∧ v.meetsStar b = false := by
  refine ⟨a.raised, startWith_of_prefix ?_, Bool.eq_false_iff.mpr fun hb => ?_⟩
  · rw [← weights_eq_weightsFrom, ← weights_eq_weightsFrom, weights_raised]
    exact List.prefix_append _ _
  · have hend : b.weights.getD a.components.length finish = finish := by
      rw [← equals_iff_getD.mp h]
      exact List.getD_eq_default _ _ (Nat.le_of_eq (length_weights a))
    obtain ⟨leading, hweight⟩ : ∃ leading, (weightsFrom true b.components).getD _ finish =
        b.components[a.components.length].weight leading := exists_getD_weightsFrom hlt
    have hbare : b.components[a.components.length].isBareSuffix = false := by
      rw [← weights_eq_weightsFrom, hend] at hweight
      exact Bool.eq_false_iff.mpr fun hbare => weight_ne_finish_of_isBareSuffix hbare hweight.symm
    have hraised := getD_eq_of_startWith hb hlt hbare
    rw [← weights_eq_weightsFrom, ← weights_eq_weightsFrom, hend, weights_raised,
      ← length_weights a, List.getD_append_right _ _ _ _ (Nat.le_refl _), Nat.sub_self] at hraised
    cases congrArg Weight.value hraised

/-- With the suffix numbered, the version without a number still opens the candidate, and the one
with a number does not. -/
theorem exists_apart_of_endsBare (h : a.equals b = true)
    (hlength : a.components.length = b.components.length) (ha : endsBare a.components = true)
    (hb : endsBare b.components = false) :
    ∃ v : Version, v.meetsStar a = true ∧ v.meetsStar b = false := by
  obtain ⟨front, kind, w, hfront, hw⟩ := exists_renumbered ha
  refine ⟨w, ?_, Bool.eq_false_iff.mpr fun hmeets => ?_⟩
  · rw [meetsStar, hfront, hw]
    exact startWith_bare (by rfl) (by rfl) true front
  · have hi : front.length < b.components.length := by
      rw [← hlength, hfront, List.length_append]
      exact Nat.lt_succ_self _
    have hbare : b.components[front.length].isBareSuffix = false := by
      have hlast : b.components.getLast? = some b.components[front.length] := by
        rw [List.getLast?_eq_getElem?, ← hlength, hfront, List.length_append]
        exact List.getElem?_eq_getElem hi
      rw [endsBare, hlast] at hb
      exact hb
    have hnumbered := getD_eq_of_startWith hmeets hi hbare
    rw [← weights_eq_weightsFrom, ← weights_eq_weightsFrom, ← equals_iff_getD.mp h,
      weights_eq_weightsFrom, weights_eq_weightsFrom, hfront, hw, getD_weightsFrom_concat,
      getD_weightsFrom_concat] at hnumbered
    cases congrArg Weight.value hnumbered

theorem not_exists_apart (h : ∀ candidate : Version, candidate.meetsStar a = candidate.meetsStar b) :
    ¬ ∃ v : Version, v.meetsStar a = true ∧ v.meetsStar b = false := by
  rintro ⟨v, ha, hb⟩
  rw [h v, hb] at ha
  cases ha

theorem meetsStar_congr_iff (h : a.equals b = true) :
    (∀ candidate : Version, candidate.meetsStar a = candidate.meetsStar b) ↔ a.SameShape b := by
  have hsymm : b.equals a = true := equals_equivalence.symm h
  constructor
  · intro hsame
    have hforth := not_exists_apart hsame
    have hback := not_exists_apart fun v => (hsame v).symm
    have hlength : a.components.length = b.components.length := by
      refine Nat.le_antisymm (Nat.not_lt.mp fun hlt => ?_) (Nat.not_lt.mp fun hlt => ?_)
      · exact hback (exists_apart_of_length_lt hsymm hlt)
      · exact hforth (exists_apart_of_length_lt h hlt)
    refine ⟨hlength, ?_⟩
    cases ha : endsBare a.components <;> cases hb : endsBare b.components
    · rfl
    · exact absurd (exists_apart_of_endsBare hsymm hlength.symm hb ha) hback
    · exact absurd (exists_apart_of_endsBare h hlength ha hb) hforth
    · rfl
  · intro hshape candidate
    have hweights := hshape.weights_eq h
    rw [weights_eq_weightsFrom, weights_eq_weightsFrom] at hweights
    exact startWith_congr hweights hshape.2 _

end Version

namespace VersionOperator

variable {a b : Version}

theorem matches?_congr {op : VersionOperator} (hop : op ≠ .equalStar) (h : a.equals b = true)
    (candidate : Version) : op.matches? candidate a = op.matches? candidate b := by
  have hcompare : candidate.compare a = candidate.compare b :=
    Std.TransCmp.congr_right (Version.equals_iff.mp h)
  cases op with
  | equalStar => exact absurd rfl hop
  | tilde => exact Version.atLeastRevision_congr (Version.equals_iff.mp h) _
  | equal => rw [matches?, matches?, Version.equals, Version.equals, hcompare]
  | _ => rw [matches?, matches?, hcompare]

/-- Equal versions admit the same candidates, unless a star tells their components apart. -/
theorem matches?_congr_iff {op : VersionOperator} (h : a.equals b = true) :
    (∀ candidate, op.matches? candidate a = op.matches? candidate b) ↔
      (op = .equalStar → a.SameShape b) := by
  by_cases hop : op = .equalStar
  · subst hop
    exact (Version.meetsStar_congr_iff h).trans ⟨fun hshape _ => hshape, fun hshape => hshape rfl⟩
  · exact iff_of_true (matches?_congr hop h) fun heq => absurd heq hop

end VersionOperator

end PackageCatalog
