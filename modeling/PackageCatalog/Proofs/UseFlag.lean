import PackageCatalog.Proofs.Name
import PackageCatalog.Proofs.Sorted
import PackageCatalog.UseFlag

/-!
# Mentions of flags

What a list of mentions says about a flag is what the last of them says (`SaysLast`). Lists stand
in layers, the strongest first, and the first layer that mentions a flag decides about it
(`UseState.Decided`). The flags that a package declares are in strict order, so looking one up
finds its only mention (`DeclaredFlag.lastMention?_mentionsOf`).
-/

namespace PackageCatalog

variable {flag : UseFlag}

/-! ## The last mention -/

namespace UseFlag

variable {on : Bool} {mention : UseFlag × Bool} {mentions : List (UseFlag × Bool)}

/-- The last mention of the flag turns it on or off. -/
def SaysLast (flag : UseFlag) (on : Bool) (mentions : List (UseFlag × Bool)) : Prop :=
  ∃ before after, mentions = before ++ (flag, on) :: after ∧ ∀ m ∈ after, m.1 ≠ flag

def Unmentioned (flag : UseFlag) (mentions : List (UseFlag × Bool)) : Prop :=
  ∀ m ∈ mentions, m.1 ≠ flag

def lastMention? (flag : UseFlag) (mentions : List (UseFlag × Bool)) : Option Bool :=
  (mentions.filter (·.1 = flag)).getLast?.map Prod.snd

theorem lastMention?_cons : flag.lastMention? (mention :: mentions) =
    (flag.lastMention? mentions).or (if mention.1 = flag then some mention.2 else none) := by
  unfold lastMention?
  rw [List.filter_cons]
  split
  · next h =>
    rw [if_pos (of_decide_eq_true h), List.getLast?_cons]
    cases (mentions.filter (·.1 = flag)).getLast? <;> rfl
  · next h =>
    rw [if_neg fun heq => h (decide_eq_true heq), Option.or_none]

theorem lastMention?_eq_none_iff :
    flag.lastMention? mentions = none ↔ flag.Unmentioned mentions := by
  unfold lastMention? Unmentioned
  rw [Option.map_eq_none_iff, List.getLast?_eq_none_iff, List.filter_eq_nil_iff]
  simp only [decide_eq_true_eq, ne_eq]

theorem lastMention?_eq_some_iff :
    flag.lastMention? mentions = some on ↔ flag.SaysLast on mentions := by
  constructor
  · intro h
    obtain ⟨⟨flag', on⟩, hlast, rfl⟩ := Option.map_eq_some_iff.mp h
    obtain ⟨earlier, hfilter⟩ := List.getLast?_eq_some_iff.mp hlast
    obtain ⟨before, rest, rfl, -, hrest⟩ := List.filter_eq_append_iff.mp hfilter
    obtain ⟨between, after, rfl, -, hflag, hafter⟩ := List.filter_eq_cons_iff.mp hrest
    cases of_decide_eq_true hflag
    refine ⟨before ++ between, after, (List.append_assoc _ _ _).symm, fun m hm heq => ?_⟩
    exact List.filter_eq_nil_iff.mp hafter m hm (decide_eq_true heq)
  · rintro ⟨before, after, rfl, hafter⟩
    have hnone : after.filter (·.1 = flag) = [] :=
      List.filter_eq_nil_iff.mpr fun m hm h => hafter m hm (of_decide_eq_true h)
    rw [lastMention?, List.filter_append, List.filter_cons, if_pos (decide_eq_true rfl), hnone,
      List.getLast?_concat]
    rfl

end UseFlag

/-! ## Layers -/

namespace UseState

variable {otherwise s : UseState} {layers : List (List (UseFlag × Bool))}

/-- The first layer that mentions the flag decides by its last mention of it; if none does, the
flag is in the state `otherwise`. -/
inductive Decided (flag : UseFlag) (otherwise : UseState) :
    List (List (UseFlag × Bool)) → UseState → Prop
  | last {on : Bool} {layer : List (UseFlag × Bool)} {weaker : List (List (UseFlag × Bool))} :
      flag.SaysLast on layer → Decided flag otherwise (layer :: weaker) (.ofBool on)
  | next {layer : List (UseFlag × Bool)} {weaker : List (List (UseFlag × Bool))} {s : UseState} :
      flag.Unmentioned layer → Decided flag otherwise weaker s →
        Decided flag otherwise (layer :: weaker) s
  | none : Decided flag otherwise [] otherwise

/-- The state that layers decide on. -/
def ofLayers (flag : UseFlag) (otherwise : UseState) : List (List (UseFlag × Bool)) → UseState
  | [] => otherwise
  | layer :: weaker =>
    match flag.lastMention? layer with
    | some on => .ofBool on
    | none => ofLayers flag otherwise weaker

theorem decided_ofLayers (flag : UseFlag) (otherwise : UseState)
    (layers : List (List (UseFlag × Bool))) :
    Decided flag otherwise layers (ofLayers flag otherwise layers) := by
  induction layers with
  | nil => exact .none
  | cons layer weaker ih =>
    rw [ofLayers]
    split
    · next h => exact .last (UseFlag.lastMention?_eq_some_iff.mp h)
    · next h => exact .next (UseFlag.lastMention?_eq_none_iff.mp h) ih

/-- Layers decide on one state. -/
theorem decided_iff : Decided flag otherwise layers s ↔ ofLayers flag otherwise layers = s := by
  constructor
  · intro h
    induction h with
    | last hlast => rw [ofLayers, UseFlag.lastMention?_eq_some_iff.mpr hlast]
    | next hnone _ ih =>
      rw [ofLayers, UseFlag.lastMention?_eq_none_iff.mpr hnone]
      exact ih
    | none => rfl
  · rintro rfl
    exact decided_ofLayers flag otherwise layers

/-- What is left open by some layers is decided by those below them. -/
theorem ofLayers_append (layers weaker : List (List (UseFlag × Bool))) :
    ofLayers flag otherwise (layers ++ weaker) =
      match ofLayers flag .unspecified layers with
      | .unspecified => ofLayers flag otherwise weaker
      | s => s := by
  induction layers with
  | nil => rfl
  | cons layer layers ih =>
    rw [List.cons_append, ofLayers, ofLayers]
    cases flag.lastMention? layer with
    | none => exact ih
    | some on => cases on <;> rfl

end UseState

/-! ## Declared flags -/

namespace DeclaredFlag

variable {set : List DeclaredFlag} {line : String}

def byName (a b : DeclaredFlag) : Ordering := compare a.name b.name

instance : Std.TransCmp byName := inferInstanceAs (Std.TransCmp (compareOn DeclaredFlag.name))

/-- Declared flags as mentions; a flag without a sign is not mentioned. -/
def mentionsOf (set : List DeclaredFlag) : List (UseFlag × Bool) :=
  set.filterMap fun d => d.default?.map fun on => (d.name, on)

theorem strict_of_parseSet (h : parseSet line = .ok set) : Sorted.Strict byName set := by
  cases hflags : (Text.words line).mapM parse with
  | error e =>
    rw [parseSet, hflags] at h
    cases h
  | ok flags =>
    rw [parseSet, hflags] at h
    cases h
    exact Sorted.strict_distinct

/-- In the order of names, a name parts what stands before it from what stands behind it. -/
theorem parts_of_strict (h : Sorted.Strict byName set) (flag : UseFlag) :
    Sorted.Parts (fun d => compare d.name flag) set := by
  refine h.imp fun {a b} hlt hge => ?_
  have hflag : (compare flag a.name).isLE := by
    rw [← Std.OrientedCmp.isGE_eq_isLE, Ordering.isGE_iff_ne_lt]
    exact hge
  exact Std.OrientedCmp.gt_of_lt (Std.TransCmp.lt_of_isLE_of_lt hflag hlt)

/-- In the order of names, searching finds what going through the flags finds. -/
theorem find?_eq_find? (h : Sorted.Strict byName set) (flag : UseFlag) :
    find? set flag = set.find? (·.name = flag) := by
  rw [find?, Sorted.search?_eq_find? (parts_of_strict h flag)]
  refine congrArg (set.find? ·) (funext fun d => ?_)
  rw [Bool.eq_iff_iff, beq_iff_eq, Std.LawfulEqCmp.compare_eq_iff_eq, decide_eq_true_iff]

theorem filter_name (h : Sorted.Strict byName set) :
    set.filter (·.name = flag) = (find? set flag).toList := by
  rw [find?_eq_find? h]
  induction set with
  | nil => rfl
  | cons d rest ih =>
    obtain ⟨hd, hrest⟩ := List.pairwise_cons.mp h
    rw [List.filter_cons, List.find?_cons]
    by_cases hname : d.name = flag
    · have hself : compare flag flag = .eq := Std.ReflCmp.compare_self
      -- what stands behind `d` has a greater name
      have hbehind : rest.filter (·.name = flag) = [] :=
        List.filter_eq_nil_iff.mpr fun d' hd' heq => by
          have hlt : compare d.name d'.name = .lt := hd d' hd'
          rw [hname, of_decide_eq_true heq, hself] at hlt
          cases hlt
      rw [decide_eq_true hname, if_pos rfl, hbehind]
      rfl
    · rw [decide_eq_false hname, if_neg Bool.false_ne_true]
      exact ih hrest

theorem lastMention?_mentionsOf (h : Sorted.Strict byName set) :
    flag.lastMention? (mentionsOf set) = (find? set flag).bind default? := by
  have hfilter : (mentionsOf set).filter (·.1 = flag) =
      (set.filter (·.name = flag)).filterMap fun d => d.default?.map fun on => (d.name, on) := by
    rw [mentionsOf, List.filter_filterMap, List.filterMap_filter]
    refine congrArg (List.filterMap · set) (funext fun d => ?_)
    cases d.default? <;> by_cases hname : d.name = flag <;> simp [hname]
  rw [UseFlag.lastMention?, hfilter, filter_name h]
  cases find? set flag with
  | none => rfl
  | some d => cases hdefault : d.default? <;> simp [hdefault]

end DeclaredFlag

end PackageCatalog
