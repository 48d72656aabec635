import PackageCatalog.Proofs.Version.Revision

/-!
# What an operator admits is an interval

Between two candidates of a requirement lies no version that it refuses. For `~` this is so because
a version between two of one base has that base; for `=` with a star because candidates agree with
the version on its components, except for a bare suffix at its end, for which they agree in kind,
and kinds decide before all else.
-/

namespace PackageCatalog

namespace Version

open Weight (finish)

/-- Whatever lies between two versions of the set is in it. -/
def IsInterval (p : Version → Bool) : Prop :=
  ∀ a b c : Version, (a.compare b).isLE = true → (b.compare c).isLE = true →
    p a = true → p c = true → p b = true

theorem IsInterval.of_lower {p : Version → Bool}
    (h : ∀ a b : Version, (a.compare b).isLE = true → p b = true → p a = true) : IsInterval p :=
  fun _ b c _ hbc _ hc => h b c hbc hc

theorem IsInterval.of_upper {p : Version → Bool}
    (h : ∀ a b : Version, (a.compare b).isLE = true → p a = true → p b = true) : IsInterval p :=
  fun a b _ hab _ ha _ => h a b hab ha

/-- A set that does not tell equal versions apart. -/
theorem IsInterval.congr {p : Version → Bool} (hp : IsInterval p) {a b : Version}
    (h : a.equals b = true) : p a = p b := by
  rw [equals_iff] at h
  have hab : (a.compare b).isLE = true := by rw [h]; rfl
  have hba : (b.compare a).isLE = true := by rw [Std.OrientedCmp.eq_symm h]; rfl
  exact Bool.eq_iff_iff.mpr ⟨fun ha => hp a b a hab hba ha ha, fun hb => hp b a b hba hab hb hb⟩

/-! ## The walk of a star -/

section star

variable {first : Bool} {s : Component} {xs ys zs rest spec : List Component}

theorem kind_weight_eq_iff (first : Bool) (hs : s.isBareSuffix = true) {c : Component} :
    (c.weight first).kind = s.kind ↔ c.kind = s.kind := by
  by_cases hfinish : c.weight first = finish
  · -- A revision 0 weighs as much as the end, and is no suffix either way.
    rw [hfinish, (Component.weight_eq_finish_iff.mp hfinish).1]
    cases s with
    | suffix kind digits unbounded => cases kind <;> exact iff_of_false nofun nofun
    | _ => cases hs
  · rw [Component.kind_weight hfinish]

/-- A bare suffix at the end asks for its kind only. -/
theorem startWith_bare_iff (hs : s.isBareSuffix = true) :
    startWith first xs [s] = true ↔ ((weightsFrom first xs).headD finish).kind = s.kind := by
  rw [startWith, hs]
  cases xs with
  | nil =>
    refine iff_of_false (fun h => ?_) fun h => s.kind_ne_finish h.symm
    have htie := (Bool.and_eq_true_iff.mp h).1
    exact weight_ne_finish_of_isBareSuffix hs (Weight.eq_of_compare (beq_iff_eq.mp htie)).symm
  | cons c cs =>
    refine Iff.trans ⟨fun h => ?_, fun h => ?_⟩ (kind_weight_eq_iff first hs).symm
    · split at h
      · next hkind => exact beq_iff_eq.mp hkind
      · have htie := Weight.eq_of_compare (beq_iff_eq.mp (Bool.and_eq_true_iff.mp h).1)
        rw [← kind_weight_eq_iff first hs, htie]
        exact (kind_weight_eq_iff first hs).mpr rfl
    · exact if_pos (beq_iff_eq.mpr h)

theorem startWith_between
    (hxy : (compareWeights (weightsFrom first xs) (weightsFrom first ys)).isLE = true)
    (hyz : (compareWeights (weightsFrom first ys) (weightsFrom first zs)).isLE = true)
    (hx : startWith first xs spec = true) (hz : startWith first zs spec = true) :
    startWith first ys spec = true := by
  induction spec generalizing first xs ys zs with
  | nil => rw [startWith]
  | cons s rest ih =>
    have hlow := isLE_headD hxy
    have hhigh := isLE_headD hyz
    cases hlast : rest.isEmpty && s.isBareSuffix with
    | true =>
      obtain ⟨hrest, hs⟩ := Bool.and_eq_true_iff.mp hlast
      cases List.isEmpty_iff.mp hrest
      rw [startWith_bare_iff hs] at hx hz ⊢
      have hle := Weight.rank_le_of_isLE hlow
      have hge := Weight.rank_le_of_isLE hhigh
      rw [hx] at hle
      rw [hz] at hge
      exact ComponentKind.rank_injective (Nat.le_antisymm hge hle)
    | false =>
      rw [startWith_cons_iff hlast] at hx hz ⊢
      have hsame : (weightsFrom first xs).headD finish = (weightsFrom first ys).headD finish := by
        refine Weight.eq_of_isLE hlow ?_
        rwa [hx.1, ← hz.1]
      refine ⟨hsame.symm.trans hx.1, ih ?_ ?_ hx.2 hz.2⟩
      · rw [← tail_weightsFrom first, ← tail_weightsFrom first]
        exact isLE_tail hxy hsame
      · rw [← tail_weightsFrom first, ← tail_weightsFrom first]
        exact isLE_tail hyz (hsame.symm.trans (hx.1.trans hz.1.symm))

end star

theorem isInterval_meetsStar (s : Version) : IsInterval (·.meetsStar s) := by
  intro a b c hab hbc ha hc
  rw [compare, weights_eq_weightsFrom, weights_eq_weightsFrom] at hab hbc
  exact startWith_between hab hbc ha hc

theorem meetsStar_self (s : Version) : s.meetsStar s = true :=
  startWith_of_prefix (List.prefix_refl _)

/-! ## The walk of a tilde -/

theorem isInterval_meetsTilde (s : Version) : IsInterval (·.meetsTilde s) := by
  intro a b c hab hbc ha hc
  obtain ⟨hbase, hge⟩ := meetsTilde_iff_base.mp ha
  have hsame := hbase.trans (meetsTilde_iff_base.mp hc).1.symm
  refine meetsTilde_iff_base.mpr ⟨?_, ?_⟩
  · rw [← baseWeights_eq_of_between hab hbc hsame, hbase]
  · exact Std.TransCmp.isGE_trans (Std.OrientedCmp.isGE_of_isLE hab) hge

theorem meetsTilde_self (s : Version) : s.meetsTilde s = true :=
  meetsTilde_iff_base.mpr ⟨rfl, Std.OrientedCmp.isGE_of_isLE Std.ReflCmp.isLE_rfl⟩

end Version

/-! ## All operators -/

namespace VersionOperator

open Version

variable {a s : Version}

theorem matches?_lessEqual_iff : lessEqual.matches? a s = true ↔ (a.compare s).isLE = true :=
  bne_iff_ne.trans Ordering.ne_gt_iff_isLE

theorem matches?_greaterEqual_iff : greaterEqual.matches? a s = true ↔ (a.compare s).isGE = true :=
  bne_iff_ne.trans Ordering.ne_lt_iff_isGE

theorem isInterval_matches? (op : VersionOperator) (s : Version) :
    IsInterval (op.matches? · s) := by
  cases op with
  | less =>
    refine .of_lower fun a b hab hb => ?_
    exact beq_iff_eq.mpr (Std.TransCmp.lt_of_isLE_of_lt hab (beq_iff_eq.mp hb))
  | lessEqual =>
    refine .of_lower fun a b hab hb => ?_
    exact matches?_lessEqual_iff.mpr (Std.TransCmp.isLE_trans hab (matches?_lessEqual_iff.mp hb))
  | equal =>
    intro a b c hab hbc ha hc
    have ha : a.compare s = .eq := equals_iff.mp ha
    have hc : c.compare s = .eq := equals_iff.mp hc
    refine equals_iff.mpr ?_
    have hle : (b.compare s).isLE = true := Std.TransCmp.congr_right hc ▸ hbc
    have hge : (s.compare b).isLE = true := Std.TransCmp.congr_left ha ▸ hab
    exact Std.OrientedCmp.isLE_antisymm hle hge
  | equalStar => exact isInterval_meetsStar s
  | tilde => exact isInterval_meetsTilde s
  | greaterEqual =>
    refine .of_upper fun a b hab ha => ?_
    exact matches?_greaterEqual_iff.mpr (Std.TransCmp.isGE_trans
      (Std.OrientedCmp.isGE_of_isLE hab) (matches?_greaterEqual_iff.mp ha))
  | greater =>
    refine .of_upper fun a b hab ha => ?_
    exact beq_iff_eq.mpr
      (Std.TransCmp.gt_of_isGE_of_gt (Std.OrientedCmp.isGE_of_isLE hab) (beq_iff_eq.mp ha))

/-- An operator admits an interval of versions, and so equal versions alike. What equals a version
meets its star and its tilde, and what meets its tilde is not less. -/
theorem admits_interval (s : Version) :
    (∀ op : VersionOperator, IsInterval (op.matches? · s) ∧
        ∀ a b, a.equals b = true → op.matches? a s = op.matches? b s) ∧
      ∀ a, (equal.matches? a s = true →
          equalStar.matches? a s = true ∧ tilde.matches? a s = true) ∧
        (tilde.matches? a s = true → greaterEqual.matches? a s = true) := by
  refine ⟨fun op => ⟨op.isInterval_matches? s, fun a b => (op.isInterval_matches? s).congr⟩, ?_⟩
  refine fun a => ⟨fun hequal => ⟨?_, ?_⟩, fun htilde => ?_⟩
  · rw [(isInterval_matches? equalStar s).congr hequal]
    exact s.meetsStar_self
  · rw [(isInterval_matches? tilde s).congr hequal]
    exact s.meetsTilde_self
  · exact matches?_greaterEqual_iff.mpr (meetsTilde_iff_base.mp htilde).2

/-- `1.0_p5-r1` lies between `1.0_p3` and `1.0_p7`, which `=1.0_p*` admits. -/
theorem admits_between_patches :
    let patch (digits : List Digit) : Version := suffixed ⟨1, []⟩ [⟨0, []⟩] none [⟨.patch, digits⟩]
    ((patch [3]).compare (patch [5]).raised).isLE = true ∧
      ((patch [5]).raised.compare (patch [7])).isLE = true ∧
      equalStar.matches? (patch [3]) (patch []) = true ∧
      equalStar.matches? (patch [7]) (patch []) = true ∧
      equalStar.matches? (patch [5]).raised (patch []) = true := by
  intro patch
  have hlow : ((patch [3]).compare (patch [5]).raised).isLE = true := by
    rw [compare_eq_padded]
    decide
  have hhigh : ((patch [5]).raised.compare (patch [7])).isLE = true := by
    rw [compare_eq_padded]
    decide
  have hthree : equalStar.matches? (patch [3]) (patch []) = true := by decide +kernel
  have hseven : equalStar.matches? (patch [7]) (patch []) = true := by decide +kernel
  exact ⟨hlow, hhigh, hthree, hseven,
    ((admits_interval (patch [])).1 .equalStar).1 _ _ _ hlow hhigh hthree hseven⟩

end VersionOperator

end PackageCatalog
