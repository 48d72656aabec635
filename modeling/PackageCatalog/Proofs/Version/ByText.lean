import PackageCatalog.Proofs.Text
import PackageCatalog.Proofs.Version.Components
import PackageCatalog.Proofs.Version.Order

/-!
# Versions compared by their texts

The order said without weights. Components of different kinds are ordered by kind, those of
one kind by their texts: the first pair of numbers without leading zeros; a later pair without
final zeros when one of the two starts with a zero; all else by length first. A revision 0
ties with the end of a version, and what is unbounded exceeds what is not.
`Version.compare_eq_compareByText` shows that weights give the same order.
-/

namespace PackageCatalog

namespace Component

/-- The order of texts by length, then by characters. -/
def compareLengthFirst (s t : List Char) : Ordering :=
  (compare s.length t.length).then (compare s t)

/-- The order of the texts of two numbers; `leading` says that no pair was compared before. -/
def compareNumbers (leading : Bool) (s t : List Char) : Ordering :=
  if leading then compareLengthFirst (s.dropWhile (· == '0')) (t.dropWhile (· == '0'))
  else if s.head? = some '0' ∨ t.head? = some '0' then
    compare (Text.dropTail (· == '0') s) (Text.dropTail (· == '0') t)
  else compareLengthFirst s t

def compareValues (leading : Bool) (c d : Component) : Ordering :=
  if c.kind = .number then compareNumbers leading c.valueChars d.valueChars
  else match c.isUnbounded, d.isUnbounded with
    | true, true => .eq
    | true, false => .gt
    | false, true => .lt
    | false, false => compareLengthFirst c.valueChars d.valueChars

def compareByText (leading : Bool) (c d : Component) : Ordering :=
  if c.kind = d.kind then compareValues leading c d else compare c.kind.rank d.kind.rank

def compareToEnd (c : Component) : Ordering :=
  if c.kind = .revision ∧ c.valueChars = ['0'] then .eq
  else compare c.kind.rank ComponentKind.finish.rank

def bothNumbers (c d : Component) : Bool := c.kind == .number && d.kind == .number

end Component

namespace Version

/-- The order of two lists of components; `leading` says that no two numbers were compared
before. -/
def compareFrom (leading : Bool) : List Component → List Component → Ordering
  | [], [] => .eq
  | [], d :: ds => d.compareToEnd.swap.then (compareFrom leading [] ds)
  | c :: cs, [] => c.compareToEnd.then (compareFrom leading cs [])
  | c :: cs, d :: ds =>
    (c.compareByText leading d).then (compareFrom (leading && !c.bothNumbers d) cs ds)

/-- The order of versions by the texts of their components. -/
def compareByText (a b : Version) : Ordering := compareFrom true a.components b.components

end Version

/-! ## One component -/

namespace Component

theorem compareLengthFirst_chars {as bs : List Digit}
    (ha : bs.length < as.length → as.head? ≠ some 0)
    (hb : as.length < bs.length → bs.head? ≠ some 0) :
    compareLengthFirst (Digit.chars as) (Digit.chars bs) =
      compare (Digit.value as) (Digit.value bs) := by
  rw [Digit.compare_value ha hb, compareLengthFirst, Digit.compare_chars, Digit.length_chars,
    Digit.length_chars]

theorem compareLengthFirst_counts (as bs : List Digit) :
    compareLengthFirst (Digit.chars (countDigits as)) (Digit.chars (countDigits bs)) =
      compare (Digit.value as) (Digit.value bs) := by
  rw [compareLengthFirst_chars (head?_countDigits_ne (length_countDigits_pos bs))
    (head?_countDigits_ne (length_countDigits_pos as)), value_countDigits, value_countDigits]

theorem compareLengthFirst_letters (l m : Letter) :
    compareLengthFirst [l.toChar] [m.toChar] = compare l.val m.val := by
  decide +revert

theorem compareNumbers_eq (leading : Bool) (n m : Numeral) :
    compareNumbers leading n.chars m.chars =
      Weight.compare ((number n).weight leading) ((number m).weight leading) := by
  cases leading with
  | true =>
    rw [weight, weight, if_pos rfl, if_pos rfl, Weight.compare_values, compareNumbers, if_pos rfl,
      Numeral.chars, Numeral.chars, Digit.dropWhile_chars, Digit.dropWhile_chars,
      compareLengthFirst_chars (fun _ => Digit.head?_dropZeros_ne _)
        (fun _ => Digit.head?_dropZeros_ne _), Digit.value_dropZeros, Digit.value_dropZeros]
  | false =>
    simp only [compareNumbers, weight, Bool.false_eq_true, ↓reduceIte, Numeral.head?_chars]
    obtain ⟨d, ds⟩ := n
    obtain ⟨e, es⟩ := m
    by_cases hd : d = 0 <;> by_cases he : e = 0 <;>
      simp only [hd, he, true_or, or_true, or_self, ↓reduceIte, Numeral.chars, Numeral.digits,
        Digit.dropTail_chars, Digit.compare_chars]
    · rw [Weight.compare_digits]
    · rw [Digit.compare_dropFinalZeros_lt he]
      rfl
    · rw [Std.OrientedCmp.gt_of_lt (Digit.compare_dropFinalZeros_lt hd _ _)]
      rfl
    · rw [Weight.compare_values, compareLengthFirst_chars (fun _ => by simpa using hd)
        (fun _ => by simpa using he)]

theorem compareCounts_eq (k : ComponentKind) (as bs : List Digit) (u v : Bool) :
    (match u, v with
      | true, true => .eq
      | true, false => .gt
      | false, true => .lt
      | false, false =>
        compareLengthFirst (Digit.chars (countDigits as)) (Digit.chars (countDigits bs))) =
      Weight.compare (if u then ⟨k, true, 0, []⟩ else ⟨k, false, Digit.value as, []⟩)
        (if v then ⟨k, true, 0, []⟩ else ⟨k, false, Digit.value bs, []⟩) := by
  cases u <;> cases v
  · simp [Weight.compare_values, compareLengthFirst_counts]
  · simp [Weight.compare_low_high]
  · simp [Weight.compare_high_low]
  · simp [Weight.compare_values]

theorem compareValues_eq {leading : Bool} {c d : Component} (hk : c.kind = d.kind) :
    compareValues leading c d = Weight.compare (c.weight leading) (d.weight leading) := by
  rcases cases_of_kind_eq hk with ⟨n, m, rfl, rfl⟩ | ⟨l, m, rfl, rfl⟩ |
    ⟨k, as, u, bs, v, rfl, rfl⟩ | ⟨as, u, bs, v, rfl, rfl⟩ | ⟨rfl, rfl⟩ | ⟨as, bs, rfl, rfl⟩
  · exact compareNumbers_eq leading n m
  · rw [weight, weight, Weight.compare_values]
    exact compareLengthFirst_letters l m
  · rw [weight, weight, ← compareCounts_eq, compareValues,
      if_neg (by cases k <;> simp [kind, SuffixKind.component])]
    cases u <;> cases v <;> rfl
  · rw [weight, weight, ← compareCounts_eq, compareValues, if_neg (by simp [kind])]
    cases u <;> cases v <;> rfl
  · exact Std.ReflCmp.compare_self.symm
  · rw [compare_weight_revision]
    exact compareLengthFirst_counts as bs

/-- Between components of different kinds, a revision 0 counts like any revision. -/
theorem compare_weight_of_kind_ne {leading : Bool} {c d : Component} (hk : c.kind ≠ d.kind) :
    Weight.compare (c.weight leading) (d.weight leading) = compare c.kind.rank d.kind.rank := by
  have hrank {k : ComponentKind} (hr : k ≠ .revision) (hf : k ≠ .finish) :
      compare ComponentKind.finish.rank k.rank = compare ComponentKind.revision.rank k.rank ∧
        compare k.rank ComponentKind.finish.rank = compare k.rank ComponentKind.revision.rank := by
    cases k <;> first | exact ⟨rfl, rfl⟩ | exact absurd rfl hr | exact absurd rfl hf
  by_cases hc : c.weight leading = .finish <;> by_cases hd : d.weight leading = .finish
  · exact absurd ((weight_eq_finish_iff.mp hc).1.trans (weight_eq_finish_iff.mp hd).1.symm) hk
  · have hr := (weight_eq_finish_iff.mp hc).1
    rw [hr] at hk ⊢
    rw [hc, Weight.compare_of_kind_ne, kind_weight hd]
    · exact (hrank (Ne.symm hk) d.kind_ne_finish).1
    · rw [kind_weight hd]
      exact Ne.symm d.kind_ne_finish
  · have hr := (weight_eq_finish_iff.mp hd).1
    rw [hr] at hk ⊢
    rw [hd, Weight.compare_of_kind_ne, kind_weight hc]
    · exact (hrank hk c.kind_ne_finish).2
    · rw [kind_weight hc]
      exact c.kind_ne_finish
  · rw [Weight.compare_of_kind_ne, kind_weight hc, kind_weight hd]
    rwa [kind_weight hc, kind_weight hd]

/-- Weights order two components as their texts do. -/
theorem compareByText_eq (leading : Bool) (c d : Component) :
    c.compareByText leading d = Weight.compare (c.weight leading) (d.weight leading) := by
  rw [compareByText]
  split
  · next hk => exact compareValues_eq hk
  · next hk => exact (compare_weight_of_kind_ne hk).symm

theorem compareByText_of_kind_ne {c : Component} (hc : c.kind ≠ .number) (l m : Bool)
    (d : Component) : c.compareByText l d = c.compareByText m d := by
  rw [compareByText, compareByText, compareValues, compareValues, if_neg hc, if_neg hc]

theorem compareToEnd_eq (leading : Bool) (c : Component) :
    c.compareToEnd = Weight.compare (c.weight leading) .finish := by
  rw [compareToEnd]
  by_cases h : c.weight leading = .finish
  · rw [if_pos (weight_eq_finish_iff.mp h), h]
    exact Std.ReflCmp.compare_self.symm
  · rw [if_neg (fun hc => h (weight_eq_finish_iff.mpr hc)), Weight.compare_of_kind_ne,
      kind_weight h]
    · rfl
    · rw [kind_weight h]
      exact c.kind_ne_finish

end Component

/-! ## Whole versions -/

namespace Version

/-- Behind the leading numbers, or where there are none, `leading` no longer matters. -/
theorem compareFrom_eq {leading : Bool} {cs ds : List Component}
    (h : leading = true → ∀ c ∈ cs, c.kind ≠ .number) :
    compareFrom leading cs ds =
      compareWeights (cs.map (·.weight false)) (ds.map (·.weight false)) := by
  fun_induction compareFrom leading cs ds with
  | case1 leading => rw [List.map_nil, compareWeights]
  | case2 leading d ds ih =>
    rw [ih h, List.map_cons, List.map_nil, compareWeights, Component.compareToEnd_eq false,
      ← Std.OrientedCmp.eq_swap]
  | case3 leading c cs ih =>
    rw [ih fun hl e he => h hl e (List.mem_cons_of_mem _ he), List.map_cons, List.map_nil,
      compareWeights, Component.compareToEnd_eq false]
  | case4 leading c cs d ds ih =>
    have hc : c.compareByText leading d = c.compareByText false d := by
      cases leading with
      | false => rfl
      | true => exact Component.compareByText_of_kind_ne (h rfl c List.mem_cons_self) true false d
    rw [ih fun hl e he => h (Bool.and_eq_true_iff.mp hl).1 e (List.mem_cons_of_mem _ he), hc,
      List.map_cons, List.map_cons, compareWeights, Component.compareByText_eq]

/-- The order by weights is the order by texts. -/
theorem compare_eq_compareByText (a b : Version) : a.compare b = a.compareByText b := by
  rw [compare, weights, weights, compareByText]
  rcases a.components_cases with ⟨n, cs, ha⟩ | ⟨cs, ha, hcs⟩ <;>
    rcases b.components_cases with ⟨m, ds, hb⟩ | ⟨ds, hb, hds⟩ <;>
      rw [ha, hb, weightsOf, weightsOf, compareWeights, compareFrom, Component.compareByText_eq]
  · rw [compareFrom_eq]
    rintro ⟨⟩
  · rfl
  · rfl
  · rw [compareFrom_eq fun _ => hcs]

end Version

end PackageCatalog
