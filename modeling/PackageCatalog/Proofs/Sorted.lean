import PackageCatalog.Sorted

/-!
# Laws of sorted lists

Putting an element in keeps a list strictly increasing, and sorting without repeats gives such a
list, of the first elements among those that compare equal. In such a list, halving finds what
going through it finds. In a map, the keys behave as a set does under `insert`, and altering one
key changes what is found under that key alone; a map filled from a list holds the first or the
last element of each key.
-/

namespace PackageCatalog.Sorted

variable {α κ : Type} {cmp : α → α → Ordering} {a b : α} {xs : List α}

/-- The list is strictly increasing. -/
abbrev Strict (cmp : α → α → Ordering) (xs : List α) : Prop := xs.Pairwise (cmp · · = .lt)

theorem mem_of_mem_insert (h : b ∈ insert cmp a xs) : b = a ∨ b ∈ xs := by
  induction xs with
  | nil => exact .inl (List.mem_singleton.mp h)
  | cons x xs ih =>
    rw [insert] at h
    split at h
    · exact List.mem_cons.mp h
    · exact (List.mem_cons.mp h).imp_right (List.mem_cons_of_mem x)
    · rcases List.mem_cons.mp h with rfl | h
      · exact .inr List.mem_cons_self
      · exact (ih h).imp_right (List.mem_cons_of_mem x)

theorem mem_insert [Std.LawfulEqCmp cmp] : b ∈ insert cmp a xs ↔ b = a ∨ b ∈ xs := by
  refine ⟨mem_of_mem_insert, fun h => ?_⟩
  induction xs with
  | nil => exact List.mem_singleton.mpr (h.resolve_right List.not_mem_nil)
  | cons x xs ih =>
    rw [insert]
    split
    · exact List.mem_cons.mpr h
    · next heq =>
      cases Std.LawfulEqCmp.eq_of_compare heq
      rcases h with rfl | h
      · exact List.mem_cons_self
      · exact h
    · rw [List.mem_cons] at h ⊢
      rcases h with rfl | rfl | h
      · exact .inr (ih (.inl rfl))
      · exact .inl rfl
      · exact .inr (ih (.inr h))

theorem strict_insert [Std.TransCmp cmp] (h : Strict cmp xs) : Strict cmp (insert cmp a xs) := by
  induction xs with
  | nil => exact List.pairwise_singleton _ a
  | cons x xs ih =>
    obtain ⟨hx, hxs⟩ := List.pairwise_cons.mp h
    rw [insert]
    split
    · next hlt =>
      refine List.pairwise_cons.mpr ⟨fun b hb => ?_, h⟩
      rcases List.mem_cons.mp hb with rfl | hb
      · exact hlt
      · exact Std.TransCmp.lt_trans hlt (hx b hb)
    · next heq =>
      exact List.pairwise_cons.mpr ⟨fun b hb => Std.TransCmp.lt_of_eq_of_lt heq (hx b hb), hxs⟩
    · next hgt =>
      refine List.pairwise_cons.mpr ⟨fun b hb => ?_, ih hxs⟩
      rcases mem_of_mem_insert hb with rfl | hb
      · exact Std.OrientedCmp.lt_of_gt hgt
      · exact hx b hb

/-- What compares equal to the element put in makes way for it, and all else stays. -/
theorem mem_insert_of_strict [Std.TransCmp cmp] (h : Strict cmp xs) :
    b ∈ insert cmp a xs ↔ b = a ∨ b ∈ xs ∧ cmp a b ≠ .eq := by
  induction xs with
  | nil => exact List.mem_singleton.trans (or_iff_left fun h => absurd h.1 List.not_mem_nil).symm
  | cons x xs ih =>
    obtain ⟨hx, hxs⟩ := List.pairwise_cons.mp h
    have hbehind (hle : (cmp a x).isLE) : ∀ y ∈ xs, cmp a y ≠ .eq := by
      intro y hy heq
      have hlt := Std.TransCmp.lt_of_isLE_of_lt hle (hx y hy)
      rw [heq] at hlt
      cases hlt
    rw [insert]
    cases hcmp : cmp a x with
    | lt =>
      have hnone : ∀ y ∈ x :: xs, cmp a y ≠ .eq :=
        List.forall_mem_cons.mpr ⟨by rw [hcmp]; nofun, hbehind (by rw [hcmp]; rfl)⟩
      exact List.mem_cons.trans (or_congr_right (and_iff_left_of_imp (hnone b)).symm)
    | eq =>
      dsimp only
      rw [List.mem_cons, List.mem_cons]
      refine or_congr_right ⟨fun hb => ⟨.inr hb, hbehind (by rw [hcmp]; rfl) b hb⟩, ?_⟩
      rintro ⟨rfl | hb, hne⟩
      · exact absurd hcmp hne
      · exact hb
    | gt =>
      dsimp only
      have hne : cmp a x ≠ .eq := by rw [hcmp]; nofun
      have hrest : b ∈ insert cmp a xs ↔ b = a ∨ b ∈ xs ∧ cmp a b ≠ .eq := ih hxs
      rw [List.mem_cons, List.mem_cons, hrest]
      constructor
      · rintro (rfl | rfl | ⟨hb, hkept⟩)
        · exact .inr ⟨.inl rfl, hne⟩
        · exact .inl rfl
        · exact .inr ⟨.inr hb, hkept⟩
      · rintro (rfl | ⟨rfl | hb, hkept⟩)
        · exact .inr (.inl rfl)
        · exact .inl rfl
        · exact .inr (.inr ⟨hb, hkept⟩)

theorem nodup_of_strict [Std.ReflCmp cmp] (h : Strict cmp xs) : xs.Nodup := by
  refine h.imp fun {a b} hlt heq => ?_
  have hself : cmp a a = .eq := Std.ReflCmp.compare_self
  rw [← heq, hself] at hlt
  cases hlt

/-! ## Sorting -/

theorem sort_eq_mergeSort : sort cmp xs = xs.mergeSort fun a b => (cmp a b).isLE := by
  have hle : (fun a b => cmp a b != .gt) = fun a b => (cmp a b).isLE := by
    funext a b
    exact Ordering.isLE_eq_not_beq_gt.symm
  rw [sort, hle]

theorem isLE_total [Std.OrientedCmp cmp] (a b : α) : ((cmp a b).isLE || (cmp b a).isLE) = true := by
  rw [← Std.OrientedCmp.isGE_eq_isLE]
  cases cmp b a <;> rfl

theorem pairwise_sort [Std.TransCmp cmp] : (sort cmp xs).Pairwise fun a b => (cmp a b).isLE := by
  rw [sort_eq_mergeSort]
  exact List.pairwise_mergeSort (fun _ _ _ => Std.TransCmp.isLE_trans) isLE_total xs

/-- Sorting keeps the elements that compare equal to one in their order. -/
theorem filter_sort [Std.TransCmp cmp] :
    (sort cmp xs).filter (cmp b · == .eq) = xs.filter (cmp b · == .eq) := by
  have hequal : (xs.filter (cmp b · == .eq)).Pairwise fun x y => (cmp x y).isLE := by
    refine List.pairwise_iff_forall_sublist.mpr fun {x y} hxy => ?_
    have hx := (List.mem_filter.mp (hxy.mem List.mem_cons_self)).2
    have hy := (List.mem_filter.mp (hxy.mem (List.mem_cons_of_mem x List.mem_cons_self))).2
    have heq : cmp x y = .eq :=
      Std.TransCmp.eq_trans (Std.OrientedCmp.eq_symm (eq_of_beq hx)) (eq_of_beq hy)
    rw [heq]
    rfl
  have hkept : List.Sublist (xs.filter (cmp b · == .eq)) (sort cmp xs) := by
    rw [sort_eq_mergeSort]
    exact List.sublist_mergeSort (fun _ _ _ => Std.TransCmp.isLE_trans) isLE_total hequal
      List.filter_sublist
  have hlength := ((List.mergeSort_perm xs fun a b => cmp a b != .gt).filter
    (cmp b · == .eq)).length_eq
  have hfiltered := hkept.filter (cmp b · == .eq)
  rw [List.filter_filter] at hfiltered
  simp only [Bool.and_self] at hfiltered
  exact (hfiltered.eq_of_length hlength.symm).symm

theorem strict_dropRepeats [Std.TransCmp cmp] (h : (a :: xs).Pairwise fun a b => (cmp a b).isLE) :
    Strict cmp (a :: dropRepeats cmp a xs) := by
  induction xs generalizing a with
  | nil => exact List.pairwise_singleton _ a
  | cons x xs ih =>
    obtain ⟨ha, hrest⟩ := List.pairwise_cons.mp h
    obtain ⟨hax, haxs⟩ := List.forall_mem_cons.mp ha
    rw [dropRepeats]
    split
    · exact ih (List.pairwise_cons.mpr ⟨haxs, (List.pairwise_cons.mp hrest).2⟩)
    · next hne =>
      have hlt : cmp a x = .lt :=
        (Ordering.isLE_iff_eq_lt_or_eq_eq.mp hax).resolve_right fun heq => hne (beq_iff_eq.mpr heq)
      have hstrict := ih hrest
      refine List.pairwise_cons.mpr ⟨fun b hb => ?_, hstrict⟩
      rcases List.mem_cons.mp hb with rfl | hb
      · exact hlt
      · exact Std.TransCmp.lt_trans hlt ((List.pairwise_cons.mp hstrict).1 b hb)

theorem strict_distinct [Std.TransCmp cmp] : Strict cmp (distinct cmp xs) := by
  have hsorted : (sort cmp xs).Pairwise fun a b => (cmp a b).isLE := pairwise_sort
  unfold distinct
  split
  · exact .nil
  · next heq =>
    rw [heq] at hsorted
    exact strict_dropRepeats hsorted

theorem mem_dropRepeats [Std.LawfulEqCmp cmp] : b ∈ a :: dropRepeats cmp a xs ↔ b ∈ a :: xs := by
  induction xs generalizing a with
  | nil => rfl
  | cons x xs ih =>
    rw [dropRepeats]
    split
    · next heq =>
      -- the element left out is the one in front of it
      cases Std.LawfulEqCmp.eq_of_compare (beq_iff_eq.mp heq)
      rw [ih]
      simp only [List.mem_cons, or_self_left]
    · rw [List.mem_cons, ih, ← List.mem_cons]

theorem mem_distinct [Std.LawfulEqCmp cmp] : b ∈ distinct cmp xs ↔ b ∈ xs := by
  have hperm : (sort cmp xs).Perm xs := List.mergeSort_perm _ _
  rw [← hperm.mem_iff, distinct]
  split
  · next heq => rw [heq]
  · next heq => rw [heq, mem_dropRepeats]

theorem find?_dropRepeats {p : α → Bool} (hp : ∀ x y, cmp x y = .eq → p x = p y) :
    (a :: dropRepeats cmp a xs).find? p = (a :: xs).find? p := by
  induction xs generalizing a with
  | nil => rfl
  | cons x xs ih =>
    rw [dropRepeats]
    split
    · next heq =>
      -- the element left out has the property just if the one in front of it has
      have hsame : p a = p x := hp a x (eq_of_beq heq)
      rw [ih, List.find?_cons, List.find?_cons, List.find?_cons, ← hsame]
      cases p a <;> rfl
    · rw [List.find?_cons, ih]
      exact List.find?_cons.symm

/-- Of the elements that compare equal to one, the first is kept. -/
theorem find?_distinct [Std.TransCmp cmp] :
    (distinct cmp xs).find? (cmp b · == .eq) = xs.find? (cmp b · == .eq) := by
  have hsorted : (distinct cmp xs).find? (cmp b · == .eq) =
      (sort cmp xs).find? (cmp b · == .eq) := by
    unfold distinct
    split
    · next heq => rw [heq]
    · next heq => rw [heq, find?_dropRepeats fun x y hxy => by rw [Std.TransCmp.congr_right hxy]]
  rw [hsorted, ← List.head?_filter, filter_sort, List.head?_filter]

/-- An element of a strictly increasing list is the one that compares equal to it. -/
theorem mem_iff_find?_of_strict [Std.TransCmp cmp] (h : Strict cmp xs) :
    a ∈ xs ↔ xs.find? (cmp a · == .eq) = some a := by
  refine ⟨fun ha => ?_, List.mem_of_find?_eq_some⟩
  obtain ⟨front, back, rfl⟩ := List.append_of_mem ha
  have hself : cmp a a = .eq := Std.ReflCmp.compare_self
  refine List.find?_eq_some_iff_append.mpr ⟨beq_iff_eq.mpr hself, front, back, rfl, fun x hx => ?_⟩
  have hgt := Std.OrientedCmp.gt_of_lt
    ((List.pairwise_append.mp h).2.2 x hx a List.mem_cons_self)
  rw [hgt]
  rfl

/-- What is kept is what comes first among the elements that compare equal to it. -/
theorem mem_distinct_iff_find? [Std.TransCmp cmp] :
    a ∈ distinct cmp xs ↔ xs.find? (cmp a · == .eq) = some a := by
  rw [mem_iff_find?_of_strict strict_distinct, find?_distinct]

theorem exists_mem_distinct [Std.TransCmp cmp] (h : a ∈ xs) :
    ∃ b ∈ distinct cmp xs, cmp a b = .eq := by
  have hself : cmp a a = .eq := Std.ReflCmp.compare_self
  have hsome : (xs.find? (cmp a · == .eq)).isSome :=
    List.find?_isSome.mpr ⟨a, h, beq_iff_eq.mpr hself⟩
  obtain ⟨b, hb⟩ := Option.isSome_iff_exists.mp hsome
  rw [← find?_distinct] at hb
  have heq := List.find?_some hb
  exact ⟨b, List.mem_of_find?_eq_some hb, eq_of_beq heq⟩

/-! ## Searching -/

section Searching

variable {probe : α → Ordering} {front after : List α}

/-- `probe` calls the elements of a list less up to some place, and greater behind it. -/
abbrev Parts (probe : α → Ordering) (xs : List α) : Prop :=
  xs.Pairwise fun a b => probe a ≠ .lt → probe b = .gt

/-- An element tells on which side of it the place is. -/
theorem find?_of_parts (h : Parts probe (front ++ a :: after)) :
    (front ++ a :: after).find? (probe · == .eq) =
      match probe a with
      | .lt => after.find? (probe · == .eq)
      | .eq => some a
      | .gt => front.find? (probe · == .eq) := by
  obtain ⟨-, hafter, hfront⟩ := List.pairwise_append.mp h
  have hless : probe a ≠ .gt → front.find? (probe · == .eq) = none := fun ha =>
    List.find?_eq_none.mpr fun b hb heq =>
      ha (hfront b hb a List.mem_cons_self (by rw [eq_of_beq heq]; nofun))
  rw [List.find?_append, List.find?_cons]
  cases ha : probe a with
  | lt => rw [hless (by rw [ha]; nofun)]; rfl
  | eq => rw [hless (by rw [ha]; nofun)]; rfl
  | gt =>
    have hgreater : after.find? (probe · == .eq) = none :=
      List.find?_eq_none.mpr fun b hb heq => by
        rw [(List.pairwise_cons.mp hafter).1 b hb (by rw [ha]; nofun)] at heq
        cases heq
    exact (congrArg _ hgreater).trans Option.or_none

theorem find?_of_drop {n : Nat} (h : Parts probe xs) (hdrop : xs.drop n = a :: after) :
    xs.find? (probe · == .eq) =
      match probe a with
      | .lt => after.find? (probe · == .eq)
      | .eq => some a
      | .gt => (xs.take n).find? (probe · == .eq) := by
  have hsplit := List.take_append_drop n xs
  rw [hdrop] at hsplit
  have hparts := find?_of_parts (hsplit.symm ▸ h)
  rwa [hsplit] at hparts

/-- Halving a list finds what going through it finds. -/
theorem search?_eq_find? (h : Parts probe xs) : search? probe xs = xs.find? (probe · == .eq) := by
  fun_induction search? probe xs with
  | case1 xs hdrop =>
    have hlength := List.drop_eq_nil_iff.mp hdrop
    rw [List.eq_nil_of_length_eq_zero (by omega : xs.length = 0)]
    rfl
  | case2 xs a after hdrop hprobe ih =>
    have hrest : Parts probe (a :: after) := hdrop ▸ h.sublist (List.drop_sublist _ xs)
    rw [ih (List.pairwise_cons.mp hrest).2, find?_of_drop h hdrop, hprobe]
  | case3 xs a after hdrop hprobe => rw [find?_of_drop h hdrop, hprobe]
  | case4 xs a after hdrop hprobe ih =>
    rw [ih (h.sublist (List.take_sublist _ xs)), find?_of_drop h hdrop, hprobe]

end Searching

/-! ## The first with a property -/

section First

variable {R : α → α → Prop} {p p' : α → Bool}

/-- In a sorted list the first element with a property comes before all others that have it. -/
theorem rel_of_find? (hsorted : xs.Pairwise R) (hrefl : ∀ a, R a a) (hfirst : xs.find? p = some a)
    (hb : b ∈ xs) (hp : p b = true) : R a b := by
  obtain ⟨-, front, back, rfl, hfront⟩ := List.find?_eq_some_iff_append.mp hfirst
  rw [List.mem_append, List.mem_cons] at hb
  rcases hb with hb | rfl | hb
  · have hnot := hfront b hb
    rw [hp] at hnot
    cases hnot
  · exact hrefl b
  · exact (List.pairwise_cons.mp (List.pairwise_append.mp hsorted).2.1).1 b hb

/-- The first with a property is also the first with a narrower one, if it has that. -/
theorem find?_of_imp (hfirst : xs.find? p = some a) (ha : p' a = true)
    (h : ∀ b, p' b = true → p b = true) : xs.find? p' = some a := by
  obtain ⟨-, front, back, rfl, hfront⟩ := List.find?_eq_some_iff_append.mp hfirst
  refine List.find?_eq_some_iff_append.mpr ⟨ha, front, back, rfl, fun b hb => ?_⟩
  have hnot := hfront b hb
  rw [Bool.not_eq_true'] at hnot ⊢
  exact Bool.eq_false_iff.mpr fun hp' => Bool.eq_false_iff.mp hnot (h b hp')

end First

/-! ## Maps -/

variable {cmp : κ → κ → Ordering} {key key' : κ} {f : Option α → α} {entries : List (κ × α)}

theorem map_fst_alter :
    (alter cmp key f entries).map Prod.fst = insert cmp key (entries.map Prod.fst) := by
  induction entries with
  | nil => rfl
  | cons entry entries ih =>
    obtain ⟨k, v⟩ := entry
    rw [alter, List.map_cons, insert]
    cases cmp key k with
    | lt => rfl
    | eq => rfl
    | gt => exact congrArg (k :: ·) ih

/-- An entry of an altered map was there, or is the one that was altered. -/
theorem mem_alter [Std.LawfulEqCmp cmp] {entry : κ × α} (h : entry ∈ alter cmp key f entries) :
    entry ∈ entries ∨ entry = (key, f none) ∨ ∃ v, (key, v) ∈ entries ∧ entry = (key, f (some v)) := by
  induction entries with
  | nil => exact .inr (.inl (List.mem_singleton.mp h))
  | cons first entries ih =>
    obtain ⟨k, v⟩ := first
    rw [alter] at h
    split at h
    · rcases List.mem_cons.mp h with rfl | h
      · exact .inr (.inl rfl)
      · exact .inl h
    · next heq =>
      cases Std.LawfulEqCmp.eq_of_compare heq
      rcases List.mem_cons.mp h with rfl | h
      · exact .inr (.inr ⟨v, List.mem_cons_self, rfl⟩)
      · exact .inl (List.mem_cons_of_mem _ h)
    · rcases List.mem_cons.mp h with rfl | h
      · exact .inl List.mem_cons_self
      · rcases ih h with h | h | ⟨w, hw, rfl⟩
        · exact .inl (List.mem_cons_of_mem _ h)
        · exact .inr (.inl h)
        · exact .inr (.inr ⟨w, List.mem_cons_of_mem _ hw, rfl⟩)

theorem find?_alter_self [Std.ReflCmp cmp] :
    find? cmp key (alter cmp key f entries) = some (f (find? cmp key entries)) := by
  have hself : cmp key key = .eq := Std.ReflCmp.compare_self
  induction entries with
  | nil => simp only [alter, find?, hself]
  | cons first entries ih =>
    obtain ⟨k, v⟩ := first
    cases hcmp : cmp key k with
    | lt => simp only [alter, find?, hself, hcmp]
    | eq => simp only [alter, find?, hself, hcmp]
    | gt =>
      simp only [alter, find?, hcmp]
      exact ih

theorem find?_alter_of_ne [Std.TransCmp cmp] [Std.LawfulEqCmp cmp] (h : key' ≠ key) :
    find? cmp key' (alter cmp key f entries) = find? cmp key' entries := by
  have hne : cmp key' key ≠ .eq := fun heq => h (Std.LawfulEqCmp.eq_of_compare heq)
  induction entries with
  | nil =>
    simp only [alter, find?]
    cases hcmp' : cmp key' key with
    | lt => rfl
    | eq => exact absurd hcmp' hne
    | gt => rfl
  | cons first entries ih =>
    obtain ⟨k, v⟩ := first
    cases hcmp : cmp key k with
    | lt =>
      simp only [alter, hcmp]
      rw [find?]
      cases hcmp' : cmp key' key with
      | lt => simp only [find?, Std.TransCmp.lt_trans hcmp' hcmp]
      | eq => exact absurd hcmp' hne
      | gt => rfl
    | eq =>
      cases Std.LawfulEqCmp.eq_of_compare hcmp
      simp only [alter, find?, hcmp]
      cases hcmp' : cmp key' key with
      | lt => rfl
      | eq => exact absurd hcmp' hne
      | gt => rfl
    | gt => simp only [alter, find?, hcmp, ih]

/-- Altering a key changes what stands under it and nothing else. -/
theorem find?_alter [Std.TransCmp cmp] [Std.LawfulEqCmp cmp] [DecidableEq κ] :
    find? cmp key' (alter cmp key f entries) =
      if key' = key then some (f (find? cmp key entries)) else find? cmp key' entries := by
  by_cases h : key' = key
  · rw [if_pos h, h, find?_alter_self]
  · rw [if_neg h, find?_alter_of_ne h]

/-- In a strictly increasing map, what stands under a key is what its entry says. -/
theorem find?_eq_some_iff [Std.TransCmp cmp] [Std.LawfulEqCmp cmp] {v : α}
    (h : Strict cmp (entries.map Prod.fst)) :
    find? cmp key entries = some v ↔ (key, v) ∈ entries := by
  have hself : ∀ k, cmp k k = .eq := fun k => Std.ReflCmp.compare_self
  induction entries with
  | nil => exact iff_of_false (fun h => by cases h) List.not_mem_nil
  | cons first entries ih =>
    obtain ⟨k, w⟩ := first
    obtain ⟨hk, hentries⟩ := List.pairwise_cons.mp h
    have hbehind : ∀ entry ∈ entries, cmp k entry.1 = .lt := fun entry hentry =>
      hk entry.1 (List.mem_map_of_mem hentry)
    rw [List.mem_cons]
    cases hcmp : cmp key k with
    | lt =>
      simp only [find?, hcmp]
      refine iff_of_false (fun h => by cases h) ?_
      rintro (heq | hmem)
      · cases heq
        rw [hself] at hcmp
        cases hcmp
      · have hlt := Std.TransCmp.lt_trans hcmp (hbehind _ hmem)
        rw [hself] at hlt
        cases hlt
    | eq =>
      cases Std.LawfulEqCmp.eq_of_compare hcmp
      simp only [find?, hcmp]
      constructor
      · intro hw
        cases hw
        exact .inl rfl
      · rintro (heq | hmem)
        · cases heq
          rfl
        · have hlt := hbehind _ hmem
          rw [hcmp] at hlt
          cases hlt
    | gt =>
      simp only [find?, hcmp]
      refine (ih hentries).trans ⟨.inr, fun h => h.resolve_left fun heq => ?_⟩
      cases heq
      rw [hself] at hcmp
      cases hcmp

/-! ## Maps filled from a list -/

variable {key : α → κ} {k : κ} {pick : κ → Option α}

theorem strict_foldl_alter [Std.TransCmp cmp] {f : α → Option α → α}
    (h : Strict cmp (entries.map Prod.fst)) :
    Strict cmp
      ((xs.foldl (fun kept a => alter cmp (key a) (f a) kept) entries).map Prod.fst) := by
  induction xs generalizing entries with
  | nil => exact h
  | cons x xs ih =>
    refine ih ?_
    rw [map_fst_alter]
    exact strict_insert h

/-- An element put in under its key takes the place of an earlier one. -/
theorem find?_foldl_last [Std.TransCmp cmp] [Std.LawfulEqCmp cmp] [DecidableEq κ] :
    find? cmp k (xs.foldl (fun kept a => alter cmp (key a) (fun _ => a) kept) entries) =
      (xs.reverse.find? (key · = k)).or (find? cmp k entries) := by
  induction xs generalizing entries with
  | nil => rfl
  | cons x xs ih =>
    rw [List.foldl_cons, ih, find?_alter, List.reverse_cons, List.find?_append, Option.or_assoc]
    by_cases h : key x = k
    · simp [h]
    · simp [h, Ne.symm h]

/-- An element is put in under its key unless there is one already. -/
theorem find?_foldl_first [Std.TransCmp cmp] [Std.LawfulEqCmp cmp] [DecidableEq κ] :
    find? cmp k (xs.foldl (fun kept a => alter cmp (key a) (·.getD a) kept) entries) =
      (find? cmp k entries).or (xs.find? (key · = k)) := by
  induction xs generalizing entries with
  | nil => exact Option.or_none.symm
  | cons x xs ih =>
    rw [List.foldl_cons, ih, find?_alter]
    by_cases h : key x = k
    · cases hfound : find? cmp k entries <;> simp [h, hfound]
    · simp [h, Ne.symm h]

/-- The map holds, under each key, the element that is picked for it. -/
structure Holds (cmp : κ → κ → Ordering) (key : α → κ) (pick : κ → Option α)
    (entries : List (κ × α)) : Prop where
  strict : Strict cmp (entries.map Prod.fst)
  find : ∀ k, find? cmp k entries = pick k
  key : ∀ k a, pick k = some a → key a = k

namespace Holds

theorem last [Std.TransCmp cmp] [Std.LawfulEqCmp cmp] [DecidableEq κ] :
    Holds cmp key (fun k => xs.reverse.find? (key · = k))
      (xs.foldl (fun kept a => alter cmp (key a) (fun _ => a) kept) []) where
  strict := strict_foldl_alter .nil
  find k := find?_foldl_last.trans Option.or_none
  key k a h := by
    have hkey := List.find?_some h
    exact of_decide_eq_true hkey

theorem first [Std.TransCmp cmp] [Std.LawfulEqCmp cmp] [DecidableEq κ] :
    Holds cmp key (fun k => xs.find? (key · = k))
      (xs.foldl (fun kept a => alter cmp (key a) (·.getD a) kept) []) where
  strict := strict_foldl_alter .nil
  find k := find?_foldl_first
  key k a h := by
    have hkey := List.find?_some h
    exact of_decide_eq_true hkey

variable [Std.TransCmp cmp] [Std.LawfulEqCmp cmp]

theorem mem_iff (h : Holds cmp key pick entries) : (k, a) ∈ entries ↔ pick k = some a := by
  rw [← h.find, find?_eq_some_iff h.strict]

/-- The values are the elements that are picked for their own key. -/
theorem mem_values_iff (h : Holds cmp key pick entries) :
    a ∈ entries.map Prod.snd ↔ pick (key a) = some a := by
  constructor
  · intro ha
    obtain ⟨⟨k, b⟩, hentry, rfl⟩ := List.mem_map.mp ha
    have hpick := h.mem_iff.mp hentry
    rwa [← h.key k b hpick] at hpick
  · intro hpick
    exact List.mem_map_of_mem (f := Prod.snd) (h.mem_iff.mpr hpick)

theorem strict_values (h : Holds cmp key pick entries) :
    Strict cmp ((entries.map Prod.snd).map key) := by
  have hkeys : (entries.map Prod.snd).map key = entries.map Prod.fst := by
    rw [List.map_map]
    exact List.map_congr_left fun (k, a) hentry => h.key k a (h.mem_iff.mp hentry)
  rw [hkeys]
  exact h.strict

end Holds

end PackageCatalog.Sorted
