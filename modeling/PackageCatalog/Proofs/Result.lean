/-!
# Chains of results

When a chain of steps that may fail succeeds, each of its steps did; what each step of a fold
keeps, the fold keeps.
-/

namespace PackageCatalog.Result

variable {ε α β : Type}

theorem bind_eq_ok_iff {x : Except ε α} {f : α → Except ε β} {b : β} :
    (x >>= f) = .ok b ↔ ∃ a, x = .ok a ∧ f a = .ok b := by
  cases x with
  | error e =>
    constructor
    · intro h
      cases h
    · rintro ⟨a, h, -⟩
      cases h
  | ok a =>
    constructor
    · intro h
      exact ⟨a, rfl, h⟩
    · rintro ⟨a', h, hf⟩
      cases h
      exact hf

theorem bind_congr_of_ok {x : Except ε α} {f g : α → Except ε β} (h : ∀ a, x = .ok a → f a = g a) :
    (x >>= f) = (x >>= g) := by
  cases x with
  | error e => rfl
  | ok a => exact h a rfl

theorem not_exists_error_eq_ok {e : ε} : ¬ ∃ a : α, Except.error e = .ok a := by
  rintro ⟨a, h⟩
  cases h

/-- What is known of a result as an option is known of the result. -/
theorem exists_of_map_toOption {x : Except ε α} {g : α → β} {b : β}
    (h : x.toOption.map g = some b) : ∃ a, x = .ok a ∧ g a = b := by
  cases x with
  | error e => cases h
  | ok a => exact ⟨a, rfl, Option.some.inj h⟩

theorem eq_ok_of_toOption {x : Except ε α} {a : α} (h : x.toOption = some a) : x = .ok a := by
  cases x with
  | error e => cases h
  | ok b => rw [Option.some.inj h]

/-- What is computed from two results holds of the values that they have. -/
theorem eq_of_both {γ : Type} {x : Except ε α} {y : Except ε β} {a : α} {b : β} {g : α → β → γ}
    {c : γ} (hx : x = .ok a) (hy : y = .ok b)
    (h : (x.toOption.bind fun a => y.toOption.map fun b => g a b) = some c) : g a b = c := by
  rw [hx, hy] at h
  exact Option.some.inj h

theorem exists_ok_of_isSome {x : Except ε α} (h : x.toOption.isSome = true) : ∃ a, x = .ok a := by
  cases x with
  | error e => cases h
  | ok a => exact ⟨a, rfl⟩

theorem exists_error_of_isSome {x : Except ε α} (h : x.toOption.isSome = false) :
    ∃ e, x = .error e := by
  cases x with
  | error e => exact ⟨e, rfl⟩
  | ok a => cases h

/-- What goes on without an error succeeds just if its start does. -/
theorem exists_bind_eq_ok_iff {x : Except ε α} {f : α → Except ε β} (hf : ∀ a, ∃ b, f a = .ok b) :
    (∃ b, (x >>= f) = .ok b) ↔ ∃ a, x = .ok a := by
  cases x with
  | error e => exact iff_of_false not_exists_error_eq_ok not_exists_error_eq_ok
  | ok a => exact iff_of_true (hf a) ⟨a, rfl⟩

theorem exists_map_eq_ok_iff {x : Except ε α} {g : α → β} :
    (∃ b, (x >>= fun a => pure (g a)) = .ok b) ↔ ∃ a, x = .ok a :=
  exists_bind_eq_ok_iff fun a => ⟨g a, rfl⟩

theorem toOption_congr {x y : Except ε α} (h : ∀ a, x = .ok a ↔ y = .ok a) :
    x.toOption = y.toOption := by
  cases x with
  | ok a => rw [(h a).mp rfl]
  | error e =>
    cases y with
    | ok b => cases (h b).mpr rfl
    | error e' => rfl

/-- What a map gives is given for one of its elements. -/
theorem exists_of_mem_mapM {f : α → Except ε β} {xs : List α} {ys : List β}
    (h : xs.mapM f = .ok ys) {y : β} (hy : y ∈ ys) : ∃ x ∈ xs, f x = .ok y := by
  induction xs generalizing ys with
  | nil =>
    cases h
    cases hy
  | cons x xs ih =>
    rw [List.mapM_cons] at h
    obtain ⟨first, hfirst, h⟩ := bind_eq_ok_iff.mp h
    obtain ⟨rest, hrest, h⟩ := bind_eq_ok_iff.mp h
    cases h
    rcases List.mem_cons.mp hy with rfl | hy
    · exact ⟨x, List.mem_cons_self, hfirst⟩
    · obtain ⟨x', hx', hfx'⟩ := ih hrest hy
      exact ⟨x', List.mem_cons_of_mem x hx', hfx'⟩

/-- Each element of a mapped list gives one of the results. -/
theorem exists_mem_of_mapM {f : α → Except ε β} {xs : List α} {ys : List β}
    (h : xs.mapM f = .ok ys) {x : α} (hx : x ∈ xs) : ∃ y ∈ ys, f x = .ok y := by
  induction xs generalizing ys with
  | nil => cases hx
  | cons first xs ih =>
    rw [List.mapM_cons] at h
    obtain ⟨y, hy, h⟩ := bind_eq_ok_iff.mp h
    obtain ⟨rest, hrest, h⟩ := bind_eq_ok_iff.mp h
    cases h
    rcases List.mem_cons.mp hx with rfl | hx
    · exact ⟨y, List.mem_cons_self, hy⟩
    · obtain ⟨y', hy', hfx⟩ := ih hrest hx
      exact ⟨y', List.mem_cons_of_mem y hy', hfx⟩

/-- A map with a function that `g` undoes gives just what `g` takes back to its elements. -/
theorem mapM_eq_ok_iff_eq_map {f : α → Except ε β} {g : β → α} {xs : List α} {ys : List β}
    (h : ∀ x y, f x = .ok y ↔ x = g y) : xs.mapM f = .ok ys ↔ xs = ys.map g := by
  induction xs generalizing ys with
  | nil =>
    refine ⟨fun hys => ?_, fun hys => ?_⟩
    · cases hys
      rfl
    · cases List.map_eq_nil_iff.mp hys.symm
      rfl
  | cons x xs ih =>
    rw [List.mapM_cons, bind_eq_ok_iff]
    constructor
    · rintro ⟨y, hy, hys⟩
      obtain ⟨rest, hrest, hys⟩ := bind_eq_ok_iff.mp hys
      cases hys
      rw [(h x y).mp hy, ih.mp hrest, List.map_cons]
    · intro hys
      obtain ⟨y, rest, rfl, hy, hrest⟩ := List.map_eq_cons_iff.mp hys.symm
      refine ⟨y, (h x y).mpr hy.symm, bind_eq_ok_iff.mpr ⟨rest, ih.mpr hrest.symm, rfl⟩⟩

/-- A map fails with the error of the first element that gives one. -/
theorem mapM_eq_error_iff {f : α → Except ε β} {xs : List α} {e : ε} :
    xs.mapM f = .error e ↔ ∃ before x after, xs = before ++ x :: after ∧ f x = .error e ∧
      ∀ y ∈ before, ∃ b, f y = .ok b := by
  induction xs with
  | nil =>
    refine iff_of_false nofun ?_
    rintro ⟨before, x, after, hxs, -⟩
    exact List.append_ne_nil_of_right_ne_nil before (List.cons_ne_nil x after) hxs.symm
  | cons first xs ih =>
    rw [List.mapM_cons]
    cases hfirst : f first with
    | error e' =>
      constructor
      · intro h
        cases h
        exact ⟨[], first, xs, rfl, hfirst, fun _ h => absurd h List.not_mem_nil⟩
      · rintro ⟨before, x, after, hxs, hx, hbefore⟩
        rcases List.cons_eq_append_iff.mp hxs with ⟨rfl, hcons⟩ | ⟨before, rfl, -⟩
        · cases hcons
          cases hfirst.symm.trans hx
          rfl
        · obtain ⟨b, hb⟩ := hbefore first List.mem_cons_self
          cases hfirst.symm.trans hb
    | ok b =>
      have hrest : (xs.mapM f >>= fun rest => pure (b :: rest)) = .error e ↔
          xs.mapM f = .error e := by
        cases xs.mapM f with
        | error e' => rfl
        | ok rest => exact iff_of_false nofun nofun
      refine hrest.trans (ih.trans ?_)
      constructor
      · rintro ⟨before, x, after, rfl, hx, hbefore⟩
        exact ⟨first :: before, x, after, rfl, hx, List.forall_mem_cons.mpr ⟨⟨b, hfirst⟩, hbefore⟩⟩
      · rintro ⟨before, x, after, hxs, hx, hbefore⟩
        rcases List.cons_eq_append_iff.mp hxs with ⟨rfl, hcons⟩ | ⟨before, rfl, rfl⟩
        · cases hcons
          cases hfirst.symm.trans hx
        · exact ⟨before, x, after, rfl, hx, (List.forall_mem_cons.mp hbefore).2⟩

/-- What is done with each result may be done with all of them. -/
theorem mapM_eq_map_mapM {γ : Type} {f : α → Except ε β} {g : α → Except ε γ} {put : γ → β}
    (h : ∀ x, f x = (g x).map put) (xs : List α) :
    xs.mapM f = (xs.mapM g).map fun ys => ys.map put := by
  induction xs with
  | nil => rfl
  | cons x xs ih =>
    rw [List.mapM_cons, List.mapM_cons, h, ih]
    cases g x with
    | error e => rfl
    | ok y => cases xs.mapM g <;> rfl

variable {f : α → β → Except ε α}

theorem foldlM_cons_eq_ok_iff {x : β} {xs : List β} {a c : α} :
    (x :: xs).foldlM f a = .ok c ↔ ∃ b, f a x = .ok b ∧ xs.foldlM f b = .ok c := by
  rw [List.foldlM_cons, bind_eq_ok_iff]

theorem foldlM_keeps {P : α → Prop} {xs : List β} {a c : α}
    (hstep : ∀ a x b, x ∈ xs → P a → f a x = .ok b → P b) (ha : P a)
    (h : xs.foldlM f a = .ok c) : P c := by
  induction xs generalizing a with
  | nil =>
    cases h
    exact ha
  | cons x xs ih =>
    obtain ⟨b, hb, hc⟩ := foldlM_cons_eq_ok_iff.mp h
    refine ih (fun a y b hy => hstep a y b (List.mem_cons_of_mem x hy)) ?_ hc
    exact hstep a x b List.mem_cons_self ha hb

/-- A fold whose steps succeed or fail whatever the state succeeds when each of them does. -/
theorem exists_foldlM_eq_ok_iff {Q : β → Prop} (hstep : ∀ a x, (∃ b, f a x = .ok b) ↔ Q x)
    (xs : List β) (a : α) : (∃ c, xs.foldlM f a = .ok c) ↔ ∀ x ∈ xs, Q x := by
  induction xs generalizing a with
  | nil => exact ⟨fun _ x hx => absurd hx List.not_mem_nil, fun _ => ⟨a, rfl⟩⟩
  | cons x xs ih =>
    rw [List.forall_mem_cons]
    constructor
    · rintro ⟨c, h⟩
      obtain ⟨b, hb, hc⟩ := foldlM_cons_eq_ok_iff.mp h
      exact ⟨(hstep a x).mp ⟨b, hb⟩, (ih b).mp ⟨c, hc⟩⟩
    · rintro ⟨hx, hxs⟩
      obtain ⟨b, hb⟩ := (hstep a x).mpr hx
      obtain ⟨c, hc⟩ := (ih b).mpr hxs
      exact ⟨c, foldlM_cons_eq_ok_iff.mpr ⟨b, hb, hc⟩⟩

/-- A fold whose steps put in what they find whatever the state finds all of it first. -/
theorem foldlM_eq_map_mapM {γ : Type} {found : β → Except ε (List γ)} {put : α → γ → α}
    (hstep : ∀ a x, f a x = (found x).map fun finds => finds.foldl put a) (xs : List β) (a : α) :
    xs.foldlM f a = (xs.mapM found).map fun finds => finds.flatten.foldl put a := by
  induction xs generalizing a with
  | nil => rfl
  | cons x xs ih =>
    rw [List.foldlM_cons, List.mapM_cons, hstep]
    cases found x with
    | error e => rfl
    | ok finds =>
      show xs.foldlM f (finds.foldl put a) = _
      rw [ih]
      cases xs.mapM found with
      | error e => rfl
      | ok more =>
        have happend : (finds :: more).flatten.foldl put a =
            more.flatten.foldl put (finds.foldl put a) := by
          rw [List.flatten_cons, List.foldl_append]
        exact congrArg Except.ok happend.symm

/-! ## Related results -/

/-- A relation between results that chains of results keep. -/
structure Congruence (R : (α : Type) → Except ε α → Except ε α → Prop) : Prop where
  refl : ∀ {α : Type} (x : Except ε α), R α x x
  bind : ∀ {α β : Type} {x y : Except ε α} {f g : α → Except ε β}, R α x y →
    (∀ a, x = .ok a → R β (f a) (g a)) → R β (x >>= f) (y >>= g)

/-- The results are the same if there are two. -/
def Agree (α : Type) (x y : Except ε α) : Prop := ∀ a b, x = .ok a → y = .ok b → a = b

theorem congruence_eq : Congruence fun (α : Type) (x y : Except ε α) => y = x where
  refl _ := rfl
  bind h hfg := by
    rw [h]
    exact bind_congr_of_ok hfg

theorem congruence_agree : Congruence (Agree (ε := ε)) where
  refl x a b ha hb := by
    rw [ha] at hb
    exact Except.ok.inj hb
  bind h hfg c d hc hd := by
    obtain ⟨a, ha, hc⟩ := bind_eq_ok_iff.mp hc
    obtain ⟨b, hb, hd⟩ := bind_eq_ok_iff.mp hd
    cases h a b ha hb
    exact hfg a ha c d hc hd

namespace Congruence

variable {R : (α : Type) → Except ε α → Except ε α → Prop} (hR : Congruence R)

include hR

theorem mapM {f g : α → Except ε β} {xs : List α} (h : ∀ x ∈ xs, R β (f x) (g x)) :
    R (List β) (xs.mapM f) (xs.mapM g) := by
  induction xs with
  | nil => exact hR.refl _
  | cons x xs ih =>
    rw [List.forall_mem_cons] at h
    rw [List.mapM_cons, List.mapM_cons]
    exact hR.bind h.1 fun _ _ => hR.bind (ih h.2) fun _ _ => hR.refl _

theorem foldlM {f g : β → α → Except ε β} {xs : List α} (h : ∀ b, ∀ x ∈ xs, R β (f b x) (g b x))
    (b : β) : R β (xs.foldlM f b) (xs.foldlM g b) := by
  induction xs generalizing b with
  | nil => exact hR.refl _
  | cons x xs ih =>
    rw [List.foldlM_cons, List.foldlM_cons]
    refine hR.bind (h b x List.mem_cons_self) fun b' _ => ?_
    exact ih (fun b x hx => h b x (List.mem_cons_of_mem _ hx)) b'

end Congruence

end PackageCatalog.Result
