/-!
# Sorted lists

Sets, maps and sorted outputs are lists in the strictly increasing order of a comparison.
Putting an element in replaces the one that compares equal to it.
-/

namespace PackageCatalog.Sorted

variable {α κ : Type}

/-- Sorts a list; elements that compare equal keep their order. -/
def sort (cmp : α → α → Ordering) (xs : List α) : List α := xs.mergeSort fun a b => cmp a b != .gt

/-- Leaves out the elements that compare equal to the one kept before them. -/
def dropRepeats (cmp : α → α → Ordering) (previous : α) : List α → List α
  | [] => []
  | a :: rest =>
    if cmp previous a == .eq then dropRepeats cmp previous rest
    else a :: dropRepeats cmp a rest

/-- Sorts a list and keeps the first of those elements that compare equal. -/
def distinct (cmp : α → α → Ordering) (xs : List α) : List α :=
  match sort cmp xs with
  | [] => []
  | a :: rest => a :: dropRepeats cmp a rest

def insert (cmp : α → α → Ordering) (a : α) : List α → List α
  | [] => [a]
  | b :: rest =>
    match cmp a b with
    | .lt => a :: b :: rest
    | .eq => a :: rest
    | .gt => b :: insert cmp a rest

/-- Sets what stands under a key to `f` of what stood there. -/
def alter (cmp : κ → κ → Ordering) (key : κ) (f : Option α → α) : List (κ × α) → List (κ × α)
  | [] => [(key, f none)]
  | (k, a) :: rest =>
    match cmp key k with
    | .lt => (key, f none) :: (k, a) :: rest
    | .eq => (key, f (some a)) :: rest
    | .gt => (k, a) :: alter cmp key f rest

def find? (cmp : κ → κ → Ordering) (key : κ) : List (κ × α) → Option α
  | [] => none
  | (k, a) :: rest =>
    match cmp key k with
    | .lt => none
    | .eq => some a
    | .gt => find? cmp key rest

/-- Looks for an element by halving the list. `probe` says on which side of the place that is
looked for an element stands. -/
def search? (probe : α → Ordering) (xs : List α) : Option α :=
  match _h : xs.drop (xs.length / 2) with
  | [] => none
  | a :: after =>
    match probe a with
    | .lt => search? probe after
    | .eq => some a
    | .gt => search? probe (xs.take (xs.length / 2))
termination_by xs.length
decreasing_by
  all_goals
    have hlength := congrArg List.length _h
    simp only [List.length_drop, List.length_cons] at hlength
  · omega
  · rw [List.length_take]
    omega

end PackageCatalog.Sorted
