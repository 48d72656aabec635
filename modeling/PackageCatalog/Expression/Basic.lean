import PackageCatalog.Name
import PackageCatalog.UseFlag

/-!
# Expressions

The values of `LICENSE`, `RESTRICT`, `PROPERTIES`, `HOMEPAGE` and `SRC_URI` are trees: leaves,
groups, `|| ( … )` groups and groups under a USE condition. This module holds the tree, the
walks over its leaves, its evaluation and its text.
-/

namespace PackageCatalog

/-- A tree over leaves of type `α`. The root of a tree that was read is always `all`. -/
inductive Expression (α : Type) where
  | leaf (a : α)
  | all (children : List (Expression α))
  | any (children : List (Expression α))
  | when (flag : UseFlag) (negated : Bool) (children : List (Expression α))

namespace Expression

variable {α : Type}

/-! ## Leaves -/

mutual

/-- The leaves in document order, conditions left aside. -/
def leaves : Expression α → List α
  | leaf a => [a]
  | all children => leavesOf children
  | any children => leavesOf children
  | when _ _ children => leavesOf children

def leavesOf : List (Expression α) → List α
  | [] => []
  | e :: rest => e.leaves ++ leavesOf rest

end

mutual

/-- The leaves under conditions that hold, every member of an `any` group included. -/
def activeLeaves (enabled : UseFlag → Bool) : Expression α → List α
  | leaf a => [a]
  | all children => activeLeavesOf enabled children
  | any children => activeLeavesOf enabled children
  | when flag negated children =>
    if enabled flag != negated then activeLeavesOf enabled children else []

def activeLeavesOf (enabled : UseFlag → Bool) : List (Expression α) → List α
  | [] => []
  | e :: rest => e.activeLeaves enabled ++ activeLeavesOf enabled rest

end

/-! ## Evaluation -/

mutual

/-- Whether the tree is satisfied when `accept` decides on leaves: an `any` group needs one
member unless it is empty, and a condition that does not hold is satisfied. -/
def evaluate (enabled : UseFlag → Bool) (accept : α → Bool) : Expression α → Bool
  | leaf a => accept a
  | all children => evaluateAll enabled accept children
  | any children => children.isEmpty || evaluateAny enabled accept children
  | when flag negated children =>
    enabled flag == negated || evaluateAll enabled accept children

def evaluateAll (enabled : UseFlag → Bool) (accept : α → Bool) : List (Expression α) → Bool
  | [] => true
  | e :: rest => e.evaluate enabled accept && evaluateAll enabled accept rest

def evaluateAny (enabled : UseFlag → Bool) (accept : α → Bool) : List (Expression α) → Bool
  | [] => false
  | e :: rest => e.evaluate enabled accept || evaluateAny enabled accept rest

end

/-! ## Text -/

/-- What stands in front of the children of a conditional group. -/
def conditionChars (flag : UseFlag) (negated : Bool) : List Char :=
  (if negated then ['!'] else []) ++ flag.text.toList ++ ['?', ' ', '(', ' ']

mutual

/-- The text of a tree inside another. -/
def nestedChars (leafChars : α → List Char) : Expression α → List Char
  | leaf a => leafChars a
  | all children => ['(', ' '] ++ childrenChars leafChars children ++ [' ', ')']
  | any children => ['|', '|', ' ', '(', ' '] ++ childrenChars leafChars children ++ [' ', ')']
  | when flag negated children =>
    conditionChars flag negated ++ childrenChars leafChars children ++ [' ', ')']

/-- The texts of a list of trees, a space between each two. -/
def childrenChars (leafChars : α → List Char) : List (Expression α) → List Char
  | [] => []
  | [e] => e.nestedChars leafChars
  | e :: f :: rest => e.nestedChars leafChars ++ ' ' :: childrenChars leafChars (f :: rest)

end

/-- The text of a tree; the outermost group has no brackets. -/
def chars (leafChars : α → List Char) : Expression α → List Char
  | all children => childrenChars leafChars children
  | e => e.nestedChars leafChars

end Expression

end PackageCatalog
