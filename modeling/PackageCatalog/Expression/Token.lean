import PackageCatalog.Expression.Basic

/-!
# Tokens of an expression

Between a text and its tree stands a list of tokens: leaves, the openings of groups, and
closing brackets. Tokens need no space between them. What a leaf is depends on the variable
and is given by a `LeafFormat`.
-/

namespace PackageCatalog

namespace Expression

/-- How the leaves of one kind of expression are read and written. -/
structure LeafFormat (α : Type) where
  /-- Whether `|| ( … )` groups may occur. -/
  allowsAny : Bool
  /-- Reads a leaf at the start of a text. -/
  take? : List Char → Option (α × List Char)
  /-- The text of a leaf. -/
  chars : α → List Char
  /-- What a text that is no such expression is refused with. -/
  fault : Error
  /-- A leaf has at least one character. -/
  shrinks : ∀ {s : List Char} {a : α} {rest : List Char},
    take? s = some (a, rest) → rest.length < s.length

/-- What opens a group. -/
inductive Opening where
  | all
  | any
  | when (flag : UseFlag) (negated : Bool)
  deriving DecidableEq, Repr

/-- A token of an expression. -/
inductive Token (α : Type) where
  | leaf (a : α)
  | opens (o : Opening)
  | closes

def Opening.group {α : Type} : Opening → List (Expression α) → Expression α
  | all, children => .all children
  | any, children => .any children
  | when flag negated, children => .when flag negated children

def dropSpacing (s : List Char) : List Char := s.dropWhile Text.isSpacing

theorem length_dropSpacing_le (s : List Char) : (dropSpacing s).length ≤ s.length :=
  (List.dropWhile_suffix _).length_le

theorem length_of_dropSpacing {s rest : List Char} {c : Char} (h : dropSpacing s = c :: rest) :
    rest.length < s.length := by
  have hle := length_dropSpacing_le s
  rw [h, List.length_cons] at hle
  omega

/-- Reads an opening bracket behind optional spacing. -/
def takeOpen? (s : List Char) : Option (List Char) :=
  match dropSpacing s with
  | '(' :: rest => some rest
  | _ => none

theorem length_of_takeOpen? {s rest : List Char} (h : takeOpen? s = some rest) :
    rest.length < s.length := by
  unfold takeOpen? at h
  split at h
  · next r heq =>
    simp only [Option.some.injEq] at h
    subst h
    exact length_of_dropSpacing heq
  · simp at h

def takeNegation : List Char → Bool × List Char
  | '!' :: rest => (true, rest)
  | s => (false, s)

theorem length_takeNegation_le (s : List Char) : (takeNegation s).2.length ≤ s.length := by
  unfold takeNegation
  split <;> simp

/-- Reads the condition of a group, up to its question mark. -/
def takeCondition? (s : List Char) : Option (UseFlag × Bool × List Char) :=
  let start := takeNegation s
  match start.2.dropWhile NameKind.isUseFlagChar with
  | '?' :: rest =>
    (Name.ofText? .useFlag (String.ofList (start.2.takeWhile NameKind.isUseFlagChar))).map
      fun flag => (flag, start.1, rest)
  | _ => none

theorem length_of_takeCondition? {s rest : List Char} {flag : UseFlag} {negated : Bool}
    (h : takeCondition? s = some (flag, negated, rest)) : rest.length < s.length := by
  have h₁ := length_takeNegation_le s
  have h₂ := (List.dropWhile_suffix NameKind.isUseFlagChar (l := (takeNegation s).2)).length_le
  simp only [takeCondition?] at h
  split at h
  · next r heq =>
    rw [heq] at h₂
    simp only [Option.map_eq_some_iff, Prod.mk.injEq] at h
    obtain ⟨_, _, _, _, rfl⟩ := h
    simp only [List.length_cons] at h₂
    omega
  · simp at h

namespace Token

variable {α : Type}

/-- Reads a token at the start of a text that no spacing opens. A condition must be followed
by its group, and `|` starts nothing but an `any` group. -/
def take? (format : LeafFormat α) : List Char → Option (Token α × List Char)
  | '(' :: rest => some (opens .all, rest)
  | ')' :: rest => some (closes, rest)
  | '|' :: rest =>
    match rest with
    | '|' :: after =>
      if format.allowsAny then (takeOpen? after).map fun r => (opens .any, r) else none
    | _ => none
  | s =>
    match takeCondition? s with
    | some (flag, negated, after) =>
      (takeOpen? after).map fun r => (opens (.when flag negated), r)
    | none => (format.take? s).map fun (a, r) => (leaf a, r)

theorem length_of_take? {format : LeafFormat α} {s rest : List Char} {t : Token α}
    (h : take? format s = some (t, rest)) : rest.length < s.length := by
  unfold take? at h
  split at h
  · simp_all
  · simp_all
  · split at h
    · split at h
      · simp only [Option.map_eq_some_iff, Prod.mk.injEq] at h
        obtain ⟨r, hr, _, rfl⟩ := h
        have := length_of_takeOpen? hr
        simp only [List.length_cons]
        omega
      · simp at h
    · simp at h
  · split at h
    · next hc =>
      simp only [Option.map_eq_some_iff, Prod.mk.injEq] at h
      obtain ⟨r, hr, _, rfl⟩ := h
      have := length_of_takeOpen? hr
      have := length_of_takeCondition? hc
      omega
    · simp only [Option.map_eq_some_iff, Prod.mk.injEq] at h
      obtain ⟨⟨a, r⟩, hr, _, rfl⟩ := h
      exact format.shrinks hr

/-- The tokens of a text. -/
def scan? (format : LeafFormat α) (s : List Char) : Option (List (Token α)) :=
  match h : dropSpacing s with
  | [] => some []
  | c :: tail =>
    match h' : take? format (c :: tail) with
    | some (t, rest) =>
      have : rest.length < s.length := by
        have h₁ := length_of_take? h'
        have h₂ := length_dropSpacing_le s
        rw [h] at h₂
        omega
      (scan? format rest).map (t :: ·)
    | none => none
termination_by s.length

end Token

/-- The trees that a list of tokens writes. `outer` holds the groups that are still open,
innermost first, each with the trees in front of it in reverse; `done` holds the trees of
the innermost group in reverse. -/
def ofTokens? {α : Type} (outer : List (Opening × List (Expression α)))
    (done : List (Expression α)) : List (Token α) → Option (List (Expression α))
  | [] => if outer.isEmpty then some done.reverse else none
  | .leaf a :: rest => ofTokens? outer (.leaf a :: done) rest
  | .opens o :: rest => ofTokens? ((o, done) :: outer) [] rest
  | .closes :: rest =>
    match outer with
    | [] => none
    | (o, before) :: further => ofTokens? further (o.group done.reverse :: before) rest

def ofChars? {α : Type} (format : LeafFormat α) (s : List Char) : Option (Expression α) :=
  (Token.scan? format s).bind fun tokens => (ofTokens? [] [] tokens).map .all

def parse {α : Type} (format : LeafFormat α) (text : String) : Except Error (Expression α) :=
  match ofChars? format text.toList with
  | some e => .ok e
  | none => .error format.fault

def text {α : Type} (format : LeafFormat α) (e : Expression α) : String :=
  String.ofList (e.chars format.chars)

end Expression

end PackageCatalog
