import PackageCatalog.Expression.Token

/-!
# The tokens of a tree

`tokensOf` lists the tokens that trees are written with, group by group. Reading tokens with a
stack of open groups undoes it: a list of tokens is read as some trees just when it is the list
of their tokens (`ofTokens?_eq_some_iff`).
-/

namespace PackageCatalog.Expression

deriving instance DecidableEq for Token

variable {α : Type}

mutual

/-- The tokens of a tree inside another. -/
def tokens : Expression α → List (Token α)
  | leaf a => [.leaf a]
  | all children => .opens .all :: tokensOf children ++ [.closes]
  | any children => .opens .any :: tokensOf children ++ [.closes]
  | when flag negated children => .opens (.when flag negated) :: tokensOf children ++ [.closes]

def tokensOf : List (Expression α) → List (Token α)
  | [] => []
  | e :: rest => e.tokens ++ tokensOf rest

end

theorem tokensOf_append (es fs : List (Expression α)) :
    tokensOf (es ++ fs) = tokensOf es ++ tokensOf fs := by
  induction es with
  | nil => rfl
  | cons e es ih => rw [List.cons_append, tokensOf, tokensOf, ih, List.append_assoc]

theorem tokensOf_concat (es : List (Expression α)) (e : Expression α) :
    tokensOf (es ++ [e]) = tokensOf es ++ e.tokens := by
  rw [tokensOf_append, tokensOf, tokensOf, List.append_nil]

theorem tokens_group (o : Opening) (children : List (Expression α)) :
    (o.group children).tokens = .opens o :: tokensOf children ++ [.closes] := by
  cases o <;> rfl

theorem mem_tokensOf {t : Token α} {es : List (Expression α)} :
    t ∈ tokensOf es ↔ ∃ e ∈ es, t ∈ e.tokens := by
  induction es with
  | nil => exact iff_of_false List.not_mem_nil fun ⟨_, h, _⟩ => List.not_mem_nil h
  | cons e es ih => simp only [tokensOf, List.mem_append, ih, List.mem_cons, exists_eq_or_imp]

/-! ## Reading what was written -/

theorem ofTokens?_group {outer : List (Opening × List (Expression α))}
    {done children : List (Expression α)} {rest : List (Token α)} (o : Opening)
    (h : ∀ outer rest, ofTokens? outer [] (tokensOf children ++ rest) =
      ofTokens? outer children.reverse rest) :
    ofTokens? outer done (.opens o :: tokensOf children ++ [.closes] ++ rest) =
      ofTokens? outer (o.group children :: done) rest := by
  rw [List.append_assoc, List.cons_append, ofTokens?, h, List.singleton_append, ofTokens?,
    List.reverse_reverse]

mutual

theorem ofTokens?_tokens (outer : List (Opening × List (Expression α)))
    (done : List (Expression α)) (rest : List (Token α)) :
    ∀ e : Expression α, ofTokens? outer done (e.tokens ++ rest) = ofTokens? outer (e :: done) rest
  | leaf a => rfl
  | all children => ofTokens?_group .all fun outer rest => by
      rw [ofTokens?_tokensOf outer [] rest children, List.append_nil]
  | any children => ofTokens?_group .any fun outer rest => by
      rw [ofTokens?_tokensOf outer [] rest children, List.append_nil]
  | when flag negated children => ofTokens?_group (.when flag negated) fun outer rest => by
      rw [ofTokens?_tokensOf outer [] rest children, List.append_nil]

theorem ofTokens?_tokensOf (outer : List (Opening × List (Expression α)))
    (done : List (Expression α)) (rest : List (Token α)) :
    ∀ es : List (Expression α),
      ofTokens? outer done (tokensOf es ++ rest) = ofTokens? outer (es.reverse ++ done) rest
  | [] => rfl
  | e :: es => by
    rw [tokensOf, List.append_assoc, ofTokens?_tokens outer done (tokensOf es ++ rest) e,
      ofTokens?_tokensOf outer (e :: done) rest es, List.reverse_cons, List.append_assoc]
    rfl

end

/-! ## Writing what was read -/

/-- The tokens that were read when `outer` and `done` hold what came of them. -/
def tokensRead : List (Opening × List (Expression α)) → List (Expression α) → List (Token α)
  | [], done => tokensOf done.reverse
  | (o, before) :: further, done =>
    tokensRead further before ++ .opens o :: tokensOf done.reverse

theorem tokensRead_cons (outer : List (Opening × List (Expression α)))
    (done : List (Expression α)) (e : Expression α) :
    tokensRead outer (e :: done) = tokensRead outer done ++ e.tokens := by
  cases outer with
  | nil => rw [tokensRead, tokensRead, List.reverse_cons, tokensOf_concat]
  | cons group further =>
    rw [tokensRead, tokensRead, List.reverse_cons, tokensOf_concat, List.append_assoc,
      List.cons_append]

theorem tokensRead_opens (outer : List (Opening × List (Expression α)))
    (done : List (Expression α)) (o : Opening) :
    tokensRead ((o, done) :: outer) [] = tokensRead outer done ++ [.opens o] := rfl

/-- No token is lost: what is pending and what is still to come are the tokens of the result. -/
theorem tokensRead_append_of_ofTokens? {ts : List (Token α)}
    {outer : List (Opening × List (Expression α))} {done es : List (Expression α)}
    (h : ofTokens? outer done ts = some es) : tokensRead outer done ++ ts = tokensOf es := by
  induction ts generalizing outer done with
  | nil =>
    rw [ofTokens?] at h
    split at h
    · next hempty =>
      rw [List.isEmpty_iff.mp hempty, List.append_nil, tokensRead]
      rw [Option.some.inj h]
    · cases h
  | cons t ts ih =>
    cases t with
    | leaf a =>
      have hrest := ih h
      rwa [tokensRead_cons, List.append_assoc] at hrest
    | opens o =>
      have hrest := ih h
      rwa [tokensRead_opens, List.append_assoc] at hrest
    | closes =>
      cases outer with
      | nil => cases h
      | cons group further =>
        obtain ⟨o, before⟩ := group
        have hrest := ih h
        rw [tokensRead_cons, tokens_group, List.append_assoc] at hrest
        rwa [tokensRead, List.append_assoc, List.cons_append, ← List.singleton_append (l := ts),
          ← List.append_assoc (tokensOf done.reverse), ← List.cons_append]

/-- Tokens are read as the trees that are written with them, and as no others. -/
theorem ofTokens?_eq_some_iff {ts : List (Token α)} {es : List (Expression α)} :
    ofTokens? [] [] ts = some es ↔ ts = tokensOf es := by
  constructor
  · exact fun h => tokensRead_append_of_ofTokens? h
  · rintro rfl
    have hread := ofTokens?_tokensOf [] [] [] es
    rw [List.append_nil, List.append_nil] at hread
    rw [hread, ofTokens?, List.reverse_reverse]
    rfl

end PackageCatalog.Expression
