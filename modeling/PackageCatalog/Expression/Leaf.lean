import PackageCatalog.Expression.Token

/-!
# Leaves

The leaves of the four kinds of expressions.
-/

namespace PackageCatalog

namespace Expression

open Text

/-! ## Runs of characters -/

/-- Reads the longest run of characters that satisfy `p`, if it is not empty and `accepts`
agrees. -/
def takeRun? (p : Char → Bool) (accepts : List Char → Bool) (s : List Char) :
    Option (List Char × List Char) :=
  match s.takeWhile p with
  | [] => none
  | c :: run => if accepts (c :: run) then some (c :: run, s.dropWhile p) else none

theorem length_of_takeRun? {p : Char → Bool} {accepts : List Char → Bool}
    {s run rest : List Char} (h : takeRun? p accepts s = some (run, rest)) :
    rest.length < s.length := by
  have hs : s.takeWhile p ++ s.dropWhile p = s := List.takeWhile_append_dropWhile
  have hlen := congrArg List.length hs
  rw [List.length_append] at hlen
  unfold takeRun? at h
  split at h
  · simp at h
  · next heq =>
    split at h
    · simp only [Option.some.injEq, Prod.mk.injEq] at h
      obtain ⟨_, rfl⟩ := h
      rw [heq, List.length_cons] at hlen
      omega
    · simp at h

/-- What may stand in the name of a license, a plain word, or a file to be saved. -/
def isNameChar (c : Char) : Bool :=
  isAlphanumeric c || c == '-' || c == '_' || c == '.' || c == '+'

def isUriChar (c : Char) : Bool := !isBlank c && c != '(' && c != ')'

/-- A license name does not start with a punctuation mark other than `_`. -/
def isLicense (s : List Char) : Bool := NameKind.opensWell ['-', '.', '+'] s

/-- A URI is not `||` and does not end like a condition. -/
def isUri (s : List Char) : Bool := s != ['|', '|'] && s.getLast? != some '?'

/-- A URI of `SRC_URI` is also not an arrow. -/
def isFetchUri (s : List Char) : Bool := isUri s && s != ['-', '>']

/-! ## Formats whose leaves are words -/

/-- A format whose leaves are runs of characters. -/
def wordFormat (allowsAny : Bool) (p : Char → Bool) (accepts : List Char → Bool)
    (fault : Error) : LeafFormat String where
  allowsAny := allowsAny
  take? s := (takeRun? p accepts s).map fun (run, rest) => (String.ofList run, rest)
  chars := String.toList
  fault := fault
  shrinks h := by
    simp only [Option.map_eq_some_iff, Prod.mk.injEq] at h
    obtain ⟨⟨run, rest⟩, hr, _, rfl⟩ := h
    exact length_of_takeRun? hr

/-- The names of `LICENSE`. -/
def licenseFormat : LeafFormat String := wordFormat true isNameChar isLicense .invalidLicense

/-- The words of `RESTRICT` and `PROPERTIES`. -/
def plainFormat : LeafFormat String :=
  wordFormat false isNameChar (fun _ => true) .invalidRestrict

/-- The URIs of `HOMEPAGE`. -/
def uriFormat : LeafFormat String := wordFormat false isUriChar isUri .invalidUri

/-! ## Files to be fetched -/

/-- A URI of `SRC_URI`, with the name under which the file is saved where one is given. -/
structure FetchUri where
  url : String
  rename : Option String
  deriving DecidableEq, Repr

namespace FetchUri

/-- The name under which the file is saved: by default what follows the last slash. -/
def filename (u : FetchUri) : String :=
  match u.rename with
  | some name => name
  | none =>
    match splitOnceLast '/' u.url with
    | some (_, name) => name
    | none => u.url

def chars (u : FetchUri) : List Char :=
  match u.rename with
  | some name => u.url.toList ++ [' ', '-', '>', ' '] ++ name.toList
  | none => u.url.toList

def text (u : FetchUri) : String := String.ofList u.chars

/-- Reads the arrow in front of a name, behind optional spacing. -/
def takeArrow? (s : List Char) : Option (List Char) :=
  match dropSpacing s with
  | '-' :: '>' :: rest => some (dropSpacing rest)
  | _ => none

theorem length_of_takeArrow? {s rest : List Char} (h : takeArrow? s = some rest) :
    rest.length < s.length := by
  unfold takeArrow? at h
  split at h
  · next r heq =>
    simp only [Option.some.injEq] at h
    subst h
    have hlt := length_of_dropSpacing heq
    rw [List.length_cons] at hlt
    have hle := length_dropSpacing_le r
    omega
  · simp at h

/-- Reads a URI and, behind an arrow, the name that must follow it. -/
def take? (s : List Char) : Option (FetchUri × List Char) :=
  match takeRun? isUriChar isFetchUri s with
  | none => none
  | some (run, rest) =>
    match takeArrow? rest with
    | none => some (⟨String.ofList run, none⟩, rest)
    | some after =>
      (takeRun? isNameChar (fun _ => true) after).map fun (name, rest') =>
        (⟨String.ofList run, some (String.ofList name)⟩, rest')

theorem length_of_take? {s rest : List Char} {u : FetchUri} (h : take? s = some (u, rest)) :
    rest.length < s.length := by
  unfold take? at h
  split at h
  · simp at h
  · next hrun =>
    have h₁ := length_of_takeRun? hrun
    split at h
    · simp only [Option.some.injEq, Prod.mk.injEq] at h
      obtain ⟨_, rfl⟩ := h
      exact h₁
    · next harrow =>
      have h₂ := length_of_takeArrow? harrow
      simp only [Option.map_eq_some_iff, Prod.mk.injEq] at h
      obtain ⟨⟨name, r⟩, hname, _, rfl⟩ := h
      have h₃ : r.length < _ := length_of_takeRun? hname
      exact Nat.lt_trans h₃ (Nat.lt_trans h₂ h₁)

end FetchUri

/-- The files of `SRC_URI`. -/
def fetchFormat : LeafFormat FetchUri where
  allowsAny := false
  take? := FetchUri.take?
  chars := FetchUri.chars
  fault := .invalidUri
  shrinks := FetchUri.length_of_take?

end Expression

end PackageCatalog
