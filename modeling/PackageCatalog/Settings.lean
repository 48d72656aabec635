import PackageCatalog.FileTree
import PackageCatalog.Sorted

/-!
# Settings

Files of `KEY=VALUE` lines. A value may be quoted and may then go on over several lines;
`$NAME` stands for what the variable holds at that point. Variables that accumulate are
merged token by token: `-token` takes a token away and `-*` all of them.
-/

namespace PackageCatalog

/-- Variables and their values, sorted by name. -/
abbrev Settings := List (String × String)

namespace Settings

def get? (settings : Settings) (name : String) : Option String :=
  Sorted.find? compare name settings

def set (settings : Settings) (name value : String) : Settings :=
  Sorted.alter compare name (fun _ => value) settings

/-! ## Merging -/

/-- What a token of an accumulating variable asks for. -/
inductive Change where
  | clear
  | remove (token : String)
  | add (token : String)
  deriving DecidableEq, Repr

def Change.ofToken (token : String) : Change :=
  match token.toList with
  | ['-', '*'] => .clear
  | '-' :: rest => .remove (String.ofList rest)
  | _ => .add token

def Change.apply (tokens : List String) : Change → List String
  | .clear => []
  | .remove token => tokens.filter (· != token)
  | .add token => if tokens.contains token then tokens else tokens ++ [token]

def mergeTokens (old new : List String) : List String :=
  new.foldl (fun tokens token => (Change.ofToken token).apply tokens) old

def merge (old new : String) : String :=
  Text.join " " (mergeTokens (Text.words old) (Text.words new))

/-! ## Quotes -/

/-- Whether a character stands in quotes, and in which. -/
inductive Quote where
  | outside
  | single
  | double
  deriving DecidableEq, Repr

/-- What a character that opens and closes quotes makes of a state. -/
def Quote.toggle : Quote → Char → Quote
  | .outside, '"' => .double
  | .outside, '\'' => .single
  | .double, '"' => .outside
  | .single, '\'' => .outside
  | q, _ => q

/-- Whether a quote is open at the end of a text when every quote character counts. -/
def hasOpenQuote (raw : List Char) : Bool := raw.foldl Quote.toggle .outside != .outside

def isNameChar (c : Char) : Bool := Text.isAlphanumeric c || c == '_'

/-- Reads the name behind a dollar sign, in braces or bare, and returns it with the rest. -/
def takeName : List Char → List Char × List Char
  | '\x7b' :: rest => (rest.takeWhile (· != '\x7d'), (rest.dropWhile (· != '\x7d')).drop 1)
  | s => (s.takeWhile isNameChar, s.dropWhile isNameChar)

theorem length_takeName_le (s : List Char) : (takeName s).2.length ≤ s.length := by
  unfold takeName
  split
  · next rest =>
    have := (List.dropWhile_suffix (fun c => c != '\x7d') (l := rest)).length_le
    simp only [List.length_drop, List.length_cons]
    omega
  · exact (List.dropWhile_suffix _).length_le

/-- What stands for a name: nothing if it is not set, a dollar sign if the name is empty. -/
def expansion (settings : Settings) (name : List Char) : List Char :=
  if name.isEmpty then ['$'] else ((settings.get? (String.ofList name)).getD "").toList

/-- Takes the quotes off a text, from the state `quote` on; `out` holds what came before, in
reverse. Single quotes are literal; elsewhere a backslash protects the next character (and
takes a line end away) and a dollar sign starts a name. Outside quotes a mark behind a blank
starts a comment, with which the text ends. Returns the state at the end, too. -/
def unquoteFrom (settings : Settings) (quote : Quote) (out : List Char) :
    List Char → List Char × Quote
  | [] => (out.reverse, quote)
  | c :: rest =>
    if quote.toggle c != quote then unquoteFrom settings (quote.toggle c) out rest
    else if quote == .single then unquoteFrom settings quote (c :: out) rest
    else if c == '\\' then
      match rest with
      | [] => (out.reverse, quote)
      | next :: after =>
        unquoteFrom settings quote (if next == '\n' then out else next :: out) after
    else if c == '$' then
      have := length_takeName_le rest
      unquoteFrom settings quote ((expansion settings (takeName rest).1).reverse ++ out)
        (takeName rest).2
    else if c == '#' && quote == .outside && out.head?.all Text.isBlank then (out.reverse, quote)
    else unquoteFrom settings quote (c :: out) rest
termination_by s => s.length
decreasing_by all_goals (simp_wf <;> omega)

def unquote (settings : Settings) (raw : List Char) : String :=
  String.ofList (Text.trimChars (unquoteFrom settings .outside [] raw).1)

/-! ## Reading a file -/

/-- How a line starts an assignment: the variable and the start of its value. -/
def splitAssignment (line : String) : Except ConfigFault (String × String) :=
  let line := (Text.afterLead "export " line).getD line
  match Text.splitOnce '=' line with
  | none => .error (.notAssignment line)
  | some (key, value) =>
    let name := Text.trim key
    if name.isEmpty || !Text.allChars isNameChar name then .error (.badVariable name)
    else .ok (name, Text.trim value)

/-- Whether a line says nothing: it is blank or a comment. -/
def isSilent (line : String) : Bool := line.isEmpty || Text.startsWithChar (· == '#') line

/-- What a line makes of the assignment whose quote is still open: it goes on, or the line
starts one, or says nothing. -/
def takeLine (pending : Option (String × List Char)) (line : String) :
    Except ConfigFault (Option (String × List Char)) :=
  match pending with
  | some (name, raw) => .ok (some (name, raw ++ '\n' :: line.toList))
  | none =>
    if isSilent (Text.trim line) then .ok none
    else (splitAssignment (Text.trim line)).map fun (name, value) => some (name, value.toList)

/-- The assignments of the lines of a file, values still in their quotes. -/
def assignments (pending : Option (String × List Char)) :
    List String → Except ConfigFault (List (String × List Char))
  | [] =>
    match pending with
    | some (name, _) => .error (.openQuote name)
    | none => .ok []
  | line :: rest =>
    match takeLine pending line with
    | .error fault => .error fault
    | .ok none => assignments none rest
    | .ok (some a) =>
      if hasOpenQuote a.2 then assignments (some a) rest
      else (assignments none rest).map (a :: ·)

/-- Assigns a value, merging it if the variable accumulates. -/
def assign (accumulates : String → Bool) (settings : Settings) (a : String × List Char) :
    Settings :=
  let value := settings.unquote a.2
  settings.set a.1
    (if accumulates a.1 then merge ((settings.get? a.1).getD "") value else value)

/-- Applies the assignments of a text; faults are those of the file at `path`. -/
def applyText (accumulates : String → Bool) (settings : Settings) (path : Path) (text : String) :
    Except Error Settings :=
  match assignments none (Text.lines text) with
  | .ok found => .ok (found.foldl (assign accumulates) settings)
  | .error fault => .error (.badConfig path.text fault)

def loadInto (accumulates : String → Bool) (settings : Settings) (files : FileTree)
    (path : Path) : Except Error Settings := do
  match ← files.readOptional path with
  | some text => settings.applyText accumulates path text
  | none => return settings

end Settings

end PackageCatalog
