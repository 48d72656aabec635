import PackageCatalog.Environment
import PackageCatalog.FileTree
import PackageCatalog.Query

/-!
# Commands

The two commands: their arguments, what they print, which parts of a disk they have to see,
and how they run.
-/

namespace PackageCatalog.Command

/-!
## Command lines

The arguments of the two commands. Options may stand anywhere before `--`; behind it
everything is a target. An option is given once at most, and its value follows it or is
attached to it.
-/

/-- The commands. -/
inductive Name where
  | contents
  | masks
  deriving DecidableEq, Repr

/-- The options that take a value. -/
inductive ValueOption where
  | environment
  | root
  deriving DecidableEq, Repr

/-- What a command is asked for. -/
structure Arguments where
  environment : String
  root : Path
  targets : List String
  deriving DecidableEq, Repr

/-- What a command line amounts to. -/
inductive Request where
  | help
  | misuse
  | run (arguments : Arguments)
  deriving DecidableEq, Repr

/-! ### Single arguments -/

/-- What an argument is when it stands on its own. -/
inductive Piece where
  | operand (text : String)
  | separator
  | help
  | option (o : ValueOption) (value? : Option String)
  | unknown
  deriving DecidableEq, Repr

def longOption? (command : Name) (name : String) : Option ValueOption :=
  if name = "environment" then some .environment
  else if name = "root" ∧ command = .contents then some .root
  else none

def longPiece (command : Name) (rest : String) : Piece :=
  let (name, value?) := match Text.splitOnce '=' rest with
    | some (name, value) => (name, some value)
    | none => (rest, none)
  if name = "help" then (if value?.isSome then .unknown else .help)
  else match longOption? command name with
    | some o => .option o value?
    | none => .unknown

def shortPiece : List Char → Piece
  | 'h' :: _ => .help
  | ['e'] => .option .environment none
  | 'e' :: '=' :: value => .option .environment (some (String.ofList value))
  | 'e' :: value => .option .environment (some (String.ofList value))
  | _ => .unknown

/-- What an argument is. A hyphen alone is an operand. -/
def Piece.ofArgument (command : Name) (argument : String) : Piece :=
  match argument.toList with
  | ['-', '-'] => .separator
  | '-' :: '-' :: rest => longPiece command (String.ofList rest)
  | '-' :: c :: rest => shortPiece (c :: rest)
  | _ => .operand argument

/-! ### Whole command lines -/

/-- What is known after some of the arguments. -/
structure Draft where
  environment? : Option String
  root? : Option String
  targets : List String

/-- The draft with the value of an option, unless it has one already. A root is not empty. -/
def Draft.set (d : Draft) (value : String) : ValueOption → Option Draft
  | .environment => if d.environment?.isSome then none else some { d with environment? := some value }
  | .root =>
    if d.root?.isSome || value.isEmpty then none else some { d with root? := some value }

/-- The request of a draft, which must have targets. -/
def Draft.finish (d : Draft) : Request :=
  if d.targets.isEmpty then .misuse
  else .run ⟨d.environment?.getD "", ⟨d.root?.getD "/"⟩, d.targets⟩

/-- Goes on with a draft. `waiting` is the option whose value has to come next. -/
def scan (command : Name) (d : Draft) (waiting : Option ValueOption) : List String → Request
  | [] => if waiting.isSome then .misuse else d.finish
  | argument :: rest =>
    match waiting, Piece.ofArgument command argument with
    | some o, .operand value =>
      match d.set value o with
      | some d => scan command d none rest
      | none => .misuse
    | some _, _ => .misuse
    | none, .operand target => scan command { d with targets := d.targets ++ [target] } none rest
    | none, .separator => Draft.finish { d with targets := d.targets ++ rest }
    | none, .help => .help
    | none, .option o none => scan command d (some o) rest
    | none, .option o (some value) =>
      match d.set value o with
      | some d => scan command d none rest
      | none => .misuse
    | none, .unknown => .misuse

def Request.ofArguments (command : Name) (arguments : List String) : Request :=
  scan command ⟨none, none, []⟩ none arguments

/-!
## Reports

What a command prints about one target: the files of installed packages, or the masks of all
versions of packages. A report that runs into an error keeps the lines written before it.
-/

/-- Lines of a report, and the error that ended it. -/
structure Report where
  lines : List String
  error? : Option Error

namespace Report

def ofLines (lines : List String) : Report := ⟨lines, none⟩

def ofError (e : Error) : Report := ⟨[], some e⟩

/-- One report after another, unless an error has ended it. -/
def append (a b : Report) : Report :=
  match a.error? with
  | some _ => a
  | none => ⟨a.lines ++ b.lines, b.error?⟩

/-- Reports one after the other, up to the first error. -/
def join : List Report → Report
  | [] => ofLines []
  | r :: rest => r.append (join rest)

def ofQuery (e : Environment) (target : String) (filters : List Filter)
    (report : List PackageId → Report) : Report :=
  match e.parseAtom target with
  | .error fault => ofError fault
  | .ok atom =>
    match Query.run e ⟨.allSorted, .matching atom, filters⟩ with
    | .error fault => ofError fault
    | .ok ids => report ids

end Report

/-! ### Contents -/

/-- The word for the kind of an entry, as wide as the widest. -/
def entryWord : ContentsEntry → String
  | .directory _ => "dir  "
  | .file _ _ _ => "file "
  | .link _ _ _ => "sym  "
  | .other _ => "other"

def entryLine (entry : ContentsEntry) : String :=
  "    " ++ entryWord entry ++ " " ++ entry.text

/-- The files of an installed package, behind a line that names it. -/
def contentsOf (files : FileTree) (id : PackageId) : Report :=
  match (id.key? "CONTENTS").map (Metadata.Key.load files) with
  | none => .ofLines [id.text, "    (no contents)"]
  | some (.error fault) => ⟨[id.text], some fault⟩
  | some (.ok (.contents entries)) => .ofLines (id.text :: entries.map entryLine ++ [""])
  | some (.ok _) => .ofLines [id.text]

/-- The files of the packages that a target means and that are installed at a root. -/
def reportContents (files : FileTree) (e : Environment) (root : Path) (target : String) : Report :=
  .ofQuery e target [.installedAt root] fun ids =>
    if ids.isEmpty then .ofLines [target ++ ": nothing installed"]
    else .join (ids.map (contentsOf files))

/-! ### Masks -/

/-- What there is to say about a mask besides its kind. -/
def maskDetails (id : PackageId) (m : Mask) : List String :=
  match m.info? with
  | some info => info.comment.map ("# " ++ ·) ++ [s!"{info.token} ({info.file.text})"]
  | none =>
    match m with
    | .unsupported explanation => [explanation]
    | _ =>
      match m.keyName?.bind id.key? with
      | some key => [s!"{key.title}: " ++ key.raw?.getD ""]
      | none => []

def maskLines (id : PackageId) (m : Mask) : List String :=
  s!"    {m.key}: {m.description}" :: (maskDetails id m).map ("        " ++ ·)

def masksOf (e : Environment) (id : PackageId) : List String :=
  match e.masks id with
  | [] => [id.text ++ ": not masked"]
  | masks => (id.text ++ ":") :: masks.flatMap (maskLines id)

def reportMasks (e : Environment) (target : String) : Report :=
  .ofQuery e target [] fun ids => .ofLines (ids.flatMap (masksOf e))

/-!
## Footprints

Which parts of a disk a command has to see. The command line names a first directory; what
is found there names the repositories, the world file and the parents of profiles.
-/

/-- The directory that a command line starts from. -/
def startingPaths (command : Name) (current home : Path) (arguments : List String) : List Path :=
  match Request.ofArguments command arguments with
  | .run request =>
    match EnvironmentSpec.parse current request.environment with
    | .ok (.configured suffix) => [EnvironmentSpec.configDirectory home suffix]
    | .ok (.standalone location) => [location]
    | _ => []
  | _ => []

/-- The repository that a configuration file describes, and the profile it asks for. -/
def repositoryPaths (files : FileTree) (dir : Path) (file : String) : List Path :=
  let path := dir / "repositories" / file
  match Configuration.readSettings files path with
  | .error _ => []
  | .ok settings =>
    match Configuration.readRepositorySettings path dir settings with
    | .error _ => []
    | .ok common =>
      let profile := (Configuration.nonempty? settings "profile").map
        (Configuration.resolvePath (common.location / "profiles"))
      common.location :: profile.toList

/-- The paths that a directory names, taken as a configuration directory. -/
def configuredPaths (files : FileTree) (dir : Path) : List Path :=
  let world := match Configuration.readSettings files (dir / "general.conf") with
    | .ok general => (general.get? "world").map (Configuration.resolvePath dir)
    | .error _ => none
  let repositories := ((files.visibleNames (dir / "repositories")).toOption.getD []).flatMap
    (repositoryPaths files dir)
  world.toList ++ repositories

/-- The directories that the `parent` files of a tree name. -/
def parentPaths (files : FileTree) : List Path :=
  files.entries.flatMap fun
    | (names, .text content) =>
      if names.getLast? = some "parent" then
        (FileTree.meaningfulLines content).map (Path.ofNames names.dropLast / ·)
      else []
    | _ => []

def missing (files : FileTree) (paths : List Path) : List Path :=
  paths.filter fun p => (files.node? (files.spell p)).isNone

/-!
## Running commands

A command opens its environment and reports on one target after the other. A target that
fails does not stop those behind it, but it shows in the exit code.
-/

/-- What a command leaves behind. -/
structure Outcome where
  exitCode : Nat
  output : String
  errors : String
  deriving DecidableEq, Repr

def unlines (lines : List String) : String := "".intercalate (lines.map (· ++ "\n"))

namespace Name

def text : Name → String
  | contents => "show_contents"
  | masks => "show_masks"

def ofText? (text : String) : Option Name := [contents, masks].find? (·.text = text)

def purpose : Name → String
  | contents => "Show the contents of installed packages"
  | masks => "Show the masks of every version of some packages"

def usage (command : Name) : String := s!"Usage: {command.text} [OPTIONS] <TARGETS>..."

def rootHelp : Name → List String
  | contents =>
    ["      --root <ROOT>                Root the packages are installed under [default: /]"]
  | masks => []

def help (command : Name) : List String :=
  [command.purpose, "", command.usage, "",
    "Arguments:",
    "  <TARGETS>...  Packages to show, as dep specs", "",
    "Options:",
    "  -e, --environment <ENVIRONMENT>  Environment specification (`class:suffix`) [default: \"\"]"] ++
  command.rootHelp ++
  ["  -h, --help                       Print help"]

end Name

def report (command : Name) (files : FileTree) (e : Environment) (root : Path) (target : String) :
    Report :=
  match command with
  | .contents => reportContents files e root target
  | .masks => reportMasks e target

/-- What the reports on the targets leave behind. -/
def Outcome.ofReports (reports : List (String × Report)) : Outcome :=
  let faults := reports.filterMap fun (target, r) =>
    r.error?.map fun fault => target ++ ": " ++ fault.message
  ⟨if faults.isEmpty then 0 else 1, unlines (reports.flatMap fun (_, r) => r.lines),
    unlines faults⟩

/-- Runs a command over a file tree, for a user with the given home. -/
def run (command : Name) (files : FileTree) (home : Path) (arguments : List String) : Outcome :=
  match Request.ofArguments command arguments with
  | .help => ⟨0, unlines command.help, ""⟩
  | .misuse => ⟨2, "", unlines [command.usage]⟩
  | .run request =>
    match Environment.create files home request.environment with
    | .error fault => ⟨1, "", unlines ["error: " ++ fault.message]⟩
    | .ok e =>
      .ofReports (request.targets.map fun target =>
        (target, report command files e request.root target))

end PackageCatalog.Command
