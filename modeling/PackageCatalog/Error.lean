/-!
# Errors

Everything that can go wrong when a text is read, a file is loaded or a package is looked
up. An `Error` names the cause; `Error.message` is the one place that words it.
-/

namespace PackageCatalog

/-- The five kinds of names that are checked on their own. -/
inductive NameKind where
  | category
  | package
  | repository
  | set
  | useFlag
  deriving DecidableEq, Repr

/-- What the text of a number may lack. -/
inductive NumberFault where
  | empty
  | notDigits
  | tooLarge
  | tooSmall
  deriving DecidableEq, Repr

namespace NumberFault

def message : NumberFault → String
  | empty => "cannot parse integer from empty string"
  | notDigits => "invalid digit found in string"
  | tooLarge => "number too large to fit in target type"
  | tooSmall => "number too small to fit in target type"

end NumberFault

/-- Why a text is no package pattern. -/
inductive AtomFault where
  | notOneToken
  | blocker
  | useRequirement
  | badSlot (slot : String)
  | badOperator
  | strayStar
  | operatorWithoutVersion
  | wildcard
  deriving DecidableEq, Repr

namespace AtomFault

def message : AtomFault → String
  | notOneToken => "expected a single token"
  | blocker => "blockers are not package dep specs"
  | useRequirement => "USE requirements are not supported"
  | badSlot slot => s!"invalid slot '{slot}'"
  | badOperator => "bad version operator"
  | strayStar => "'*' suffix needs the '=' operator"
  | operatorWithoutVersion => "version operator given without a version"
  | wildcard => "wildcards are not allowed here"

end AtomFault

/-- Why a time is refused. -/
inductive TimeFault where
  | notNumber (text : String)
  | outOfRange
  deriving DecidableEq, Repr

mutual

/-- What is wrong with a configuration file or directory. -/
inductive ConfigFault where
  | notDirectory
  | notRepositoryDirectory
  | notInstalledDirectory
  | notAssignment (line : String)
  | badVariable (name : String)
  | openQuote (name : String)
  | profileCycle
  | notOneSpec (line : String)
  | missingLocation
  | missingFormat
  | unknownFormat (format : String)
  | badImportance (text : String) (fault : NumberFault)
  | because (cause : Error)

/-- Why a text, a file or a look-up is refused. -/
inductive Error where
  | invalidName (kind : NameKind) (text : String)
  | unqualifiedName (text : String)
  | emptyKeyword
  | invalidKeyword (text : String)
  | unsupportedEapi (text : String)
  | invalidIUse (text : String)
  | badVersion (text : String)
  | badAtom (text : String) (fault : AtomFault)
  | invalidLicense
  | invalidRestrict
  | invalidUri
  | lineWithoutEquals (line : String)
  | missingField (name : String)
  | invalidDependency
  | invalidContents (line : String)
  | invalidTime (fault : TimeFault)
  | unknownAction (text : String)
  | noSuchRepository (name : String)
  | duplicateRepository (name : String)
  | noSuchPackage (name : String)
  | ambiguousPackage (name : String) (candidates : List String)
  | notExactlyOne (selection : String) (count : Nat)
  | noSuchProfile (path : String)
  | badConfig (path : String) (fault : ConfigFault)
  | badEnvironment (text : String)
  | unreadable (path : String)

end

/-- Whether a text was refused as a name, a keyword or an `IUSE` entry. -/
def Error.isNameError : Error → Bool
  | invalidName _ _ | unqualifiedName _ | emptyKeyword | invalidKeyword _ | invalidIUse _ => true
  | _ => false

namespace NameKind

def label : NameKind → String
  | category => "category name part"
  | package => "package name part"
  | repository => "repository name"
  | set => "set name"
  | useFlag => "USE flag name"

end NameKind

mutual

def ConfigFault.message : ConfigFault → String
  | .notDirectory => "not a directory"
  | .notRepositoryDirectory => "repository location is not a directory"
  | .notInstalledDirectory => "VDB location is not a directory"
  | .notAssignment line => s!"expected KEY=VALUE, got '{line}'"
  | .badVariable name => s!"bad variable name '{name}'"
  | .openQuote name => s!"unterminated quote in {name}"
  | .profileCycle => "profile inherits from itself"
  | .notOneSpec line => s!"expected one spec, got '{line}'"
  | .missingLocation => "missing location"
  | .missingFormat => "missing format"
  | .unknownFormat format => s!"unknown repository format '{format}'"
  | .badImportance text fault => s!"bad importance '{text}': {fault.message}"
  | .because cause => cause.message

def Error.message : Error → String
  | .invalidName kind text => s!"invalid {kind.label}: {text}"
  | .unqualifiedName text => s!"invalid qualified package name: {text}"
  | .emptyKeyword => "invalid keyword: empty keyword"
  | .invalidKeyword text => s!"invalid keyword: {text}"
  | .unsupportedEapi text => s!"unsupported EAPI '{text}'"
  | .invalidIUse text => s!"invalid IUSE entry: {text}"
  | .badVersion text =>
    if text.isEmpty then "bad version spec '': cannot be empty" else s!"bad version spec '{text}'"
  | .badAtom text fault => s!"bad package dep spec '{text}': {fault.message}"
  | .invalidLicense => "invalid LICENSE"
  | .invalidRestrict => "invalid RESTRICT/PROPERTIES"
  | .invalidUri => "invalid URI specification"
  | .lineWithoutEquals line => s!"invalid cache entry: line without '=': {line}"
  | .missingField name => s!"missing required field: {name}"
  | .invalidDependency => "dependency parse error"
  | .invalidContents line => s!"invalid contents entry: {line}"
  | .invalidTime (.notNumber text) => s!"invalid time value: {text}"
  | .invalidTime .outOfRange => "invalid time value: timestamp was not in range"
  | .unknownAction text => s!"unknown action: {text}"
  | .noSuchRepository name => s!"no such repository: {name}"
  | .duplicateRepository name => s!"duplicate repository: {name}"
  | .noSuchPackage name => s!"no such package: {name}"
  | .ambiguousPackage name candidates =>
    s!"ambiguous package name '{name}': candidates are " ++ ", ".intercalate candidates
  | .notExactlyOne selection count =>
    s!"expected exactly one package ID for {selection}, got {count}"
  | .noSuchProfile path => s!"no such profile: {path}"
  | .badConfig path fault => s!"invalid configuration in {path}: {fault.message}"
  | .badEnvironment text => s!"invalid environment specification: {text}"
  | .unreadable path => s!"I/O error on {path}"

end

end PackageCatalog
