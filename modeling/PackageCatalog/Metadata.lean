import PackageCatalog.Contents
import PackageCatalog.Dependency
import PackageCatalog.FileTree
import PackageCatalog.Keyword
import PackageCatalog.Mirrors

/-!
# Metadata

What is known of a package ID or a repository besides its identity: the well-known variables,
the reasons why a package ID should not be used, and the keys under which both are shown.
-/

namespace PackageCatalog.Metadata

/-!
## Metadata variables

The well-known variables, with the kind of value each has, how it is called and how much it
matters to a user.
-/

/-- How much a key matters to a user. -/
inductive Significance where
  | significant
  | normal
  | author
  | dependencies
  | internal
  deriving DecidableEq, Repr

/-- What kind of value a key has. -/
inductive Kind where
  | string
  | stringSet
  | keywordSet
  | useFlagSet
  | declaredFlagSet
  | time
  | path
  | contents
  | dependencyTree
  | licenseTree
  | plainTextTree
  | simpleUriTree
  | fetchableUriTree
  | maskInfo
  deriving DecidableEq, Repr

/-- What is known about a variable. -/
structure Variable where
  name : String
  title : String
  kind : Kind
  significance : Significance
  deriving DecidableEq, Repr

def Variable.wellKnown : List Variable := [
  ⟨"DESCRIPTION", "Description", .string, .significant⟩,
  ⟨"LONG_DESCRIPTION", "Long description", .string, .normal⟩,
  ⟨"HOMEPAGE", "Homepage", .simpleUriTree, .significant⟩,
  ⟨"SRC_URI", "Source URI", .fetchableUriTree, .dependencies⟩,
  ⟨"LICENSE", "License", .licenseTree, .normal⟩,
  ⟨"KEYWORDS", "Keywords", .keywordSet, .normal⟩,
  ⟨"IUSE", "Relevant USE flags", .declaredFlagSet, .normal⟩,
  ⟨"USE", "Selected USE flags", .useFlagSet, .normal⟩,
  ⟨"RESTRICT", "Restrictions", .plainTextTree, .internal⟩,
  ⟨"PROPERTIES", "Properties", .plainTextTree, .internal⟩,
  ⟨"DEPEND", "Build dependencies", .dependencyTree, .dependencies⟩,
  ⟨"RDEPEND", "Run dependencies", .dependencyTree, .dependencies⟩,
  ⟨"PDEPEND", "Post dependencies", .dependencyTree, .dependencies⟩,
  ⟨"BDEPEND", "Build host dependencies", .dependencyTree, .dependencies⟩,
  ⟨"IDEPEND", "Install dependencies", .dependencyTree, .dependencies⟩,
  ⟨"PROVIDE", "Provides", .stringSet, .dependencies⟩,
  ⟨"INHERITED", "Inherited", .stringSet, .internal⟩,
  ⟨"DEFINED_PHASES", "Defined phases", .stringSet, .internal⟩,
  ⟨"EAPI", "EAPI", .string, .internal⟩,
  ⟨"SLOT", "Slot", .string, .internal⟩,
  ⟨"REPOSITORY", "Source repository", .string, .normal⟩,
  ⟨"BINARY_REPOSITORY", "Binary repository", .string, .normal⟩,
  ⟨"CHOST", "CHOST", .string, .internal⟩,
  ⟨"CATEGORY", "Category", .string, .internal⟩,
  ⟨"PF", "Package and version", .string, .internal⟩,
  ⟨"FEATURES", "FEATURES", .stringSet, .internal⟩,
  ⟨"EBUILD", "Ebuild location", .path, .internal⟩,
  ⟨"CONTENTS", "Contents", .contents, .normal⟩,
  ⟨"INSTALLED_TIME", "Installed time", .time, .normal⟩,
  ⟨"repository_mask", "Repository masked", .maskInfo, .internal⟩,
  ⟨"profile_mask", "Profile masked", .maskInfo, .internal⟩]

/-- The well-known variable of a name. -/
def Variable.find? (name : String) : Option Variable := wellKnown.find? (·.name == name)

end PackageCatalog.Metadata

namespace PackageCatalog

/-!
## Masks

The reasons why a package ID should not be used.
-/

/-- Where a mask was written: the file, the comment above it, and the line itself. -/
structure MaskInfo where
  file : Path
  comment : List String
  token : String
  deriving DecidableEq, Repr

/-- A reason why a package ID is masked. -/
inductive Mask where
  | user
  | unacceptedKeywords
  | unacceptedLicense
  | repository (info : MaskInfo)
  | profile (info : MaskInfo)
  | unsupported (explanation : String)
  deriving DecidableEq, Repr

namespace Mask

/-- The mask of a package whose EAPI is not known. -/
def unsupportedEapi (eapi : String) : Mask := unsupported s!"Unsupported EAPI '{eapi}'"

/-- A letter for short displays. -/
def key : Mask → Char
  | user => 'U'
  | unacceptedKeywords => 'K'
  | unacceptedLicense => 'L'
  | repository _ => 'R'
  | profile _ => 'P'
  | unsupported _ => 'E'

/-- A word for short displays. -/
def description : Mask → String
  | user => "user"
  | unacceptedKeywords => "keyword"
  | unacceptedLicense => "license"
  | repository _ => "repository"
  | profile _ => "profile"
  | unsupported _ => "eapi"

/-- The metadata key that the mask is about. -/
def keyName? : Mask → Option String
  | unacceptedKeywords => some "KEYWORDS"
  | unacceptedLicense => some "LICENSE"
  | repository _ => some "repository_mask"
  | profile _ => some "profile_mask"
  | _ => none

def info? : Mask → Option MaskInfo
  | repository info => some info
  | profile info => some info
  | _ => none

/-- Whether the mask was written in a repository or profile. -/
def isRepositoryMask (m : Mask) : Bool := m.info?.isSome

def text (m : Mask) : String :=
  match m with
  | unsupported explanation => "E: " ++ explanation
  | _ => String.singleton m.key ++ ": " ++ m.description

end Mask

end PackageCatalog

namespace PackageCatalog.Metadata

/-!
## Metadata keys

A key is a named piece of metadata of a package ID or a repository. Text is read only when
the value is asked for, so a malformed value fails the one key that holds it. The value of a
key that points to a `CONTENTS` file is read from the file tree at that moment.
-/

/-- The value of a key. -/
inductive Value where
  | string (s : String)
  | stringSet (words : List String)
  | keywordSet (keywords : List Keyword)
  | useFlagSet (flags : List UseFlag)
  | declaredFlagSet (flags : List DeclaredFlag)
  | time (seconds : Int)
  | path (p : Path)
  | contents (c : Contents)
  | contentsFile (p : Path)
  | dependencyTree (entries : List (Expression Dependency.Requirement))
  | licenseTree (tree : Expression String)
  | plainTextTree (tree : Expression String)
  | simpleUriTree (tree : Expression String)
  | fetchableUriTree (label : Expression.UriLabel) (tree : Expression Expression.FetchUri)
  | maskInfo (info : Option MaskInfo)

/-- Where the value of a key comes from. -/
inductive Source where
  | text (raw : String)
  | fetches (raw restrict : String)
  | time (seconds : Int)
  | path (p : Path)
  | contentsFile (p : Path)
  | maskInfo (info : Option MaskInfo)
  deriving DecidableEq, Repr

/-- A named piece of metadata. -/
structure Key where
  name : String
  title : String
  significance : Significance
  kind : Kind
  source : Source
  deriving DecidableEq, Repr

namespace Key

/-! ### Making keys -/

/-- A key for a variable; one that is not known is a string under its own name. -/
def ofVariable (name value : String) : Key :=
  match Variable.find? name with
  | some v => ⟨v.name, v.title, v.significance, v.kind, .text value⟩
  | none => ⟨name, name, .normal, .string, .text value⟩

def ofString (name title : String) (significance : Significance) (value : String) : Key :=
  ⟨name, title, significance, .string, .text value⟩

/-- `SRC_URI`, whose label depends on `RESTRICT`. -/
def fetches (value restrict : String) : Key :=
  { ofVariable "SRC_URI" "" with source := .fetches value restrict }

def ofTime (name title : String) (seconds : Int) : Key :=
  ⟨name, title, .normal, .time, .time seconds⟩

def ofPath (name title : String) (significance : Significance) (p : Path) : Key :=
  ⟨name, title, significance, .path, .path p⟩

def contentsFile (p : Path) : Key := ⟨"CONTENTS", "Contents", .normal, .contents, .contentsFile p⟩

def ofMaskInfo (name : String) (info : Option MaskInfo) : Key :=
  ⟨name, ((Variable.find? name).map Variable.title).getD name, .internal, .maskInfo,
    .maskInfo info⟩

/-! ### Values -/

def raw? (k : Key) : Option String :=
  match k.source with
  | .text raw => some raw
  | .fetches raw _ => some raw
  | _ => none

/-- The seconds since 1970 of the years -9999 to 9999. -/
def timeRange : Text.IntegerRange := ⟨-377705116800, 253402300799⟩

/-- The time that a text writes, in seconds since 1970. -/
def parseTime (raw : String) : Except Error Int :=
  match Text.readInteger .bits64 (Text.trim raw) with
  | .error _ => .error (.invalidTime (.notNumber raw))
  | .ok seconds =>
    if timeRange.low ≤ seconds ∧ seconds ≤ timeRange.high then .ok seconds
    else .error (.invalidTime .outOfRange)

def parseValue (raw : String) : Kind → Except Error Value
  | .string => .ok (.string (Text.trim raw))
  | .stringSet => .ok (.stringSet (Sorted.distinct compare (Text.words raw)))
  | .keywordSet => do
    return .keywordSet (Sorted.distinct Keyword.compare (← Keyword.parseLine raw))
  | .useFlagSet => do
    return .useFlagSet (Sorted.distinct compare (← (Text.words raw).mapM (Name.parse .useFlag)))
  | .declaredFlagSet => do return .declaredFlagSet (← DeclaredFlag.parseSet raw)
  | .time => do return .time (← parseTime raw)
  | .path => .ok (.path ⟨Text.trim raw⟩)
  | .contents => do return .contents (← Contents.parse raw)
  | .dependencyTree => do return .dependencyTree (← Dependency.parse raw)
  | .licenseTree => do return .licenseTree (← Expression.parse Expression.licenseFormat raw)
  | .plainTextTree => do return .plainTextTree (← Expression.parse Expression.plainFormat raw)
  | .simpleUriTree => do return .simpleUriTree (← Expression.parse Expression.uriFormat raw)
  | .fetchableUriTree => do
    return .fetchableUriTree .mirrorsThenListed (← Expression.parse Expression.fetchFormat raw)
  | .maskInfo => .ok (.maskInfo none)

def value (k : Key) : Except Error Value :=
  match k.source with
  | .text raw => parseValue raw k.kind
  | .fetches raw restrict => do
    let restrictions ← Expression.parse Expression.plainFormat restrict
    let tree ← Expression.parse Expression.fetchFormat raw
    return .fetchableUriTree (.initial restrictions) tree
  | .time seconds => .ok (.time seconds)
  | .path p => .ok (.path p)
  | .contentsFile p => .ok (.contentsFile p)
  | .maskInfo info => .ok (.maskInfo info)

/-- The value of a key, with the entries of a `CONTENTS` file read from a file tree. -/
def load (files : FileTree) (k : Key) : Except Error Value := do
  match ← k.value with
  | .contentsFile p => return .contents (← Contents.load files p)
  | v => return v

end Key

end PackageCatalog.Metadata
