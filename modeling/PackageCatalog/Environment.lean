import PackageCatalog.Configuration

/-!
# Environments

An environment is a catalog together with a policy: which keywords and licenses are accepted,
which USE flags are on, and what the user masks.
-/

namespace PackageCatalog

/-! ## What an environment answers about a package ID -/

/-- Where an environment's decisions come from: nowhere, as in tests, which accept what is
stable or made for them; a configuration directory; or the profile of a single repository. -/
inductive Policy where
  | test
  | configured (c : Configuration)
  | standalone (location : Path)

/-- A catalog and the policy under which its packages are used. -/
structure Environment where
  policy : Policy
  catalog : Catalog

namespace Environment

/-- The environment of a test, without repositories. -/
def test : Environment := ⟨.test, .empty⟩

/-! ### The environment itself -/

def formatName (e : Environment) : String :=
  match e.policy with
  | .test => "test"
  | .configured _ => "config"
  | .standalone _ => "no-config"

def formatKey (e : Environment) : Metadata.Key :=
  .ofString "format" "Format" .significant e.formatName

def locationKey? (e : Environment) : Option Metadata.Key :=
  match e.policy with
  | .test => none
  | .configured c => some (.ofPath "conf_dir" "Configuration directory" .normal c.directory)
  | .standalone location => some (.ofPath "repository_dir" "Repository directory" .normal location)

def distribution (e : Environment) : String :=
  match e.policy with
  | .configured c => c.distribution
  | _ => "gentoo"

/-- The most important repository, which is the only one of a standalone environment. -/
def main? (e : Environment) : Option Repository := e.catalog.repositories.head?

def mirrors (e : Environment) (name : String) : List String :=
  match e.policy with
  | .test => []
  | .configured c => c.mirrors.uris name
  | .standalone _ =>
    match e.main?.bind Repository.tree? with
    | some tree => tree.mirrors.uris name
    | none => []

def world (e : Environment) : List Atom :=
  match e.policy with
  | .configured c => c.world
  | _ => []

def userSet? (e : Environment) (name : SetName) : Option PackageSet :=
  match e.policy with
  | .configured c => c.sets.find? (·.name = name)
  | _ => none

/-! ### Keywords and licenses -/

/-- The keywords that a profile accepts: its `ACCEPT_KEYWORDS`, or else its architecture.
Words that are no keywords are left out. -/
def profileKeywords (tree : EbuildTree) : List Keyword :=
  let words := Text.words (tree.profileVariable "ACCEPT_KEYWORDS")
  let words := if words.isEmpty then Text.words (tree.profileVariable "ARCH") else words
  words.filterMap fun word => (Keyword.parse word).toOption

def testKeywords : List Keyword := [⟨"test", .stable⟩, ⟨"*", .stable⟩]

/-- Whether one of the keywords is accepted for a package ID. A standalone database of
installed packages accepts them all. -/
def acceptsKeywords (e : Environment) (keywords : List Keyword) (id : PackageId) : Bool :=
  match e.policy with
  | .test => Keyword.anyAccepted keywords testKeywords
  | .configured c => c.acceptsKeywords keywords id
  | .standalone _ =>
    match e.main?.bind Repository.tree? with
    | some tree => Keyword.anyAccepted keywords (profileKeywords tree)
    | none => true

/-- Whether a license is accepted for a package ID; without a configuration all are. -/
def acceptsLicense (e : Environment) (license : String) (id : PackageId) : Bool :=
  match e.policy with
  | .configured c => c.acceptsLicense license id
  | _ => true

/-! ### USE flags -/

def owner? (e : Environment) (id : PackageId) : Option Repository :=
  (e.catalog.find? id.repository).map Prod.snd

def repositoryUse (e : Environment) (flag : UseFlag) (id : PackageId) : UseState :=
  match e.owner? id with
  | some r => r.effectiveUse flag id
  | none => .unspecified

/-- Whether the ID's repository leaves no choice about a flag. -/
def fixesUse (e : Environment) (flag : UseFlag) (id : PackageId) : Bool :=
  (e.owner? id).any fun r => r.masksUse flag id || r.forcesUse flag id

/-- The state of a flag for a package ID. A repository's masks and forces win; otherwise what
the user says does. -/
def useState (e : Environment) (flag : UseFlag) (id : PackageId) : UseState :=
  let mentioned := match e.policy with
    | .configured c => if e.fixesUse flag id then none else c.mentionOf? flag id
    | _ => none
  match mentioned with
  | some on => .ofBool on
  | none => e.repositoryUse flag id

/-! ### Masks -/

def userMasks (e : Environment) (id : PackageId) : Bool :=
  match e.policy with
  | .configured c => c.masks id
  | _ => false

/-- Whether the user unmasks a package ID, against the masks of its repository. -/
def userUnmasks (e : Environment) (id : PackageId) : Bool :=
  match e.policy with
  | .configured c => c.unmasks id
  | _ => false

/-- The mask that the keywords of an ID call for; malformed ones make it unusable. -/
def keywordMask? (e : Environment) (id : PackageId) : Option Mask :=
  match (id.key? "KEYWORDS").map Metadata.Key.value with
  | some (.ok (.keywordSet keywords)) =>
    if e.acceptsKeywords keywords id then none else some .unacceptedKeywords
  | some (.error fault) => some (.unsupported s!"Bad KEYWORDS: {fault.message}")
  | _ => none

/-- The mask that the license of an ID calls for; a malformed one makes it unusable. -/
def licenseMask? (e : Environment) (id : PackageId) : Option Mask :=
  match (id.key? "LICENSE").map Metadata.Key.value with
  | some (.ok (.licenseTree tree)) =>
    let isOn := fun flag => (e.useState flag id).isEnabled
    if tree.evaluate isOn fun license => e.acceptsLicense license id then none
    else some .unacceptedLicense
  | some (.error fault) => some (.unsupported s!"Bad LICENSE: {fault.message}")
  | _ => none

/-- The masks of the repository that are in force. -/
def repositoryMasks (e : Environment) (id : PackageId) : List Mask :=
  if e.userUnmasks id then id.masks.filter (!·.isRepositoryMask) else id.masks

/-- Every reason why a package ID is masked. Keywords and licenses do not matter for what is
installed. -/
def masks (e : Environment) (id : PackageId) : List Mask :=
  e.repositoryMasks id ++
    (if e.userMasks id && !e.userUnmasks id then [.user] else []) ++
    (if id.supports .installed then []
      else (e.keywordMask? id).toList ++ (e.licenseMask? id).toList)

def isMasked (e : Environment) (id : PackageId) : Bool := !(e.masks id).isEmpty

end Environment

/-!
## Opening environments

An environment is opened from a configuration directory, from a single repository, or as a
specification of the form `class:suffix` asks. The suffix of `config` chooses a directory in
the user's home, that of `no-config` is the repository.
-/

namespace Environment

def openConfigured (files : FileTree) (dir : Path) : Except Error Environment := do
  let c ← Configuration.load files dir
  let catalog ← Configuration.loadCatalog files dir
  return ⟨.configured c, catalog⟩

/-- Opens a repository by what is there: one with profiles is an ebuild repository. -/
def openRepository (files : FileTree) (location : Path) : Except Error Repository :=
  if files.isDirectory (location / "profiles") then Repository.openEbuilds files (.at location)
  else Repository.openInstalled files (.at location)

def openStandalone (files : FileTree) (location : Path) : Except Error Environment := do
  let r ← openRepository files location
  return ⟨.standalone location, ⟨[(0, r)]⟩⟩

end Environment

/-- What a specification of an environment asks for. -/
inductive EnvironmentSpec where
  | test
  | configured (suffix : String)
  | standalone (location : Path)
  deriving DecidableEq, Repr

namespace EnvironmentSpec

/-- The configuration directory in a home that a suffix chooses. -/
def configDirectory (home : Path) (suffix : String) : Path :=
  home / if suffix.isEmpty then ".portage-query" else ".portage-query-" ++ suffix

/-- What a text asks for. `current` is the repository of `no-config` without a suffix. -/
def parse (current : Path) (text : String) : Except Error EnvironmentSpec :=
  let (kind, suffix) := (Text.splitOnce ':' text).getD (text, "")
  match kind with
  | "" | "config" => .ok (.configured suffix)
  | "no-config" => .ok (.standalone (if suffix.isEmpty then current else ⟨suffix⟩))
  | "test" => .ok .test
  | _ => .error (.badEnvironment text)

end EnvironmentSpec

namespace Environment

def ofSpec (files : FileTree) (home : Path) : EnvironmentSpec → Except Error Environment
  | .test => .ok test
  | .configured suffix => openConfigured files (EnvironmentSpec.configDirectory home suffix)
  | .standalone location => openStandalone files location

def create (files : FileTree) (home : Path) (text : String) : Except Error Environment := do
  ofSpec files home (← EnvironmentSpec.parse (.ofNames files.workingDirectory) text)

end Environment

end PackageCatalog
