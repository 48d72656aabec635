import PackageCatalog.Configuration
import PackageCatalog.Proofs.FileTree

/-!
# Loading a configuration

Loading is a chain of readings; `Loaded` says what each of them came to. The values for an ID are
what the tokens of the lines that speak of it write, in their order (`exists_lines_of_readRules`),
and the atoms of a list are those that its lines write (`exists_lines_of_readAtoms`). Directories
that differ in one file only say the same in all that is read from the others.
-/

namespace PackageCatalog.Configuration

variable {α : Type} {files : FileTree} {dir path : Path} {c : Configuration}

/-! ## Rules -/

theorem blame_eq_ok_iff {x : Except Error α} {a : α} : blame path x = .ok a ↔ x = .ok a := by
  cases x with
  | error e => exact iff_of_false nofun nofun
  | ok b => rfl

/-- The line starts with an atom that describes the ID. -/
def speaksOf (id : PackageId) (line : String) : Bool :=
  (Text.words line).head?.any fun token => (Atom.parseWildcard token).toOption.any (·.describes id)

/-- What the lines that speak of an ID say behind their atoms. -/
def tokensFor (id : PackageId) (lines : List String) : List String :=
  (lines.filter (speaksOf id)).flatMap fun line => (Text.words line).tail

theorem tokensFor_cons (id : PackageId) (line : String) (lines : List String) :
    tokensFor id (line :: lines) =
      (if speaksOf id line then (Text.words line).tail else []) ++ tokensFor id lines := by
  unfold tokensFor
  rw [List.filter_cons]
  cases speaksOf id line <;> rfl

theorem valuesFor_cons (rule : Rule α) (rules : List (Rule α)) (id : PackageId) :
    Rule.valuesFor (rule :: rules) id =
      (if rule.atom.describes id then rule.values else []) ++ Rule.valuesFor rules id := by
  unfold Rule.valuesFor
  rw [List.filter_cons]
  cases rule.atom.describes id <;> rfl

theorem mapM_of_mapM_blame {parse : String → Except Error α} {tokens : List String}
    {values : List α} (h : tokens.mapM (fun token => blame path (parse token)) = .ok values) :
    tokens.mapM parse = .ok values := by
  induction tokens generalizing values with
  | nil => exact h
  | cons token tokens ih =>
    rw [List.mapM_cons] at h ⊢
    obtain ⟨value, hvalue, h⟩ := Result.bind_eq_ok_iff.mp h
    obtain ⟨more, hmore, h⟩ := Result.bind_eq_ok_iff.mp h
    rw [blame_eq_ok_iff.mp hvalue, ih hmore]
    exact h

def readRule? (path : Path) (parse : String → Except Error α) (line : String) :
    Except Error (Option (Rule α)) :=
  match Text.words line with
  | [] => pure none
  | token :: tokens => do
    let atom ← readAtom path token
    let values ← tokens.mapM fun token => blame path (parse token)
    return some ⟨atom, values⟩

theorem readRules_eq (files : FileTree) (path : Path) (parse : String → Except Error α) :
    readRules files path parse = do
      let rules ← (← files.readLines path).mapM (readRule? path parse)
      return rules.filterMap fun rule => rule := rfl

/-- A line adds what it says to the values for an ID, if it speaks of that ID. -/
theorem mapM_tokensFor_cons {parse : String → Except Error α} {id : PackageId} {line : String}
    {lines : List String} {rule? : Option (Rule α)} {rules : List (Rule α)}
    (hline : readRule? path parse line = .ok rule?)
    (hlines : (tokensFor id lines).mapM parse = .ok (Rule.valuesFor rules id)) :
    (tokensFor id (line :: lines)).mapM parse =
      .ok (Rule.valuesFor (rule?.toList ++ rules) id) := by
  rw [tokensFor_cons]
  unfold readRule? at hline
  split at hline
  · next hwords =>
    cases hline
    have hsilent : speaksOf id line = false := by
      rw [speaksOf, hwords]
      rfl
    rw [hsilent]
    exact hlines
  · next token tokens hwords =>
    obtain ⟨atom, hatom, hline⟩ := Result.bind_eq_ok_iff.mp hline
    obtain ⟨values, hvalues, hline⟩ := Result.bind_eq_ok_iff.mp hline
    cases hline
    have hspeaks : speaksOf id line = atom.describes id := by
      rw [speaksOf, hwords, List.head?_cons, Option.any_some, blame_eq_ok_iff.mp hatom]
      rfl
    rw [hspeaks, hwords, Option.toList_some, List.singleton_append, valuesFor_cons,
      List.mapM_append, hlines, List.tail_cons]
    cases atom.describes id with
    | false => rfl
    | true =>
      rw [if_pos rfl, if_pos rfl, mapM_of_mapM_blame hvalues]
      rfl

theorem mapM_tokensFor {parse : String → Except Error α} {lines : List String}
    {found : List (Option (Rule α))} (h : lines.mapM (readRule? path parse) = .ok found)
    (id : PackageId) : (tokensFor id lines).mapM parse =
      .ok (Rule.valuesFor (found.filterMap fun rule => rule) id) := by
  induction lines generalizing found with
  | nil =>
    cases h
    rfl
  | cons line lines ih =>
    rw [List.mapM_cons] at h
    obtain ⟨rule?, hrule, h⟩ := Result.bind_eq_ok_iff.mp h
    obtain ⟨more, hmore, h⟩ := Result.bind_eq_ok_iff.mp h
    cases h
    rw [mapM_tokensFor_cons hrule (ih hmore)]
    cases rule? <;> rfl

/-- The values for an ID are what the lines that speak of it write, in their order. -/
theorem exists_lines_of_readRules {parse : String → Except Error α} {rules : List (Rule α)}
    (h : readRules files path parse = .ok rules) :
    ∃ lines, files.readLines path = .ok lines ∧
      ∀ id, (tokensFor id lines).mapM parse = .ok (Rule.valuesFor rules id) := by
  rw [readRules_eq] at h
  obtain ⟨lines, hlines, h⟩ := Result.bind_eq_ok_iff.mp h
  obtain ⟨found, hfound, h⟩ := Result.bind_eq_ok_iff.mp h
  cases h
  exact ⟨lines, hlines, mapM_tokensFor hfound⟩

/-! ## Atoms -/

/-- The line writes the atom, by itself or behind a mark. -/
def WritesAtom (line : String) (a : Atom) : Prop :=
  ∃ token, (Text.words line = [token] ∨ Text.words line = ["*", token] ∨
    Text.words line = ["?", token]) ∧ Atom.parseWildcard token = .ok a

/-- The atoms of a file are those that its lines write. -/
theorem exists_lines_of_readAtoms {atoms : List Atom} (h : readAtoms files path = .ok atoms) :
    ∃ lines, files.readLines path = .ok lines ∧
      ∀ a, a ∈ atoms ↔ ∃ line ∈ lines, WritesAtom line a := by
  obtain ⟨lines, hlines, hread⟩ := Result.bind_eq_ok_iff.mp h
  refine ⟨lines, hlines, fun a => ⟨fun ha => ?_, ?_⟩⟩
  · obtain ⟨line, hmem, hline⟩ := Result.exists_of_mem_mapM hread ha
    refine ⟨line, hmem, ?_⟩
    split at hline
    · next token hwords => exact ⟨token, .inl hwords, blame_eq_ok_iff.mp hline⟩
    · next token hwords => exact ⟨token, .inr (.inl hwords), blame_eq_ok_iff.mp hline⟩
    · next token hwords => exact ⟨token, .inr (.inr hwords), blame_eq_ok_iff.mp hline⟩
    · cases hline
  · rintro ⟨line, hmem, token, hwords, ha⟩
    obtain ⟨b, hb, hline⟩ := Result.exists_mem_of_mapM hread hmem
    rcases hwords with hwords | hwords | hwords
    all_goals
      rw [hwords] at hline
      cases ha.symm.trans (blame_eq_ok_iff.mp hline)
      exact hb

/-! ## The files of a directory -/

/-- What a configuration was read from. -/
structure Loaded (files : FileTree) (dir : Path) (general : Settings) (c : Configuration) :
    Prop where
  isDirectory : files.isDirectory dir = true
  settings : readSettings files (dir / "general.conf") = .ok general
  directory : c.directory = dir
  distribution : c.distribution = (general.get? "distribution").getD "gentoo"
  keywords : readRules files (dir / "keywords.conf") Keyword.parse = .ok c.keywords
  licenses : readRules files (dir / "licenses.conf") Except.ok = .ok c.licenses
  useFlags : readRules files (dir / "use.conf") readFlag = .ok c.useFlags
  mirrors : MirrorList.load files (dir / "mirrors.conf") = .ok c.mirrors
  packageMask : readAtoms files (dir / "package_mask.conf") = .ok c.packageMask
  packageUnmask : readAtoms files (dir / "package_unmask.conf") = .ok c.packageUnmask
  world : readAtoms files (resolvePath dir ((general.get? "world").getD "world")) = .ok c.world
  sets : readSets files (dir / "sets") = .ok c.sets

theorem exists_loaded (h : load files dir = .ok c) : ∃ general, Loaded files dir general c := by
  unfold load at h
  split at h
  · cases h
  · next hdirectory =>
    rw [Bool.not_eq_true, Bool.not_eq_false'] at hdirectory
    obtain ⟨general, hgeneral, h⟩ := Result.bind_eq_ok_iff.mp h
    obtain ⟨keywords, hkeywords, h⟩ := Result.bind_eq_ok_iff.mp h
    obtain ⟨licenses, hlicenses, h⟩ := Result.bind_eq_ok_iff.mp h
    obtain ⟨useFlags, huseFlags, h⟩ := Result.bind_eq_ok_iff.mp h
    obtain ⟨mirrors, hmirrors, h⟩ := Result.bind_eq_ok_iff.mp h
    obtain ⟨packageMask, hpackageMask, h⟩ := Result.bind_eq_ok_iff.mp h
    obtain ⟨packageUnmask, hpackageUnmask, h⟩ := Result.bind_eq_ok_iff.mp h
    obtain ⟨world, hworld, h⟩ := Result.bind_eq_ok_iff.mp h
    obtain ⟨sets, hsets, h⟩ := Result.bind_eq_ok_iff.mp h
    cases h
    exact ⟨general, hdirectory, hgeneral, rfl, rfl, hkeywords, hlicenses, huseFlags, hmirrors,
      hpackageMask, hpackageUnmask, hworld, hsets⟩

/-! ## Directories that differ in a file -/

section differOnlyIn

variable {files' : FileTree} {c' : Configuration} {name : String}

/-- What can be read in the directory is the same but for a file of that name. -/
def DifferOnlyIn (dir : Path) (name : String) (files files' : FileTree) : Prop :=
  ∀ x, Path.isStep x = true → x ≠ name → files'.read (dir / x) = files.read (dir / x)

/-- Another text in a file of the directory makes no other difference there. -/
theorem differOnlyIn_put (place : List String) {node : FileNode} (hdir : dir.text ≠ "")
    (hresolve : files.resolve dir = .ok place) (hnames : (files.entries.map Prod.fst).Nodup)
    (hmem : place ++ [name] ∈ files.entries.map Prod.fst)
    (hplace : files.node? (place ++ [name]) ≠ some .directory) (hnode : node ≠ .directory) :
    DifferOnlyIn dir name files (files.put (place ++ [name]) node) := by
  intro x hx hne
  refine (FileTree.rewrites_put hnames hmem hplace hnode).read fun q hq => ?_
  obtain ⟨d, hd, -, rfl⟩ := FileTree.resolve_join hdir hx hq
  cases hresolve.symm.trans hd
  refine beq_eq_false_iff_ne.mpr fun heq => hne ?_
  exact List.singleton_inj.mp (List.append_cancel_left heq)

theorem DifferOnlyIn.readLines_eq (hdiffer : DifferOnlyIn dir name files files') {x : String}
    (hstep : Path.isStep x = true) (hname : x ≠ name) :
    files'.readLines (dir / x) = files.readLines (dir / x) := by
  unfold FileTree.readLines FileTree.readOptional
  rw [hdiffer x hstep hname]

/-- What both configurations read from the lines of another file is the same. -/
theorem DifferOnlyIn.field_eq (hdiffer : DifferOnlyIn dir name files files') {β : Type}
    {field : Configuration → β} {x : String} {read : List String → Except Error β}
    (hstep : Path.isStep x = true) (hname : x ≠ name)
    (hread : ∀ files general c, Loaded files dir general c →
      (files.readLines (dir / x) >>= read) = .ok (field c))
    (h : load files dir = .ok c) (h' : load files' dir = .ok c') : field c' = field c := by
  obtain ⟨general, hloaded⟩ := exists_loaded h
  obtain ⟨general', hloaded'⟩ := exists_loaded h'
  have hsame := hread files' general' c' hloaded'
  rw [hdiffer.readLines_eq hstep hname, hread files general c hloaded] at hsame
  exact (Except.ok.inj hsame).symm

/-- The two configurations say the same about the keywords, licenses and flags of an ID. -/
structure AcceptsAlike (c c' : Configuration) (id : PackageId) : Prop where
  keywords : Rule.valuesFor c'.keywords id = Rule.valuesFor c.keywords id
  licenses : Rule.valuesFor c'.licenses id = Rule.valuesFor c.licenses id
  useFlags : Rule.valuesFor c'.useFlags id = Rule.valuesFor c.useFlags id

theorem DifferOnlyIn.acceptsAlike (hdiffer : DifferOnlyIn dir name files files')
    (hname : name ∉ ["keywords.conf", "licenses.conf", "use.conf"]) (h : load files dir = .ok c)
    (h' : load files' dir = .ok c') (id : PackageId) : AcceptsAlike c c' id := by
  have hne : ∀ x ∈ ["keywords.conf", "licenses.conf", "use.conf"], x ≠ name :=
    fun x hx heq => hname (heq ▸ hx)
  have hkeywords : c'.keywords = c.keywords :=
    hdiffer.field_eq (by decide) (hne _ (by decide)) (fun _ _ _ hl => hl.keywords) h h'
  have hlicenses : c'.licenses = c.licenses :=
    hdiffer.field_eq (by decide) (hne _ (by decide)) (fun _ _ _ hl => hl.licenses) h h'
  have huseFlags : c'.useFlags = c.useFlags :=
    hdiffer.field_eq (by decide) (hne _ (by decide)) (fun _ _ _ hl => hl.useFlags) h h'
  exact ⟨by rw [hkeywords], by rw [hlicenses], by rw [huseFlags]⟩

/-- A list of atoms that both read from another file describes the same IDs. -/
theorem DifferOnlyIn.describes_eq (hdiffer : DifferOnlyIn dir name files files')
    {atoms : Configuration → List Atom} {x : String} (hstep : Path.isStep x = true)
    (hname : x ≠ name)
    (hread : ∀ files general c, Loaded files dir general c →
      readAtoms files (dir / x) = .ok (atoms c))
    (h : load files dir = .ok c) (h' : load files' dir = .ok c') (id : PackageId) :
    (atoms c').any (·.describes id) = (atoms c).any (·.describes id) := by
  rw [hdiffer.field_eq hstep hname hread h h']

end differOnlyIn

end PackageCatalog.Configuration
