import PackageCatalog.Proofs.Atom.Reading
import PackageCatalog.Proofs.Repository.Finding
import PackageCatalog.Proofs.Repository.Masking

/-!
# The system set

A line of a `packages` file takes entries of the system set back, or adds one, or says nothing
(`Profile.applySystemLine_eq`). What the lines of a stack leave is what stands of them: the starred
lines that are atoms, unless a later line takes one back by its text (`Profile.foldl_applySystemLine`).
The text of an atom has no blanks around it. So a line with blanks behind its star is taken back by
its text without them, and not by the text that it has.
-/

namespace PackageCatalog.Profile

open Text

variable {files : FileTree} {path : Path} {p q : Profile} {line : String}
  {lines before after : List String}

/-! ## One line -/

/-- The entry that a line adds, if it has a star and an atom behind it. -/
def listed (line : String) : List Atom :=
  match afterLead "*" line with
  | some text => (Atom.parse text).toOption.toList
  | none => []

theorem hyphen_ne_star (s t : String) : "-" ++ s ≠ "*" ++ t := by
  intro h
  have hheads := congrArg (fun text => text.toList.head?) h
  simp only [String.toList_append] at hheads
  cases hheads

theorem hyphen_star (text : String) : "-*" ++ text = "-" ++ ("*" ++ text) := by
  rw [← String.append_assoc]
  rfl

theorem listed_starred (text : String) :
    listed ("*" ++ text) = (Atom.parse text).toOption.toList := by
  rw [listed, afterLead_eq_some_iff.mpr rfl]

theorem listed_of_not_starred (h : ∀ text, line ≠ "*" ++ text) : listed line = [] := by
  rw [listed, Option.eq_none_iff_forall_ne_some.mpr fun text ht => h text (afterLead_eq_some_iff.mp ht)]

/-- A line takes back the entries of its text behind a hyphen and a star, and may add one. -/
theorem applySystemLine_eq (system : List Atom) (line : String) :
    applySystemLine system line =
      (system.filter fun atom => line != "-*" ++ atom.text) ++ listed line := by
  unfold applySystemLine
  cases hhyphen : afterLead "-" line with
  | some rest =>
    -- no star starts the line, so it adds nothing
    obtain rfl := afterLead_eq_some_iff.mp hhyphen
    rw [splitRemoval, hhyphen, listed_of_not_starred (hyphen_ne_star rest), List.append_nil]
    dsimp only
    cases hstar : afterLead "*" rest with
    | none =>
      refine (List.filter_eq_self.mpr fun atom _ => bne_iff_ne.mpr fun htext => ?_).symm
      rw [hyphen_star, String.append_right_inj] at htext
      rw [afterLead_eq_some_iff.mpr htext] at hstar
      cases hstar
    | some text =>
      obtain rfl := afterLead_eq_some_iff.mp hstar
      refine List.filter_congr fun atom _ => ?_
      rw [Bool.eq_iff_iff, bne_iff_ne, bne_iff_ne, hyphen_star, Ne, Ne, String.append_right_inj,
        String.append_right_inj, eq_comm]
  | none =>
    -- no hyphen starts the line, so it takes nothing back
    have hkept : (system.filter fun atom => line != "-*" ++ atom.text) = system := by
      refine List.filter_eq_self.mpr fun atom _ => bne_iff_ne.mpr fun htext => ?_
      rw [htext, hyphen_star, afterLead_eq_some_iff.mpr rfl] at hhyphen
      cases hhyphen
    rw [splitRemoval, hhyphen, hkept, listed]
    dsimp only
    cases afterLead "*" line with
    | none => exact (List.append_nil system).symm
    | some text =>
      dsimp only
      cases Atom.parse text with
      | ok atom => rfl
      | error e => exact (List.append_nil system).symm

/-! ## All lines -/

/-- Of starred lines those that are atoms, in order, unless a later line takes one back: it holds,
behind a hyphen and a star, the text of the line as `spelling` writes it. -/
def standing (spelling : String → String) : List String → List Atom
  | [] => []
  | line :: later =>
    match afterLead "*" line with
    | none => standing spelling later
    | some text =>
      match Atom.parse text with
      | .error _ => standing spelling later
      | .ok atom =>
        if "-*" ++ spelling text ∈ later then standing spelling later
        else atom :: standing spelling later

theorem standing_cons (line : String) (later : List String) : standing trim (line :: later) =
    ((listed line).filter fun atom => "-*" ++ atom.text ∉ later) ++ standing trim later := by
  rw [standing, listed]
  cases afterLead "*" line with
  | none => rfl
  | some text =>
    dsimp only
    cases hparse : Atom.parse text with
    | error e => rfl
    | ok atom =>
      have htext : atom.text = trim text := Atom.text_of_parseWith rfl hparse
      dsimp only [Except.toOption, Option.toList]
      rw [List.filter_cons, List.filter_nil, htext]
      by_cases hback : "-*" ++ trim text ∈ later
      · rw [if_pos hback, decide_eq_false (not_not_intro hback)]
        rfl
      · rw [if_neg hback, decide_eq_true hback]
        rfl

/-- Lines leave of the empty set those of them that stand. -/
theorem foldl_applySystemLine (lines : List String) :
    lines.foldl applySystemLine [] = standing trim lines := by
  have hstanding : standing trim lines =
      remaining (fun atom : Atom => "-*" ++ atom.text) id listed lines := by
    induction lines with
    | nil => rfl
    | cons line later ih => rw [standing_cons, remaining, List.map_id, ih]
  have hstep : applySystemLine = fun system line =>
      (system.filter fun atom => id line != "-*" ++ atom.text) ++ listed line :=
    funext₂ applySystemLine_eq
  rw [hstanding, hstep]
  exact foldl_remaining lines []

/-- No blanks stand between the star of a line and the atom behind it. -/
def Unblanked (lines : List String) : Prop :=
  ∀ line ∈ lines, ∀ text atom, line = "*" ++ text → Atom.parse text = .ok atom → trim text = text

/-- Where there are no such blanks, a line is taken back by the text that it has. -/
theorem standing_trim_eq (h : Unblanked lines) : standing trim lines = standing id lines := by
  induction lines with
  | nil => rfl
  | cons line later ih =>
    obtain ⟨hline, hlater⟩ := List.forall_mem_cons.mp h
    rw [standing, standing, ih hlater]
    cases hstar : afterLead "*" line with
    | none => rfl
    | some text =>
      dsimp only
      cases hparse : Atom.parse text with
      | error e => rfl
      | ok atom =>
        dsimp only
        rw [hline text atom (afterLead_eq_some_iff.mp hstar) hparse]
        rfl

/-! ## Lines that change nothing -/

/-- The line says nothing about the system set as the lines before it leave it. -/
inductive Idle (before : List String) : String → Prop
  | unstarred {line : String} (hadds : ∀ text, line ≠ "*" ++ text)
      (hremoves : ∀ text, line ≠ "-*" ++ text) : Idle before line
  | unreadable {text : String} {e : Error} (h : Atom.parse text = .error e) :
      Idle before ("*" ++ text)
  | absent {text : String} (h : ∀ atom ∈ standing trim before, atom.text ≠ text) :
      Idle before ("-*" ++ text)

theorem Idle.applySystemLine_eq_self (h : Idle before line) :
    applySystemLine (standing trim before) line = standing trim before := by
  rw [applySystemLine_eq]
  cases h with
  | unstarred hadds hremoves =>
    rw [listed_of_not_starred hadds, List.append_nil, List.filter_eq_self]
    exact fun atom _ => bne_iff_ne.mpr (hremoves atom.text)
  | @unreadable text e h =>
    rw [listed_starred, h]
    dsimp only [Except.toOption, Option.toList]
    rw [List.append_nil, List.filter_eq_self]
    refine fun atom _ => bne_iff_ne.mpr fun htext => ?_
    rw [hyphen_star] at htext
    exact hyphen_ne_star _ _ htext.symm
  | @absent text h =>
    have hlisted : listed ("-*" ++ text) = [] := by
      rw [hyphen_star]
      exact listed_of_not_starred (hyphen_ne_star _)
    rw [hlisted, List.append_nil, List.filter_eq_self]
    refine fun atom hatom => bne_iff_ne.mpr fun htext => ?_
    exact h atom hatom (String.append_right_inj _ |>.mp htext).symm

theorem standing_of_idle (h : Idle before line) (after : List String) :
    standing trim (before ++ line :: after) = standing trim (before ++ after) := by
  rw [← foldl_applySystemLine, ← foldl_applySystemLine, List.foldl_append,
    List.foldl_append, List.foldl_cons, foldl_applySystemLine, h.applySystemLine_eq_self]

/-! ## Stacks of directories -/

/-- The lines of the `packages` files of directories, one file after the other. -/
def packageLines (files : FileTree) (dirs : List Path) : Except Error (List String) := do
  return (← dirs.mapM fun dir => files.readLines (dir / "packages")).flatten

theorem packageLines_cons {dir : Path} {dirs : List Path} {own : List String}
    (hown : files.readLines (dir / "packages") = .ok own)
    (hlines : packageLines files dirs = .ok lines) :
    packageLines files (dir :: dirs) = .ok (own ++ lines) := by
  obtain ⟨rest, hrest, hflatten⟩ := Result.bind_eq_ok_iff.mp hlines
  cases hflatten
  rw [packageLines, List.mapM_cons, hown, hrest]
  rfl

theorem system_of_foldlM {dirs : List (List String)}
    (h : dirs.foldlM (applyNames files) p = .ok q) :
    ∃ lines, packageLines files (dirs.map Path.ofNames) = .ok lines ∧
      q.system = lines.foldl applySystemLine p.system := by
  induction dirs generalizing p with
  | nil =>
    cases h
    exact ⟨[], rfl, rfl⟩
  | cons dir dirs ih =>
    obtain ⟨applied, hdir, hdirs⟩ := Result.foldlM_cons_eq_ok_iff.mp h
    obtain ⟨_, _, _, _, _, _, _, own, -, -, -, -, -, -, -, hown, rfl⟩ :=
      applyDirectory_eq_ok_iff.mp hdir
    obtain ⟨lines, hlines, hsystem⟩ := ih hdirs
    refine ⟨own ++ lines, packageLines_cons hown hlines, ?_⟩
    rw [hsystem, List.foldl_append]

/-- The system set of a profile is what stands of the lines of its directories. -/
theorem system_of_load (h : load files path = .ok p) :
    ∃ lines, packageLines files p.directories = .ok lines ∧ p.system = standing trim lines := by
  obtain ⟨_, t, applied, -, -, hdirectories, hflat, rfl⟩ := exists_parentTree_of_load h
  obtain ⟨lines, hlines, hsystem⟩ := system_of_foldlM hflat
  exact ⟨lines, hdirectories ▸ hlines, hsystem.trans (foldl_applySystemLine lines)⟩

/-! ## Repositories -/

open Repository

variable {options : EbuildOptions} {profiles : List ProfileListing}

theorem system_of_loadProfile {s : Switching}
    (h : s.loadProfile files options profiles = .ok p) :
    ∃ lines, packageLines (s.filesRead files) p.directories = .ok lines ∧
      p.system = standing trim lines := by
  obtain ⟨path, hload⟩ | rfl := Switching.of_loadProfile h
  · exact system_of_load hload
  · exact ⟨[], rfl, rfl⟩

theorem packageSet?_of_tree? {r : Repository} {tree : EbuildTree} (h : r.tree? = some tree)
    (name : SetName) : r.packageSet? name =
      if name.text = "system" then some ⟨name, tree.profile.system⟩ else none := by
  rw [packageSet?, h]
  rfl

/-- The system set of a profile is what stands of the lines of its `packages` files, where a line is
taken back by its text without the blanks around it; that is its own text unless a blank follows
the star. Lines without a star, lines with no atom behind it and removals of what does not stand
change nothing. In every state of an opened repository, its system set is that of the present
profile, and it has no other set. -/
theorem system_of_standing_lines (files : FileTree) :
    (∀ (path : Path) (p : Profile), load files path = .ok p →
      ∃ lines, packageLines files p.directories = .ok lines ∧ p.system = standing trim lines ∧
        (Unblanked lines → p.system = standing id lines)) ∧
    (∀ (before : List String) (line : String) (after : List String), Idle before line →
      standing trim (before ++ line :: after) = standing trim (before ++ after)) ∧
    ∀ (options : EbuildOptions) (r : Repository) (requests : List (FileTree × Path)),
      openEbuilds files options = .ok r →
      let s := Switching.run r requests
      ∃ tree lines, s.repository.tree? = some tree ∧
        s.loadProfile files options tree.profiles = .ok tree.profile ∧
        packageLines (s.filesRead files) tree.profile.directories = .ok lines ∧
        (∀ name, s.repository.packageSet? name =
          if name.text = "system" then some ⟨name, standing trim lines⟩ else none) ∧
        (Unblanked lines → standing trim lines = standing id lines) := by
  refine ⟨fun path p hload => ?_, fun before line after hidle => standing_of_idle hidle after,
    fun options r requests hopen => ?_⟩
  · obtain ⟨lines, hlines, hsystem⟩ := system_of_load hload
    exact ⟨lines, hlines, hsystem, fun h => hsystem.trans (standing_trim_eq h)⟩
  · obtain ⟨tree, htree, -, hprofile, -⟩ := exists_tree_run hopen requests
    obtain ⟨lines, hlines, hsystem⟩ := system_of_loadProfile hprofile
    refine ⟨tree, lines, htree, hprofile, hlines, fun name => ?_, standing_trim_eq⟩
    rw [packageSet?_of_tree? htree, hsystem]

/-- A profile that takes two entries of its parent back, and puts one of them at the end. -/
def restoring : FileTree where
  entries := [(["r"], .directory), (["r", "profiles"], .directory), (["base"], .directory),
    (["base", "packages"], .text "*app/kit\n*app/pan\n*app/lid\napp/other\n*no atom"),
    (["leaf"], .directory), (["leaf", "parent"], .text "../base"),
    (["leaf", "packages"], .text "-*app/none\n-*app/kit\n*app/kit\n-*app/lid")]
  workingDirectory := []
  modified := fun _ => 0

def restoringLines : List String :=
  ["*app/kit", "*app/pan", "*app/lid", "app/other", "*no atom", "-*app/none", "-*app/kit",
    "*app/kit", "-*app/lid"]

theorem packageLines_restoring :
    packageLines restoring [⟨"/base"⟩, ⟨"/leaf"⟩] = .ok restoringLines := by
  rfl

theorem exists_open_restoring : ∃ r, openEbuilds restoring (startingAt "/leaf") = .ok r ∧
    r.tree?.map (·.profile.directories) = some [⟨"/base"⟩, ⟨"/leaf"⟩] := by
  have hdirectories : (openEbuilds restoring (startingAt "/leaf")).toOption.map
      (fun r => r.tree?.map (·.profile.directories)) = some (some [⟨"/base"⟩, ⟨"/leaf"⟩]) := by
    rw [openEbuilds_of_directory (startingAt "/leaf") (by decide +kernel)]
    simp only [chosenProfile, Profile.load_eq_getD]
    decide +kernel
  exact Result.exists_of_map_toOption hdirectories

theorem unblanked_restoringLines : Unblanked restoringLines := by
  have hall : (restoringLines.all fun line =>
      (afterLead "*" line).all fun text => trim text == text) = true := by decide +kernel
  rintro line hline text - rfl -
  have htext := List.all_eq_true.mp hall _ hline
  rw [afterLead_eq_some_iff.mpr rfl] at htext
  exact eq_of_beq htext

theorem idle_restoring : Idle (restoringLines.take 5) "-*app/none" := by
  have hline : "-*app/none" = "-*" ++ "app/none" := by decide
  have hothers : ∀ text ∈ (standing trim (restoringLines.take 5)).map Atom.text,
      text ≠ "app/none" := by decide +kernel
  rw [hline]
  exact .absent fun atom hatom => hothers _ (List.mem_map_of_mem hatom)

/-- The entry that was put at the end is the last of the set. -/
theorem packageSet_restoring : ∃ r set, openEbuilds restoring (startingAt "/leaf") = .ok r ∧
    r.packageSet? ⟨"system", by decide⟩ = some set ∧
    set.atoms.map Atom.text = ["app/pan", "app/kit"] ∧ set.atoms = standing id restoringLines ∧
    ∃ p, load restoring ⟨"/leaf"⟩ = .ok p ∧ p.system = set.atoms ∧
      standing trim (restoringLines.take 5 ++ "-*app/none" :: restoringLines.drop 6) =
        standing trim (restoringLines.take 5 ++ restoringLines.drop 6) := by
  obtain ⟨r, hopen, hdirectories⟩ := exists_open_restoring
  obtain ⟨hload, hidle, hopened⟩ := system_of_standing_lines restoring
  obtain ⟨tree, lines, htree, hprofile, hlines, hset, hstanding⟩ := hopened _ r [] hopen
  have hr : (Switching.run r []).repository = r := rfl
  rw [hr] at htree hset
  have hpaths : tree.profile.directories = [⟨"/base"⟩, ⟨"/leaf"⟩] := by
    rw [htree] at hdirectories
    exact Option.some.inj hdirectories
  have hread : packageLines restoring tree.profile.directories = .ok lines := hlines
  have hprofile' : load restoring ⟨"/leaf"⟩ = .ok tree.profile := hprofile
  obtain ⟨lines', hlines', hsystem, -⟩ := hload ⟨"/leaf"⟩ tree.profile hprofile'
  rw [hpaths, packageLines_restoring] at hread hlines'
  cases hread
  cases hlines'
  exact ⟨r, _, hopen, (hset _).trans (if_pos rfl), by decide +kernel,
    hstanding unblanked_restoringLines, tree.profile, hprofile', hsystem,
    hidle _ _ _ idle_restoring⟩

/-! ## A blank behind the star -/

/-- A profile that takes back a line of its parent that has a blank behind its star. -/
def blanked : FileTree where
  entries := [(["base"], .directory), (["base", "packages"], .text "* app/kit"),
    (["leaf"], .directory), (["leaf", "parent"], .text "../base"),
    (["leaf", "packages"], .text "-* app/kit")]
  workingDirectory := []
  modified := fun _ => 0

/-- The line is not taken back by its own text, behind a hyphen, but by one that it does not have. -/
theorem kept_of_blanked : ∃ p, load blanked ⟨"/leaf"⟩ = .ok p ∧
    packageLines blanked p.directories = .ok ["* app/kit", "-* app/kit"] ∧
    p.system.map Atom.text = ["app/kit"] ∧ standing id ["* app/kit", "-* app/kit"] = [] ∧
    (standing id ["* app/kit", "-*app/kit"]).map Atom.text = ["app/kit"] ∧
    (["* app/kit", "-*app/kit"].foldl applySystemLine []).map Atom.text = [] := by
  have hfacts : (load blanked ⟨"/leaf"⟩).toOption.map (fun p =>
      (p.directories, p.system.map Atom.text)) = some ([⟨"/base"⟩, ⟨"/leaf"⟩], ["app/kit"]) := by
    rw [load_eq_getD]
    decide +kernel
  obtain ⟨p, hload, hp⟩ := Result.exists_of_map_toOption hfacts
  obtain ⟨hdirectories, hsystem⟩ := Prod.mk.inj hp
  refine ⟨p, hload, ?_, hsystem, ?_, by decide +kernel, by decide +kernel⟩
  · rw [hdirectories]
    rfl
  · exact List.map_eq_nil_iff.mp (show List.map Atom.text _ = [] by decide +kernel)

end PackageCatalog.Profile
