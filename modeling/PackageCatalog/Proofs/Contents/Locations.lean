import PackageCatalog.Proofs.Contents

/-!
# Entries without a location

The reader of a line refuses one without fields, but a file or a link may still have fields and no
path among them: `obj`, two spaces, a sum and a time, or `sym`, two spaces and an arrow
(`ContentsEntry.Pathless`). Such a line is read as an entry without a location, and every other
entry has one (`Contents.located_unless_pathless`).
-/

namespace PackageCatalog

/-! ## What was cut -/

namespace Text

variable {c : Char} {s a b mark : String}

/-- Behind the last cut nothing is cut. -/
theorem exists_of_cutAtLast {p : Char → Bool} {s before after : List Char}
    (h : cutAtLast p s = some (before, after)) :
    ∃ c, p c = true ∧ s = before ++ c :: after ∧ ∀ d ∈ after, p d = false := by
  have hnone : ∀ s : List Char, cutAtLast p s = none → ∀ d ∈ s, p d = false := by
    intro s
    induction s with
    | nil => exact fun _ _ hd => absurd hd List.not_mem_nil
    | cons c s ih =>
      intro hs
      rw [cutAtLast] at hs
      split at hs
      · cases hs
      · next hrest =>
        split at hs
        · cases hs
        · next hc => exact List.forall_mem_cons.mpr ⟨Bool.eq_false_iff.mpr hc, ih hrest⟩
  induction s generalizing before with
  | nil => cases h
  | cons c s ih =>
    rw [cutAtLast] at h
    split at h
    · next hcut =>
      cases h
      obtain ⟨d, hd, rfl, hafter⟩ := ih hcut
      exact ⟨d, hd, rfl, hafter⟩
    · next hrest =>
      split at h
      · next hc =>
        cases h
        exact ⟨c, hc, rfl, hnone _ hrest⟩
      · cases h

theorem eq_of_splitOnce_space (h : splitOnce ' ' s = some (a, b)) : s = a ++ " " ++ b := by
  rw [← String.toList_inj, toList_spaced]
  exact toList_of_splitOnce h

theorem splitOnceLast_space_iff :
    splitOnceLast ' ' s = some (a, b) ↔ s = a ++ " " ++ b ∧ ' ' ∉ b.toList := by
  constructor
  · intro h
    obtain ⟨⟨before, after⟩, hcut, hparts⟩ := Option.map_eq_some_iff.mp h
    cases hparts
    obtain ⟨d, hd, hs, hafter⟩ := exists_of_cutAtLast hcut
    cases eq_of_beq hd
    rw [← String.toList_inj, toList_spaced, String.toList_ofList, String.toList_ofList]
    exact ⟨hs, fun hmem => absurd (hafter ' ' hmem) (by decide)⟩
  · rintro ⟨rfl, hb⟩
    exact splitOnceLast_space hb

theorem eq_of_splitAround (h : splitAround mark s = some (a, b)) : s = a ++ mark ++ b := by
  obtain ⟨⟨before, after⟩, hcut, hparts⟩ := Option.map_eq_some_iff.mp h
  cases hparts
  rw [← String.toList_inj, eq_append_of_cutAround hcut]
  simp

end Text

/-! ## One line -/

namespace ContentsEntry

open Text

/-- Lines with nothing where the path of a file or a link belongs. -/
inductive Pathless : String → Prop
  | file {md5 mtime : String} (hmd5 : ' ' ∉ md5.toList) (hmtime : ' ' ∉ mtime.toList) :
      Pathless ("obj  " ++ md5 ++ " " ++ mtime)
  | link (rest : String) : Pathless ("sym  -> " ++ rest)

variable {e : ContentsEntry} {line fields : String}

theorem parseFile?_eq_some_iff : parseFile? fields = some e ↔
    ∃ path md5 mtime seconds, fields = path ++ " " ++ md5 ++ " " ++ mtime ∧ ' ' ∉ md5.toList ∧
      ' ' ∉ mtime.toList ∧ readInteger .bits64 mtime = .ok seconds ∧
      e = file ⟨path⟩ md5 seconds := by
  unfold parseFile?
  simp only [Option.bind_eq_bind, Option.bind_eq_some_iff, Prod.exists, splitOnceLast_space_iff,
    Option.pure_def, Option.some.injEq]
  constructor
  · rintro ⟨_, mtime, ⟨rfl, hmtime⟩, path, md5, ⟨rfl, hmd5⟩, seconds, hread, rfl⟩
    cases hseconds : readInteger .bits64 mtime with
    | error fault =>
      rw [hseconds] at hread
      cases hread
    | ok read =>
      rw [hseconds] at hread
      cases hread
      exact ⟨path, md5, mtime, seconds, rfl, hmd5, hmtime, hseconds, rfl⟩
  · rintro ⟨path, md5, mtime, seconds, rfl, hmd5, hmtime, hread, rfl⟩
    exact ⟨_, mtime, ⟨rfl, hmtime⟩, path, md5, ⟨rfl, hmd5⟩, seconds, by rw [hread]; rfl, rfl⟩

/-- The path of a link is what stands in front of the first arrow. -/
theorem exists_of_parseLink? (h : parseLink? fields = some e) :
    ∃ rest, splitAround " -> " fields = some (e.location.text, rest) := by
  obtain ⟨⟨path, rest⟩, hpath, h⟩ := Option.bind_eq_some_iff.mp h
  obtain ⟨⟨target, mtime⟩, -, h⟩ := Option.bind_eq_some_iff.mp h
  obtain ⟨seconds, -, h⟩ := Option.bind_eq_some_iff.mp h
  cases h
  exact ⟨rest, hpath⟩

/-- The words of the lines that are read, and how their fields are. -/
theorem parseLine_cases (h : parseLine line = .ok (some e)) :
    ∃ word fields, splitOnce ' ' line = some (word, fields) ∧
      (e.location.text = fields ∧ fields ≠ "" ∧ word ∈ ["dir", "fif", "dev"] ∨
        word = "obj" ∧ parseFile? fields = some e ∨ word = "sym" ∧ parseLink? fields = some e) := by
  unfold parseLine at h
  dsimp only at h
  split at h
  · cases h
  · next word fields hsplit =>
    refine ⟨word, fields, hsplit, ?_⟩
    split at h
    · cases h
    · next hfields =>
      have hne : fields ≠ "" := fun hempty => hfields (String.isEmpty_iff.mpr hempty)
      split at h
      · cases h
        exact .inl ⟨rfl, hne, by decide⟩
      · cases h
        exact .inl ⟨rfl, hne, by decide⟩
      · cases h
        exact .inl ⟨rfl, hne, by decide⟩
      · split at h
        · next hread =>
          cases h
          exact .inr (.inl ⟨rfl, hread⟩)
        · cases h
      · split at h
        · next hread =>
          cases h
          exact .inr (.inr ⟨rfl, hread⟩)
        · cases h
      · cases h

/-- What a line without a path says in its fields. -/
theorem Pathless.splitOnce (h : Pathless line) :
    (∃ md5 mtime, ' ' ∉ md5.toList ∧ ' ' ∉ mtime.toList ∧
      Text.splitOnce ' ' line = some ("obj", "" ++ " " ++ md5 ++ " " ++ mtime)) ∨
    ∃ rest, Text.splitOnce ' ' line = some ("sym", "" ++ " -> " ++ rest) := by
  have hspace {word fields : String} (hword : ' ' ∉ word.toList)
      (hline : line = word ++ " " ++ fields) : Text.splitOnce ' ' line = some (word, fields) :=
    hline ▸ splitOnce_space hword
  cases h with
  | @file md5 mtime hmd5 hmtime =>
    refine .inl ⟨md5, mtime, hmd5, hmtime, hspace (by decide) ?_⟩
    rw [← String.toList_inj]
    simp
  | link rest =>
    refine .inr ⟨rest, hspace (by decide) ?_⟩
    rw [← String.toList_inj]
    simp

theorem parseLine_ne_none_of_word {word : String}
    (hsplit : Text.splitOnce ' ' line = some (word, fields)) (hword : word ∈ ["obj", "sym"]) :
    parseLine line ≠ .ok none := by
  unfold parseLine
  rw [hsplit]
  dsimp only
  intro hnone
  split at hnone
  · cases hnone
  · simp only [List.mem_cons, List.not_mem_nil, or_false] at hword
    rcases hword with rfl | rfl
    · cases hfile : parseFile? fields <;> rw [hfile] at hnone <;> cases hnone
    · cases hlink : parseLink? fields <;> rw [hlink] at hnone <;> cases hnone

/-- No such line is skipped as one of an unknown word. -/
theorem Pathless.parseLine_ne_none (h : Pathless line) : parseLine line ≠ .ok none := by
  rcases h.splitOnce with ⟨md5, mtime, -, -, hsplit⟩ | ⟨rest, hsplit⟩
  · exact parseLine_ne_none_of_word hsplit (by decide)
  · exact parseLine_ne_none_of_word hsplit (by decide)

/-- An entry has no location just if its line writes none. -/
theorem location_eq_empty_iff (h : parseLine line = .ok (some e)) :
    e.location.text = "" ↔ Pathless line := by
  obtain ⟨word, fields, hsplit, hread⟩ := parseLine_cases h
  constructor
  · intro hempty
    rw [eq_of_splitOnce_space hsplit]
    rcases hread with ⟨hlocation, hne, -⟩ | ⟨rfl, hfile⟩ | ⟨rfl, hlink⟩
    · exact absurd (hlocation.symm.trans hempty) hne
    · obtain ⟨path, md5, mtime, seconds, rfl, hmd5, hmtime, -, rfl⟩ :=
        parseFile?_eq_some_iff.mp hfile
      have hpath : path = "" := hempty
      have hline : "obj" ++ " " ++ (path ++ " " ++ md5 ++ " " ++ mtime) =
          "obj  " ++ md5 ++ " " ++ mtime := by
        rw [hpath, ← String.toList_inj]
        simp
      exact hline ▸ .file hmd5 hmtime
    · obtain ⟨rest, harrow⟩ := exists_of_parseLink? hlink
      have hline : "sym" ++ " " ++ fields = "sym  -> " ++ rest := by
        rw [eq_of_splitAround harrow, hempty, ← String.toList_inj]
        simp
      exact hline ▸ .link rest
  · intro hpathless
    rcases hpathless.splitOnce with ⟨md5, mtime, hmd5, hmtime, hparts⟩ | ⟨rest, hparts⟩
    · cases hsplit.symm.trans hparts
      rcases hread with ⟨-, -, hword⟩ | ⟨-, hfile⟩ | ⟨hword, -⟩
      · exact absurd hword (by decide)
      · obtain ⟨path, md5', mtime', seconds, hfields, hmd5', hmtime', -, rfl⟩ :=
          parseFile?_eq_some_iff.mp hfile
        -- the two cuts from the right find the same fields
        have hlast := splitOnceLast_space_iff.mpr ⟨hfields, hmtime'⟩
        rw [splitOnceLast_space hmtime] at hlast
        have hfront := (Prod.mk.inj (Option.some.inj hlast)).1
        have hpath := splitOnceLast_space_iff.mpr ⟨hfront, hmd5'⟩
        rw [splitOnceLast_space hmd5] at hpath
        exact (Prod.mk.inj (Option.some.inj hpath)).1.symm
      · exact absurd hword (by decide)
    · cases hsplit.symm.trans hparts
      rcases hread with ⟨-, -, hword⟩ | ⟨hword, -⟩ | ⟨-, hlink⟩
      · exact absurd hword (by decide)
      · exact absurd hword (by decide)
      · obtain ⟨rest', harrow⟩ := exists_of_parseLink? hlink
        rw [splitAround_arrow (by decide) (by decide)] at harrow
        exact (Prod.mk.inj (Option.some.inj harrow)).1.symm

end ContentsEntry

/-! ## Texts -/

namespace Contents

open ContentsEntry Text

variable {text : String} {entries : Contents}

/-- The entries of a text are those of its lines, and those without a location are the ones of the
lines without a path. -/
theorem located_unless_pathless (h : parse text = .ok entries) :
    (∀ e ∈ entries, ∃ line ∈ filledLines text, parseLine line = .ok (some e) ∧
      (e.location.text = "" ↔ Pathless line)) ∧
    (∀ line ∈ filledLines text, Pathless line →
      ∃ e ∈ entries, parseLine line = .ok (some e) ∧ e.location.text = "") ∧
    ((∀ e ∈ entries, e.location.text ≠ "") ↔ ∀ line ∈ filledLines text, ¬ Pathless line) := by
  rw [parse_eq] at h
  obtain ⟨read, hread, hentries⟩ := Result.bind_eq_ok_iff.mp h
  cases hentries
  have hlines : ∀ e ∈ read.filterMap id, ∃ line ∈ filledLines text,
      parseLine line = .ok (some e) ∧ (e.location.text = "" ↔ Pathless line) := by
    intro e he
    obtain ⟨found?, hmem, rfl⟩ := List.mem_filterMap.mp he
    obtain ⟨line, hline, hentry⟩ := Result.exists_of_mem_mapM hread hmem
    exact ⟨line, hline, hentry, location_eq_empty_iff hentry⟩
  have hpathless : ∀ line ∈ filledLines text, Pathless line →
      ∃ e ∈ read.filterMap id, parseLine line = .ok (some e) ∧ e.location.text = "" := by
    intro line hline hpath
    obtain ⟨found?, hmem, hentry⟩ := Result.exists_mem_of_mapM hread hline
    cases found? with
    | none => exact absurd hentry hpath.parseLine_ne_none
    | some e =>
      exact ⟨e, List.mem_filterMap.mpr ⟨some e, hmem, rfl⟩, hentry,
        (location_eq_empty_iff hentry).mpr hpath⟩
  refine ⟨hlines, hpathless, ?_, ?_⟩
  · intro hall line hline hpath
    obtain ⟨e, he, -, hempty⟩ := hpathless line hline hpath
    exact hall e he hempty
  · intro hnone e he hempty
    obtain ⟨line, hline, -, hiff⟩ := hlines e he
    exact hnone line hline (hiff.mp hempty)

/-- One path is written and one is not. -/
theorem located_of_mixed :
    ∃ entries, parse "dir /usr\nsym  -> t 7\n" = .ok entries ∧
      (∃ e ∈ entries, e.location.text = "") ∧ ∃ e ∈ entries, e.location.text ≠ "" := by
  obtain ⟨entries, hread⟩ :=
    Result.exists_ok_of_isSome (x := parse "dir /usr\nsym  -> t 7\n") (by decide +kernel)
  have hlink : "sym  -> t 7" ∈ filledLines "dir /usr\nsym  -> t 7\n" := by decide +kernel
  have hdirectory : ∃ e ∈ (parse "dir /usr\nsym  -> t 7\n").toOption.getD [],
      e.location.text ≠ "" := by decide +kernel
  rw [hread] at hdirectory
  obtain ⟨-, hpathless, -⟩ := located_unless_pathless hread
  obtain ⟨e, he, -, hempty⟩ := hpathless _ hlink (.link "t 7")
  exact ⟨entries, hread, ⟨e, he, hempty⟩, hdirectory⟩

/-- A sum and a time are enough for a file. -/
theorem file_without_path :
    ∃ entries, parse "obj  d41d8cd98f00b204e9800998ecf8427e 0\n" = .ok entries ∧
      ∃ e ∈ entries, e.location.text = "" :=
  ⟨[.file ⟨""⟩ "d41d8cd98f00b204e9800998ecf8427e" 0], by rfl, _, List.mem_singleton_self _, rfl⟩

end Contents

end PackageCatalog
