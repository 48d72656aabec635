import PackageCatalog.Proofs.Environment.UseFlags

/-!
# Declarations of flags

A token that declares a flag is the text of its declaration (`DeclaredFlag.parse_eq_ok_iff`), so a
line that can be read is the row of its declarations. The set that is read off it keeps the first
declaration of each flag: sorting keeps the order of those of one flag, and of them the first stays
(`DeclaredFlag.mem_of_parseSet_iff`).
-/

namespace PackageCatalog.DeclaredFlag

open Text

variable {d : DeclaredFlag} {flag : UseFlag} {token line : String} {set : List DeclaredFlag}

/-! ## Tokens -/

/-- The token is the name of the flag, behind one sign or none. -/
def Declares (token : String) (flag : UseFlag) : Prop :=
  token = flag.text ∨ token = "+" ++ flag.text ∨ token = "-" ++ flag.text

instance : Decidable (Declares token flag) :=
  inferInstanceAs (Decidable (token = flag.text ∨ token = "+" ++ flag.text ∨ _))

def IsDeclaration (token : String) : Prop := ∃ flag, Declares token flag

theorem declares_iff : Declares token flag ↔ ∃ default?, token = text ⟨flag, default?⟩ := by
  constructor
  · rintro (rfl | rfl | rfl)
    · exact ⟨none, rfl⟩
    · exact ⟨some true, rfl⟩
    · exact ⟨some false, rfl⟩
  · rintro ⟨_ | on, rfl⟩
    · exact .inl rfl
    · cases on with
      | true => exact .inr (.inl rfl)
      | false => exact .inr (.inr rfl)

/-- A name starts with neither sign. -/
theorem splitSign_name (flag : UseFlag) :
    splitSign flag.text.toList = (none, flag.text.toList) := by
  obtain ⟨c, rest, htext, hc⟩ := flag.exists_cons_of_useFlag
  rw [htext]
  unfold splitSign
  split
  · next h =>
    cases h
    exact absurd hc (by decide)
  · next h =>
    cases h
    exact absurd hc (by decide)
  · rfl

theorem splitSign_text (d : DeclaredFlag) :
    splitSign d.text.toList = (d.default?, d.name.text.toList) := by
  obtain ⟨flag, default?⟩ := d
  cases default? with
  | none => exact splitSign_name flag
  | some on =>
    cases on <;>
    · rw [text, String.toList_append]
      rfl

/-- A sign and a name behind it make up the token that they were split off. -/
theorem text_of_splitSign {default? : Option Bool} {rest : List Char}
    (hsplit : splitSign token.toList = (default?, rest)) (hname : String.ofList rest = flag.text) :
    token = text ⟨flag, default?⟩ := by
  refine String.toList_inj.mp ?_
  have hrest : rest = flag.text.toList := by rw [← hname, String.toList_ofList]
  unfold splitSign at hsplit
  split at hsplit
  · next htoken =>
    cases hsplit
    rw [htoken, text, String.toList_append, hrest]
    rfl
  · next htoken =>
    cases hsplit
    rw [htoken, text, String.toList_append, hrest]
    rfl
  · cases hsplit
    exact hrest

/-- A declaration is read off its own text and no other. -/
theorem parse_eq_ok_iff : parse token = .ok d ↔ token = d.text := by
  constructor
  · intro h
    unfold parse at h
    cases hsplit : splitSign token.toList with
    | mk default? rest =>
      rw [hsplit] at h
      dsimp only at h
      split at h
      · next name hname =>
        cases h
        exact text_of_splitSign hsplit (Name.ofText?_eq_some_iff.mp hname)
      · cases h
  · rintro rfl
    have hname : Name.ofText? .useFlag (String.ofList d.name.text.toList) = some d.name := by
      rw [String.ofList_toList]
      exact Name.ofText?_eq_some_iff.mpr rfl
    rw [parse, splitSign_text]
    dsimp only
    rw [hname]

theorem eq_of_text {a b : DeclaredFlag} (h : a.text = b.text) : a = b :=
  Except.ok.inj ((parse_eq_ok_iff.mpr rfl).symm.trans (parse_eq_ok_iff.mpr h))

theorem declares_text_iff : Declares d.text flag ↔ d.name = flag := by
  rw [declares_iff]
  constructor
  · rintro ⟨default?, htext⟩
    exact congrArg name (eq_of_text htext)
  · rintro rfl
    exact ⟨d.default?, rfl⟩

theorem exists_parse_iff : (∃ d, parse token = .ok d) ↔ IsDeclaration token := by
  constructor
  · rintro ⟨d, h⟩
    rw [parse_eq_ok_iff.mp h]
    exact ⟨d.name, declares_text_iff.mpr rfl⟩
  · rintro ⟨flag, h⟩
    obtain ⟨default?, htext⟩ := declares_iff.mp h
    exact ⟨⟨flag, default?⟩, parse_eq_ok_iff.mpr htext⟩

/-- What declares no flag is refused by its text. -/
theorem parse_eq_error_iff {e : Error} :
    parse token = .error e ↔ ¬ IsDeclaration token ∧ e = .invalidIUse token := by
  rw [← exists_parse_iff]
  cases h : parse token with
  | ok d => exact iff_of_false nofun fun h => h.1 ⟨d, rfl⟩
  | error e' =>
    have htext : e' = .invalidIUse token := by
      unfold parse at h
      dsimp only at h
      split at h
      · cases h
      · exact (Except.error.inj h).symm
    rw [htext, Except.error.injEq, eq_comm, and_iff_right Result.not_exists_error_eq_ok]

/-! ## Lines -/

/-- The declaration is the first of its flag among the tokens. -/
def FirstOf (d : DeclaredFlag) (tokens : List String) : Prop :=
  ∃ before after, tokens = before ++ d.text :: after ∧
    ∀ token ∈ before, ¬ Declares token d.name

theorem parseSet_eq_ok_iff : parseSet line = .ok set ↔
    ∃ flags : List DeclaredFlag, words line = flags.map text ∧
      set = Sorted.distinct byName flags := by
  unfold parseSet
  rw [Result.bind_eq_ok_iff]
  refine exists_congr fun flags => and_congr ?_ ?_
  · exact Result.mapM_eq_ok_iff_eq_map fun _ _ => parse_eq_ok_iff
  · exact ⟨fun h => (Except.ok.inj h).symm, fun h => congrArg Except.ok h.symm⟩

/-- A line that cannot be read is refused by its first token that declares no flag. -/
theorem parseSet_eq_error_iff {e : Error} : parseSet line = .error e ↔
    ∃ before token after, words line = before ++ token :: after ∧
      (∀ t ∈ before, IsDeclaration t) ∧ ¬ IsDeclaration token ∧ e = .invalidIUse token := by
  have hmap : parseSet line = .error e ↔ (words line).mapM parse = .error e := by
    unfold parseSet
    cases (words line).mapM parse with
    | error e' => rfl
    | ok flags => exact iff_of_false nofun nofun
  rw [hmap, Result.mapM_eq_error_iff]
  simp only [parse_eq_error_iff, exists_parse_iff]
  refine exists₃_congr fun before token after => and_congr_right fun _ => ?_
  rw [and_comm]

theorem isDeclaration_of_parseSet (h : parseSet line = .ok set) (htoken : token ∈ words line) :
    IsDeclaration token := by
  obtain ⟨flags, hwords, -⟩ := parseSet_eq_ok_iff.mp h
  rw [hwords] at htoken
  obtain ⟨d, -, rfl⟩ := List.mem_map.mp htoken
  exact ⟨d.name, declares_text_iff.mpr rfl⟩

theorem exists_error_iff :
    (∃ e, parseSet line = .error e) ↔ ∃ token ∈ words line, ¬ IsDeclaration token := by
  constructor
  · rintro ⟨e, h⟩
    obtain ⟨before, token, after, hwords, -, htoken, -⟩ := parseSet_eq_error_iff.mp h
    exact ⟨token, hwords ▸ List.mem_append_right before List.mem_cons_self, htoken⟩
  · rintro ⟨token, hmem, htoken⟩
    cases h : parseSet line with
    | error e => exact ⟨e, rfl⟩
    | ok set => exact absurd (isDeclaration_of_parseSet h hmem) htoken

/-! ## Sets -/

theorem byName_eq_iff {a b : DeclaredFlag} : byName a b = .eq ↔ a.name = b.name := by
  rw [byName, Std.LawfulEqCmp.compare_eq_iff_eq]

/-- The set holds the first declaration of each flag. -/
theorem mem_of_parseSet_iff (h : parseSet line = .ok set) :
    d ∈ set ↔ d.FirstOf (words line) := by
  obtain ⟨flags, hwords, rfl⟩ := parseSet_eq_ok_iff.mp h
  have hother {a : DeclaredFlag} : (!(byName d a == .eq)) = true ↔ ¬ Declares a.text d.name := by
    rw [declares_text_iff, Bool.not_eq_true', beq_eq_false_iff_ne, Ne, byName_eq_iff, eq_comm]
  rw [Sorted.mem_distinct_iff_find?, List.find?_eq_some_iff_append, hwords]
  constructor
  · rintro ⟨-, front, back, rfl, hfront⟩
    refine ⟨front.map text, back.map text, ?_, ?_⟩
    · rw [List.map_append, List.map_cons]
    · exact List.forall_mem_map.mpr fun a ha => hother.mp (hfront a ha)
  · rintro ⟨before, after, hflags, hbefore⟩
    obtain ⟨front, rest, rfl, rfl, hrest⟩ := List.map_eq_append_iff.mp hflags
    obtain ⟨a, back, rfl, ha, rfl⟩ := List.map_eq_cons_iff.mp hrest
    cases eq_of_text ha
    refine ⟨beq_iff_eq.mpr (byName_eq_iff.mpr rfl), front, back, rfl, fun a ha => ?_⟩
    exact hother.mpr (List.forall_mem_map.mp hbefore a ha)

/-- The flags of the set are those that the line declares. -/
theorem exists_mem_of_parseSet_iff (h : parseSet line = .ok set) :
    (∃ d ∈ set, d.name = flag) ↔ ∃ token ∈ words line, Declares token flag := by
  constructor
  · rintro ⟨d, hd, rfl⟩
    obtain ⟨before, after, hwords, -⟩ := (mem_of_parseSet_iff h).mp hd
    refine ⟨d.text, ?_, declares_text_iff.mpr rfl⟩
    rw [hwords]
    exact List.mem_append_right before List.mem_cons_self
  · rintro ⟨token, htoken, hdeclares⟩
    obtain ⟨flags, hwords, rfl⟩ := parseSet_eq_ok_iff.mp h
    rw [hwords] at htoken
    obtain ⟨d, hd, rfl⟩ := List.mem_map.mp htoken
    obtain ⟨first, hfirst, heq⟩ : ∃ first ∈ Sorted.distinct byName flags, byName d first = .eq :=
      Sorted.exists_mem_distinct hd
    exact ⟨first, hfirst, (byName_eq_iff.mp heq).symm.trans (declares_text_iff.mp hdeclares)⟩

theorem find?_of_mem (hstrict : Sorted.Strict byName set) (hd : d ∈ set) :
    find? set d.name = some d := by
  have hfilter : d ∈ set.filter (·.name = d.name) := List.mem_filter.mpr ⟨hd, decide_eq_true rfl⟩
  rw [filter_name hstrict] at hfilter
  exact Option.mem_toList.mp hfilter

/-! ## States -/

variable {r : Repository} {tree : EbuildTree} {id : PackageId}

/-- What the profile leaves open is for the declared flags to say. -/
theorem useState_of_parseSet (htree : r.tree? = some tree)
    (hkey : id.key? "IUSE" = some (.ofVariable "IUSE" line)) (hset : parseSet line = .ok set)
    (hleft : tree.profile.useState flag id = .unspecified) :
    r.useState flag id = ((find? set flag).map state).getD .unspecified := by
  have hvalue : (id.key? "IUSE").map Metadata.Key.value = some (.ok (.declaredFlagSet set)) := by
    have hline : (Metadata.Key.ofVariable "IUSE" line).value =
        (parseSet line >>= fun set => pure (.declaredFlagSet set)) := rfl
    rw [hkey, Option.map_some, hline, hset]
    rfl
  rw [Repository.useState_of_tree? htree, hleft]
  dsimp only
  rw [Repository.declaredState, hvalue]
  dsimp only
  cases find? set flag <;> rfl

/-- A line is refused just if one of its tokens is not a flag behind one sign or none. Otherwise
its set is in strict order and holds the first declaration of each flag that the line declares;
halving it finds what going through it finds. So the state that an ebuild repository gives a flag,
where its profile leaves it open, is that of the first declaration. -/
theorem keeps_first_declarations (line : String) :
    ((∃ e, parseSet line = .error e) ↔ ∃ token ∈ words line, ¬ IsDeclaration token) ∧
    ∀ set, parseSet line = .ok set →
      Sorted.Strict byName set ∧
      (∀ flag, (∃ d ∈ set, d.name = flag) ↔ ∃ token ∈ words line, Declares token flag) ∧
      (∀ d, d ∈ set ↔ FirstOf d (words line)) ∧
      (∀ flag, find? set flag = set.find? (·.name = flag)) ∧
      ∀ (r : Repository) (tree : EbuildTree) (id : PackageId) (flag : UseFlag),
        r.tree? = some tree → id.key? "IUSE" = some (.ofVariable "IUSE" line) →
        tree.profile.useState flag id = .unspecified →
          (∀ d, FirstOf d (words line) → d.name = flag → r.useState flag id = d.state) ∧
          ((∀ token ∈ words line, ¬ Declares token flag) →
            r.useState flag id = .unspecified) := by
  refine ⟨exists_error_iff, fun set hset => ?_⟩
  have hstrict := strict_of_parseSet hset
  refine ⟨hstrict, fun flag => exists_mem_of_parseSet_iff hset, fun d => mem_of_parseSet_iff hset,
    find?_eq_find? hstrict, fun r tree id flag htree hkey hleft => ?_⟩
  have hstate := useState_of_parseSet htree hkey hset hleft
  refine ⟨fun d hfirst hname => ?_, fun hnone => ?_⟩
  · rw [hstate, ← hname, find?_of_mem hstrict ((mem_of_parseSet_iff hset).mpr hfirst)]
    rfl
  · have hfind : find? set flag = none := by
      rw [find?_eq_find? hstrict]
      refine List.find?_eq_none.mpr fun d hd hname => ?_
      obtain ⟨token, htoken, hdeclares⟩ :=
        (exists_mem_of_parseSet_iff hset).mp ⟨d, hd, of_decide_eq_true hname⟩
      exact hnone token htoken hdeclares
    rw [hstate, hfind]
    rfl

/-! ## Flags that are declared again -/

/-- A line that declares two flags again, with other signs. -/
def repeating : String := "test +gtk -debug gtk -test"

def gtk : UseFlag := ⟨"gtk", by decide⟩

def test : UseFlag := ⟨"test", by decide⟩

def doc : UseFlag := ⟨"doc", by decide⟩

def redeclaring : PackageId :=
  (PackageId.sample ⟨.scm, none⟩).withKey (.ofVariable "IUSE" repeating)

theorem words_repeating : words repeating = ["test", "+gtk", "-debug", "gtk", "-test"] := by
  decide +kernel

theorem state_of_repeating : ∃ set, parseSet repeating = .ok set ∧
    ⟨gtk, some true⟩ ∈ set ∧ ⟨test, some false⟩ ∉ set ∧
    (Profile.repositoryWith .empty).useState gtk redeclaring = .enabled ∧
    (Profile.repositoryWith .empty).useState test redeclaring = .unspecified ∧
    (Profile.repositoryWith .empty).useState doc redeclaring = .unspecified := by
  obtain ⟨set, hset⟩ : ∃ set, parseSet repeating = .ok set :=
    Result.exists_ok_of_isSome (by decide +kernel)
  have hkey : redeclaring.key? "IUSE" = some (.ofVariable "IUSE" repeating) := rfl
  obtain ⟨hstrict, -, hmem, -, hstate⟩ := (keeps_first_declarations repeating).2 set hset
  have hgtk : FirstOf ⟨gtk, some true⟩ (words repeating) := by
    rw [words_repeating]
    exact ⟨["test"], ["-debug", "gtk", "-test"], rfl, by decide⟩
  have htest : FirstOf ⟨test, none⟩ (words repeating) := by
    rw [words_repeating]
    exact ⟨[], ["+gtk", "-debug", "gtk", "-test"], rfl, fun _ h => absurd h List.not_mem_nil⟩
  have hdoc : ∀ token ∈ words repeating, ¬ Declares token doc := by
    rw [words_repeating]
    decide
  refine ⟨set, hset, (hmem _).mpr hgtk, fun hagain => ?_, ?_, ?_, ?_⟩
  · have hfirst : find? set test = some ⟨test, none⟩ :=
      find?_of_mem hstrict ((hmem _).mpr htest)
    have hlater : find? set test = some ⟨test, some false⟩ := find?_of_mem hstrict hagain
    cases hfirst.symm.trans hlater
  · exact (hstate (Profile.repositoryWith .empty) _ redeclaring gtk rfl hkey rfl).1 _ hgtk rfl
  · exact (hstate (Profile.repositoryWith .empty) _ redeclaring test rfl hkey rfl).1 _ htest rfl
  · exact (hstate (Profile.repositoryWith .empty) _ redeclaring doc rfl hkey rfl).2 hdoc

end PackageCatalog.DeclaredFlag
