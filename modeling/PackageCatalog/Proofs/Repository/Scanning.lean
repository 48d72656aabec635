import PackageCatalog.Proofs.Repository.Building
import PackageCatalog.Proofs.Repository.Finding
import PackageCatalog.Proofs.Repository.Surroundings

/-!
# What a repository of ebuilds lists

Of the versions that a scan finds, equal ones are one ID, that of the last of them
(`EbuildTree.LastOf`). As the names in a directory are sorted, this is the one whose ebuild has the
last name (`le_of_lastOf_found`). Files of other names in a package's directory make no difference
(`Repository.indexes_ebuilds`).
-/

namespace PackageCatalog

namespace EbuildTree

/-- The version is the last one found of those that are equal to it. -/
def LastOf (found : List (QualifiedName × Version)) (name : QualifiedName) (v : Version) : Prop :=
  ∃ before after, found = before ++ (name, v) :: after ∧
    ∀ w, (name, w) ∈ after → ¬ w.equals v = true

variable {l m : List (QualifiedName × Version)} {name : QualifiedName} {v w : Version}

theorem LastOf.mem (h : LastOf l name v) : (name, v) ∈ l := by
  obtain ⟨before, after, rfl, -⟩ := h
  exact List.mem_append_right _ List.mem_cons_self

theorem lastOf_append_iff : LastOf (l ++ m) name v ↔
    LastOf m name v ∨ LastOf l name v ∧ ∀ w, (name, w) ∈ m → ¬ w.equals v = true := by
  constructor
  · rintro ⟨before, after, h, hafter⟩
    rcases List.append_eq_append_iff.mp h with ⟨a, -, hm⟩ | ⟨a, hl, hm⟩
    · exact .inl ⟨a, after, hm, hafter⟩
    · cases a with
      | nil => exact .inl ⟨[], after, hm.symm, hafter⟩
      | cons x a =>
        obtain ⟨rfl, rfl⟩ := List.cons.inj hm
        exact .inr ⟨⟨before, a, hl, fun w hw => hafter w (List.mem_append_left _ hw)⟩,
          fun w hw => hafter w (List.mem_append_right _ hw)⟩
  · rintro (⟨before, after, rfl, hafter⟩ | ⟨⟨before, after, rfl, hafter⟩, hm⟩)
    · exact ⟨l ++ before, after, (List.append_assoc _ _ _).symm, hafter⟩
    · refine ⟨before, after ++ m, List.append_assoc _ _ _, fun w hw => ?_⟩
      exact (List.mem_append.mp hw).elim (hafter w) (hm w)

/-- Of the versions that are equal to one that was found, one is the last. -/
theorem exists_lastOf (h : (name, w) ∈ l) : ∃ v, v.equals w = true ∧ LastOf l name v := by
  induction l generalizing w with
  | nil => cases h
  | cons x l ih =>
    by_cases hlater : ∃ u, (name, u) ∈ l ∧ u.equals w = true
    · obtain ⟨u, hu, huw⟩ := hlater
      obtain ⟨v, hvu, hlast⟩ := ih hu
      exact ⟨v, Version.equals_equivalence.trans hvu huw,
        lastOf_append_iff (l := [x]).mpr (.inl hlast)⟩
    · have hnone : ∀ u, (name, u) ∈ l → ¬ u.equals w = true := fun u hu huw => hlater ⟨u, hu, huw⟩
      have hself := Version.equals_equivalence.refl w
      rcases List.mem_cons.mp h with rfl | h
      · exact ⟨w, hself, [], l, rfl, hnone⟩
      · exact absurd hself (hnone w h)

/-- Where the names of entries are in order, the last of equal versions is that of the last name. -/
theorem LastOf.le_of_sorted {entries : List String} {f : String → Option (QualifiedName × Version)}
    {entryOf : Version → String} (hsorted : entries.Pairwise (· ≤ ·))
    (hentry : ∀ entry v, f entry = some (name, v) → entry = entryOf v)
    (h : LastOf (entries.filterMap f) name v) (hw : (name, w) ∈ entries.filterMap f)
    (hequals : w.equals v = true) : entryOf w ≤ entryOf v := by
  obtain ⟨before, after, hsplit, hafter⟩ := h
  have hordered : (entries.filterMap f).Pairwise fun a b =>
      a.1 = name → b.1 = name → entryOf a.2 ≤ entryOf b.2 := by
    refine hsorted.filterMap _ fun a b hab x hx y hy => ?_
    obtain ⟨n, v⟩ := x
    obtain ⟨n', v'⟩ := y
    rintro rfl rfl
    rwa [← hentry a v hx, ← hentry b v' hy]
  rw [hsplit] at hw hordered
  -- the entry stands in front of the last one, or is it
  rcases List.mem_append.mp hw with hbefore | hbehind
  · exact (List.pairwise_append.mp hordered).2.2 (name, w) hbefore (name, v) List.mem_cons_self
      rfl rfl
  · rcases List.mem_cons.mp hbehind with heq | hbehind
    · cases heq
      exact String.le_refl _
    · exact absurd hequals (hafter w hbehind)

/-- Where the same is found again and again, and nothing else of the name, the last of it is that
of each time. -/
theorem LastOf.of_flatten {blocks : List (List (QualifiedName × Version))}
    (hblocks : ∀ block ∈ blocks, block = m ∨ ∀ w, (name, w) ∉ block)
    (h : LastOf blocks.flatten name v) : LastOf m name v := by
  induction blocks using List.reverseRecOn with
  | nil => exact absurd h.mem List.not_mem_nil
  | append_singleton blocks block ih =>
    rw [List.forall_mem_append, List.forall_mem_singleton] at hblocks
    rw [List.flatten_append, List.flatten_singleton, lastOf_append_iff] at h
    rcases h with h | ⟨h, hapart⟩
    · exact hblocks.2.elim (fun heq => heq ▸ h) fun hnone => absurd h.mem (hnone v)
    · exact ih hblocks.1 h

/-- Where only one place holds what is found of a name, the last of it is found there. -/
theorem LastOf.of_mapM {α : Type} {f : α → Except Error (List (QualifiedName × Version))}
    {xs : List α} {blocks : List (List (QualifiedName × Version))} (place : α)
    (hblocks : xs.mapM f = .ok blocks)
    (honly : ∀ x block w, f x = .ok block → (name, w) ∈ block → x = place)
    (h : LastOf blocks.flatten name v) : ∃ block, f place = .ok block ∧ LastOf block name v := by
  obtain ⟨block, hblock, hmem⟩ := List.mem_flatten.mp h.mem
  obtain ⟨x, -, hx⟩ := Result.exists_of_mem_mapM hblocks hblock
  cases honly x block v hx hmem
  refine ⟨block, hx, h.of_flatten fun other hother => ?_⟩
  obtain ⟨y, -, hy⟩ := Result.exists_of_mem_mapM hblocks hother
  by_cases hnone : ∃ w, (name, w) ∈ other
  · obtain ⟨w, hw⟩ := hnone
    cases honly y other w hy hw
    exact .inl (Except.ok.inj (hy.symm.trans hx))
  · exact .inr fun w hw => hnone ⟨w, hw⟩

variable {files : FileTree} {location : Path} {id : PackageId}

/-- The last of equal versions is found in the directory of the package. -/
theorem LastOf.exists_entries (hl : found files location = .ok l) (h : LastOf l name v) :
    ∃ entries,
      files.list (location / name.category.text / name.package.text) = .ok entries ∧
      LastOf ((entries.filterMap (ebuildVersion? name.package)).map (name, ·)) name v := by
  obtain ⟨categories, -, hl⟩ := Result.bind_eq_ok_iff.mp hl
  obtain ⟨blocks, hblocks, hl⟩ := Result.bind_eq_ok_iff.mp hl
  cases hl
  obtain ⟨inCategory, hcategory, h⟩ := h.of_mapM name.category hblocks
    fun c block w hblock hw => ((mem_foundInCategory hblock).mp hw).1.symm
  obtain ⟨names, -, hcategory⟩ := Result.bind_eq_ok_iff.mp hcategory
  obtain ⟨blocks, hblocks, hcategory⟩ := Result.bind_eq_ok_iff.mp hcategory
  cases hcategory
  obtain ⟨inPackage, hpackage, h⟩ := h.of_mapM name.package.text hblocks
    fun dirName block w hblock hw => ((mem_foundInPackage hblock).mp hw).2.1.symm
  rcases foundInPackage_cases hpackage with ⟨rfl, -⟩ | ⟨p, hp, -, entries, hentries, rfl⟩
  · exact absurd h.mem List.not_mem_nil
  · cases Name.eq_of_text hp
    exact ⟨entries, hentries, h⟩

/-- The last of equal versions is the one whose ebuild has the last name. -/
theorem le_of_lastOf_found (hl : found files location = .ok l) (h : LastOf l name v)
    (hw : HoldsEbuild files location name w) (hequals : w.equals v = true) :
    ebuildName name.package w ≤ ebuildName name.package v := by
  obtain ⟨entries, hentries, hlast⟩ := h.exists_entries hl
  obtain ⟨-, entries', hentries', hmem⟩ := hw
  rw [hentries] at hentries'
  cases hentries'
  obtain ⟨d, -, -, rfl⟩ := FileTree.list_eq_ok_iff.mp hentries
  rw [List.map_filterMap] at hlast
  refine hlast.le_of_sorted (files.sorted_namesUnder d) (fun entry u hu => ?_) ?_ hequals
  · obtain ⟨u', hu', hpair⟩ := Option.map_eq_some_iff.mp hu
    cases hpair
    exact ebuildVersion?_eq_some_iff.mp hu'
  · exact List.mem_filterMap.mpr ⟨_, hmem, by rw [ebuildVersion?_eq_some_iff.mpr rfl]; rfl⟩

/-! ## The IDs of a name -/

theorem identity_buildId (s : Source) (files : FileTree) (name : QualifiedName) (v : Version) :
    (s.buildId files name v).name = name ∧ (s.buildId files name v).version = v :=
  (PackageId.kept_identity (fun _ => False) name v).ofEbuild (fun _ _ => rfl) ⟨rfl, rfl⟩ files

theorem remains_iff {build : QualifiedName × Version → PackageId}
    (hbuild : ∀ x, (build x).name = x.1 ∧ (build x).version = x.2) :
    id.Remains ((l.map build).map .insert) ↔
      ∃ v, id = build (id.name, v) ∧ LastOf l id.name v := by
  constructor
  · rintro ⟨before, after, h, hafter⟩
    rw [List.map_map] at h
    obtain ⟨l₁, l₂, rfl, -, h⟩ := List.map_eq_append_iff.mp h
    obtain ⟨⟨n, v⟩, l₂, rfl, hid, rfl⟩ := List.map_eq_cons_iff.mp h
    cases hid
    have hn : (build (n, v)).name = n := (hbuild (n, v)).1
    rw [hn]
    refine ⟨v, rfl, l₁, l₂, rfl, fun w hw hequals => ?_⟩
    refine hafter (.insert (build (n, w))) (List.mem_map_of_mem hw) ⟨_, rfl, ?_, ?_⟩
    · rw [(hbuild _).1, (hbuild _).1]
    · rw [(hbuild _).2, (hbuild _).2]
      exact hequals
  · rintro ⟨v, hid, before, after, rfl, hafter⟩
    refine ⟨(before.map build).map .insert, (after.map build).map .insert, ?_, fun change hchange => ?_⟩
    · rw [List.map_append, List.map_append, List.map_cons, List.map_cons, ← hid]
    · obtain ⟨_, hnew, rfl⟩ := List.mem_map.mp hchange
      obtain ⟨⟨n, w⟩, hx, rfl⟩ := List.mem_map.mp hnew
      rintro ⟨_, ⟨⟩, hsame, hequals⟩
      rw [(hbuild _).1] at hsame
      rw [hid, (hbuild _).2, (hbuild _).2] at hequals
      exact hafter w (hsame ▸ hx) hequals

/-! ## Scanning two trees -/

theorem found_related {R : (α : Type) → Except Error α → Except Error α → Prop}
    {files' : FileTree} (hR : Result.Congruence R) (h : ReadsAlike R files files')
    (hroot : R _ (files.visibleNames location) (files'.visibleNames location))
    (hcategory : ∀ c : CategoryName,
      R _ (files.visibleNames (location / c.text)) (files'.visibleNames (location / c.text)))
    (hpackage : ∀ (c : CategoryName) (p : PackageName),
      R _ (scanVersions files p (location / c.text / p.text))
        (scanVersions files' p (location / c.text / p.text))) :
    R _ (found files location) (found files' location) := by
  have hcategories :
      R _ (scanCategories files location) (scanCategories files' location) := by
    refine hR.bind (h.readLines hR (by decide)) fun lines _ => ?_
    split
    · refine hR.bind hroot fun names _ => ?_
      simp only [h.isDirectory]
      exact hR.refl _
    · exact hR.refl _
  refine hR.bind hcategories fun categories _ => hR.bind (hR.mapM fun c _ => ?_) fun _ _ => hR.refl _
  refine hR.bind (hcategory c) fun names _ => hR.bind (hR.mapM fun dirName _ => ?_) fun _ _ =>
    hR.refl _
  unfold foundInPackage
  dsimp only
  rw [h.isDirectory]
  split
  · split
    · exact hR.refl _
    · next p hp =>
      rw [Name.ofText?_eq_some_iff.mp hp]
      exact hR.bind (hpackage c p) fun _ _ => hR.refl _
  · exact hR.refl _

/-! ## The place of a cache entry -/

theorem head?_versioned (p : PackageName) (v : Version) :
    (p.text ++ "-" ++ v.text).toList.head? ≠ some '.' := by
  rw [String.append_assoc]
  exact p.head?_append_of_package _

theorem isStep_versioned (p : PackageName) (v : Version) :
    Path.isStep (p.text ++ "-" ++ v.text) = true := by
  refine Path.isStep_of_chars ?_ (head?_versioned p v) ?_ <;> rw [toList_versioned]
  · exact List.append_ne_nil_of_right_ne_nil _ (List.cons_ne_nil _ _)
  · rw [List.mem_append, List.mem_cons]
    rintro (h | h | h)
    · exact p.slash_not_mem rfl h
    · cases h
    · exact Atom.slash_not_mem_version v h

def cacheNames (name : QualifiedName) (v : Version) : List String :=
  ["metadata", "md5-cache", name.category.text, name.package.text ++ "-" ++ v.text]

theorem Source.exists_of_resolve_cachePath {s : Source} {q : List String}
    (hlocation : s.location.text ≠ "") (h : files.resolve (s.cachePath name v) = .ok q) :
    ∃ root, files.resolve s.location = .ok root ∧ q = root ++ cacheNames name v := by
  have hmetadata : Path.isStep "metadata" = true := by decide
  have hcache : Path.isStep "md5-cache" = true := by decide
  have hdir : (s.location / "metadata").text ≠ "" := Path.text_join_ne hmetadata
  have hentries : (s.location / "metadata" / "md5-cache").text ≠ "" := Path.text_join_ne hcache
  have hcategory : (s.location / "metadata" / "md5-cache" / name.category.text).text ≠ "" :=
    Path.text_join_ne name.category.isStep_of_category
  obtain ⟨_, h₁, -, rfl⟩ := FileTree.resolve_join hcategory (isStep_versioned name.package v) h
  obtain ⟨_, h₂, -, rfl⟩ := FileTree.resolve_join hentries name.category.isStep_of_category h₁
  obtain ⟨_, h₃, -, rfl⟩ := FileTree.resolve_join hdir hcache h₂
  obtain ⟨root, h₄, -, rfl⟩ := FileTree.resolve_join hlocation hmetadata h₃
  exact ⟨root, h₄, by simp only [cacheNames, List.append_assoc, List.cons_append, List.nil_append]⟩

theorem toOption_load (tree : FileTree) (path : Path) :
    (CacheEntry.load tree path).toOption =
      (tree.read path).toOption.bind fun text => (CacheEntry.parse text).toOption := by
  unfold CacheEntry.load FileTree.readRequired
  cases tree.read path <;> rfl

/-- The ID of a version depends on what its cache entry can be read to. -/
theorem Source.buildId_congr {files' : FileTree} (s : Source)
    (h : ∀ content, files'.read (s.cachePath name v) = .ok content ↔
      files.read (s.cachePath name v) = .ok content) :
    s.buildId files' name v = s.buildId files name v := by
  have hload : (CacheEntry.load files' (s.cachePath name v)).toOption =
      (CacheEntry.load files (s.cachePath name v)).toOption := by
    rw [toOption_load, toOption_load, Result.toOption_congr h]
  unfold buildId
  cases hentry : CacheEntry.load files (s.cachePath name v) with
  | ok entry =>
    rw [hentry] at hload
    cases hentry' : CacheEntry.load files' (s.cachePath name v) with
    | ok entry' =>
      rw [hentry'] at hload
      cases hload
      rfl
    | error e =>
      rw [hentry'] at hload
      cases hload
  | error e =>
    rw [hentry] at hload
    cases hentry' : CacheEntry.load files' (s.cachePath name v) with
    | ok entry' =>
      rw [hentry'] at hload
      cases hload
    | error e' => rfl

/-! ## Files that make no difference -/

/-- A place in the directory of a package that is neither that of an ebuild of the package nor of a
name that is looked for in a repository or a profile. -/
def IsStray (files : FileTree) (location : Path) (place : List String) : Prop :=
  ∃ root c dirName entry, files.resolve location = .ok root ∧ place = root ++ [c, dirName, entry] ∧
    isLookedFor entry = false ∧ ∀ (p : PackageName) (v : Version), dirName = p.text →
      entry ≠ ebuildName p v

/-- No ebuild is looked for under its name elsewhere. -/
theorem isLookedFor_of_ebuild {entry : String} (h : ".ebuild".toList <:+ entry.toList) :
    isLookedFor entry = false := by
  have hnames : ∀ x ∈ ["repo_name", "categories", "thirdpartymirrors", "parent"] ++
      Profile.fileNames, ¬ ".ebuild".toList <:+ x.toList := by decide
  rw [isLookedFor, Bool.or_eq_false_iff, Bool.eq_false_iff, Bool.eq_false_iff]
  refine ⟨fun hmem => hnames entry (List.contains_iff_mem.mp hmem) h, fun hdesc => ?_⟩
  have hshorter := List.suffix_of_suffix_length_le (List.isSuffixOf_iff_suffix.mp hdesc) h (by decide)
  exact absurd hshorter (by decide)

variable {files' : FileTree} {changed : List String → Bool}

theorem spares_of_isStray (h : ∀ place, changed place = true → IsStray files location place) :
    Spares changed := by
  refine spares_of_last fun place hplace => ?_
  obtain ⟨root, c, dirName, entry, -, rfl, hnot, -⟩ := h place hplace
  exact ⟨root ++ [c, dirName], entry, (List.append_assoc root [c, dirName] [entry]).symm, hnot⟩

theorem agree_found (hlocation : location.text ≠ "") (h : FileTree.Alike changed files files')
    (hstray : ∀ place, changed place = true → IsStray files location place) :
    Result.Agree _ (found files location) (found files' location) := by
  -- the places of strays are three names below the repository
  have hbelow (names : List String) : ∀ {root x}, files.resolve location = .ok root →
      changed (root ++ names ++ [x]) = true → ∃ c dirName, names = [c, dirName] ∧
        ∀ (p : PackageName) (v : Version), dirName = p.text → x ≠ ebuildName p v := by
    intro root x hroot hchanged
    obtain ⟨root', c, dirName, entry, hroot', hplace, -, hnot⟩ := hstray _ hchanged
    cases hroot.symm.trans hroot'
    have hsplit : root ++ names ++ [x] = root ++ [c, dirName] ++ [entry] :=
      hplace.trans (List.append_assoc root [c, dirName] [entry]).symm
    obtain ⟨hnames, hx⟩ := List.append_inj' hsplit rfl
    cases hx
    exact ⟨c, dirName, List.append_cancel_left hnames, hnot⟩
  have hcategory (c : CategoryName) {d : List String}
      (hd : files.resolve (location / c.text) = .ok d) :
      ∃ root, files.resolve location = .ok root ∧ d = root ++ [c.text] := by
    obtain ⟨root, hroot, -, hd⟩ := FileTree.resolve_join hlocation c.isStep_of_category hd
    exact ⟨root, hroot, hd⟩
  refine found_related Result.congruence_agree (h.reads (spares_of_isStray hstray)) ?_ ?_ ?_
  · intro names names' hnames hnames'
    have hsame := h.filterMap_visibleNames (f := some) (fun d x hd hchanged => ?_) hnames hnames'
    · rw [List.filterMap_some, List.filterMap_some] at hsame
      exact hsame.symm
    · obtain ⟨_, _, hnil, -⟩ := hbelow [] hd (by rwa [List.append_nil])
      cases hnil
  · intro c names names' hnames hnames'
    have hsame := h.filterMap_visibleNames (f := some) (fun d x hd hchanged => ?_) hnames hnames'
    · rw [List.filterMap_some, List.filterMap_some] at hsame
      exact hsame.symm
    · obtain ⟨root, hroot, rfl⟩ := hcategory c hd
      obtain ⟨_, _, hone, -⟩ := hbelow [c.text] hroot hchanged
      cases hone
  · intro c p versions versions' hversions hversions'
    obtain ⟨names, hnames, hversions⟩ := Result.bind_eq_ok_iff.mp hversions
    obtain ⟨names', hnames', hversions'⟩ := Result.bind_eq_ok_iff.mp hversions'
    cases hversions
    cases hversions'
    refine (h.filterMap_visibleNames (fun d x hd hchanged => ?_) hnames hnames').symm
    obtain ⟨_, hbase, -, rfl⟩ := FileTree.resolve_join (Path.text_join_ne c.isStep_of_category)
      p.isStep_of_package hd
    obtain ⟨root, hroot, rfl⟩ := hcategory c hbase
    obtain ⟨_, _, hnames, hnot⟩ := hbelow [c.text, p.text] hroot (by
      rwa [List.append_assoc root] at hchanged)
    cases hnames
    cases hversion : ebuildVersion? p x with
    | none => rfl
    | some v => exact absurd (ebuildVersion?_eq_some_iff.mp hversion) (hnot p v rfl)

theorem buildId_of_isStray (s : Source) (hlocation : s.location.text ≠ "")
    (h : FileTree.Alike changed files files')
    (hstray : ∀ place, changed place = true → IsStray files s.location place)
    (name : QualifiedName) (v : Version) : s.buildId files' name v = s.buildId files name v := by
  refine s.buildId_congr fun content => h.read_eq_ok_iff fun q hq => ?_
  cases hchanged : changed q with
  | false => rfl
  | true =>
    obtain ⟨root, c, dirName, entry, hroot, hplace, -⟩ := hstray q hchanged
    have hdeeper : ∃ root', root' = root ∧ q = root' ++ cacheNames name v := by
      rcases hq with hq | hq
      · obtain ⟨root', hroot', hq⟩ := Source.exists_of_resolve_cachePath hlocation hq
        exact ⟨root', Except.ok.inj (hroot'.symm.trans hroot), hq⟩
      · obtain ⟨root', hroot', hq⟩ := Source.exists_of_resolve_cachePath hlocation hq
        exact ⟨root', (h.eq_of_resolve hroot hroot').symm, hq⟩
    obtain ⟨_, rfl, hq⟩ := hdeeper
    have hlength := congrArg List.length (List.append_cancel_left (hq.symm.trans hplace))
    cases hlength

end EbuildTree

namespace Repository

open EbuildTree PackageIndex

variable {files : FileTree} {options : EbuildOptions} {r : Repository}

/-- The index is filled with the IDs that are built from what is found. -/
theorem index_source {name : RepositoryName} {tree : EbuildTree}
    (htree : readTree files options = .ok (name, tree)) : (source name tree).index files =
      (found files options.location).map fun l => ofChanges ((l.map fun x =>
        (source name tree).buildId files x.1 x.2).map .insert) := by
  have hplace : (source name tree).location = options.location := location_of_readTree htree
  rw [Source.index_eq, Source.ids_eq, hplace]
  cases found files options.location <;> rfl

theorem openEbuilds_of_found {name : RepositoryName} {tree : EbuildTree}
    {l : List (QualifiedName × Version)} (htree : readTree files options = .ok (name, tree))
    (hl : found files options.location = .ok l) :
    openEbuilds files options = .ok ⟨name, ebuildKeys options, ofChanges ((l.map fun x =>
      (source name tree).buildId files x.1 x.2).map .insert), .ebuilds tree⟩ := by
  have hindex := index_source htree
  rw [hl] at hindex
  rw [openEbuilds_eq]
  exact Result.bind_eq_ok_iff.mpr
    ⟨(name, tree), htree, Result.bind_eq_ok_iff.mpr ⟨_, hindex, rfl⟩⟩

theorem exists_found (h : openEbuilds files options = .ok r) :
    ∃ name tree l, readTree files options = .ok (name, tree) ∧ options.location.text ≠ "" ∧
      found files options.location = .ok l ∧
      r.index = ofChanges ((l.map fun x =>
        (source name tree).buildId files x.1 x.2).map .insert) := by
  obtain ⟨opened, hopened⟩ := exists_opened h
  have hlocation := FileTree.text_ne_of_isDirectory hopened.isDirectory
  rw [openEbuilds_eq] at h
  obtain ⟨⟨name, tree⟩, htree, h⟩ := Result.bind_eq_ok_iff.mp h
  obtain ⟨index, hindex, h⟩ := Result.bind_eq_ok_iff.mp h
  cases h
  rw [index_source htree] at hindex
  cases hfound : found files options.location with
  | error e =>
    rw [hfound] at hindex
    cases hindex
  | ok l =>
    rw [hfound] at hindex
    cases hindex
    exact ⟨name, tree, l, htree, hlocation, rfl, rfl⟩

/-- The versions of a package that a repository lists are those of the ebuilds in its directory, if
its category is one. There is one ID for equal versions, with the version whose ebuild has the last
name, and they are listed in the order of their versions. Files of other names in the directory make
no difference. -/
theorem indexes_ebuilds (h : openEbuilds files options = .ok r) :
    (∀ name V, (∃ id ∈ r.packageIds name, id.version.equals V = true) ↔
      IsCategory files options.location name.category ∧
        ∃ v, v.equals V = true ∧ HoldsEbuild files options.location name v) ∧
    (∀ name, Sorted.Strict compareVersions (r.packageIds name) ∧
      ∀ id ∈ r.packageIds name, id.name = name ∧
        HoldsEbuild files options.location name id.version ∧
        (∀ w, HoldsEbuild files options.location name w → w.equals id.version = true →
          ebuildName name.package w ≤ ebuildName name.package id.version) ∧
        ∀ id' ∈ r.packageIds name, id'.version.equals id.version = true → id' = id) ∧
    (∀ changed files', FileTree.Alike changed files files' →
      (∀ place, changed place = true → IsStray files options.location place) →
      ∀ r', openEbuilds files' options = .ok r' → r'.index = r.index) := by
  obtain ⟨repository, tree, l, htree, hlocation, hl, hindex⟩ := exists_found h
  have hreflects := reflects_ofChanges ((l.map fun x =>
    (source repository tree).buildId files x.1 x.2).map .insert)
  rw [← hindex] at hreflects
  have hids (name : QualifiedName) (id : PackageId) : id ∈ r.packageIds name ↔ id.name = name ∧
      ∃ v, id = (source repository tree).buildId files id.name v ∧ LastOf l id.name v :=
    (hreflects.mem_versions name id).trans (and_congr_right' (remains_iff
      fun x => identity_buildId _ files x.1 x.2))
  refine ⟨fun name V => ⟨?_, ?_⟩, fun name => ⟨hreflects.versions name, fun id hid => ?_⟩, ?_⟩
  · rintro ⟨id, hid, hequals⟩
    obtain ⟨rfl, v, hbuild, hlast⟩ := (hids name id).mp hid
    obtain ⟨hcategory, hholds⟩ := (mem_found_iff hlocation hl).mp hlast.mem
    refine ⟨hcategory, v, ?_, hholds⟩
    rwa [hbuild, (identity_buildId _ _ _ _).2] at hequals
  · rintro ⟨hcategory, w, hequals, hholds⟩
    obtain ⟨v, hvw, hlast⟩ := exists_lastOf ((mem_found_iff hlocation hl).mpr ⟨hcategory, hholds⟩)
    refine ⟨(source repository tree).buildId files name v, (hids name _).mpr ?_, ?_⟩
    · rw [(identity_buildId _ _ _ _).1]
      exact ⟨rfl, v, rfl, hlast⟩
    · rw [(identity_buildId _ _ _ _).2]
      exact Version.equals_equivalence.trans hvw hequals
  · obtain ⟨rfl, v, hbuild, hlast⟩ := (hids name id).mp hid
    have hversion : id.version = v := by
      rw [hbuild, (identity_buildId _ _ _ _).2]
    rw [hversion]
    refine ⟨rfl, ((mem_found_iff hlocation hl).mp hlast.mem).2,
      fun w hw hequals => le_of_lastOf_found hl hlast hw hequals, fun id' hid' hequals => ?_⟩
    rw [← hversion] at hequals
    exact Sorted.eq_of_strict (hreflects.versions _) hid' hid (Version.equals_iff.mp hequals)
  · intro changed files' halike hstray r' h'
    obtain ⟨repository', tree', l', htree', -, hl', hindex'⟩ := exists_found h'
    have hreads := halike.reads (spares_of_isStray hstray)
    cases hreads.readTree Result.congruence_agree options _ _ htree htree'
    cases agree_found hlocation halike hstray l l' hl hl'
    have hbuild (x : QualifiedName × Version) :
        (source repository tree).buildId files' x.1 x.2 =
          (source repository tree).buildId files x.1 x.2 := by
      have hplace : (source repository tree).location = options.location :=
        location_of_readTree htree
      exact buildId_of_isStray _ (by rwa [hplace]) halike (by rwa [hplace]) x.1 x.2
    rw [hindex, hindex']
    simp only [hbuild]

/-- A repository of one package with two equal versions, and `more`. -/
def kitTree (more : List (List String × FileNode)) : FileTree where
  entries := [(["r"], .directory), (["r", "profiles"], .directory),
    (["r", "profiles", "categories"], .text "app"), (["r", "app"], .directory),
    (["r", "app", "kit"], .directory), (["r", "app", "kit", "kit-1.0.ebuild"], .text ""),
    (["r", "app", "kit", "kit-1.00-r0.ebuild"], .text "")] ++ more
  workingDirectory := []
  modified := fun _ => 0

def strayEbuilds : List (List String × FileNode) :=
  [(["r", "app", "kit", "bag-2.ebuild"], .text ""), (["r", "app", "kit", "kit-x.ebuild"], .binary)]

def isStrayEbuild (place : List String) : Bool := (strayEbuilds.map Prod.fst).contains place

theorem alike_kitTree : FileTree.Alike isStrayEbuild (kitTree []) (kitTree strayEbuilds) where
  workingDirectory := rfl
  entries := by decide
  leaf place hplace := by
    have hall : ∀ place ∈ strayEbuilds.map Prod.fst,
        (kitTree []).node? place ≠ some .directory := by decide
    exact hall place (List.contains_iff_mem.mp hplace)
  leaf' place hplace := by
    have hall : ∀ place ∈ strayEbuilds.map Prod.fst,
        (kitTree strayEbuilds).node? place ≠ some .directory := by decide
    exact hall place (List.contains_iff_mem.mp hplace)

theorem isStray_kitTree : ∀ place, isStrayEbuild place = true →
    IsStray (kitTree []) ⟨"/r"⟩ place := by
  have hroot : (kitTree []).resolve ⟨"/r"⟩ = .ok ["r"] := by decide
  have hversion (x : String) (hx : ∀ p : PackageName, p.text = "kit" → ebuildVersion? p x = none)
      (p : PackageName) (v : Version) (hp : "kit" = p.text) : x ≠ ebuildName p v := by
    intro h
    have hnone := hx p hp.symm
    rw [ebuildVersion?_eq_some_iff.mpr h] at hnone
    cases hnone
  intro place hplace
  have hcases := List.contains_iff_mem.mp hplace
  simp only [strayEbuilds, List.map_cons, List.map_nil, List.mem_cons, List.not_mem_nil, or_false]
    at hcases
  rcases hcases with rfl | rfl
  · refine ⟨["r"], "app", "kit", "bag-2.ebuild", hroot, rfl, isLookedFor_of_ebuild (by decide),
      hversion _ fun p hp => ?_⟩
    unfold ebuildVersion?
    rw [hp]
    decide
  · refine ⟨["r"], "app", "kit", "kit-x.ebuild", hroot, rfl, isLookedFor_of_ebuild (by decide),
      hversion _ fun p hp => ?_⟩
    unfold ebuildVersion?
    rw [hp]
    decide

def kit : QualifiedName := (PackageId.sample (.numbered 1 [] none)).name

theorem isCategory_kitTree : IsCategory (kitTree []) ⟨"/r"⟩ kit.category := by
  have hread : (kitTree []).read ((⟨"/r"⟩ : Path) / "profiles" / "categories") = .ok "app" :=
    FileTree.read_eq_ok_iff.mpr ⟨["r", "profiles", "categories"], by decide, by decide⟩
  have hlines : FileTree.meaningfulLines "app" = ["app"] := by decide +kernel
  refine ⟨["app"], ?_, ?_⟩
  · unfold FileTree.readLines FileTree.readOptional
    rw [hread, ← hlines]
    rfl
  · rw [if_neg (List.cons_ne_nil _ _)]
    exact List.mem_singleton_self _

theorem holdsEbuild_kitTree {v : Version}
    (h : ["r", "app", "kit", ebuildName kit.package v] ∈ (kitTree []).entries.map Prod.fst) :
    HoldsEbuild (kitTree []) ⟨"/r"⟩ kit v :=
  ⟨by decide, _,
    FileTree.list_eq_ok_iff.mpr ⟨["r", "app", "kit"], by decide, by decide, rfl⟩,
    FileTree.mem_namesUnder.mpr h⟩

/-- Of the two versions the one is listed whose ebuild has the last name, and the other files make
no difference. -/
theorem indexes_kitTree : ∃ r r', openEbuilds (kitTree []) (.at ⟨"/r"⟩) = .ok r ∧
    openEbuilds (kitTree strayEbuilds) (.at ⟨"/r"⟩) = .ok r' ∧ r'.index = r.index ∧
    ∃ id ∈ r.packageIds kit, id.version.equals (.numbered 1 [⟨0, []⟩] none) = true ∧
      ebuildName kit.package (.numbered 1 [⟨0, [0]⟩] (some (.numbered ⟨0, []⟩ []))) ≤
        ebuildName kit.package id.version := by
  have hopens (more : List (List String × FileNode))
      (hdirectory : (kitTree more).isDirectory (EbuildOptions.at ⟨"/r"⟩).location = true) :=
    openEbuilds_of_directory (.at ⟨"/r"⟩) hdirectory
  obtain ⟨r, hr⟩ := Result.exists_ok_of_isSome
    (show (openEbuilds (kitTree []) (.at ⟨"/r"⟩)).toOption.isSome = true by
      rw [hopens [] (by decide)]
      decide +kernel)
  obtain ⟨r', hr'⟩ := Result.exists_ok_of_isSome
    (show (openEbuilds (kitTree strayEbuilds) (.at ⟨"/r"⟩)).toOption.isSome = true by
      rw [hopens strayEbuilds (by decide)]
      decide +kernel)
  obtain ⟨hindexed, hlisted, hstrays⟩ := indexes_ebuilds hr
  have hshort := holdsEbuild_kitTree (v := .numbered 1 [⟨0, []⟩] none) (by decide)
  have hlong := holdsEbuild_kitTree
    (v := .numbered 1 [⟨0, [0]⟩] (some (.numbered ⟨0, []⟩ []))) (by decide)
  have hequals : (Version.numbered 1 [⟨0, [0]⟩] (some (.numbered ⟨0, []⟩ []))).equals
      (.numbered 1 [⟨0, []⟩] none) = true := Version.equals_iff_padded.mpr (by decide)
  obtain ⟨id, hid, hversion⟩ := (hindexed kit (.numbered 1 [⟨0, []⟩] none)).mpr
    ⟨isCategory_kitTree, _, Version.equals_equivalence.refl _, hshort⟩
  refine ⟨r, r', hr, hr', hstrays _ _ alike_kitTree isStray_kitTree r' hr', id, hid, hversion, ?_⟩
  have hle := ((hlisted kit).2 id hid).2.2.1 _ hlong
    (Version.equals_equivalence.trans hequals (Version.equals_equivalence.symm hversion))
  exact hle

end Repository

end PackageCatalog
