import PackageCatalog.Proofs.Configuration.Loading
import PackageCatalog.Proofs.Repository.Installed
import PackageCatalog.Proofs.Repository.Masking
import PackageCatalog.Query

/-!
# What users mask and unmask

The masks of an ID are those that its repository gave it, one of the user, and those of what the
configuration does not accept (`Environment.masks_eq`). The lists of a user reach the first two
only: whatever they say, an ID that cannot be used or is not accepted stays masked
(`Environment.user_lists_reach`).
-/

namespace PackageCatalog

/-! ## The masks of a repository -/

/-- The mask is one that repositories give to their own IDs. -/
def Mask.IsOwn (m : Mask) : Prop := m.key ∈ ['R', 'P', 'E']

instance : DecidablePred Mask.IsOwn := fun m =>
  inferInstanceAs (Decidable (m.key ∈ ['R', 'P', 'E']))

theorem EbuildTree.Source.isOwn_of_mem_buildId {s : Source} {files : FileTree} (n : QualifiedName)
    (v : Version) : ∀ m ∈ (s.buildId files n v).masks, m.IsOwn := by
  obtain ⟨reason?, hmasks⟩ := s.exists_masks_buildId files n v
  intro m hm
  rw [hmasks, List.mem_append, List.mem_append, Option.mem_toList, Option.mem_toList,
    Option.mem_toList] at hm
  simp only [Option.map_eq_some_iff] at hm
  rcases hm with (⟨_, -, rfl⟩ | ⟨_, -, rfl⟩) | ⟨_, -, rfl⟩
  · exact List.mem_of_elem_eq_true rfl
  · exact List.mem_of_elem_eq_true rfl
  · exact List.mem_of_elem_eq_true rfl

/-- However an ebuild repository or a database came about, its IDs carry masks of their own only. -/
theorem Repository.Loaded.isOwn_of_mem_masks {r : Repository} (h : r.Loaded)
    (hopened : r.isManual = false) {id : PackageId} (hid : id ∈ r.ids) :
    ∀ m ∈ id.masks, m.IsOwn := by
  have hebuilds {s : EbuildTree.Source} {files : FileTree} (hindex : s.index files = .ok r.index) :
      ∀ m ∈ id.masks, m.IsOwn :=
    of_mem_ids (EbuildTree.Source.wellFormed_index (P := fun id => ∀ m ∈ id.masks, m.IsOwn)
      EbuildTree.Source.isOwn_of_mem_buildId hindex) hid
  cases h with
  | ebuilds hopen =>
    obtain ⟨tree, hopened⟩ := exists_opened hopen
    exact hebuilds hopened.index
  | switched _ _ hset =>
    obtain ⟨profile, index, -, hindex, rfl⟩ := setProfile_eq_ok_iff.mp hset
    exact hebuilds hindex
  | installed hopen =>
    rw [InstalledDatabase.masks_of_buildId (buildId_of_mem_ids hopen hid).2]
    exact fun _ hm => absurd hm List.not_mem_nil
  | filled hfilled =>
    obtain ⟨-, installed, hkind⟩ := hfilled.consistent
    rw [isManual, hkind] at hopened
    cases hopened

namespace Environment

/-! ## The parts of the masks -/

/-- The masks of what is not accepted. Nothing has to be accepted of what is installed. -/
def acceptanceMasks (e : Environment) (id : PackageId) : List Mask :=
  if id.supports .installed then [] else (e.keywordMask? id).toList ++ (e.licenseMask? id).toList

variable {e : Environment} {id : PackageId} {c c' : Configuration} {catalog : Catalog} {m : Mask}

theorem masks_eq (c : Configuration) (catalog : Catalog) (id : PackageId) :
    masks ⟨.configured c, catalog⟩ id =
      (if c.unmasks id then id.masks.filter (!·.isRepositoryMask) else id.masks) ++
        (if c.masks id && !c.unmasks id then [.user] else []) ++
        acceptanceMasks ⟨.configured c, catalog⟩ id := rfl

theorem licenseMask?_of_value {tree : Expression String}
    (h : (id.key? "LICENSE").map Metadata.Key.value = some (.ok (.licenseTree tree))) :
    e.licenseMask? id = if tree.evaluate (fun flag => (e.useState flag id).isEnabled)
      (fun license => e.acceptsLicense license id) then none else some .unacceptedLicense := by
  unfold licenseMask?
  rw [h]

theorem key_of_mem_acceptanceMasks (hm : m ∈ e.acceptanceMasks id) : m.key ∈ ['K', 'L', 'E'] := by
  unfold acceptanceMasks at hm
  split at hm
  · exact absurd hm List.not_mem_nil
  · rw [List.mem_append, Option.mem_toList, Option.mem_toList] at hm
    unfold keywordMask? licenseMask? at hm
    rcases hm with hm | hm
    · split at hm
      · split at hm
        · cases hm
        · cases hm
          exact List.mem_of_elem_eq_true rfl
      · cases hm
        exact List.mem_of_elem_eq_true rfl
      · cases hm
    · split at hm
      · dsimp only at hm
        split at hm
        · cases hm
        · cases hm
          exact List.mem_of_elem_eq_true rfl
      · cases hm
        exact List.mem_of_elem_eq_true rfl
      · cases hm

theorem useState_congr (h : c.AcceptsAlike c' id) (catalog : Catalog) (flag : UseFlag) :
    useState ⟨.configured c', catalog⟩ flag id = useState ⟨.configured c, catalog⟩ flag id := by
  have hmention : c'.mentionOf? flag id = c.mentionOf? flag id := by
    unfold Configuration.mentionOf?
    rw [h.useFlags]
  unfold useState
  dsimp only
  rw [hmention]
  rfl

theorem acceptsLicense_congr (h : c.AcceptsAlike c' id) (catalog : Catalog) (license : String) :
    acceptsLicense ⟨.configured c', catalog⟩ license id =
      acceptsLicense ⟨.configured c, catalog⟩ license id := by
  unfold acceptsLicense Configuration.acceptsLicense
  dsimp only
  rw [h.licenses]

theorem acceptsKeywords_congr (h : c.AcceptsAlike c' id) (catalog : Catalog)
    (keywords : List Keyword) :
    acceptsKeywords ⟨.configured c', catalog⟩ keywords id =
      acceptsKeywords ⟨.configured c, catalog⟩ keywords id := by
  unfold acceptsKeywords Configuration.acceptsKeywords
  dsimp only
  rw [h.keywords]

theorem acceptanceMasks_congr (h : c.AcceptsAlike c' id) (catalog : Catalog) :
    acceptanceMasks ⟨.configured c', catalog⟩ id = acceptanceMasks ⟨.configured c, catalog⟩ id := by
  unfold acceptanceMasks keywordMask? licenseMask?
  simp only [acceptsKeywords_congr h catalog, acceptsLicense_congr h catalog,
    useState_congr h catalog]

/-! ## What the lists of a user reach -/

/-- The masks that the user can lift: its own, and those that were written in a repository or
profile. -/
def liftable : List Char := ['U', 'R', 'P']

theorem contains_liftable_eq_false (hm : m.key ∈ ['K', 'L', 'E']) :
    liftable.contains m.key = false := by
  simp only [List.mem_cons, List.not_mem_nil, or_false] at hm
  rcases hm with hkey | hkey | hkey <;> rw [hkey] <;> rfl

theorem isRepositoryMask_eq (hm : m.IsOwn) : m.isRepositoryMask = liftable.contains m.key := by
  cases m with
  | user => exact absurd hm (by decide)
  | unacceptedKeywords => exact absurd hm (by decide)
  | unacceptedLicense => exact absurd hm (by decide)
  | repository info => rfl
  | profile info => rfl
  | unsupported explanation => rfl

/-- Unmasking lifts the masks that can be lifted, and no others. -/
theorem masks_of_unmasked (halike : c.AcceptsAlike c' id) (hown : ∀ m ∈ id.masks, m.IsOwn)
    (hlocked : c.unmasks id = false) (hunmasked : c'.unmasks id = true) :
    masks ⟨.configured c', catalog⟩ id =
      (masks ⟨.configured c, catalog⟩ id).filter fun m => !liftable.contains m.key := by
  have hrepository : id.masks.filter (fun m => !liftable.contains m.key) =
      id.masks.filter (!·.isRepositoryMask) :=
    List.filter_congr fun m hm => by rw [isRepositoryMask_eq (hown m hm)]
  have huser (b : Bool) : (if b then [Mask.user] else []).filter
      (fun m => !liftable.contains m.key) = [] := by
    cases b <;> rfl
  have haccepted : (acceptanceMasks ⟨.configured c, catalog⟩ id).filter
      (fun m => !liftable.contains m.key) = acceptanceMasks ⟨.configured c, catalog⟩ id :=
    List.filter_eq_self.mpr fun m hm => by
      rw [contains_liftable_eq_false (key_of_mem_acceptanceMasks hm)]
      rfl
  rw [masks_eq, masks_eq, hlocked, hunmasked, acceptanceMasks_congr halike, Bool.not_true,
    Bool.and_false, List.filter_append, List.filter_append, huser, haccepted,
    if_neg Bool.false_ne_true, if_pos rfl, if_neg Bool.false_ne_true, hrepository]

theorem masks_of_agree (halike : c.AcceptsAlike c' id) (hunmasks : c'.unmasks id = c.unmasks id)
    (hmasks : c.unmasks id = false → c'.masks id = c.masks id) :
    masks ⟨.configured c', catalog⟩ id = masks ⟨.configured c, catalog⟩ id := by
  rw [masks_eq, masks_eq, hunmasks, acceptanceMasks_congr halike]
  cases hlocked : c.unmasks id with
  | true => rw [Bool.not_true, Bool.and_false, Bool.and_false]
  | false => rw [hmasks hlocked]

/-- The mask of the user is that of `package_mask.conf`, unless it is lifted. -/
theorem user_mem_masks_iff (hown : ∀ m ∈ id.masks, m.IsOwn) :
    .user ∈ masks ⟨.configured c, catalog⟩ id ↔ c.masks id = true ∧ c.unmasks id = false := by
  have hrepository :
      .user ∉ if c.unmasks id then id.masks.filter (!·.isRepositoryMask) else id.masks := by
    split
    · exact fun hm => absurd (hown _ (List.mem_filter.mp hm).1) (by decide)
    · exact fun hm => absurd (hown _ hm) (by decide)
  have haccepted : .user ∉ acceptanceMasks ⟨.configured c, catalog⟩ id := fun hm =>
    absurd (key_of_mem_acceptanceMasks hm) (by decide)
  rw [masks_eq, List.mem_append, List.mem_append, or_iff_left haccepted, or_iff_right hrepository]
  cases c.masks id <;> cases c.unmasks id <;> decide

/-- Where the user masks an ID that was not masked by the user, its masks get one more, behind those
of its repository. -/
theorem exists_masks_of_masked (halike : c.AcceptsAlike c' id) (hown : ∀ m ∈ id.masks, m.IsOwn)
    (hunmasks : c'.unmasks id = c.unmasks id) (hlocked : c.unmasks id = false)
    (hmasks : c.masks id = false) (hmasks' : c'.masks id = true) :
    .user ∉ masks ⟨.configured c, catalog⟩ id ∧
      ∃ before after, masks ⟨.configured c, catalog⟩ id = before ++ after ∧
        masks ⟨.configured c', catalog⟩ id = before ++ .user :: after := by
  refine ⟨?_, id.masks, acceptanceMasks ⟨.configured c, catalog⟩ id, ?_, ?_⟩
  · rw [user_mem_masks_iff hown, hmasks]
    exact fun h => Bool.false_ne_true h.1
  · rw [masks_eq, hlocked, hmasks, Bool.false_and, if_neg Bool.false_ne_true,
      if_neg Bool.false_ne_true, List.append_nil]
  · rw [masks_eq, hunmasks, hlocked, hmasks', acceptanceMasks_congr halike, Bool.not_false,
      Bool.and_true, if_neg Bool.false_ne_true, if_pos rfl, List.append_assoc]
    rfl

/-! ## What no list of a user lifts -/

/-- The ID has keywords or licenses that are not accepted, or its repository says that it cannot be
used. -/
inductive Refuses (e : Environment) (id : PackageId) : Prop
  | keywords {keywords : List Keyword} (hinstalled : id.supports .installed = false)
    (hvalue : (id.key? "KEYWORDS").map Metadata.Key.value = some (.ok (.keywordSet keywords)))
    (hrefused : e.acceptsKeywords keywords id = false)
  | license {tree : Expression String} (hinstalled : id.supports .installed = false)
    (hvalue : (id.key? "LICENSE").map Metadata.Key.value = some (.ok (.licenseTree tree)))
    (hrefused : (tree.evaluate (fun flag => (e.useState flag id).isEnabled)
      fun license => e.acceptsLicense license id) = false)
  | unsupported {explanation : String} (hmask : .unsupported explanation ∈ id.masks)

theorem Refuses.congr (halike : c.AcceptsAlike c' id) (h : Refuses ⟨.configured c, catalog⟩ id) :
    Refuses ⟨.configured c', catalog⟩ id := by
  cases h with
  | keywords hinstalled hvalue hrefused =>
    rw [← acceptsKeywords_congr halike] at hrefused
    exact .keywords hinstalled hvalue hrefused
  | license hinstalled hvalue hrefused =>
    simp only [← useState_congr halike, ← acceptsLicense_congr halike] at hrefused
    exact .license hinstalled hvalue hrefused
  | unsupported hmask => exact .unsupported hmask

theorem Refuses.isMasked (h : e.Refuses id) : e.isMasked id = true := by
  have hmem : ∃ m, m ∈ e.masks id := by
    cases h with
    | keywords hinstalled hvalue hrefused =>
      have hmask : e.keywordMask? id = some .unacceptedKeywords := by
        unfold keywordMask?
        rw [hvalue]
        exact if_neg (Bool.eq_false_iff.mp hrefused)
      refine ⟨.unacceptedKeywords, List.mem_append_right _ ?_⟩
      rw [hinstalled, hmask]
      exact List.mem_append_left _ List.mem_cons_self
    | license hinstalled hvalue hrefused =>
      have hmask : e.licenseMask? id = some .unacceptedLicense := by
        rw [licenseMask?_of_value hvalue, hrefused, if_neg Bool.false_ne_true]
      refine ⟨.unacceptedLicense, List.mem_append_right _ ?_⟩
      rw [hinstalled, hmask]
      exact List.mem_append_right _ List.mem_cons_self
    | @unsupported explanation hmask =>
      refine ⟨.unsupported explanation, List.mem_append_left _ (List.mem_append_left _ ?_)⟩
      unfold repositoryMasks
      split
      · exact List.mem_filter.mpr ⟨hmask, rfl⟩
      · exact hmask
  obtain ⟨m, hm⟩ := hmem
  rw [Environment.isMasked, List.isEmpty_eq_false_iff.mpr (List.ne_nil_of_mem hm)]
  rfl

/-! ## Two directories of a user -/

variable {files files' : FileTree} {dir : Path} {r : Repository}

/-- Where more lines change whether the user masks an ID, one of them describes it. -/
theorem exists_added_line {lines lines' : List String} (h : Configuration.load files dir = .ok c)
    (h' : Configuration.load files' dir = .ok c')
    (hlines : files.readLines (dir / "package_mask.conf") = .ok lines)
    (hlines' : files'.readLines (dir / "package_mask.conf") = .ok lines')
    (hmore : ∀ line ∈ lines, line ∈ lines') (hchanged : c'.masks id ≠ c.masks id) :
    c.masks id = false ∧ c'.masks id = true ∧ ∃ line ∈ lines', line ∉ lines ∧
      ∃ a, Configuration.WritesAtom line a ∧ a.describes id = true := by
  have hmasks {files : FileTree} {c : Configuration} {lines : List String}
      (h : Configuration.load files dir = .ok c)
      (hlines : files.readLines (dir / "package_mask.conf") = .ok lines) :
      c.masks id = true ↔
        ∃ line ∈ lines, ∃ a, Configuration.WritesAtom line a ∧ a.describes id = true := by
    obtain ⟨general, hloaded⟩ := Configuration.exists_loaded h
    obtain ⟨found, hfound, hatoms⟩ := Configuration.exists_lines_of_readAtoms hloaded.packageMask
    cases hlines.symm.trans hfound
    rw [Configuration.masks, List.any_eq_true]
    constructor
    · rintro ⟨a, ha, hdescribes⟩
      obtain ⟨line, hline, hwrites⟩ := (hatoms a).mp ha
      exact ⟨line, hline, a, hwrites, hdescribes⟩
    · rintro ⟨line, hline, a, hwrites, hdescribes⟩
      exact ⟨a, (hatoms a).mpr ⟨line, hline, hwrites⟩, hdescribes⟩
  have hkept : c.masks id = true → c'.masks id = true := by
    rw [hmasks h hlines, hmasks h' hlines']
    rintro ⟨line, hline, hwrites⟩
    exact ⟨line, hmore line hline, hwrites⟩
  have hold : c.masks id = false := by
    cases hmask : c.masks id with
    | false => rfl
    | true => exact absurd ((hkept hmask).trans hmask.symm) hchanged
  have hnew : c'.masks id = true := by
    rw [hold] at hchanged
    exact (Bool.not_eq_false _).mp hchanged
  obtain ⟨line, hline, hwrites⟩ := (hmasks h' hlines').mp hnew
  refine ⟨hold, hnew, line, hline, fun hmem => ?_, hwrites⟩
  have htrue := (hmasks h hlines).mpr ⟨line, hmem, hwrites⟩
  rw [hold] at htrue
  cases htrue

/-- Of two configurations that differ in what they unmask only, both give an ID the same masks if
they agree on whether it is unmasked, and else the one that unmasks it lifts the masks of the user
and of the repository alone. More lines that mask add one mask at most, to IDs that they describe and
that are not unmasked. An ID that is refused for other reasons never passes. -/
theorem user_lists_reach (catalog : Catalog) (hloaded : r.Loaded) (hopened : r.isManual = false)
    (hid : id ∈ r.ids) (h : Configuration.load files dir = .ok c)
    (h' : Configuration.load files' dir = .ok c') :
    let e : Environment := ⟨.configured c, catalog⟩
    let e' : Environment := ⟨.configured c', catalog⟩
    (Configuration.DifferOnlyIn dir "package_unmask.conf" files files' →
      (e'.userUnmasks id = e.userUnmasks id → e'.masks id = e.masks id) ∧
      (e.userUnmasks id = false → e'.userUnmasks id = true →
        e'.masks id = (e.masks id).filter fun m => !liftable.contains m.key) ∧
      (e.Refuses id → Filter.passes e' r id .notMasked = false)) ∧
    (Configuration.DifferOnlyIn dir "package_mask.conf" files files' → ∀ lines lines',
      files.readLines (dir / "package_mask.conf") = .ok lines →
      files'.readLines (dir / "package_mask.conf") = .ok lines' → (∀ line ∈ lines, line ∈ lines') →
      e'.masks id = e.masks id ∨
        .user ∉ e.masks id ∧
        (∃ before after, e.masks id = before ++ after ∧ e'.masks id = before ++ .user :: after) ∧
        e'.userUnmasks id = false ∧
        ∃ line ∈ lines', line ∉ lines ∧ ∃ a, Configuration.WritesAtom line a ∧
          a.describes id = true) := by
  intro e e'
  have hown := hloaded.isOwn_of_mem_masks hopened hid
  refine ⟨fun hdiffer => ?_, fun hdiffer lines lines' hlines hlines' hmore => ?_⟩
  · have halike := hdiffer.acceptsAlike (by decide) h h' id
    have hmask : c'.masks id = c.masks id :=
      hdiffer.describes_eq (by decide) (by decide) (fun _ _ _ hl => hl.packageMask) h h' id
    refine ⟨fun hagree => masks_of_agree halike hagree fun _ => hmask,
      fun hlocked hunmasked => masks_of_unmasked halike hown hlocked hunmasked, fun hrefused => ?_⟩
    rw [Filter.passes, (hrefused.congr halike).isMasked]
    rfl
  · have halike := hdiffer.acceptsAlike (by decide) h h' id
    have hunmasks : c'.unmasks id = c.unmasks id :=
      hdiffer.describes_eq (by decide) (by decide) (fun _ _ _ hl => hl.packageUnmask) h h' id
    cases hlocked : c.unmasks id with
    | true =>
      refine .inl (masks_of_agree halike hunmasks fun hfalse => ?_)
      rw [hlocked] at hfalse
      cases hfalse
    | false =>
      by_cases hsame : c'.masks id = c.masks id
      · exact .inl (masks_of_agree halike hunmasks fun _ => hsame)
      · obtain ⟨hmasks, hmasks', hadded⟩ := exists_added_line h h' hlines hlines' hmore hsame
        obtain ⟨huser, hmasked⟩ :=
          exists_masks_of_masked halike hown hunmasks hlocked hmasks hmasks'
        exact .inr ⟨huser, hmasked, hunmasks.trans hlocked, hadded⟩

/-! ## A package that stays masked -/

def userLists (mask unmask : String) : FileTree where
  entries := [(["conf"], .directory), (["conf", "package_mask.conf"], .text mask),
    (["conf", "package_unmask.conf"], .text unmask)]
  workingDirectory := []
  modified := fun _ => 0

def maskingAll : FileTree := (userLists "" "").put ["conf", "package_mask.conf"] (.text "*/*")

def unmaskingAll : FileTree := maskingAll.put ["conf", "package_unmask.conf"] (.text "*/*")

theorem differOnlyIn_maskingAll :
    Configuration.DifferOnlyIn ⟨"/conf"⟩ "package_mask.conf" (userLists "" "") maskingAll :=
  Configuration.differOnlyIn_put ["conf"] (by decide) (by decide) (by decide) (by decide)
    (by decide) (by decide)

theorem differOnlyIn_unmaskingAll :
    Configuration.DifferOnlyIn ⟨"/conf"⟩ "package_unmask.conf" maskingAll unmaskingAll :=
  Configuration.differOnlyIn_put ["conf"] (by decide) (by decide) (by decide) (by decide)
    (by decide) (by decide)

def anything : Atom := ⟨.any, none, none, none⟩

theorem exists_load_userLists (files : FileTree) (masked unmasked : List Atom)
    (h : (Configuration.load files ⟨"/conf"⟩).toOption.map
      (fun c => (c.packageMask, c.packageUnmask)) = some (masked, unmasked)) :
    ∃ c, Configuration.load files ⟨"/conf"⟩ = .ok c ∧ c.packageMask = masked ∧
      c.packageUnmask = unmasked := by
  obtain ⟨c, hload, hc⟩ := Result.exists_of_map_toOption h
  exact ⟨c, hload, Prod.mk.inj hc⟩

theorem exists_masked_ebuild : ∃ r,
    Repository.openEbuilds Repository.masksEverywhere (Repository.startingAt "/two") = .ok r ∧
    ∃ id ∈ r.ids, ∃ explanation, .unsupported explanation ∈ id.masks := by
  obtain ⟨r, hr, hletters⟩ := Result.exists_of_map_toOption Repository.maskLetters_masksEverywhere.2
  have hmem : ['E', 'R', 'P'] ∈ r.maskLetters := hletters ▸ List.mem_cons_self
  obtain ⟨id, hid, hkeys⟩ := List.mem_map.mp hmem
  refine ⟨r, hr, id, hid, ?_⟩
  have hunusable : 'E' ∈ id.masks.map Mask.key := hkeys ▸ List.mem_cons_self
  obtain ⟨m, hm, hkey⟩ := List.mem_map.mp hunusable
  cases m with
  | unsupported explanation => exact ⟨explanation, hm⟩
  | _ => cases hkey

/-- Masking everything adds one mask to those of the package, and unmasking everything leaves the
one because of which it cannot be used. -/
theorem refused_when_unmasked : ∃ r id c c' c'',
    Repository.openEbuilds Repository.masksEverywhere (Repository.startingAt "/two") = .ok r ∧
    id ∈ r.ids ∧
    Configuration.load (userLists "" "") ⟨"/conf"⟩ = .ok c ∧
    Configuration.load maskingAll ⟨"/conf"⟩ = .ok c' ∧
    Configuration.load unmaskingAll ⟨"/conf"⟩ = .ok c'' ∧
    (∃ before after, masks ⟨.configured c, ⟨[(0, r)]⟩⟩ id = before ++ after ∧
      masks ⟨.configured c', ⟨[(0, r)]⟩⟩ id = before ++ .user :: after) ∧
    masks ⟨.configured c'', ⟨[(0, r)]⟩⟩ id = (masks ⟨.configured c', ⟨[(0, r)]⟩⟩ id).filter
      (fun m => !liftable.contains m.key) ∧
    Filter.passes ⟨.configured c'', ⟨[(0, r)]⟩⟩ r id .notMasked = false := by
  obtain ⟨r, hr, id, hid, explanation, hunusable⟩ := exists_masked_ebuild
  obtain ⟨c, hc, hmask, hunmask⟩ := exists_load_userLists (userLists "" "") [] []
    (by decide +kernel)
  obtain ⟨c', hc', hmask', hunmask'⟩ := exists_load_userLists maskingAll [anything] []
    (by decide +kernel)
  obtain ⟨c'', hc'', -, hunmask''⟩ := exists_load_userLists unmaskingAll [anything] [anything]
    (by decide +kernel)
  have hopened : r.isManual = false := by
    obtain ⟨tree, hopened⟩ := Repository.exists_opened hr
    rw [Repository.isManual, hopened.kind]
  have hdescribes : anything.describes id = true := rfl
  have hlocked : c'.unmasks id = false := by
    rw [Configuration.unmasks, hunmask']
    rfl
  have hunmasked : c''.unmasks id = true := by
    rw [Configuration.unmasks, hunmask'', List.any_cons, hdescribes, Bool.true_or]
  have hmasked : c'.masks id = true := by
    rw [Configuration.masks, hmask', List.any_cons, hdescribes, Bool.true_or]
  obtain ⟨-, hadds⟩ := user_lists_reach ⟨[(0, r)]⟩ (.ebuilds hr) hopened hid hc hc'
  obtain ⟨hlifts, -⟩ := user_lists_reach ⟨[(0, r)]⟩ (.ebuilds hr) hopened hid hc' hc''
  obtain ⟨-, hfiltered, hrefuses⟩ := hlifts differOnlyIn_unmaskingAll
  have hlines : (userLists "" "").readLines ((⟨"/conf"⟩ : Path) / "package_mask.conf") =
      .ok [] := by
    rfl
  have hlines' : maskingAll.readLines ((⟨"/conf"⟩ : Path) / "package_mask.conf") =
      .ok ["*/*"] := by
    rfl
  refine ⟨r, id, c, c', c'', hr, hid, hc, hc', hc'', ?_, hfiltered hlocked hunmasked,
    hrefuses (.unsupported hunusable)⟩
  rcases hadds differOnlyIn_maskingAll _ _ hlines hlines' nofun with hsame | ⟨-, hadded, -⟩
  · have hown := (Repository.Loaded.ebuilds hr).isOwn_of_mem_masks hopened hid
    have huser : .user ∈ masks ⟨.configured c', ⟨[(0, r)]⟩⟩ id :=
      (user_mem_masks_iff hown).mpr ⟨hmasked, hlocked⟩
    rw [hsame, user_mem_masks_iff hown, Configuration.masks, hmask] at huser
    exact absurd huser.1 Bool.false_ne_true
  · exact hadded

end Environment

end PackageCatalog
