import PackageCatalog.Proofs.Environment.Masks
import PackageCatalog.Proofs.Expression.Evaluation

/-!
# Which licenses are let in

`Configuration.grants` is the rule by which the tokens of `licenses.conf` decide on a license: of
those that bear on it, the last one does. It is what the scan over the tokens comes to
(`Configuration.foldl_applyLicenseToken`), and what the licenses in the tree of an ID are judged by
(`Environment.licenses_by_last_token`).
-/

namespace PackageCatalog

variable {tree : Expression String}

/-- A tree of licenses was read from a text. -/
theorem Metadata.Key.exists_parse_of_value {k : Key} (h : k.value = .ok (.licenseTree tree)) :
    ∃ text, Expression.parse Expression.licenseFormat text = .ok tree := by
  obtain ⟨raw, hraw⟩ := exists_raw_of_value h rfl (by decide)
  obtain ⟨found, hfound, hraw⟩ := Result.bind_eq_ok_iff.mp hraw
  cases hraw
  exact ⟨raw, hfound⟩

namespace Configuration

variable {license : String}

/-! ## The last token that bears on a license -/

/-- The tokens that decide on a license: those for all, and those that name it. -/
def bearsOn (license token : String) : Bool :=
  ["*", "-*", license, "-" ++ license].contains token

/-- The last token that bears on the license lets it in; without one it is kept out. -/
def grants (tokens : List String) (license : String) : Bool :=
  (tokens.filter (bearsOn license)).getLast?.any fun token => token == "*" || token == license

theorem grants_append_singleton (tokens : List String) (token : String) :
    grants (tokens ++ [token]) license = if bearsOn license token
      then token == "*" || token == license else grants tokens license := by
  unfold grants
  rw [List.filter_append]
  split
  · next hbears =>
    rw [List.filter_cons_of_pos hbears, List.filter_nil, List.getLast?_concat, Option.any_some]
  · next hbears => rw [List.filter_cons_of_neg hbears, List.filter_nil, List.append_nil]

theorem bearsOn_iff {token : String} : bearsOn license token = true ↔
    token = "*" ∨ token = "-*" ∨ token = license ∨ token = "-" ++ license := by
  simp only [bearsOn, List.contains_iff_mem, List.mem_cons, List.not_mem_nil, or_false]

/-- A token that takes a license back lets nothing in. -/
theorem removal_lets_nothing_in (license : String) :
    ("-" ++ license == "*" || "-" ++ license == license) = false := by
  rw [Bool.or_eq_false_iff, beq_eq_false_iff_ne, beq_eq_false_iff_ne]
  constructor
  · intro heq
    have hchars := congrArg String.toList heq
    rw [String.toList_append] at hchars
    cases hchars
  · intro heq
    have hlength := congrArg String.length heq
    rw [String.length_append] at hlength
    exact absurd hlength (Nat.ne_of_gt (Nat.lt_add_of_pos_left (by decide)))

theorem applyLicenseToken_eq (hname : license ≠ "-*") (accepted : Bool) (token : String) :
    applyLicenseToken license accepted token =
      if bearsOn license token then token == "*" || token == license else accepted := by
  unfold applyLicenseToken
  by_cases hall : token = "*"
  · rw [if_pos hall, if_pos (bearsOn_iff.mpr (.inl hall)), hall, BEq.rfl, Bool.true_or]
  by_cases hnone : token = "-*"
  · rw [if_neg hall, if_pos hnone, if_pos (bearsOn_iff.mpr (.inr (.inl hnone))), hnone,
      beq_eq_false_iff_ne.mpr hname.symm]
    rfl
  by_cases hself : token = license
  · rw [if_neg hall, if_neg hnone, if_pos hself,
      if_pos (bearsOn_iff.mpr (.inr (.inr (.inl hself)))), hself, BEq.rfl, Bool.or_true]
  by_cases hremoved : token = "-" ++ license
  · rw [if_neg hall, if_neg hnone, if_neg hself, if_pos hremoved,
      if_pos (bearsOn_iff.mpr (.inr (.inr (.inr hremoved)))), hremoved, removal_lets_nothing_in]
  have hbears : ¬ bearsOn license token = true := by
    rw [bearsOn_iff]
    rintro (h | h | h | h)
    exacts [hall h, hnone h, hself h, hremoved h]
  rw [if_neg hall, if_neg hnone, if_neg hself, if_neg hremoved, if_neg hbears]

/-- The scan over the tokens ends with what the last one that bears on the license says. -/
theorem foldl_applyLicenseToken (hname : license ≠ "-*") (tokens : List String) :
    tokens.foldl (applyLicenseToken license) false = grants tokens license := by
  induction tokens using List.reverseRecOn with
  | nil => rfl
  | append_singleton tokens token ih =>
    rw [List.foldl_append, List.foldl_cons, List.foldl_nil, ih, applyLicenseToken_eq hname,
      grants_append_singleton]

/-- No license in a tree reads like the token that takes all of them back. -/
theorem ne_removal_of_mem_leaves {text : String}
    (h : Expression.parse Expression.licenseFormat text = .ok tree)
    (hlicense : license ∈ tree.leaves) : license ≠ "-*" := by
  rintro rfl
  exact absurd (Expression.isLicense_of_mem_leaves h hlicense) (by decide)

variable {files : FileTree} {dir : Path} {c : Configuration}

/-- What a configuration accepts is decided by the lines that speak of the ID. -/
theorem exists_lines_of_licenses (h : load files dir = .ok c) : ∃ lines,
    files.readLines (dir / "licenses.conf") = .ok lines ∧
      ∀ id, Rule.valuesFor c.licenses id = tokensFor id lines := by
  obtain ⟨general, hloaded⟩ := exists_loaded h
  obtain ⟨lines, hlines, hvalues⟩ := exists_lines_of_readRules hloaded.licenses
  refine ⟨lines, hlines, fun id => ?_⟩
  have hall : (tokensFor id lines).mapM (fun token => (pure token : Except Error String)) =
      pure ((tokensFor id lines).map fun token => token) := List.mapM_pure
  rw [List.map_id'] at hall
  exact Except.ok.inj ((hvalues id).symm.trans hall)

end Configuration

namespace Environment

variable {e : Environment} {id : PackageId} {files : FileTree} {dir : Path} {c : Configuration}
  {catalog : Catalog}

/-! ## The mask of the license -/

theorem keywordMask?_ne_unacceptedLicense : e.keywordMask? id ≠ some .unacceptedLicense := by
  unfold keywordMask?
  split
  · split <;> nofun
  · nofun
  · nofun

/-- The mask of the license is the ID's own, or stands for a tree that is not satisfied. -/
theorem unacceptedLicense_mem_masks_iff (hinstalled : id.supports .installed = false)
    (h : (id.key? "LICENSE").map Metadata.Key.value = some (.ok (.licenseTree tree))) :
    .unacceptedLicense ∈ e.masks id ↔ .unacceptedLicense ∈ id.masks ∨
      tree.evaluate (fun flag => (e.useState flag id).isEnabled)
        (fun license => e.acceptsLicense license id) = false := by
  have hown : .unacceptedLicense ∈ e.repositoryMasks id ↔ .unacceptedLicense ∈ id.masks := by
    unfold repositoryMasks
    split
    · rw [List.mem_filter]
      exact and_iff_left rfl
    · rfl
  have huser : Mask.unacceptedLicense ∉
      if e.userMasks id && !e.userUnmasks id then [Mask.user] else [] := by
    split
    · exact fun hm => absurd (List.mem_singleton.mp hm) nofun
    · exact List.not_mem_nil
  have hlicense : .unacceptedLicense ∈ (e.licenseMask? id).toList ↔
      tree.evaluate (fun flag => (e.useState flag id).isEnabled)
        (fun license => e.acceptsLicense license id) = false := by
    rw [Option.mem_toList, licenseMask?_of_value h, ite_eq_right_iff, ← Bool.not_eq_true]
    exact ⟨fun hmask hsatisfied => (nomatch hmask hsatisfied), fun hrefused h => absurd h hrefused⟩
  unfold masks
  rw [hinstalled, if_neg Bool.false_ne_true, List.mem_append, List.mem_append, List.mem_append,
    hown, hlicense, or_iff_left huser, Option.mem_toList,
    or_iff_right keywordMask?_ne_unacceptedLicense]

/-- Whether the tree of a configured ID is satisfied is decided by the last tokens. -/
theorem evaluate_acceptsLicense {lines : List String}
    (hlines : Rule.valuesFor c.licenses id = Configuration.tokensFor id lines)
    (h : (id.key? "LICENSE").map Metadata.Key.value = some (.ok (.licenseTree tree)))
    (enabled : UseFlag → Bool) :
    tree.evaluate enabled (fun license => acceptsLicense ⟨.configured c, catalog⟩ license id) =
      tree.evaluate enabled (Configuration.grants (Configuration.tokensFor id lines)) := by
  obtain ⟨k, -, hvalue⟩ := Option.map_eq_some_iff.mp h
  obtain ⟨raw, hparse⟩ := Metadata.Key.exists_parse_of_value hvalue
  refine Expression.evaluate_congr fun license hlicense => ?_
  have hleaf := (tree.activeLeaves_sublist enabled).mem hlicense
  have hname := Configuration.ne_removal_of_mem_leaves hparse hleaf
  have hscan : acceptsLicense ⟨.configured c, catalog⟩ license id =
      (Rule.valuesFor c.licenses id).foldl (Configuration.applyLicenseToken license) false := rfl
  rw [hscan, hlines, Configuration.foldl_applyLicenseToken hname]

/-- Among the masks of an ID that is not installed is that of the license just when the ID carries
it itself, or when its tree is not satisfied by the licenses for which the last token that bears on
them, in the lines that speak of the ID, lets them in. No ID of an ebuild repository or database
carries it itself. The other lines make no difference to any mask. -/
theorem licenses_by_last_token (catalog : Catalog) (h : Configuration.load files dir = .ok c)
    (hinstalled : id.supports .installed = false)
    (hvalue : (id.key? "LICENSE").map Metadata.Key.value = some (.ok (.licenseTree tree))) :
    let e : Environment := ⟨.configured c, catalog⟩
    ∃ lines, files.readLines (dir / "licenses.conf") = .ok lines ∧
      let satisfied := tree.evaluate (fun flag => (e.useState flag id).isEnabled)
        (Configuration.grants (Configuration.tokensFor id lines))
      (.unacceptedLicense ∈ e.masks id ↔ .unacceptedLicense ∈ id.masks ∨ satisfied = false) ∧
      (∀ r : Repository, r.Loaded → r.isManual = false → id ∈ r.ids →
        (.unacceptedLicense ∈ e.masks id ↔ satisfied = false)) ∧
      ∀ files' c' lines', Configuration.load files' dir = .ok c' →
        Configuration.DifferOnlyIn dir "licenses.conf" files files' →
        files'.readLines (dir / "licenses.conf") = .ok lines' →
        lines'.filter (Configuration.speaksOf id) = lines.filter (Configuration.speaksOf id) →
        masks ⟨.configured c', catalog⟩ id = e.masks id := by
  intro e
  obtain ⟨lines, hlines, htokens⟩ := Configuration.exists_lines_of_licenses h
  have hmask := unacceptedLicense_mem_masks_iff (e := e) hinstalled hvalue
  rw [evaluate_acceptsLicense (htokens id) hvalue] at hmask
  refine ⟨lines, hlines, hmask, fun r hloaded hopened hid => ?_, ?_⟩
  · rw [hmask, or_iff_right]
    exact fun hm => absurd (hloaded.isOwn_of_mem_masks hopened hid _ hm) (by decide)
  · intro files' c' lines' h' hdiffer hlines' hsame
    obtain ⟨lines'', hread, htokens'⟩ := Configuration.exists_lines_of_licenses h'
    cases hlines'.symm.trans hread
    have hkeywords : c'.keywords = c.keywords :=
      hdiffer.field_eq (by decide) (by decide) (fun _ _ _ hl => hl.keywords) h h'
    have huseFlags : c'.useFlags = c.useFlags :=
      hdiffer.field_eq (by decide) (by decide) (fun _ _ _ hl => hl.useFlags) h h'
    have hmasks : c'.masks id = c.masks id :=
      hdiffer.describes_eq (by decide) (by decide) (fun _ _ _ hl => hl.packageMask) h h' id
    have hunmasks : c'.unmasks id = c.unmasks id :=
      hdiffer.describes_eq (by decide) (by decide) (fun _ _ _ hl => hl.packageUnmask) h h' id
    have halike : c.AcceptsAlike c' id := by
      constructor
      · rw [hkeywords]
      · rw [htokens, htokens', Configuration.tokensFor, hsame, Configuration.tokensFor]
      · rw [huseFlags]
    exact masks_of_agree halike hunmasks fun _ => hmasks

/-! ## A license that is taken back -/

/-- A configuration that lets in all licenses, and takes one of them back for `app/kit`. -/
def withoutGpl : FileTree where
  entries := [(["conf"], .directory),
    (["conf", "licenses.conf"], .text "*/* *\napp/kit -GPL-2 BSD\nsys/* GPL-2")]
  workingDirectory := []
  modified := fun _ => 0

def licensed (licenses : List String) : PackageId :=
  (PackageId.sample ⟨.scm, none⟩).withKey
    (.ofVariable "LICENSE" (Expression.text Expression.licenseFormat (.all (licenses.map .leaf))))

def gplTokens : List String := ["*", "-GPL-2", "BSD"]

theorem readLines_withoutGpl : withoutGpl.readLines ((⟨"/conf"⟩ : Path) / "licenses.conf") =
    .ok ["*/* *", "app/kit -GPL-2 BSD", "sys/* GPL-2"] := by
  rfl

theorem tokensFor_withoutGpl (licenses : List String) : Configuration.tokensFor (licensed licenses)
    ["*/* *", "app/kit -GPL-2 BSD", "sys/* GPL-2"] = gplTokens := by
  have hsame : Configuration.speaksOf (licensed licenses) =
      Configuration.speaksOf (PackageId.sample ⟨.scm, none⟩) := rfl
  rw [Configuration.tokensFor, hsame]
  decide +kernel

theorem value_licensed {licenses : List String}
    (h : ∀ license ∈ licenses, Expression.IsLicenseName license) :
    ((licensed licenses).key? "LICENSE").map Metadata.Key.value =
      some (.ok (.licenseTree (.all (licenses.map .leaf)))) := by
  have hbuilt : ∀ e ∈ licenses.map Expression.leaf,
      Expression.Built Expression.IsLicenseName true e :=
    List.forall_mem_map.mpr fun license hlicense => .leaf (h license hlicense)
  have hparse : Expression.parse Expression.licenseFormat
      (Expression.text Expression.licenseFormat (.all (licenses.map .leaf))) =
        .ok (.all (licenses.map .leaf)) :=
    Expression.parse_text_of_legible
      (Expression.lawful_wordFormat fun _ => Expression.isBlank_of_isNameChar)
      (Expression.legible_of_built (fun a ha rest hrest => Expression.leafAt_of_name ha hrest)
        hbuilt)
  have hkey : (licensed licenses).key? "LICENSE" = some (.ofVariable "LICENSE"
      (Expression.text Expression.licenseFormat (.all (licenses.map .leaf)))) := by
    rfl
  have hvalue (raw : String) : (Metadata.Key.ofVariable "LICENSE" raw).value =
      (Expression.parse Expression.licenseFormat raw >>= fun tree => pure (.licenseTree tree)) := by
    rfl
  rw [hkey, Option.map_some, hvalue, hparse]
  rfl

theorem exists_load_withoutGpl : ∃ c, Configuration.load withoutGpl ⟨"/conf"⟩ = .ok c :=
  Result.exists_ok_of_isSome (by decide +kernel)

/-- Where two licenses are both needed, the last line that speaks of the package takes one back;
with another in its place the package is not masked. -/
theorem masked_without_gpl : ∃ c, Configuration.load withoutGpl ⟨"/conf"⟩ = .ok c ∧
    .unacceptedLicense ∈ masks ⟨.configured c, .empty⟩ (licensed ["MIT", "GPL-2"]) ∧
    .unacceptedLicense ∉ masks ⟨.configured c, .empty⟩ (licensed ["MIT", "BSD"]) := by
  obtain ⟨c, hload⟩ := exists_load_withoutGpl
  have hmasked {licenses : List String}
      (hnames : ∀ license ∈ licenses, Expression.IsLicenseName license) :
      .unacceptedLicense ∈ masks ⟨.configured c, .empty⟩ (licensed licenses) ↔
        ∃ license ∈ licenses, Configuration.grants gplTokens license = false := by
    obtain ⟨lines, hlines, hmask, -⟩ :=
      licenses_by_last_token .empty hload rfl (value_licensed hnames)
    cases readLines_withoutGpl.symm.trans hlines
    have hown : .unacceptedLicense ∉ (licensed licenses).masks := List.not_mem_nil
    rw [hmask, or_iff_right hown, tokensFor_withoutGpl, ← Bool.not_eq_true,
      Expression.evaluate_all_iff, List.forall_mem_map]
    simp only [Expression.evaluate, not_forall, exists_prop, Bool.not_eq_true]
  have hmit : Expression.IsLicenseName "MIT" := rfl
  have hgpl : Expression.IsLicenseName "GPL-2" := rfl
  have hbsd : Expression.IsLicenseName "BSD" := rfl
  refine ⟨c, hload, ?_, ?_⟩
  · rw [hmasked (List.forall_mem_cons.mpr ⟨hmit, List.forall_mem_singleton.mpr hgpl⟩)]
    decide
  · rw [hmasked (List.forall_mem_cons.mpr ⟨hmit, List.forall_mem_singleton.mpr hbsd⟩)]
    decide

/-- A package that carries the mask itself keeps it, though its license is let in. -/
theorem masked_by_itself : ∃ c lines, Configuration.load withoutGpl ⟨"/conf"⟩ = .ok c ∧
    withoutGpl.readLines ((⟨"/conf"⟩ : Path) / "licenses.conf") = .ok lines ∧
    let e : Environment := ⟨.configured c, .empty⟩
    let id := (licensed ["MIT"]).withMask .unacceptedLicense
    let tree : Expression String := .all [.leaf "MIT"]
    id.supports .installed = false ∧
    (id.key? "LICENSE").map Metadata.Key.value = some (.ok (.licenseTree tree)) ∧
    tree.evaluate (fun flag => (e.useState flag id).isEnabled)
      (Configuration.grants (Configuration.tokensFor id lines)) = true ∧
    .unacceptedLicense ∈ e.masks id := by
  obtain ⟨c, hload⟩ := exists_load_withoutGpl
  have hvalue : (((licensed ["MIT"]).withMask .unacceptedLicense).key? "LICENSE").map
      Metadata.Key.value = some (.ok (.licenseTree (.all [.leaf "MIT"]))) :=
    value_licensed (List.forall_mem_singleton.mpr rfl)
  refine ⟨c, _, hload, readLines_withoutGpl, rfl, hvalue, ?_, ?_⟩
  · have htokens : Configuration.tokensFor ((licensed ["MIT"]).withMask .unacceptedLicense)
        ["*/* *", "app/kit -GPL-2 BSD", "sys/* GPL-2"] = gplTokens := tokensFor_withoutGpl ["MIT"]
    rw [htokens]
    rfl
  · exact (unacceptedLicense_mem_masks_iff rfl hvalue).mpr (.inl List.mem_cons_self)

end Environment

end PackageCatalog
