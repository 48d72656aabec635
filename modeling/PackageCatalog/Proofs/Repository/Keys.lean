import PackageCatalog.Proofs.Expression.RoundTrip
import PackageCatalog.Proofs.FileTree
import PackageCatalog.Proofs.Identity
import PackageCatalog.Repository.Ebuild

/-!
# The keys of an ebuild

Of several keys of one name the last that was put in stays (`PackageId.key?_foldl_withKey`). So the
key of a variable shows the last line of the cache entry that names it
(`EbuildTree.key?_buildId_eq_last`), while looking a variable up in the entry gives the first.
-/

namespace PackageCatalog

namespace PackageId

open Metadata

variable {id : PackageId} {name : String}

/-! ## Putting keys in -/

theorem find?_putKey (key : Key) (keys : List Key) (name : String) :
    (putKey key keys).find? (·.name = name) =
      if key.name = name then some key else keys.find? (·.name = name) := by
  induction keys with
  | nil => by_cases h : key.name = name <;> simp [putKey, h]
  | cons k keys ih =>
    by_cases hk : k.name = key.name <;> by_cases h : key.name = name <;>
      simp_all [putKey, List.find?_cons]

theorem key?_withKey (id : PackageId) (key : Key) (name : String) :
    (id.withKey key).key? name = if key.name = name then some key else id.key? name :=
  find?_putKey key id.keys name

theorem key?_withKey_of_ne {key : Key} (h : key.name ≠ name) (id : PackageId) :
    (id.withKey key).key? name = id.key? name := by
  rw [key?_withKey, if_neg h]

/-- Of the keys of one name that are put in, the last stays. -/
theorem key?_foldl_withKey (keys : List Key) (id : PackageId) (name : String) :
    (keys.foldl withKey id).key? name =
      (keys.reverse.find? (·.name = name)).or (id.key? name) := by
  induction keys generalizing id with
  | nil => rfl
  | cons key keys ih =>
    rw [List.foldl_cons, ih, key?_withKey, List.reverse_cons, List.find?_append, Option.or_assoc]
    by_cases h : key.name = name <;> simp [h]

end PackageId

namespace Metadata.Key

@[simp]
theorem name_ofVariable (name value : String) : (ofVariable name value).name = name := by
  unfold ofVariable Variable.find?
  cases h : Variable.wellKnown.find? (·.name == name) with
  | none => rfl
  | some v =>
    have hname := List.find?_some h
    exact eq_of_beq hname

@[simp]
theorem raw?_ofVariable (name value : String) : (ofVariable name value).raw? = some value := by
  unfold ofVariable
  cases Variable.find? name <;> rfl

@[simp]
theorem name_fetches (value restrict : String) : (fetches value restrict).name = "SRC_URI" :=
  name_ofVariable "SRC_URI" ""

end Metadata.Key

/-! ## First and last lines -/

namespace CacheEntry

def last? (entry : CacheEntry) (key : String) : Option String := entry.values.reverse.lookup key

theorem isSome_last? (entry : CacheEntry) (key : String) :
    (entry.last? key).isSome = (entry.get? key).isSome := by
  rw [Bool.eq_iff_iff, last?, get?, List.lookup_isSome_iff, List.lookup_isSome_iff]
  simp only [List.mem_reverse]

theorem find?_eq_last? (entry : CacheEntry) (key : String) :
    entry.values.reverse.find? (·.1 = key) = (entry.last? key).map fun value => (key, value) := by
  unfold last?
  induction entry.values.reverse with
  | nil => rfl
  | cons v values ih =>
    obtain ⟨name, value⟩ := v
    by_cases h : name = key
    · simp [h]
    · have hne : (key == name) = false := beq_false_of_ne (Ne.symm h)
      simp [List.lookup_cons, h, hne, ih]

end CacheEntry

namespace EbuildTree

open Metadata

variable {entry : CacheEntry} {eapi? : Option Eapi} {id : PackageId} {name value : String}

/-! ## The variables of an entry -/

/-- The key of a variable, whose `RESTRICT` the label of `SRC_URI` depends on. -/
def keyOf (entry : CacheEntry) (v : String × String) : Key :=
  if v.1 = "SRC_URI" then .fetches v.2 ((entry.get? "RESTRICT").getD "") else .ofVariable v.1 v.2

theorem name_keyOf (entry : CacheEntry) (v : String × String) : (keyOf entry v).name = v.1 := by
  unfold keyOf
  split
  · next h => rw [Key.name_fetches, h]
  · exact Key.name_ofVariable v.1 v.2

theorem raw?_keyOf (entry : CacheEntry) (v : String × String) :
    (keyOf entry v).raw? = some v.2 := by
  unfold keyOf
  split
  · rfl
  · exact Key.raw?_ofVariable v.1 v.2

/-- Whether a variable makes a key: the EAPI has it, and it has no place of its own. -/
def isShown (eapi? : Option Eapi) (name : String) : Bool :=
  eapi?.all (·.definesVariable name) && name != "SLOT" && name != "EAPI"

theorem addVariable_eq (entry : CacheEntry) (eapi? : Option Eapi) (id : PackageId)
    (v : String × String) : addVariable entry eapi? id v =
      if isShown eapi? v.1 then id.withKey (keyOf entry v) else id := by
  have hany : (eapi?.any fun e => !e.definesVariable v.1) =
      !eapi?.all (·.definesVariable v.1) := by cases eapi? <;> simp
  unfold addVariable isShown keyOf
  rw [hany]
  generalize eapi?.all (·.definesVariable v.1) = defined
  cases defined <;> by_cases hplace : v.1 = "SLOT" ∨ v.1 = "EAPI"
  · simp
  · simp
  · rcases hplace with h | h <;> simp [h]
  · obtain ⟨hslot, heapi⟩ := not_or.mp hplace
    by_cases huri : v.1 = "SRC_URI" <;> simp [hslot, heapi, huri]

theorem foldl_addVariable (values : List (String × String)) (id : PackageId) :
    values.foldl (addVariable entry eapi?) id =
      ((values.filter fun v => isShown eapi? v.1).map (keyOf entry)).foldl PackageId.withKey id := by
  rw [List.foldl_map, List.foldl_filter]
  congr 1
  funext id v
  exact addVariable_eq entry eapi? id v

/-- Of the lines of a variable the last makes its key. -/
theorem key?_foldl_addVariable (hshown : isShown eapi? name = true) (id : PackageId) :
    (entry.values.foldl (addVariable entry eapi?) id).key? name =
      ((entry.last? name).map fun value => keyOf entry (name, value)).or (id.key? name) := by
  have hfind : (entry.values.reverse.find? fun v =>
      isShown eapi? v.1 && decide ((keyOf entry v).name = name)) =
        (entry.last? name).map fun value => (name, value) := by
    rw [← CacheEntry.find?_eq_last?]
    congr 1
    funext v
    rw [name_keyOf]
    by_cases h : v.1 = name <;> simp [h, hshown]
  rw [foldl_addVariable, PackageId.key?_foldl_withKey, ← List.map_reverse, ← List.filter_reverse,
    List.find?_map, List.find?_filter]
  simp only [Function.comp_def, Bool.decide_and, Bool.decide_eq_true, hfind, Option.map_map]

/-- Eclasses stand in for `INHERITED` only where no line names it. -/
theorem key?_addEntry (hshown : isShown (Eapi.ofMetadata (eapiText entry)).toOption name = true)
    (hinherited : name = "INHERITED" → (entry.get? name).isSome = true)
    (hid : id.key? name = none) :
    (addEntry id entry).key? name = (entry.last? name).map fun value => keyOf entry (name, value) := by
  have heapi : "EAPI" ≠ name := by
    rintro rfl
    simp [isShown] at hshown
  have hbefore : ∀ start : PackageId, start.key? name = none →
      (entry.values.foldl (addVariable entry (Eapi.ofMetadata (eapiText entry)).toOption)
        start).key? name = (entry.last? name).map fun value => keyOf entry (name, value) := by
    intro start hstart
    rw [key?_foldl_addVariable hshown, hstart, Option.or_none]
  have hstart : ∀ start : PackageId, start.key? name = none →
      (start.withKey (.ofVariable "EAPI" (eapiText entry))).key? name = none := by
    intro start hstart
    rw [PackageId.key?_withKey_of_ne (by rwa [Key.name_ofVariable]), hstart]
  unfold addEntry
  dsimp only
  split
  · next hnone =>
    have hne : (Key.ofVariable "INHERITED" (Text.join " " entry.inherited)).name ≠ name := by
      rw [Key.name_ofVariable]
      rintro rfl
      have hsome := hinherited rfl
      simp_all
    rw [PackageId.key?_withKey_of_ne hne]
    refine hbefore _ ?_
    split <;> cases entry.slot <;> exact hstart _ hid
  · refine hbefore _ ?_
    split <;> cases entry.slot <;> exact hstart _ hid

/-! ## The ID of an ebuild -/

theorem key?_addMasks (mask profileMask : MaskList) (id : PackageId) (name : String) :
    (addMasks mask profileMask id).key? name =
      if "profile_mask" = name then some (.ofMaskInfo "profile_mask" (profileMask.find? id))
      else if "repository_mask" = name then some (.ofMaskInfo "repository_mask" (mask.find? id))
      else id.key? name := by
  have hkeys : (addMasks mask profileMask id).key? name =
      ((id.withKey (.ofMaskInfo "repository_mask" (mask.find? id))).withKey
        (.ofMaskInfo "profile_mask" (profileMask.find? id))).key? name := by
    unfold addMasks
    cases mask.find? id <;> cases profileMask.find? id <;> rfl
  rw [hkeys, PackageId.key?_withKey, PackageId.key?_withKey]
  rfl

/-- The variables whose keys an ID gets otherwise, if at all. -/
def ownNames : List String := ["SLOT", "EAPI", "EBUILD", "repository_mask", "profile_mask"]

/-- The EAPI of an entry, if it is a known one, has the variable. -/
def Defines (entry : CacheEntry) (name : String) : Prop :=
  (Eapi.ofMetadata (eapiText entry)).toOption.all (·.definesVariable name) = true

theorem isShown_of_defines (hown : name ∉ ownNames) (hdefines : Defines entry name) :
    isShown (Eapi.ofMetadata (eapiText entry)).toOption name = true := by
  unfold Defines at hdefines
  simp only [ownNames, List.mem_cons, not_or] at hown
  simp [isShown, hdefines, hown]

variable {s : Source} {files : FileTree} {n : QualifiedName} {v : Version} {text : String}

theorem key?_buildId (hread : files.readRequired (s.cachePath n v) = .ok text)
    (hparse : CacheEntry.parse text = .ok entry) (hown : name ∉ ownNames) :
    (s.buildId files n v).key? name =
      (addEntry ((PackageId.bare n v s.repository).withActions Action.ofEbuilds) entry).key? name := by
  have hload : CacheEntry.load files (s.cachePath n v) = .ok entry :=
    Result.bind_eq_ok_iff.mpr ⟨text, hread, hparse⟩
  simp only [ownNames, List.mem_cons, not_or] at hown
  obtain ⟨-, -, hebuild, hmask, hprofile, -⟩ := hown
  unfold Source.buildId
  rw [hload, key?_addMasks, if_neg (Ne.symm hprofile), if_neg (Ne.symm hmask),
    PackageId.key?_withKey_of_ne (Ne.symm hebuild)]

/-- The key of a variable is made of the last line that names it. -/
theorem key?_buildId_eq_last (hread : files.readRequired (s.cachePath n v) = .ok text)
    (hparse : CacheEntry.parse text = .ok entry) (name : String) (hown : name ∉ ownNames)
    (hdefines : Defines entry name)
    (hinherited : name = "INHERITED" → (entry.get? name).isSome = true) :
    (s.buildId files n v).key? name =
      (entry.last? name).map fun value => keyOf entry (name, value) := by
  rw [key?_buildId hread hparse hown]
  exact key?_addEntry (isShown_of_defines hown hdefines) hinherited rfl

/-! ## The label of `SRC_URI` -/

theorem label_of_value_fetches {raw restrict : String} {label : Expression.UriLabel}
    {tree : Expression Expression.FetchUri}
    (h : (Key.fetches raw restrict).value = .ok (.fetchableUriTree label tree)) :
    ∃ t, Expression.parse Expression.plainFormat restrict = .ok t ∧ label = .initial t := by
  obtain ⟨t, ht, h⟩ := Result.bind_eq_ok_iff.mp h
  obtain ⟨_, -, h⟩ := Result.bind_eq_ok_iff.mp h
  cases h
  exact ⟨t, ht, rfl⟩

theorem parse_of_value_restrict {raw : String} {t : Expression String}
    (h : (Key.ofVariable "RESTRICT" raw).value = .ok (.plainTextTree t)) :
    Expression.parse Expression.plainFormat raw = .ok t := by
  obtain ⟨t', ht, h⟩ := Result.bind_eq_ok_iff.mp h
  cases h
  exact ht

theorem defines_of_known {name : String} (h : ∀ e : Eapi, e.definesVariable name = true)
    (entry : CacheEntry) : Defines entry name := by
  unfold Defines
  cases (Eapi.ofMetadata (eapiText entry)).toOption with
  | none => rfl
  | some e => exact h e

/-- The keys show what looking the variables up gives, and the label of `SRC_URI` is that of the
`RESTRICT` shown. -/
structure ShowsLookedUp (entry : CacheEntry) (id : PackageId) : Prop where
  raw : ∀ name, name ∉ ownNames → Defines entry name → (entry.get? name).isSome = true →
    (id.key? name).bind Key.raw? = entry.get? name
  label : ∀ uris restrict label tree t, id.key? "SRC_URI" = some uris →
    uris.value = .ok (.fetchableUriTree label tree) → id.key? "RESTRICT" = some restrict →
    restrict.value = .ok (.plainTextTree t) → label = .initial t

theorem exists_restricts (hread : files.readRequired (s.cachePath n v) = .ok text)
    (hparse : CacheEntry.parse text = .ok entry) {uris restrict : Key}
    {label : Expression.UriLabel} {tree : Expression Expression.FetchUri} {t : Expression String}
    (huris : (s.buildId files n v).key? "SRC_URI" = some uris)
    (hlabel : uris.value = .ok (.fetchableUriTree label tree))
    (hrestrict : (s.buildId files n v).key? "RESTRICT" = some restrict)
    (hshown : restrict.value = .ok (.plainTextTree t)) :
    ∃ first last t₁, entry.get? "RESTRICT" = some first ∧ entry.last? "RESTRICT" = some last ∧
      Expression.parse Expression.plainFormat first = .ok t₁ ∧ label = .initial t₁ ∧
      Expression.parse Expression.plainFormat last = .ok t := by
  rw [key?_buildId_eq_last hread hparse "SRC_URI" (by decide)
    (defines_of_known (by decide) entry) (absurd · (by decide))] at huris
  rw [key?_buildId_eq_last hread hparse "RESTRICT" (by decide)
    (defines_of_known (by decide) entry) (absurd · (by decide))] at hrestrict
  obtain ⟨raw, -, rfl⟩ := Option.map_eq_some_iff.mp huris
  obtain ⟨last, hlast, rfl⟩ := Option.map_eq_some_iff.mp hrestrict
  have hsome := entry.isSome_last? "RESTRICT"
  rw [hlast] at hsome
  obtain ⟨first, hfirst⟩ := Option.isSome_iff_exists.mp hsome.symm
  obtain ⟨t₁, ht₁, rfl⟩ := label_of_value_fetches hlabel
  rw [hfirst] at ht₁
  exact ⟨first, last, t₁, hfirst, hlast, ht₁, rfl, parse_of_value_restrict hshown⟩

/-- The key of a variable shows the last line that names it, while the label of `SRC_URI` goes by
the first `RESTRICT`. So the keys show what looking up gives just where no two lines of a variable
disagree. -/
theorem keys_show_last_lines (hread : files.readRequired (s.cachePath n v) = .ok text)
    (hparse : CacheEntry.parse text = .ok entry) :
    (∀ name, name ∉ ownNames → Defines entry name → (entry.get? name).isSome = true →
      ((s.buildId files n v).key? name).bind Key.raw? = entry.last? name) ∧
    (∀ uris restrict label tree t, (s.buildId files n v).key? "SRC_URI" = some uris →
      uris.value = .ok (.fetchableUriTree label tree) →
      (s.buildId files n v).key? "RESTRICT" = some restrict →
      restrict.value = .ok (.plainTextTree t) →
      ∃ first last t₁, entry.get? "RESTRICT" = some first ∧ entry.last? "RESTRICT" = some last ∧
        Expression.parse Expression.plainFormat first = .ok t₁ ∧ label = .initial t₁ ∧
        Expression.parse Expression.plainFormat last = .ok t) ∧
    (ShowsLookedUp entry (s.buildId files n v) ↔ ∀ name, name ∉ ownNames → Defines entry name →
      (entry.get? name).isSome = true → entry.last? name = entry.get? name) := by
  have hraw (name : String) (hown : name ∉ ownNames) (hdefines : Defines entry name)
      (hsome : (entry.get? name).isSome = true) :
      ((s.buildId files n v).key? name).bind Key.raw? = entry.last? name := by
    rw [key?_buildId_eq_last hread hparse name hown hdefines fun _ => hsome]
    cases entry.last? name with
    | none => rfl
    | some value => exact raw?_keyOf entry (name, value)
  refine ⟨hraw, fun _ _ _ _ _ => exists_restricts hread hparse, fun hshows name hown hdefines hsome =>
    (hraw name hown hdefines hsome).symm.trans (hshows.raw name hown hdefines hsome),
    fun hagree => ⟨fun name hown hdefines hsome =>
      (hraw name hown hdefines hsome).trans (hagree name hown hdefines hsome), ?_⟩⟩
  intro uris restrict label tree t huris hlabel hrestrict hshown
  obtain ⟨first, last, t₁, hfirst, hlast, ht₁, rfl, ht⟩ :=
    exists_restricts hread hparse huris hlabel hrestrict hshown
  have hsame := hagree "RESTRICT" (by decide) (defines_of_known (by decide) entry) (by simp [hfirst])
  rw [hfirst, hlast, Option.some.injEq] at hsame
  rw [hsame, ht₁, Except.ok.injEq] at ht
  rw [ht]

/-- A cached text that says `RESTRICT` twice. -/
def restrictedTwice : String :=
  "DESCRIPTION=x\nSLOT=0\nSRC_URI=https://example.org/a\nRESTRICT=fetch\nRESTRICT=mirror\n"

def cacheOfKit : FileTree where
  entries := [(["r"], .directory), (["r", "metadata"], .directory),
    (["r", "metadata", "md5-cache"], .directory),
    (["r", "metadata", "md5-cache", "app"], .directory),
    (["r", "metadata", "md5-cache", "app", "kit-1"], .text restrictedTwice)]
  workingDirectory := []
  modified := fun _ => 0

def sourceOfKit : Source :=
  ⟨(PackageId.sample (.numbered 1 [] none)).repository, ⟨"/r"⟩, .empty, .empty⟩

def kitName : QualifiedName := (PackageId.sample (.numbered 1 [] none)).name

theorem readRequired_cacheOfKit : cacheOfKit.readRequired
    (sourceOfKit.cachePath kitName (.numbered 1 [] none)) = .ok restrictedTwice := by
  have hread : cacheOfKit.read (sourceOfKit.cachePath kitName (.numbered 1 [] none)) =
      .ok restrictedTwice :=
    FileTree.read_eq_ok_iff.mpr
      ⟨["r", "metadata", "md5-cache", "app", "kit-1"], by decide, by decide⟩
  unfold FileTree.readRequired
  rw [hread]

def entryOfKit : CacheEntry :=
  ⟨[("DESCRIPTION", "x"), ("SLOT", "0"), ("SRC_URI", "https://example.org/a"),
    ("RESTRICT", "fetch"), ("RESTRICT", "mirror")], none, []⟩

theorem parse_restrictedTwice : CacheEntry.parse restrictedTwice = .ok entryOfKit :=
  Result.eq_ok_of_toOption (by decide +kernel)

def idOfKit : PackageId := sourceOfKit.buildId cacheOfKit kitName (.numbered 1 [] none)

theorem uris_idOfKit :
    idOfKit.key? "SRC_URI" = some (.fetches "https://example.org/a" "fetch") :=
  key?_buildId_eq_last readRequired_cacheOfKit parse_restrictedTwice "SRC_URI" (by decide)
    (defines_of_known (by decide) _) (absurd · (by decide))

theorem restrict_idOfKit : idOfKit.key? "RESTRICT" = some (.ofVariable "RESTRICT" "mirror") :=
  key?_buildId_eq_last readRequired_cacheOfKit parse_restrictedTwice "RESTRICT" (by decide)
    (defines_of_known (by decide) _) (absurd · (by decide))

theorem value_uris_idOfKit : (Key.fetches "https://example.org/a" "fetch").value =
    .ok (.fetchableUriTree .manualOnly (.all [.leaf ⟨"https://example.org/a", none⟩])) := by
  have hrestrict : Expression.parse Expression.plainFormat "fetch" = .ok (.all [.leaf "fetch"]) :=
    Expression.parse_eq_ok_iff.mpr ⟨_, rfl, by decide +kernel⟩
  have huris : Expression.parse Expression.fetchFormat "https://example.org/a" =
      .ok (.all [.leaf ⟨"https://example.org/a", none⟩]) :=
    Expression.parse_eq_ok_iff.mpr ⟨_, rfl, by decide +kernel⟩
  exact Result.bind_eq_ok_iff.mpr ⟨_, hrestrict, Result.bind_eq_ok_iff.mpr ⟨_, huris, rfl⟩⟩

theorem value_restrict_idOfKit : (Key.ofVariable "RESTRICT" "mirror").value =
    .ok (.plainTextTree (.all [.leaf "mirror"])) := by
  have hparse : Expression.parse Expression.plainFormat "mirror" = .ok (.all [.leaf "mirror"]) :=
    Expression.parse_eq_ok_iff.mpr ⟨_, rfl, by decide +kernel⟩
  exact Result.bind_eq_ok_iff.mpr ⟨_, hparse, rfl⟩

/-- The key of the variable that is said twice shows the last line, and the label of `SRC_URI` goes
by the first. -/
theorem keys_show_last_restrict :
    cacheOfKit.readRequired (sourceOfKit.cachePath kitName (.numbered 1 [] none)) =
      .ok restrictedTwice ∧
    CacheEntry.parse restrictedTwice = .ok entryOfKit ∧
    (idOfKit.key? "RESTRICT").bind Key.raw? = some "mirror" ∧
    ∃ t, Expression.parse Expression.plainFormat "fetch" = .ok t ∧
      Expression.UriLabel.manualOnly = .initial t := by
  obtain ⟨hraw, hlabel, -⟩ := keys_show_last_lines readRequired_cacheOfKit parse_restrictedTwice
  refine ⟨readRequired_cacheOfKit, parse_restrictedTwice,
    hraw "RESTRICT" (by decide) (defines_of_known (by decide) _) (by decide), ?_⟩
  obtain ⟨first, -, t, hfirst, -, ht, hlabel, -⟩ :=
    hlabel _ _ _ _ _ uris_idOfKit value_uris_idOfKit restrict_idOfKit value_restrict_idOfKit
  have hfetch : first = "fetch" := Option.some.inj (hfirst.symm.trans (by decide))
  exact ⟨t, hfetch ▸ ht, hlabel⟩

/-- The key shows another `RESTRICT` than looking up gives, and the label of `SRC_URI` is not that
of the `RESTRICT` shown. -/
theorem shows_other_restrict : CacheEntry.parse restrictedTwice = .ok entryOfKit ∧
    cacheOfKit.readRequired (sourceOfKit.cachePath kitName (.numbered 1 [] none)) =
      .ok restrictedTwice ∧
    ¬ ShowsLookedUp entryOfKit idOfKit ∧
    (idOfKit.key? "RESTRICT").bind Key.raw? ≠ entryOfKit.get? "RESTRICT" ∧
    ∃ uris restrict label tree t, idOfKit.key? "SRC_URI" = some uris ∧
      uris.value = .ok (.fetchableUriTree label tree) ∧
      idOfKit.key? "RESTRICT" = some restrict ∧ restrict.value = .ok (.plainTextTree t) ∧
      label ≠ .initial t := by
  have hraw : (idOfKit.key? "RESTRICT").bind Key.raw? ≠ entryOfKit.get? "RESTRICT" := by
    rw [restrict_idOfKit]
    decide
  refine ⟨parse_restrictedTwice, readRequired_cacheOfKit, fun hshows => hraw ?_, hraw, _, _, _, _, _,
    uris_idOfKit, value_uris_idOfKit, restrict_idOfKit, value_restrict_idOfKit, by decide⟩
  exact hshows.raw "RESTRICT" (by decide) (defines_of_known (by decide) _) (by decide)

end EbuildTree

end PackageCatalog
