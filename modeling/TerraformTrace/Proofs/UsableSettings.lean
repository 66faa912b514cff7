import TerraformTrace.Proofs.ExitCode
import TerraformTrace.Proofs.NumberForm

/-!
# TerraformTrace.Proofs.UsableSettings

What can be relied on once settings are loaded. Values are taken leniently, in many spellings, and
the checks come after that; they say what a value must not be. **Loaded settings can be used**
(`loaded_settings_usable`): their bounds are positive, their suffixes begin with a dot, and a cache
can be made from them.

One value slips through. What is neither below zero nor zero need not be above zero: it may be no
number at all. A time is above zero exactly if the document does not write `nan` for it.

What reads YAML may be anything that gives rounded numbers (`Yaml.Reader.GivesRounded`), and the
program's own reader does (`Yaml.givesRounded_read?`).
-/

namespace TerraformTrace

variable {x : Binary64}

/-! ### Numbers -/

namespace Binary64

variable {significand : Nat}

theorem alignTo_zero (least : Int) : alignTo least false 0 minExponent = 0 := by
  rw [alignTo, Nat.zero_mul]
  rfl

/-- A significand that is not zero stays so on a finer scale. -/
theorem alignTo_pos (h : significand ≠ 0) (least exponent : Int) :
    0 < alignTo least false significand exponent :=
  Int.natCast_pos.mpr (Nat.mul_pos (Nat.pos_of_ne_zero h) (Nat.pow_pos (by decide)))

theorem zero_lt_finite (h : significand ≠ 0) (exponent : Int) :
    zero < .finite false significand exponent := by
  refine decide_eq_true (?_ : alignTo _ false 0 minExponent < alignTo _ false significand exponent)
  rw [alignTo_zero]
  exact alignTo_pos h _ exponent

theorem finite_lt_zero (h : significand ≠ 0) (exponent : Int) :
    .finite true significand exponent < zero := by
  refine decide_eq_true (?_ : -alignTo _ false significand exponent < alignTo _ false 0 minExponent)
  rw [alignTo_zero]
  exact Int.neg_neg_of_pos (alignTo_pos h _ exponent)

/-- What is neither below zero nor zero is above zero, or no number. -/
theorem zero_lt_or_eq_nan (hnormal : x.IsNormal) (hbelow : ¬x < zero)
    (hzero : ∀ negative, x ≠ .finite negative 0 minExponent) : zero < x ∨ x = .nan := by
  cases x with
  | nan => exact .inr rfl
  | infinity negative =>
    cases negative with
    | false => exact .inl rfl
    | true => exact absurd rfl hbelow
  | finite negative significand exponent =>
    have hsignificand : significand ≠ 0 := by
      rintro rfl
      exact hzero negative (by rw [hnormal rfl])
    cases negative with
    | false => exact .inl (zero_lt_finite hsignificand exponent)
    | true => exact absurd (finite_lt_zero hsignificand exponent) hbelow

end Binary64

/-- The numbers of the mappings that a reader gives are rounded, as those of a machine are. -/
def Yaml.Reader.GivesRounded (yaml : Yaml.Reader) : Prop :=
  ∀ text entries, yaml text = some (.map entries) →
    ∀ entry ∈ entries, ∀ x, entry.2 = .atom (.number x) → x.IsNormal

theorem Yaml.givesRounded_read? : Yaml.Reader.GivesRounded Yaml.read? := by
  intro text entries hread entry hentry x hx
  obtain ⟨tokens, -, hread⟩ := Option.bind_eq_some_iff.mp hread
  obtain ⟨node, -, hnode⟩ := Option.bind_eq_some_iff.mp hread
  exact Yaml.Value.isNormal_of_map hnode hentry hx

namespace Settings

variable {text : Text} {document : SettingsDocument} {entry : DocumentKey × Json} {tree : FileTree}
  {yaml : Yaml.Reader} {settings : Settings}

theorem isNormal_of_namedNumber? (h : namedNumber? text = some x) : x.IsNormal := by
  unfold namedNumber? at h
  split at h
  next negative name hsigned =>
    dsimp only at h
    split at h
    · obtain rfl := Option.some.inj h
      trivial
    · split at h
      · obtain rfl := Option.some.inj h
        trivial
      · cases h

theorem isNormal_of_finiteNumber? (h : finiteNumber? text = some x) : x.IsNormal := by
  unfold finiteNumber? at h
  split at h
  next negative unsigned hsigned =>
    split at h
    next whole rest hwhole =>
      split at h
      next decimals rest hdecimals =>
        split at h
        · cases h
        · obtain ⟨exponent, -, rfl⟩ := Option.map_eq_some_iff.mp h
          exact Binary64.isNormal_ofDecimal ..

theorem isNormal_of_numberOfText (h : numberOfText text = .ok x) : x.IsNormal := by
  have hread {text : Text} {x : Binary64}
      (h : (namedNumber? text).orElse (fun _ => finiteNumber? text) = some x) : x.IsNormal := by
    obtain h | ⟨-, h⟩ := Option.or_eq_some_iff.mp ((Option.orElse_eq_or ..).symm.trans h)
    · exact isNormal_of_namedNumber? h
    · exact isNormal_of_finiteNumber? h
  simp only [numberOfText] at h
  split at h
  next value hvalue =>
    obtain rfl := Except.ok.inj h
    obtain hvalue | ⟨-, hvalue⟩ :=
      Option.or_eq_some_iff.mp ((Option.orElse_eq_or ..).symm.trans hvalue)
    · exact hread hvalue
    · obtain ⟨stripped, -, hvalue⟩ := Option.bind_eq_some_iff.mp hvalue
      exact hread hvalue
  next => cases h

/-- What counts as a number is rounded, unless it was a number that is not. -/
theorem isNormal_of_toNumber {value : Json} (h : toNumber value = .ok x)
    (hvalue : ∀ y, value = .float y → y.IsNormal) : x.IsNormal := by
  cases value with
  | null => cases h
  | bool value =>
    cases h
    exact Binary64.isNormal_ofRatio ..
  | int value =>
    rw [toNumber] at h
    split at h
    · cases h
    · cases h
      exact Binary64.isNormal_ofRatio ..
  | float value =>
    cases h
    exact hvalue _ rfl
  | string runes =>
    rw [toNumber] at h
    cases htext : runes.toText? with
    | none =>
      rw [htext] at h
      cases h
    | some text =>
      rw [htext] at h
      exact isNormal_of_numberOfText h
  | array items => cases h
  | object fields => cases h

/-! ### Documents -/

theorem isNormal_of_documentOfJson? {value : Json} (hread : Json.read text = .ok value)
    (h : documentOfJson? value = some document) (hentry : entry ∈ document)
    (hx : entry.2 = .float x) : x.IsNormal := by
  obtain ⟨before, literal, after, -, -, -, hspells⟩ := Json.spells_of_read hread
  cases value with
  | null =>
    cases h
    cases hentry
  | object fields =>
    obtain rfl := Option.some.inj h
    obtain ⟨field, hfield, rfl⟩ := List.mem_map.mp hentry
    have hmem : x ∈ field.2.floats := by
      rw [show field.2 = .float x from hx]
      simp [Json.floats]
    exact Json.isNormal_of_spells hspells x (Json.mem_floats_object.mpr ⟨field, hfield, hmem⟩)
  | bool | int | float | string | array => cases h

theorem eq_of_valueOfYaml {value : Yaml.Value} (h : valueOfYaml value = .float x) :
    value = .atom (.number x) := by
  cases value with
  | atom atom =>
    rw [valueOfYaml] at h
    cases atom <;> simp_all [valueOfAtom, Json.ofText]
  | list items =>
    rw [valueOfYaml] at h
    cases h
  | map entries =>
    rw [valueOfYaml] at h
    cases h

theorem isNormal_of_documentOfYaml? {value : Yaml.Value} (hyaml : yaml.GivesRounded)
    (hread : yaml text = some value) (h : documentOfYaml? value = some document)
    (hentry : entry ∈ document) (hx : entry.2 = .float x) : x.IsNormal := by
  unfold documentOfYaml? at h
  split at h
  next =>
    cases h
    cases hentry
  next entries =>
    obtain rfl := Option.some.inj h
    obtain ⟨pair, hpair, rfl⟩ := List.mem_map.mp hentry
    exact hyaml text entries hread pair hpair x (eq_of_valueOfYaml hx)
  next => cases h

/-- The numbers of a settings document are rounded, in both formats. -/
theorem isNormal_of_readDocument {format : Format} {path : Path} (hyaml : yaml.GivesRounded)
    (h : readDocument format path text yaml = .ok document) (hentry : entry ∈ document)
    (hx : entry.2 = .float x) : x.IsNormal := by
  rcases readDocument_cases yaml format path text with
    ⟨found, hfound, hdocument⟩ | ⟨error, herror, -⟩
  · cases h.symm.trans hfound
    cases hdocument with
    | json hread hdocument => exact isNormal_of_documentOfJson? hread hdocument hentry hx
    | yaml hread hdocument => exact isNormal_of_documentOfYaml? hyaml hread hdocument hentry hx
  · cases h.symm.trans herror

/-- The document of a settings file: the file has a known suffix, its bytes are UTF-8, and its text
is a mapping in the format that goes with the suffix. -/
def HoldsDocument (tree : FileTree) (yaml : Yaml.Reader) (path place : Path)
    (document : SettingsDocument) : Prop :=
  ∃ format bytes text, Format.ofPath? path = some format ∧ tree.content place = .ok bytes ∧
    Encoding.utf8.decode? bytes = some text ∧
    readDocument format path (Text.unifyLineEnds text) yaml = .ok document

theorem fileGives_iff {path place : Path} :
    FileGives tree yaml path place settings ↔
      ∃ document, HoldsDocument tree yaml path place document ∧ Gives document settings := by
  constructor
  · rintro ⟨format, bytes, text, document, hformat, hbytes, htext, hdocument, hsettings⟩
    exact ⟨document, ⟨format, bytes, text, hformat, hbytes, htext, hdocument⟩,
      ofDocument_eq_ok_iff.mp hsettings⟩
  · rintro ⟨document, ⟨format, bytes, text, hformat, hbytes, htext, hdocument⟩, hgives⟩
    exact ⟨format, bytes, text, document, hformat, hbytes, htext, hdocument,
      ofDocument_eq_ok_iff.mpr hgives⟩

theorem load_eq_ok_iff {dir path : Path} :
    load tree dir path yaml = .ok settings ↔
      ∃ document, HoldsDocument tree yaml path (dir.join path) document ∧
        Gives document settings := by
  rw [← fileGives_iff, ← loadFile_eq_ok_iff]
  constructor
  · intro h
    simp only [load] at h
    split at h
    · cases h
    · cases h
    · exact h
  · intro h
    -- A file that can be read is there, so the question whether it is cannot stop the loading.
    obtain ⟨-, bytes, -, -, -, hbytes, -⟩ := loadFile_eq_ok_iff.mp h
    have hprobe : tree.probe (dir.join path) = .ok (some (.file bytes)) := by
      unfold FileTree.content at hbytes
      unfold FileTree.probe
      split at hbytes
      next place content hfind =>
        cases hbytes
        rw [hfind]
      next => cases hbytes
      next => cases hbytes
    simp only [load, hprobe]
    exact h

/-! ### Times -/

/-- A document that writes what is no number for a field. -/
def WritesNan (document : SettingsDocument) (name : String) : Prop :=
  ∃ written, document.lookup (.name name.toList) = some written ∧ toNumber written = .ok .nan

/-- **A time is above zero, unless the document writes `nan` for it**; then it is that. -/
theorem zero_lt_or_writesNan (hnormal : ∀ entry ∈ document, ∀ x, entry.2 = .float x → x.IsNormal)
    {name : String} {default : Binary64} (hdefault : Binary64.zero < default)
    (h : Takes document name default ReadsAboveZero x) :
    (Binary64.zero < x ∧ ¬WritesNan document name) ∨ (x = .nan ∧ WritesNan document name) := by
  unfold Takes at h
  unfold WritesNan
  cases hwritten : document.lookup (.name name.toList) with
  | none =>
    rw [hwritten] at h
    obtain rfl : x = default := h
    exact .inl ⟨hdefault, by simp⟩
  | some written =>
    rw [hwritten] at h
    obtain ⟨hread, hbelow, hzero⟩ := h
    obtain ⟨before, after, rfl, -⟩ := List.lookup_eq_some_iff.mp hwritten
    have hx : x.IsNormal :=
      isNormal_of_toNumber hread (hnormal (.name name.toList, written) (by simp))
    obtain hlt | rfl := Binary64.zero_lt_or_eq_nan hx hbelow hzero
    · refine .inl ⟨hlt, ?_⟩
      rintro ⟨other, hother, hnan⟩
      obtain rfl := Option.some.inj hother
      obtain rfl := Except.ok.inj (hread.symm.trans hnan)
      cases hlt
    · exact .inr ⟨rfl, written, rfl, hread⟩

/-! ### Loaded settings -/

/-- Settings that a session can be run with; the times come with the condition under which they
are above zero. -/
structure AreUsable (document : SettingsDocument) (settings : Settings) : Prop where
  known : ∀ entry ∈ document, ∃ name ∈ fieldNames, entry.1 = .name name.toList
  maxDepth : 1 ≤ settings.maxDepth
  cacheMaxEntries : 1 ≤ settings.cacheMaxEntries
  cacheTtl :
    (Binary64.zero < settings.cacheTtl ∧ ¬WritesNan document "cache_ttl_seconds") ∨
      (settings.cacheTtl = .nan ∧ WritesNan document "cache_ttl_seconds")
  sweepInterval :
    (Binary64.zero < settings.sweepInterval ∧ ¬WritesNan document "sweep_interval_seconds") ∨
      (settings.sweepInterval = .nan ∧ WritesNan document "sweep_interval_seconds")
  overrideSuffixes : AreSuffixes settings.overrideSuffixes
  configurationSuffixes : AreSuffixes settings.configurationSuffixes
  session : ∃ session, Session.create settings = .ok session

theorem create_eq_ok (h : 1 ≤ settings.cacheMaxEntries) :
    ∃ session, Session.create settings = .ok session := by
  have hroom : ¬(settings.cacheMaxEntries : Int) < 1 := by omega
  simp [Session.create, Cache.create, hroom, bind, Except.bind, pure, Except.pure]

theorem areUsable_of_holdsDocument {path place : Path} (hyaml : yaml.GivesRounded)
    (hdocument : HoldsDocument tree yaml path place document) (h : Gives document settings) :
    AreUsable document settings := by
  obtain ⟨format, bytes, text, -, -, -, hread⟩ := hdocument
  have hnormal : ∀ entry ∈ document, ∀ x, entry.2 = .float x → x.IsNormal :=
    fun entry hentry x hx => isNormal_of_readDocument hyaml hread hentry hx
  exact {
    known := h.known
    maxDepth := h.one_le_maxDepth
    cacheMaxEntries := h.one_le_cacheMaxEntries
    cacheTtl := zero_lt_or_writesNan hnormal (by decide +kernel) h.cacheTtl
    sweepInterval := zero_lt_or_writesNan hnormal (by decide +kernel) h.sweepInterval
    overrideSuffixes := h.areSuffixes_overrideSuffixes
    configurationSuffixes := h.areSuffixes_configurationSuffixes
    session := create_eq_ok h.one_le_cacheMaxEntries }

/-- **Loaded settings can be used.** Loading succeeds exactly if the file holds a document that
gives settings. Then every key of the document is known, the bounds are positive, the suffixes
begin with a dot, and a session can be made. A time is above zero unless the document writes `nan`
for it. YAML is read by any reader that gives rounded numbers. -/
theorem loaded_settings_usable {yaml : Yaml.Reader} (hyaml : yaml.GivesRounded) (tree : FileTree)
    (dir path : Path) (settings : Settings) :
    (load tree dir path yaml = .ok settings ↔
      ∃ document, HoldsDocument tree yaml path (dir.join path) document ∧ Gives document settings) ∧
    (load tree dir path yaml = .ok settings →
      ∃ document, HoldsDocument tree yaml path (dir.join path) document ∧
        AreUsable document settings) := by
  refine ⟨load_eq_ok_iff, fun h => ?_⟩
  obtain ⟨document, hdocument, hgives⟩ := load_eq_ok_iff.mp h
  exact ⟨document, hdocument, areUsable_of_holdsDocument hyaml hdocument hgives⟩

open CommandLine (rootShell asciiBytes)

/-- A file with a number written as a string and a truth value for a time. -/
def laxFile : String := "\x7b\"max_depth\": \" +7.0\", \"cache_ttl_seconds\": true\x7d"

/-- Odd spellings give settings that can be used. -/
theorem laxFile_usable :
    let tree := (rootShell [("s.json", asciiBytes laxFile)]).tree
    let settings : Settings := { maxDepth := 7, cacheTtl := .ofNat 1 }
    load tree (.ofText ['/']) (.ofText "s.json".toList) = .ok settings ∧
      ∃ document, HoldsDocument tree Yaml.read? (.ofText "s.json".toList)
        ((Path.ofText ['/']).join (.ofText "s.json".toList)) document ∧
        AreUsable document settings := by
  intro tree settings
  have hload : load tree (.ofText ['/']) (.ofText "s.json".toList) = .ok settings := by
    decide +kernel
  exact ⟨hload, (loaded_settings_usable Yaml.givesRounded_read? tree _ _ settings).2 hload⟩

/-- A time that is no number is not above zero, and it is loaded. -/
theorem nan_loaded :
    let tree := (rootShell
      [("s.json", asciiBytes "\x7b\"cache_ttl_seconds\": NaN\x7d")]).tree
    ∃ settings, load tree (.ofText ['/']) (.ofText "s.json".toList) = .ok settings ∧
      ¬Binary64.zero < settings.cacheTtl :=
  ⟨{ cacheTtl := .nan }, by decide +kernel⟩

end Settings

end TerraformTrace
