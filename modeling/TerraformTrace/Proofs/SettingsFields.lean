import TerraformTrace.Settings.Load
import TerraformTrace.Proofs.Frame

/-!
# TerraformTrace.Proofs.SettingsFields

Which documents give settings, and which settings they give. `Gives` says it field by field and
without the order of the checks: **a field has its default, or what its value in the document is
read as**, and that has to be of the sort that the field asks for. Nothing else may stand in the
document (`ofDocument_eq_ok_iff`).

The order of the checks decides only which of several faults is reported.
-/

namespace TerraformTrace.Settings

variable {value : Json} {texts : List Text} {document : SettingsDocument}

theorem bind_eq_ok_iff {ε α β : Type} {x : Except ε α} {f : α → Except ε β} {result : β} :
    x >>= f = .ok result ↔ ∃ value, x = .ok value ∧ f value = .ok result := by
  constructor
  · exact Direct.bind_ok
  · rintro ⟨value, rfl, h⟩
    exact h

/-! ### Values -/

/-- A value that counts as a positive integer. -/
def ReadsPositive (value : Json) (n : Nat) : Prop := toInteger value = .ok (n : Int) ∧ 1 ≤ n

/-- A value that counts as a number, and as one that is neither below zero nor one of the two
zeros. -/
def ReadsAboveZero (value : Json) (x : Binary64) : Prop :=
  toNumber value = .ok x ∧ ¬x < .zero ∧ ∀ negative, x ≠ .finite negative 0 Binary64.minExponent

/-- A value that is a list of texts. -/
def ReadsTexts (value : Json) (texts : List Text) : Prop :=
  ∃ items, value = .array items ∧ items.map toText = texts.map .ok

/-- There is at least one suffix, and each of them starts with a dot. -/
def AreSuffixes (texts : List Text) : Prop :=
  texts ≠ [] ∧ ∀ suffix ∈ texts, suffix.head? = some '.'

theorem toPositive_eq_ok_iff {n : Nat} : toPositive value = .ok n ↔ ReadsPositive value n := by
  unfold toPositive ReadsPositive
  cases toInteger value with
  | error fault => simp [bind, Except.bind]
  | ok integer =>
    simp only [bind, Except.bind, Except.ok.injEq]
    split
    · simp
      omega
    · simp
      omega

theorem toAboveZero_eq_ok_iff {x : Binary64} :
    toAboveZero value = .ok x ↔ ReadsAboveZero value x := by
  unfold toAboveZero ReadsAboveZero
  cases toNumber value with
  | error fault => simp [bind, Except.bind]
  | ok number =>
    simp only [bind, Except.bind, Bool.or_eq_true, decide_eq_true_eq, Except.ok.injEq]
    split
    next h =>
      simp only [reduceCtorEq, false_iff]
      rintro ⟨rfl, hbelow, hzero⟩
      rcases h with (h | h) | h
      · exact hbelow h
      · exact hzero _ h
      · exact hzero _ h
    next h =>
      simp only [not_or] at h
      constructor
      · rintro ⟨rfl⟩
        refine ⟨rfl, h.1.1, fun negative => ?_⟩
        cases negative with
        | false => exact h.1.2
        | true => exact h.2
      · rintro ⟨rfl, -⟩
        rfl

theorem toTexts_eq_ok_iff {field : Text} {pos : Nat} {items : List Json} :
    toTexts field pos items = .ok texts ↔ items.map toText = texts.map .ok := by
  induction items generalizing pos texts with
  | nil => cases texts <;> simp [toTexts]
  | cons item items ih =>
    rw [toTexts, List.map_cons]
    cases htext : toText item with
    | error fault => cases texts <;> simp
    | ok text =>
      simp only [bind_eq_ok_iff, ih]
      constructor
      · rintro ⟨rest, hrest, h⟩
        cases h
        rw [hrest, List.map_cons]
      · intro h
        cases texts with
        | nil => cases h
        | cons first texts =>
          obtain ⟨hfirst, hrest⟩ := List.cons.inj h
          cases hfirst
          exact ⟨texts, hrest, rfl⟩

theorem toTextList_eq_ok_iff {field : Text} :
    toTextList field value = .ok texts ↔ ReadsTexts value texts := by
  cases value <;> simp [toTextList, ReadsTexts, toTexts_eq_ok_iff]

theorem toSuffixes_eq_ok_iff {field : Text} :
    toSuffixes field value = .ok texts ↔ ReadsTexts value texts ∧ AreSuffixes texts := by
  rw [toSuffixes, bind_eq_ok_iff]
  simp only [toTextList_eq_ok_iff]
  constructor
  · rintro ⟨found, hfound, h⟩
    split at h
    next => cases h
    next hne =>
      split at h
      next => cases h
      next hnone =>
        cases h
        refine ⟨hfound, mt List.isEmpty_iff.mpr hne, fun suffix hsuffix => ?_⟩
        simpa using List.find?_eq_none.mp hnone suffix hsuffix
  · rintro ⟨htexts, hne, hdotted⟩
    have hnone : texts.find? (·.head? ≠ some '.') = none :=
      List.find?_eq_none.mpr fun suffix hsuffix => by simp [hdotted suffix hsuffix]
    exact ⟨texts, htexts, by rw [if_neg (mt List.isEmpty_iff.mp hne), hnone]⟩

/-! ### Fields -/

/-- What a field has: its default if the document does not have it, and else what its value there
is read as. -/
def Takes {α : Type} (document : SettingsDocument) (name : String) (default : α)
    (Reads : Json → α → Prop) (value : α) : Prop :=
  match document.lookup (.name name.toList) with
  | none => value = default
  | some written => Reads written value

theorem field_eq_ok_iff {α : Type} {name : String}
    {default value : α} {read : Text → Json → Except FieldError α} {Reads : Json → α → Prop}
    (hread : ∀ written value, read name.toList written = .ok value ↔ Reads written value) :
    field document name default read = .ok value ↔ Takes document name default Reads value := by
  unfold field Takes
  cases document.lookup (.name name.toList) with
  | none => simp [eq_comm]
  | some written => exact hread written value

theorem named_eq_ok_iff {α : Type} {read : Json → Except FieldFault α} {name : Text}
    {written : Json} {value : α} :
    named read name written = .ok value ↔ read written = .ok value := by
  unfold named
  cases read written <;> simp [Except.mapError]

/-- The settings that a document gives: every key is the name of a field, and every field has what
it takes. -/
structure Gives (document : SettingsDocument) (settings : Settings) : Prop where
  known : ∀ entry ∈ document, ∃ name ∈ fieldNames, entry.1 = .name name.toList
  maxDepth : Takes document "max_depth" 10 ReadsPositive settings.maxDepth
  cacheTtl : Takes document "cache_ttl_seconds" (.ofNat 60) ReadsAboveZero settings.cacheTtl
  cacheMaxEntries : Takes document "cache_max_entries" 1000 ReadsPositive settings.cacheMaxEntries
  sweepInterval :
    Takes document "sweep_interval_seconds" (.ofNat 300) ReadsAboveZero settings.sweepInterval
  encoding :
    Takes document "encoding" "utf-8".toList (fun written text => toText written = .ok text)
      settings.encoding
  overrideSuffixes :
    Takes document "override_suffixes" [".tfvars".toList, ".tfvars.json".toList]
      (fun written texts => ReadsTexts written texts ∧ AreSuffixes texts) settings.overrideSuffixes
  configurationSuffixes :
    Takes document "configuration_suffixes" [".tf".toList]
      (fun written texts => ReadsTexts written texts ∧ AreSuffixes texts)
      settings.configurationSuffixes
  environmentDirectories :
    Takes document "environment_directories" ({} : Settings).environmentDirectories ReadsTexts
      settings.environmentDirectories
  remoteSourceMarkers :
    Takes document "remote_source_markers" ({} : Settings).remoteSourceMarkers ReadsTexts
      settings.remoteSourceMarkers

theorem keyError?_eq_none_iff {key : DocumentKey} :
    keyError? key = none ↔ ∃ name ∈ fieldNames, key = .name name.toList := by
  cases key with
  | name text =>
    simp only [keyError?, DocumentKey.name.injEq]
    split
    next hany =>
      obtain ⟨name, hname, htext⟩ := List.any_eq_true.mp hany
      exact ⟨fun _ => ⟨name, hname, (of_decide_eq_true htext).symm⟩, fun _ => rfl⟩
    next hnone =>
      refine ⟨fun h => (by cases h), ?_⟩
      rintro ⟨name, hname, rfl⟩
      exact absurd (List.any_eq_true.mpr ⟨name, hname, decide_eq_true rfl⟩) hnone
  | other shown => simp [keyError?]
  | unpaired => simp [keyError?]

/-- **A document gives the settings that its fields take**, and it is refused if one of them takes
nothing or if a key names no field. -/
theorem ofDocument_eq_ok_iff {settings : Settings} :
    ofDocument document = .ok settings ↔ Gives document settings := by
  have hpositive {name : Text} (written : Json) (n : Nat) :
      named toPositive name written = .ok n ↔ ReadsPositive written n :=
    named_eq_ok_iff.trans toPositive_eq_ok_iff
  have habove {name : Text} (written : Json) (x : Binary64) :
      named toAboveZero name written = .ok x ↔ ReadsAboveZero written x :=
    named_eq_ok_iff.trans toAboveZero_eq_ok_iff
  have hkeys : (document.findSome? fun entry => keyError? entry.1) = none ↔
      ∀ entry ∈ document, ∃ name ∈ fieldNames, entry.1 = .name name.toList := by
    simp only [List.findSome?_eq_none_iff, keyError?_eq_none_iff]
  constructor
  · intro h
    unfold ofDocument at h
    split at h
    · cases h
    · simp only [ofFields, bind_eq_ok_iff] at h
      obtain ⟨maxDepth, hmaxDepth, cacheTtl, hcacheTtl, cacheMaxEntries, hcacheMaxEntries,
        sweepInterval, hsweepInterval, encoding, hencoding, overrideSuffixes, hoverrideSuffixes,
        configurationSuffixes, hconfigurationSuffixes, environmentDirectories,
        henvironmentDirectories, remoteSourceMarkers, hremoteSourceMarkers, h⟩ := h
      split at h
      next => cases h
      next hnone =>
        cases h
        exact {
          known := hkeys.mp hnone
          maxDepth := (field_eq_ok_iff hpositive).mp hmaxDepth
          cacheTtl := (field_eq_ok_iff habove).mp hcacheTtl
          cacheMaxEntries := (field_eq_ok_iff hpositive).mp hcacheMaxEntries
          sweepInterval := (field_eq_ok_iff habove).mp hsweepInterval
          encoding := (field_eq_ok_iff fun _ _ => named_eq_ok_iff).mp hencoding
          overrideSuffixes := (field_eq_ok_iff fun _ _ => toSuffixes_eq_ok_iff).mp hoverrideSuffixes
          configurationSuffixes :=
            (field_eq_ok_iff fun _ _ => toSuffixes_eq_ok_iff).mp hconfigurationSuffixes
          environmentDirectories :=
            (field_eq_ok_iff fun _ _ => toTextList_eq_ok_iff).mp henvironmentDirectories
          remoteSourceMarkers :=
            (field_eq_ok_iff fun _ _ => toTextList_eq_ok_iff).mp hremoteSourceMarkers }
  · intro h
    have hunpaired : ¬document.any (·.1 = .unpaired) = true := by
      intro hany
      obtain ⟨entry, hentry, hkey⟩ := List.any_eq_true.mp hany
      obtain ⟨name, -, hname⟩ := h.known entry hentry
      simp [hname] at hkey
    rw [ofDocument, if_neg hunpaired, ofFields]
    simp only [bind_eq_ok_iff]
    refine ⟨_, (field_eq_ok_iff hpositive).mpr h.maxDepth,
      _, (field_eq_ok_iff habove).mpr h.cacheTtl,
      _, (field_eq_ok_iff hpositive).mpr h.cacheMaxEntries,
      _, (field_eq_ok_iff habove).mpr h.sweepInterval,
      _, (field_eq_ok_iff fun _ _ => named_eq_ok_iff).mpr h.encoding,
      _, (field_eq_ok_iff fun _ _ => toSuffixes_eq_ok_iff).mpr h.overrideSuffixes,
      _, (field_eq_ok_iff fun _ _ => toSuffixes_eq_ok_iff).mpr h.configurationSuffixes,
      _, (field_eq_ok_iff fun _ _ => toTextList_eq_ok_iff).mpr h.environmentDirectories,
      _, (field_eq_ok_iff fun _ _ => toTextList_eq_ok_iff).mpr h.remoteSourceMarkers, ?_⟩
    rw [hkeys.mpr h.known]

/-! ### What the fields have in common -/

/-- What holds of the default and of all that can be read holds of the field. -/
theorem Takes.holds {α : Type} {name : String} {default value : α}
    {Reads : Json → α → Prop} {P : α → Prop} (h : Takes document name default Reads value)
    (hdefault : P default) (hreads : ∀ written value, Reads written value → P value) : P value := by
  unfold Takes at h
  split at h
  · exact h ▸ hdefault
  · exact hreads _ _ h

namespace Gives

variable {document : SettingsDocument} {settings : Settings}

theorem one_le_maxDepth (h : Gives document settings) : 1 ≤ settings.maxDepth :=
  h.maxDepth.holds (by decide) fun _ _ hreads => hreads.2

/-- Settings from a document leave room in the cache. -/
theorem one_le_cacheMaxEntries (h : Gives document settings) : 1 ≤ settings.cacheMaxEntries :=
  h.cacheMaxEntries.holds (by decide) fun _ _ hreads => hreads.2

theorem areSuffixes_overrideSuffixes (h : Gives document settings) :
    AreSuffixes settings.overrideSuffixes :=
  h.overrideSuffixes.holds (by simp [AreSuffixes]) fun _ _ hreads => hreads.2

theorem areSuffixes_configurationSuffixes (h : Gives document settings) :
    AreSuffixes settings.configurationSuffixes :=
  h.configurationSuffixes.holds (by simp [AreSuffixes]) fun _ _ hreads => hreads.2

end Gives

end TerraformTrace.Settings
