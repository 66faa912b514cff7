import TerraformTrace.CommandLine.Run
import TerraformTrace.Proofs.Assignments
import TerraformTrace.Proofs.Keeps
import TerraformTrace.Proofs.SettingsFields

/-!
# TerraformTrace.Proofs.ExitCode

How a command line ends, for every tree of files. The settings a command line runs with
are described by `GivesSettings`, without reference to how they are loaded: where the file
is, what it has to be, and when the defaults apply. **A run whose settings are not given
ends with 2**, a scan whose document is not text of its encoding with 3, and otherwise the
answer decides between 0 and 1 (`ends_run`).

Some runs have no exit code at all. They are the ones that `BreaksDown` lists, and among
them are settings that are not UTF-8, an encoding that does not exist or whose codec gives up
over the file, and a value with an integer that is too long to display.

What is not the program's own may be anything: what reads YAML, the codecs, and the way in
which values from several directories are gathered are those of the shell.
-/

namespace TerraformTrace

variable {path : Path}

/-! ### Faults of documents -/

namespace Settings

variable {tree : FileTree} {yaml : Yaml.Reader}

/-- The document that a text is in one of the formats. -/
inductive IsDocument (yaml : Yaml.Reader) (text : Text) (document : SettingsDocument) :
    Format → Prop
  | json {value : Json} (hread : Json.read text = .ok value)
      (hdocument : documentOfJson? value = some document) : IsDocument yaml text document .json
  | yaml {value : Yaml.Value} (hread : yaml text = some value)
      (hdocument : documentOfYaml? value = some document) : IsDocument yaml text document .yaml

/-- What is wrong with a document is always reported. -/
theorem readDocument_cases (yaml : Yaml.Reader) (format : Format) (path : Path) (text : Text) :
    (∃ document, readDocument format path text yaml = .ok document ∧
        IsDocument yaml text document format) ∨
      ∃ error, readDocument format path text yaml = .error error ∧ error.report?.isSome := by
  unfold readDocument
  cases format with
  | json =>
    cases hread : Json.read text with
    | error fault => exact .inr ⟨_, rfl, rfl⟩
    | ok value =>
      cases hdocument : documentOfJson? value with
      | none => exact .inr ⟨.notMapping path, by simp only [hdocument, pure_bind], rfl⟩
      | some document =>
        exact .inl ⟨document, by simp only [hdocument, pure_bind]; rfl, .json hread hdocument⟩
  | yaml =>
    cases hread : yaml text with
    | none => exact .inr ⟨_, rfl, rfl⟩
    | some value =>
      cases hdocument : documentOfYaml? value with
      | none => exact .inr ⟨.notMapping path, by simp only [hdocument, pure_bind], rfl⟩
      | some document =>
        exact .inl ⟨document, by simp only [hdocument, pure_bind]; rfl, .yaml hread hdocument⟩

/-! ### One file -/

/-- The settings of a file: it has a known suffix, its bytes are UTF-8, and its text is a
document whose fields are all in order. -/
def FileGives (tree : FileTree) (yaml : Yaml.Reader) (path place : Path) (settings : Settings) :
    Prop :=
  ∃ format bytes text document, Format.ofPath? path = some format ∧
    tree.content place = .ok bytes ∧ Encoding.utf8.decode? bytes = some text ∧
    readDocument format path (Text.unifyLineEnds text) yaml = .ok document ∧
    ofDocument document = .ok settings

/-- A file that would be read as settings, but is not text. -/
def IsNotText (tree : FileTree) (path place : Path) : Prop :=
  ∃ format bytes, Format.ofPath? path = some format ∧ tree.content place = .ok bytes ∧
    Encoding.utf8.decode? bytes = none

theorem FileGives.loadFile_eq {place : Path} {settings : Settings}
    (h : FileGives tree yaml path place settings) :
    loadFile tree path place yaml = .ok settings := by
  obtain ⟨format, bytes, text, document, hformat, hbytes, htext, hdocument, hsettings⟩ := h
  simp [loadFile, hformat, hbytes, htext, hdocument, hsettings, Except.mapError, bind, Except.bind]

theorem IsNotText.loadFile_eq {place : Path} (h : IsNotText tree path place) :
    loadFile tree path place yaml = .error (.undecodable path) := by
  obtain ⟨format, bytes, hformat, hbytes, htext⟩ := h
  simp [loadFile, hformat, hbytes, htext]

/-- A file gives settings, or has a fault, and a fault of a file that is text is reported. -/
theorem loadFile_cases (tree : FileTree) (yaml : Yaml.Reader) (path place : Path) :
    (∃ settings, FileGives tree yaml path place settings) ∨ IsNotText tree path place ∨
      ∃ error, loadFile tree path place yaml = .error error ∧ error.report?.isSome := by
  cases hformat : Format.ofPath? path with
  | none => exact .inr (.inr ⟨.unsupported path, by simp [loadFile, hformat], rfl⟩)
  | some format =>
    cases hbytes : tree.content place with
    | error error =>
      exact .inr (.inr ⟨.unreadable path error, by simp [loadFile, hformat, hbytes], rfl⟩)
    | ok bytes =>
      cases htext : Encoding.utf8.decode? bytes with
      | none => exact .inr (.inl ⟨format, bytes, hformat, hbytes, htext⟩)
      | some text =>
        rcases readDocument_cases yaml format path (Text.unifyLineEnds text) with
          ⟨document, hdocument, -⟩ | ⟨error, herror, hreport⟩
        · cases hsettings : ofDocument document with
          | ok settings =>
            exact .inl ⟨settings, format, bytes, text, document, hformat, hbytes, htext,
              hdocument, hsettings⟩
          | error fault =>
            refine .inr (.inr ⟨.invalid path fault, ?_, rfl⟩)
            simp [loadFile, hformat, hbytes, htext, hdocument, hsettings, Except.mapError,
              bind, Except.bind]
        · refine .inr (.inr ⟨error, ?_, hreport⟩)
          simp [loadFile, hformat, hbytes, htext, herror, bind, Except.bind]

theorem loadFile_eq_ok_iff {place : Path} {settings : Settings} :
    loadFile tree path place yaml = .ok settings ↔ FileGives tree yaml path place settings := by
  refine ⟨fun h => ?_, FileGives.loadFile_eq⟩
  rcases loadFile_cases tree yaml path place with ⟨found, hfound⟩ | htext | ⟨error, herror, -⟩
  · cases h.symm.trans hfound.loadFile_eq
    exact hfound
  · cases h.symm.trans htext.loadFile_eq
  · cases h.symm.trans herror

/-! ### The search for a file -/

/-- A place at which the search for a settings file goes on. -/
def HasNoFile (tree : FileTree) (place : Path) : Prop :=
  tree.probe place = .ok none ∨ tree.probe place = .ok (some .directory)

/-- A place is reached if the places in front of it have no file. -/
def IsReached (tree : FileTree) (places : List Path) (place : Path) : Prop :=
  ∃ before after, places = before ++ place :: after ∧ ∀ earlier ∈ before, HasNoFile tree earlier

theorem loadFirst_append {before places : List Path}
    (h : ∀ earlier ∈ before, HasNoFile tree earlier) :
    loadFirst tree yaml (before ++ places) = loadFirst tree yaml places := by
  induction before with
  | nil => rfl
  | cons first before ih =>
    have hrest := ih (List.forall_mem_cons.mp h).2
    rcases h first List.mem_cons_self with hfirst | hfirst
    · simp [loadFirst, hfirst, hrest]
    · simp [loadFirst, hfirst, hrest]

/-- A search passes over all places, or ends at a file, or where it cannot be told
whether there is one. -/
theorem search_cases (tree : FileTree) (places : List Path) :
    (∀ place ∈ places, HasNoFile tree place) ∨
      (∃ place content, IsReached tree places place ∧
        tree.probe place = .ok (some (.file content))) ∨
      ∃ place error, IsReached tree places place ∧ tree.probe place = .error error := by
  induction places with
  | nil => exact .inl nofun
  | cons first places ih =>
    have hhead : IsReached tree (first :: places) first := ⟨[], places, rfl, nofun⟩
    have hpassed (hfirst : HasNoFile tree first) {place : Path}
        (h : IsReached tree places place) : IsReached tree (first :: places) place := by
      obtain ⟨before, after, rfl, hbefore⟩ := h
      exact ⟨first :: before, after, rfl, List.forall_mem_cons.mpr ⟨hfirst, hbefore⟩⟩
    cases hprobe : tree.probe first with
    | error error => exact .inr (.inr ⟨first, error, hhead, hprobe⟩)
    | ok node =>
      by_cases hfirst : HasNoFile tree first
      · rcases ih with hnone | ⟨place, content, hplace, hfile⟩ | ⟨place, error, hplace, herror⟩
        · exact .inl (List.forall_mem_cons.mpr ⟨hfirst, hnone⟩)
        · exact .inr (.inl ⟨place, content, hpassed hfirst hplace, hfile⟩)
        · exact .inr (.inr ⟨place, error, hpassed hfirst hplace, herror⟩)
      · match node with
        | none => exact absurd (.inl hprobe) hfirst
        | some .directory => exact absurd (.inr hprobe) hfirst
        | some (.file content) => exact .inr (.inl ⟨first, content, hhead, hprobe⟩)

/-- Without a file the defaults apply. -/
theorem loadFirst_of_hasNoFile {places : List Path}
    (h : ∀ place ∈ places, HasNoFile tree place) : loadFirst tree yaml places = .ok {} := by
  rw [← List.append_nil places, loadFirst_append h]
  rfl

end Settings

namespace CommandLine

open Settings

variable {shell : Shell} {args : Arguments} {settings : Settings} (ws : Workspace)

/-! ### The settings of a command line -/

/-- Where a workspace may have its settings file. -/
def Arguments.settingsPlaces (args : Arguments) (dir : Path) : List Path :=
  fileNames.map fun name => (args.root dir).entry name.toList

/-- The settings file of a command line, as it is named and where it is: the file that is
asked for, or the first file of a known name in the workspace. -/
inductive SettingsFile (shell : Shell) (args : Arguments) : Path → Path → Prop
  | named {path : Path} {node : Node} (hconfig : args.config = some path)
      (hprobe : shell.tree.probe (shell.directory.join path) = .ok (some node)) :
      SettingsFile shell args path (shell.directory.join path)
  | found {place : Path} {content : Bytes} (hconfig : args.config = none)
      (hplace : IsReached shell.tree (args.settingsPlaces shell.directory) place)
      (hprobe : shell.tree.probe place = .ok (some (.file content))) :
      SettingsFile shell args place place

/-- It cannot be told whether a settings file is there, because its name is too long. -/
inductive SettingsHidden (shell : Shell) (args : Arguments) : Prop
  | named {path : Path} {error : WalkError} (hconfig : args.config = some path)
      (hprobe : shell.tree.probe (shell.directory.join path) = .error error)
  | found {place : Path} {error : WalkError} (hconfig : args.config = none)
      (hplace : IsReached shell.tree (args.settingsPlaces shell.directory) place)
      (hprobe : shell.tree.probe place = .error error)

/-- A command line runs with settings: those of its settings file, or the defaults if it
asks for no file and the workspace has none. -/
inductive GivesSettings (shell : Shell) (args : Arguments) : Settings → Prop
  | file {path place : Path} {settings : Settings} (hfile : SettingsFile shell args path place)
      (hgives : FileGives shell.tree shell.yaml path place settings) :
      GivesSettings shell args settings
  | defaults (hconfig : args.config = none)
      (hnone : ∀ place ∈ args.settingsPlaces shell.directory, HasNoFile shell.tree place) :
      GivesSettings shell args {}

/-- What loading the settings of a command line comes to. -/
def loadSettings (shell : Shell) (args : Arguments) : Except SettingsError Settings :=
  match args.config with
  | some path => Settings.load shell.tree shell.directory path shell.yaml
  | none => Settings.discover shell.tree (args.root shell.directory) shell.yaml

theorem loadSettings_of_named (h : args.config = some path) :
    loadSettings shell args = load shell.tree shell.directory path shell.yaml := by
  simp [loadSettings, h]

theorem loadSettings_of_search (h : args.config = none) :
    loadSettings shell args =
      loadFirst shell.tree shell.yaml (args.settingsPlaces shell.directory) := by
  simp [loadSettings, h, discover, Arguments.settingsPlaces]

theorem SettingsFile.loadSettings_eq {place : Path} (h : SettingsFile shell args path place) :
    loadSettings shell args = loadFile shell.tree path place shell.yaml := by
  cases h with
  | named hconfig hprobe => simp [loadSettings_of_named hconfig, load, hprobe]
  | found hconfig hplace hprobe =>
    obtain ⟨before, after, hplaces, hbefore⟩ := hplace
    rw [loadSettings_of_search hconfig, hplaces, loadFirst_append hbefore]
    simp [loadFirst, hprobe]

theorem SettingsHidden.loadSettings_eq (h : SettingsHidden shell args) :
    ∃ path error, loadSettings shell args = .error (.inaccessible path error) := by
  cases h with
  | @named path error hconfig hprobe =>
    refine ⟨path, error, ?_⟩
    simp [loadSettings_of_named hconfig, load, hprobe]
  | @found place error hconfig hplace hprobe =>
    refine ⟨place, error, ?_⟩
    obtain ⟨before, after, hplaces, hbefore⟩ := hplace
    rw [loadSettings_of_search hconfig, hplaces, loadFirst_append hbefore]
    simp [loadFirst, hprobe]

/-- Nothing is reported if it cannot be told whether there is a settings file, or if the
file is not text. -/
def SettingsUnreported (shell : Shell) (args : Arguments) : Prop := SettingsHidden shell args ∨
    ∃ path place, SettingsFile shell args path place ∧ IsNotText shell.tree path place

theorem GivesSettings.loadSettings_eq (h : GivesSettings shell args settings) :
    loadSettings shell args = .ok settings := by
  cases h with
  | file hfile hgives => rw [hfile.loadSettings_eq, hgives.loadFile_eq]
  | defaults hconfig hnone => rw [loadSettings_of_search hconfig, loadFirst_of_hasNoFile hnone]

theorem SettingsUnreported.loadSettings_eq (h : SettingsUnreported shell args) :
    ∃ error, loadSettings shell args = .error error ∧ error.report? = none := by
  rcases h with hhidden | ⟨path, place, hfile, htext⟩
  · obtain ⟨path, error, hload⟩ := hhidden.loadSettings_eq
    exact ⟨_, hload, rfl⟩
  · exact ⟨_, hfile.loadSettings_eq.trans htext.loadFile_eq, rfl⟩

/-- Where the settings of a command line are looked for, and what loading them comes to. -/
theorem loadSettings_cases (shell : Shell) (args : Arguments) :
    (∃ settings, GivesSettings shell args settings) ∨ SettingsUnreported shell args ∨
      ∃ error, loadSettings shell args = .error error ∧ error.report?.isSome := by
  have hread {path place : Path} (hfile : SettingsFile shell args path place) :
      (∃ settings, GivesSettings shell args settings) ∨ SettingsUnreported shell args ∨
        ∃ error, loadSettings shell args = .error error ∧ error.report?.isSome := by
    rcases loadFile_cases shell.tree shell.yaml path place with ⟨settings, hgives⟩ | htext | hfault
    · exact .inl ⟨settings, .file hfile hgives⟩
    · exact .inr (.inl (.inr ⟨path, place, hfile, htext⟩))
    · exact .inr (.inr (hfile.loadSettings_eq ▸ hfault))
  cases hconfig : args.config with
  | some path =>
    cases hprobe : shell.tree.probe (shell.directory.join path) with
    | error error => exact .inr (.inl (.inl (.named hconfig hprobe)))
    | ok node =>
      cases node with
      | none =>
        refine .inr (.inr ⟨.notFound path, ?_, rfl⟩)
        simp [loadSettings_of_named hconfig, load, hprobe]
      | some node => exact hread (.named hconfig hprobe)
  | none =>
    rcases search_cases shell.tree (args.settingsPlaces shell.directory) with
      hnone | ⟨place, content, hplace, hprobe⟩ | ⟨place, error, hplace, hprobe⟩
    · exact .inl ⟨{}, .defaults hconfig hnone⟩
    · exact hread (.found hconfig hplace hprobe)
    · exact .inr (.inl (.inl (.found hconfig hplace hprobe)))

theorem GivesSettings.one_le (h : GivesSettings shell args settings) :
    1 ≤ settings.cacheMaxEntries := by
  cases h with
  | file _ hgives =>
    obtain ⟨_, _, _, document, -, -, -, -, hsettings⟩ := hgives
    exact (ofDocument_eq_ok_iff.mp hsettings).one_le_cacheMaxEntries
  | defaults => decide

theorem GivesSettings.unique {other : Settings} (h : GivesSettings shell args settings)
    (hother : GivesSettings shell args other) : settings = other :=
  Except.ok.inj (h.loadSettings_eq.symm.trans hother.loadSettings_eq)

/-! ### What the commands ask for -/

/-- The workspace that a command line opens. -/
def Arguments.opened (args : Arguments) (shell : Shell) (settings : Settings) : Workspace :=
  { root := args.root shell.directory, settings
    disk := { tree := shell.tree, encoding := settings.encoding, codecs := shell.codecs } }

/-- The session of a workspace that was just opened. -/
def newSession (settings : Settings) : Session :=
  { cache := { ttl := settings.cacheTtl, capacity := settings.cacheMaxEntries, now := .zero
               sweeping := true } }

/-- The directory that a command line resolves from. -/
def Arguments.origin (args : Arguments) (shell : Shell) : Path := shell.directory.join args.start

/-- The value of the reference that a command line asks for. -/
def value? (shell : Shell) (args : Arguments) (settings : Settings) : Option Text :=
  (resolveIn (args.opened shell settings) (if args.plain then .plain else .enhanced)
    (.text (some args.subject)) (args.origin shell) (newSession settings)).1

/-- The values of the reference that a command line asks for, from its own directory, the
root and the environments. -/
def contextValues (shell : Shell) (args : Arguments) (settings : Settings) : List ContextValue :=
  let ws := args.opened shell settings
  let environments := ws.settings.environmentDirectories.map Path.ofText
  let candidates :=
    (ws.normalize (args.origin shell) :: ws.root :: environments.map ws.normalize).eraseDups
  (shell.gather ws (.text (some args.subject)) candidates (newSession settings)).1

/-- The file that a command line scans. -/
def Arguments.document (args : Arguments) (shell : Shell) : Path :=
  (shell.directory.join (.ofText args.subject)).normalize

/-- The file to scan cannot be read, or is not text of the encoding of the settings. -/
inductive IsBadFile (shell : Shell) (args : Arguments) (settings : Settings) : Prop
  | unread {error : WalkError} (hcontent : shell.tree.content (args.document shell) = .error error)
  | undecoded {bytes : Bytes} {codec : Codec}
      (hcontent : shell.tree.content (args.document shell) = .ok bytes)
      (hcodec : shell.codecs settings.encoding = some codec)
      (htext : codec bytes = .error .undecodable)

/-- The encoding of the settings is of no use: its name has a NUL character, or there is a
file to scan and the encoding does not exist, or its codec gives up over the file. -/
inductive EncodingFails (shell : Shell) (args : Arguments) (settings : Settings) : Prop
  | unusable (hname : '\x00' ∈ settings.encoding)
  | unknown {bytes : Bytes}
      (hcontent : shell.tree.content (args.document shell) = .ok bytes)
      (hcodec : shell.codecs settings.encoding = none)
  | refused {bytes : Bytes} {codec : Codec} {reason : Text}
      (hcontent : shell.tree.content (args.document shell) = .ok bytes)
      (hcodec : shell.codecs settings.encoding = some codec)
      (hrefused : codec bytes = .error (.refused reason))

/-- A command comes to something: a value, a value in some context, or the end of a scan. -/
def Finds (shell : Shell) (args : Arguments) (settings : Settings) : Prop :=
  match args.command with
  | .resolve => (value? shell args settings).isSome
  | .contexts => contextValues shell args settings ≠ []
  | .scan => True

/-- Some environment of the settings has a path that cannot be used. -/
def HasBadEnvironment (settings : Settings) : Prop :=
  ∃ name ∈ settings.environmentDirectories, (Path.ofText name).hasNul = true

/-- A text that starts like an object or a list, and has an integer that is too long. -/
def IsTooLong (text : Text) : Prop :=
  ((Text.strip text).head? = some '\x7b' ∨ (Text.strip text).head? = some '[') ∧
    ∃ digits, Literal.read (Text.strip text) = .error (.tooManyDigits digits)

/-- A command that has no exit code, although its settings are in order. -/
def CommandBreaks (shell : Shell) (args : Arguments) (settings : Settings) : Prop :=
  match args.command with
  | .resolve =>
    args.json = false ∧ ∃ value, value? shell args settings = some value ∧ IsTooLong value
  | .contexts => (args.origin shell).hasNul = true ∨ HasBadEnvironment settings
  | .scan =>
    (Path.ofText args.subject).hasNul = true ∨ (args.document shell).hasNul = true ∨
      EncodingFails shell args settings ∨
      ¬IsBadFile shell args settings ∧ HasBadEnvironment settings

/-- The command lines that have no exit code. -/
inductive BreaksDown (shell : Shell) (args : Arguments) : Prop
  /-- The workspace has a path that cannot be used. -/
  | workspace (hnul : args.workspace.hasNul = true)
  /-- It cannot be told whether there is a settings file. -/
  | settingsHidden (hhidden : SettingsHidden shell args)
  /-- The settings file is not text. -/
  | settingsText {path place : Path} (hfile : SettingsFile shell args path place)
      (htext : IsNotText shell.tree path place)
  | command {settings : Settings} (hgives : GivesSettings shell args settings)
      (hbreaks : CommandBreaks shell args settings)

/-! ### One command -/

/-- The exit code of what a command comes to. -/
def codeOf? : Except Breakdown Printed → Option Nat
  | .ok printed => some printed.status.code
  | .error _ => none

/-- The exit codes of a command with its settings. -/
inductive CommandEnds (shell : Shell) (args : Arguments) (settings : Settings) : Option Nat → Prop
  | breaks (hbreaks : CommandBreaks shell args settings) : CommandEnds shell args settings none
  | badFile (hworks : ¬CommandBreaks shell args settings) (hcommand : args.command = .scan)
      (hbad : IsBadFile shell args settings) :
      CommandEnds shell args settings (some 3)
  | found (hworks : ¬CommandBreaks shell args settings)
      (hgood : ¬(args.command = .scan ∧ IsBadFile shell args settings))
      (hfinds : Finds shell args settings) :
      CommandEnds shell args settings (some 0)
  | notFound (hworks : ¬CommandBreaks shell args settings)
      (hgood : ¬(args.command = .scan ∧ IsBadFile shell args settings))
      (hfinds : ¬Finds shell args settings) :
      CommandEnds shell args settings (some 1)

/-- What starts like an object or a list is read for display. Everything else stays as it
is. -/
theorem display_cases (text : Text) :
    (IsTooLong text ∧ ∃ error, Literal.display text = .error error) ∨
      (¬IsTooLong text ∧ ∃ shown, Literal.display text = .ok shown) := by
  by_cases hhead : (Text.strip text).head? = some '\x7b' ∨ (Text.strip text).head? = some '['
  · obtain ⟨c, rest, hstrip, hc⟩ :
        ∃ c rest, Text.strip text = c :: rest ∧ (c = '\x7b' ∨ c = '[') := by
      cases hstrip : Text.strip text with
      | nil => simp [hstrip] at hhead
      | cons c rest => exact ⟨c, rest, rfl, by simpa [hstrip] using hhead⟩
    cases hread : Literal.read (Text.strip text) with
    | ok value =>
      refine .inr ⟨by simp [IsTooLong, hread], ?_⟩
      rw [hstrip] at hread
      rcases hc with rfl | rfl <;> simp [Literal.display, hstrip, hread]
    | error error =>
      have hread' := hread
      rw [hstrip] at hread'
      cases error with
      | tooManyDigits digits =>
        refine .inl ⟨⟨hhead, digits, hread⟩, ?_⟩
        rcases hc with rfl | rfl <;> simp [Literal.display, hstrip, hread']
      | _ =>
        refine .inr ⟨by simp [IsTooLong, hread], ?_⟩
        rcases hc with rfl | rfl <;> simp [Literal.display, hstrip, hread']
  · refine .inr ⟨fun hlong => hhead hlong.1, text, ?_⟩
    unfold Literal.display
    split
    · simp_all
    · simp_all
    · rfl

theorem codeOf?_runResolve :
    codeOf? (runResolve shell (args.opened shell settings) args
        (newSession settings)).1 =
      match value? shell args settings with
      | none => some 1
      | some value =>
        if args.json then some 0
        else
          match Literal.display value with
          | .ok _ => some 0
          | .error _ => none := by
  unfold value? Arguments.origin runResolve
  rw [query_bind]
  generalize resolveIn _ _ _ _ _ = result
  obtain ⟨value, session⟩ := result
  cases hjson : args.json with
  | true => cases value <;> rfl
  | false =>
    cases value with
    | none => rfl
    | some value =>
      simp only [Bool.false_eq_true, if_false]
      cases Literal.display value <;> rfl

theorem commandEnds_runResolve (hcommand : args.command = .resolve) :
    CommandEnds shell args settings (codeOf? (runResolve shell (args.opened shell settings) args
        (newSession settings)).1) := by
  have hgood : ¬(args.command = .scan ∧ IsBadFile shell args settings) := by
    simp [hcommand]
  rw [codeOf?_runResolve]
  cases hvalue : value? shell args settings with
  | none =>
    exact .notFound (by simp [CommandBreaks, hcommand, hvalue]) hgood
      (by simp [Finds, hcommand, hvalue])
  | some value =>
    have hfinds : Finds shell args settings := by simp [Finds, hcommand, hvalue]
    cases hjson : args.json with
    | true => exact .found (by simp [CommandBreaks, hcommand, hjson]) hgood hfinds
    | false =>
      rcases display_cases value with ⟨hlong, error, hdisplay⟩ | ⟨hshort, shown, hdisplay⟩
      · simp only [hdisplay]
        exact .breaks (by simp [CommandBreaks, hcommand, hjson, hvalue, hlong])
      · simp only [hdisplay]
        exact .found (by simp [CommandBreaks, hcommand, hjson, hvalue, hshort]) hgood hfinds

/-- The candidate directories are known unless one of them has a path that cannot be used. -/
theorem candidateDirectories_cases (dir : Path) :
    ((dir.hasNul = true ∨ HasBadEnvironment ws.settings) ∧
        ∃ error, candidateDirectories ws dir = .error error) ∨
      (¬(dir.hasNul = true ∨ HasBadEnvironment ws.settings) ∧
        candidateDirectories ws dir = .ok (ws.normalize dir :: ws.root ::
            (ws.settings.environmentDirectories.map Path.ofText).map ws.normalize).eraseDups) := by
  unfold candidateDirectories HasBadEnvironment
  rcases dir.usable_cases with ⟨hnul, husable⟩ | ⟨hnul, husable⟩
  · rw [husable]
    exact .inl ⟨.inl hnul, _, rfl⟩
  · rw [husable]
    have husable (name : Text) : ((Path.ofText name).hasNul = true ∧
        ∃ error, (Path.ofText name).usable = .error error) ∨
          (¬(Path.ofText name).hasNul = true ∧
            (Path.ofText name).usable = .ok (Path.ofText name)) :=
      (Path.ofText name).usable_cases.imp_left fun ⟨hbad, herror⟩ => ⟨hbad, _, herror⟩
    rcases mapM_cases husable ws.settings.environmentDirectories with
      ⟨hbad, error, herror⟩ | ⟨hgood, hok⟩
    · rw [herror]
      exact .inl ⟨.inr hbad, error, rfl⟩
    · rw [hok]
      exact .inr ⟨not_or.mpr ⟨hnul, hgood⟩, rfl⟩

theorem codeOf?_runContexts
    (hworks : ¬((args.origin shell).hasNul = true ∨ HasBadEnvironment settings)) :
    codeOf? (runContexts shell (args.opened shell settings) args (newSession settings)).1 =
      some (if (contextValues shell args settings).isEmpty then 1 else 0) := by
  rcases candidateDirectories_cases (args.opened shell settings) (args.origin shell) with
    ⟨hbad, -⟩ | ⟨-, hcandidates⟩
  · exact absurd hbad hworks
  · unfold runContexts contextValues
    unfold Arguments.origin at hcandidates ⊢
    simp only [hcandidates]
    rw [query_bind]
    generalize (shell.gather _ _ _ _).1 = values
    cases args.json <;> cases values <;> rfl

theorem commandEnds_runContexts (hcommand : args.command = .contexts) :
    CommandEnds shell args settings (codeOf? (runContexts shell (args.opened shell settings) args
        (newSession settings)).1) := by
  have hgood : ¬(args.command = .scan ∧ IsBadFile shell args settings) := by
    simp [hcommand]
  by_cases hbreaks : (args.origin shell).hasNul = true ∨ HasBadEnvironment settings
  · rcases candidateDirectories_cases (args.opened shell settings) (args.origin shell) with
      ⟨-, error, herror⟩ | ⟨hworks, -⟩
    · unfold Arguments.origin at herror
      simp only [runContexts, herror]
      exact .breaks (by simpa [CommandBreaks, hcommand] using hbreaks)
    · exact absurd hbreaks hworks
  · have hworks : ¬CommandBreaks shell args settings := by
      simpa [CommandBreaks, hcommand] using hbreaks
    rw [codeOf?_runContexts hbreaks]
    cases hvalues : contextValues shell args settings with
    | nil => exact .notFound hworks hgood (by simp [Finds, hcommand, hvalues])
    | cons first values => exact .found hworks hgood (by simp [Finds, hcommand, hvalues])

/-- Lines of a whole document are never before its first line. -/
theorem annotate_eq_ok (gather : Gather) (starts : Array Nat) (candidates : List Path)
    (cancellation : Cancellation) (occurrences : List Occurrence) (s : Session) :
    ∃ entries, (annotate ws gather starts candidates 0 cancellation occurrences s).1 =
      .ok entries := by
  induction occurrences generalizing cancellation s with
  | nil => exact ⟨[], rfl⟩
  | cons occurrence rest ih =>
    by_cases hstop : cancellation = some 0
    · rw [hstop]
      exact ⟨[], rfl⟩
    · rw [annotate.eq_3 _ _ _ _ _ _ _ _ hstop, query_bind]
      generalize lineAndColumn starts occurrence.start = place
      obtain ⟨line, column⟩ := place
      have hline : ¬(line : Int) + 0 < 0 := by omega
      simp only [hline, if_false]
      rw [query_bind]
      obtain ⟨more, hmore⟩ := ih (cancellation.map (· - 1))
        (gather ws (.reference occurrence.reference) candidates s).2
      rw [hmore]
      exact ⟨_, rfl⟩

/-- A document is scanned unless a candidate directory has a path that cannot be used. -/
theorem scan_cases (gather : Gather) (text : Text) (document : Path) (s : Session)
    (hdocument : document.hasNul = false) :
    (HasBadEnvironment ws.settings ∧
        ∃ error, (scan ws text document 0 none gather s).1 = .error error) ∨
      (¬HasBadEnvironment ws.settings ∧
        ∃ entries, (scan ws text document 0 none gather s).1 = .ok entries) := by
  have hparent : document.parent.hasNul = false := by
    rw [Path.hasNul_eq_false] at hdocument ⊢
    intro part hpart
    exact hdocument part (List.dropLast_subset _ hpart)
  unfold scan
  rcases candidateDirectories_cases ws document.parent with
    ⟨hbad, error, herror⟩ | ⟨hworks, hcandidates⟩
  · rw [herror]
    exact .inl ⟨by simpa [hparent] using hbad, _, rfl⟩
  · rw [hcandidates]
    exact .inr ⟨by simpa [hparent] using hworks, annotate_eq_ok ws gather _ _ none _ s⟩

theorem encodingFails_iff {bytes : Bytes} {codec : Codec} (hname : '\x00' ∉ settings.encoding)
    (hcontent : shell.tree.content (args.document shell) = .ok bytes)
    (hcodec : shell.codecs settings.encoding = some codec) :
    EncodingFails shell args settings ↔ ∃ reason, codec bytes = .error (.refused reason) := by
  constructor
  · rintro (hname' | ⟨-, hcodec'⟩ | ⟨hcontent', hcodec', hrefused⟩)
    · exact absurd hname' hname
    · simp [hcodec] at hcodec'
    · cases hcontent.symm.trans hcontent'
      cases hcodec.symm.trans hcodec'
      exact ⟨_, hrefused⟩
  · rintro ⟨reason, hrefused⟩
    exact .refused hcontent hcodec hrefused

theorem isBadFile_iff {bytes : Bytes} {codec : Codec}
    (hcontent : shell.tree.content (args.document shell) = .ok bytes)
    (hcodec : shell.codecs settings.encoding = some codec) :
    IsBadFile shell args settings ↔ codec bytes = .error .undecodable := by
  refine ⟨?_, .undecoded hcontent hcodec⟩
  rintro (hcontent' | ⟨hcontent', hcodec', htext⟩)
  · simp [hcontent] at hcontent'
  · cases hcontent.symm.trans hcontent'
    cases hcodec.symm.trans hcodec'
    exact htext

/-- What reading the file to scan comes to. -/
theorem readText_cases (shell : Shell) (args : Arguments) (settings : Settings)
    (hnul : (args.document shell).hasNul = false) :
    (EncodingFails shell args settings ∧
        ∃ failure, (args.opened shell settings).disk.readText (args.document shell) =
          .error failure ∧ ∀ error, failure ≠ .reported error) ∨
      (IsBadFile shell args settings ∧ ¬EncodingFails shell args settings ∧
        ∃ error, (args.opened shell settings).disk.readText (args.document shell) =
          .error (.reported error)) ∨
      (¬IsBadFile shell args settings ∧ ¬EncodingFails shell args settings ∧
        ∃ text, (args.opened shell settings).disk.readText (args.document shell) = .ok text) := by
  by_cases hname : '\x00' ∈ settings.encoding
  · refine .inl ⟨.unusable hname, .unusableEncoding, ?_, nofun⟩
    simp [Disk.readText, Arguments.opened, hname]
  cases hcontent : shell.tree.content (args.document shell) with
  | error error =>
    refine .inr (.inl ⟨.unread hcontent, ?_, .read (args.document shell) error, ?_⟩)
    · rintro (hname' | hcontent' | hcontent')
      · exact hname hname'
      · simp [hcontent] at hcontent'
      · simp [hcontent] at hcontent'
    · simp [Disk.readText, Arguments.opened, hnul, hname, hcontent]
  | ok bytes =>
    cases hcodec : shell.codecs settings.encoding with
    | none =>
      refine .inl ⟨.unknown hcontent hcodec, .unknownEncoding settings.encoding, ?_, nofun⟩
      simp [Disk.readText, Arguments.opened, hnul, hname, hcontent, hcodec]
    | some codec =>
      have hread : (args.opened shell settings).disk.readText (args.document shell) =
          decodedText (args.document shell) settings.encoding (codec bytes) := by
        simp [Disk.readText, Arguments.opened, hnul, hname, hcontent, hcodec]
      rw [encodingFails_iff hname hcontent hcodec, isBadFile_iff hcontent hcodec, hread]
      cases hdecode : codec bytes with
      | ok text => exact .inr (.inr ⟨nofun, by simp, _, rfl⟩)
      | error error =>
        cases error with
        | undecodable => exact .inr (.inl ⟨rfl, by simp, _, rfl⟩)
        | refused reason => exact .inl ⟨⟨reason, rfl⟩, _, rfl, nofun⟩

/-- The exit code of a scan, by what reading its document comes to. -/
def scanCode? (code? : Text → Option Nat) : Except AccessFailure Text → Option Nat
  | .error (.reported _) => some 3
  | .error _ => none
  | .ok text => code? text

/-- A failure that is not reported leaves a scan without an exit code. -/
theorem scanCode?_of_unreported {failure : AccessFailure}
    (h : ∀ error, failure ≠ .reported error) (code? : Text → Option Nat) :
    scanCode? code? (.error failure) = none := by
  cases failure with
  | reported error => exact absurd rfl (h error)
  | _ => rfl

theorem codeOf?_runScan (hsubject : (Path.ofText args.subject).hasNul = false) :
    codeOf? (runScan shell (args.opened shell settings) args (newSession settings)).1 =
      scanCode? (fun text => (scan (args.opened shell settings) text
          (args.document shell) 0 none shell.gather (newSession settings)).1.toOption.map
            fun _ => 0)
        ((args.opened shell settings).disk.readText (args.document shell)) := by
  unfold runScan Arguments.document
  simp only [Path.usable, hsubject, Bool.false_eq_true, if_false]
  cases (args.opened shell settings).disk.readText
      (shell.directory.join (.ofText args.subject)).normalize with
  | error failure => cases failure <;> rfl
  | ok text =>
    simp only [scanCode?]
    rw [query_bind]
    generalize (scan _ _ _ _ _ _ _).1 = result
    cases result with
    | error error => rfl
    | ok entries => cases args.json <;> rfl

/-- A file that cannot be named is not read, and that is not reported. -/
theorem readText_of_hasNul (hnul : (args.document shell).hasNul = true) :
    ∃ failure, (args.opened shell settings).disk.readText (args.document shell) =
      .error failure ∧ ∀ error, failure ≠ .reported error := by
  by_cases hname : '\x00' ∈ settings.encoding
  · exact ⟨.unusableEncoding, by simp [Disk.readText, Arguments.opened, hname], nofun⟩
  · exact ⟨.unusablePath ⟨args.document shell⟩,
      by simp [Disk.readText, Arguments.opened, hname, hnul], nofun⟩

theorem commandEnds_runScan (hcommand : args.command = .scan) : CommandEnds shell args settings
      (codeOf? (runScan shell (args.opened shell settings) args (newSession settings)).1) := by
  have hbreaks : CommandBreaks shell args settings ↔
      (Path.ofText args.subject).hasNul = true ∨ (args.document shell).hasNul = true ∨
      EncodingFails shell args settings ∨
      ¬IsBadFile shell args settings ∧ HasBadEnvironment settings := by
    simp [CommandBreaks, hcommand]
  have hfinds : Finds shell args settings := by simp [Finds, hcommand]
  cases hsubject : (Path.ofText args.subject).hasNul with
  | true =>
    simp only [runScan, Path.usable, hsubject, if_true]
    exact .breaks (hbreaks.mpr (.inl hsubject))
  | false =>
    rw [codeOf?_runScan hsubject]
    cases hnul : (args.document shell).hasNul with
    | true =>
      obtain ⟨failure, hread, hreported⟩ := readText_of_hasNul hnul
      rw [hread, scanCode?_of_unreported hreported]
      exact .breaks (hbreaks.mpr (.inr (.inl hnul)))
    | false =>
      rcases readText_cases shell args settings hnul with
        ⟨hfails, failure, hread, hreported⟩ | ⟨hbad, hworks, error, hread⟩ |
          ⟨hgood, hworks, text, hread⟩
      · rw [hread, scanCode?_of_unreported hreported]
        exact .breaks (hbreaks.mpr (.inr (.inr (.inl hfails))))
      · rw [hread]
        exact .badFile (by simp [hbreaks, hsubject, hnul, hbad, hworks]) hcommand hbad
      · rw [hread, scanCode?]
        rcases scan_cases (args.opened shell settings) shell.gather text
          (args.document shell) (newSession settings) hnul with
            ⟨hbad, error, hscan⟩ | ⟨henvironments, entries, hscan⟩
        · rw [hscan]
          exact .breaks (hbreaks.mpr (.inr (.inr (.inr ⟨hgood, hbad⟩))))
        · rw [hscan]
          have henvironments : ¬HasBadEnvironment settings := henvironments
          exact .found (by simp [hbreaks, hsubject, hnul, hgood, hworks, henvironments])
            (by simp [hgood]) hfinds

/-! ### Whole runs -/

/-- The exit code of a command line, if it has one. -/
def Ending.code? : Ending → Option Nat
  | .usage reason => some reason.code
  | .printed answer => some answer.status.code
  | .broken _ => none

theorem code?_settingsEnding (error : SettingsError) :
    (settingsEnding error).code? = error.report?.map fun _ => 2 := by
  unfold settingsEnding
  cases error.report? <;> rfl

/-- With settings that leave room in the cache, the command decides. -/
theorem code?_runWith (h : 1 ≤ settings.cacheMaxEntries) :
    (runWith shell (args.root shell.directory) settings args).code? =
      codeOf? (runCommand shell (args.opened shell settings) args (newSession settings)).1 := by
  have hcapacity : ¬(settings.cacheMaxEntries : Int) < 1 := by omega
  have hopen : ∃ registry, Registry.openAt { directory := shell.directory, settings }
      (args.root shell.directory) =
        .ok ({ root := args.root shell.directory, number := 0, settings
               session := newSession settings }, registry) := by
    simp only [Registry.openAt, Registry.engineAt?, List.find?_nil, Session.create, Cache.create,
      if_neg hcapacity]
    exact ⟨_, rfl⟩
  obtain ⟨registry, hopen⟩ := hopen
  unfold runWith
  rw [hopen]
  simp only [Engine.workspace, Arguments.opened]
  generalize (runCommand _ _ _ _) = result
  obtain ⟨ending, session⟩ := result
  cases ending <;> rfl

theorem commandEnds_runWith (h : GivesSettings shell args settings) :
    CommandEnds shell args settings
      (runWith shell (args.root shell.directory) settings args).code? := by
  rw [code?_runWith h.one_le, runCommand]
  cases hcommand : args.command with
  | resolve => exact commandEnds_runResolve hcommand
  | contexts => exact commandEnds_runContexts hcommand
  | scan => exact commandEnds_runScan hcommand

/-- A command line without an exit code cannot say what is wrong with its settings, or its
command breaks. -/
theorem BreaksDown.cases (h : BreaksDown shell args) (hnul : args.workspace.hasNul = false) :
    SettingsUnreported shell args ∨ ∃ settings, GivesSettings shell args settings ∧
      CommandBreaks shell args settings := by
  cases h with
  | workspace hbad => simp [hnul] at hbad
  | settingsHidden hhidden => exact .inl (.inl hhidden)
  | settingsText hfile htext => exact .inl (.inr ⟨_, _, hfile, htext⟩)
  | command hgives hbreaks => exact .inr ⟨_, hgives, hbreaks⟩

/-- The exit codes of a command line. -/
inductive Ends (shell : Shell) (args : Arguments) : Option Nat → Prop
  | breaksDown (hbreaks : BreaksDown shell args) : Ends shell args none
  | badSettings (hworks : ¬BreaksDown shell args)
      (hnone : ∀ settings, ¬GivesSettings shell args settings) : Ends shell args (some 2)
  | command {settings : Settings} {code : Nat} (hworks : ¬BreaksDown shell args)
      (hgives : GivesSettings shell args settings)
      (hends : CommandEnds shell args settings (some code)) : Ends shell args (some code)

theorem run_eq {words : List Text} (hparse : parse words = .ok args)
    (hnul : args.workspace.hasNul = false) :
    run shell words =
      match loadSettings shell args with
      | .error error => settingsEnding error
      | .ok settings => runWith shell (args.root shell.directory) settings args := by
  simp only [run, hparse, Path.usable, hnul, Bool.false_eq_true, if_false]
  rfl

theorem ends_run {words : List Text} (hparse : parse words = .ok args) :
    Ends shell args (run shell words).code? := by
  cases hnul : args.workspace.hasNul with
  | true =>
    simp only [run, hparse, Path.usable, hnul, if_true]
    exact .breaksDown (.workspace hnul)
  | false =>
    rw [run_eq hparse hnul]
    rcases loadSettings_cases shell args with
      ⟨settings, hgives⟩ | hunreported | ⟨error, hload, hreport⟩
    · have hends := commandEnds_runWith hgives
      simp only [hgives.loadSettings_eq]
      generalize (runWith shell (args.root shell.directory) settings args).code? = code at hends
      have hbroken (hbreaks : BreaksDown shell args) : CommandBreaks shell args settings := by
        rcases hbreaks.cases hnul with hunreported | ⟨other, hother, hbreaks⟩
        · obtain ⟨error, hload, -⟩ := hunreported.loadSettings_eq
          simp [hgives.loadSettings_eq] at hload
        · exact hgives.unique hother ▸ hbreaks
      cases hends with
      | breaks hbreaks => exact .breaksDown (.command hgives hbreaks)
      | badFile hworks hcommand hbad =>
        exact .command (hworks <| hbroken ·) hgives (.badFile hworks hcommand hbad)
      | found hworks hgood hfinds =>
        exact .command (hworks <| hbroken ·) hgives (.found hworks hgood hfinds)
      | notFound hworks hgood hfinds =>
        exact .command (hworks <| hbroken ·) hgives (.notFound hworks hgood hfinds)
    · obtain ⟨error, hload, hreport⟩ := hunreported.loadSettings_eq
      simp only [hload, code?_settingsEnding, hreport]
      rcases hunreported with hhidden | ⟨path, place, hfile, htext⟩
      · exact .breaksDown (.settingsHidden hhidden)
      · exact .breaksDown (.settingsText hfile htext)
    · obtain ⟨report, hreport⟩ := Option.isSome_iff_exists.mp hreport
      have hnone (settings : Settings) (hgives : GivesSettings shell args settings) : False := by
        simp [hgives.loadSettings_eq] at hload
      simp only [hload, code?_settingsEnding, hreport]
      refine .badSettings (fun hbreaks => ?_) hnone
      rcases hbreaks.cases hnul with hunreported | ⟨settings, hgives, -⟩
      · obtain ⟨other, hother, hnoReport⟩ := hunreported.loadSettings_eq
        cases hload.symm.trans hother
        simp [hreport] at hnoReport
      · exact hnone settings hgives

/-- **How a command line ends, for every tree of files**: with 2 if it is given no settings,
with 3 if the file to scan is not text, and otherwise with 0 or 1 by what is found. The
command lines that have no exit code are those that break down. -/
theorem exitCode_run {words : List Text} (hparse : parse words = .ok args) :
    ((run shell words).code? = none ↔ BreaksDown shell args) ∧ ((run shell words).code? = some 2 ↔
        ¬BreaksDown shell args ∧ ∀ settings, ¬GivesSettings shell args settings) ∧
      ((run shell words).code? = some 3 ↔
        ¬BreaksDown shell args ∧ ∃ settings, GivesSettings shell args settings ∧
          args.command = .scan ∧ IsBadFile shell args settings) ∧
      ((run shell words).code? = some 0 ↔
        ¬BreaksDown shell args ∧ ∃ settings, GivesSettings shell args settings ∧
          ¬(args.command = .scan ∧ IsBadFile shell args settings) ∧
          Finds shell args settings) ∧
      ((run shell words).code? = some 1 ↔
        ¬BreaksDown shell args ∧ ∃ settings, GivesSettings shell args settings ∧
          ¬(args.command = .scan ∧ IsBadFile shell args settings) ∧
          ¬Finds shell args settings) := by
  have hends : Ends shell args (run shell words).code? := ends_run hparse
  generalize (run shell words).code? = code at hends
  cases hends with
  | breaksDown hbreaks => simp [hbreaks]
  | badSettings hworks hnone => simp [hworks, hnone]
  | @command settings code hworks hgives hends =>
    have hsome : ¬∀ settings, ¬GivesSettings shell args settings := fun h => h _ hgives
    have hexists (P : Settings → Prop) :
        (∃ other, GivesSettings shell args other ∧ P other) ↔ P settings := by
      constructor
      · rintro ⟨other, hother, h⟩
        exact hgives.unique hother ▸ h
      · intro h
        exact ⟨settings, hgives, h⟩
    simp only [hexists]
    cases hends with
    | badFile _ hcommand hbad => simp [hworks, hsome, hcommand, hbad]
    | found _ hgood hfinds => simp [hworks, hsome, hgood, hfinds]
    | notFound _ hgood hfinds => simp [hworks, hsome, hgood, hfinds]

/-- A shell in the root of a tree with some files. -/
def rootShell (files : List (String × Bytes)) : Shell :=
  { tree := files.foldl (fun tree file => tree.write [file.1.toList] file.2) {}
    directory := .ofText ['/'] }

/-- The bytes of a text in ASCII. -/
def asciiBytes (text : String) : Bytes := text.toList.map fun c => .ofNat c.toNat

/-- A settings file that is a list gives no settings. -/
theorem list_gives_no_settings :
    let shell := rootShell [(".tfresolver.json", asciiBytes "[1]")]
    let args : Arguments := { command := .scan, subject := "main.tf".toList }
    parse ["scan".toList, "main.tf".toList] = .ok args ∧
      ¬BreaksDown shell args ∧ ∀ settings, ¬GivesSettings shell args settings := by
  intro shell args
  have hparse : parse ["scan".toList, "main.tf".toList] = .ok args := rfl
  have hcode : (run shell ["scan".toList, "main.tf".toList]).code? = some 2 := by decide
  exact ⟨hparse, (exitCode_run hparse).2.1.mp hcode⟩

/-- Command lines without an exit code: the settings are not text, the encoding of the
settings does not exist, it has a NUL character in its name, its codec gives up over the file,
and the workspace has a name that is too long. -/
theorem run_without_code :
    (run (rootShell [(".tfresolver.json", [0xFF])])
        ["resolve".toList, "var.x".toList]).code? = none ∧
      (run (rootShell [(".tfresolver.json", asciiBytes "\x7b\"encoding\": \"no-such-codec\"\x7d"),
          ("main.tf", asciiBytes "x = 1\n")]) ["scan".toList, "main.tf".toList]).code? = none ∧
      (run (rootShell [(".tfresolver.json", asciiBytes "\x7b\"encoding\": \"utf-8\\u0000\"\x7d"),
          ("main.tf", asciiBytes "x = 1\n")]) ["scan".toList, "main.tf".toList]).code? = none ∧
      (run (rootShell [(".tfresolver.json", asciiBytes "\x7b\"encoding\": \"utf-16\"\x7d"),
          ("main.tf", asciiBytes "ab")]) ["scan".toList, "main.tf".toList]).code? = none ∧
      (run (rootShell []) ["resolve".toList, "var.x".toList, "--workspace".toList,
        List.replicate 256 'w']).code? = none := by
  decide +kernel

end CommandLine

end TerraformTrace
