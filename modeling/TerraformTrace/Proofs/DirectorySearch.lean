import TerraformTrace.Proofs.Ancestors
import TerraformTrace.Proofs.Follows

/-!
# TerraformTrace.Proofs.DirectorySearch

The search for an input in one directory. Texts without references are taken as they
stand, so nothing else has to be resolved: **the directory has the first text that it
assigns**, for direct evaluation (`Workspace.Settles.searchInput`) and for an engine
(`Workspace.Settles.answers_searchInput`), which enters no frame for it.
-/

namespace TerraformTrace

open Hcl

variable {text : Text} {sites : List (ModuleCall × List ModuleFrame)} {ctx : Context} {name : Text}

/-! ### Texts without references -/

theorem orderedReferences_eq_nil (h : references text = []) : orderedReferences text = [] := by
  rw [orderedReferences, h]
  rfl

theorem expand_of_references (h : references text = []) (nested : Context → Run Resolution)
    (ctx : Context) (dir : Path) (stack : List ModuleFrame) :
    expand nested ctx dir stack text = pure { value := some text } := by
  unfold expand
  rw [orderedReferences_eq_nil h]
  rfl

theorem Direct.expand_of_references (h : references text = [])
    (evaluate : Reference → Except Abort (Option Text)) :
    Direct.expand evaluate text = .ok (some text) := by
  unfold Direct.expand
  rw [orderedReferences_eq_nil h]
  rfl

theorem settle_of_references (h : references text = []) (nested : Context → Run Resolution)
    (ctx : Context) :
    settle nested ctx (some text) = pure (.settled { value := some text }) := by
  unfold settle
  dsimp only
  rw [expand_of_references h]
  rfl

theorem Direct.settle_of_references (h : references text = [])
    (evaluate : Reference → Except Abort (Option Text)) :
    Direct.settle evaluate (some text) = .ok (some (some text)) := by
  unfold Direct.settle
  dsimp only
  rw [Direct.expand_of_references h]
  rfl

/-! ### The search in one directory -/

/-- What is asked of what a directory assigns: none of its files of variables in JSON is
given up over the digits of an integer, nothing it assigns to the name is empty or has
references in it, and the local sources of the calls above it can be used where they
matter. -/
structure Workspace.Legible (ws : Workspace) (mode : SearchMode) (name : Text)
    (dir : Path) : Prop where
  digits : ∀ file ∈ ws.texts ws.settings.overrideSuffixes dir,
    Text.endsWith ".json".toList file.1.name = true →
    ∀ digits, Json.read file.2 ≠ .error (.tooManyDigits digits)
  texts : ∀ text ∈ ws.assignments mode name dir, text ≠ [] ∧ references text = []
  sources : mode = .enhanced → dir ≠ ws.root → ∀ call ∈ ws.calls dir.parent,
      isRemote ws.settings (unquote call.source) = false → '\x00' ∉ call.source

/-- Whether a text is given up over the digits of an integer. -/
def isOverlong (text : Text) : Bool :=
  match Json.read text with
  | .error (.tooManyDigits _) => true
  | _ => false

theorem isOverlong_eq_false :
    isOverlong text = false ↔ ∀ digits, Json.read text ≠ .error (.tooManyDigits digits) := by
  unfold isOverlong
  split
  next digits hread => simp [hread]
  next hread => simpa using hread

/-- Whether a directory is legible. -/
def Workspace.isLegible (ws : Workspace) (mode : SearchMode) (name : Text) (dir : Path) : Bool :=
  ((ws.texts ws.settings.overrideSuffixes dir).all fun file =>
    !Text.endsWith ".json".toList file.1.name || !isOverlong file.2) &&
  ((ws.assignments mode name dir).all fun text =>
    text ≠ [] && references text = []) &&
  (mode ≠ .enhanced || dir = ws.root || (ws.calls dir.parent).all fun call =>
      isRemote ws.settings (unquote call.source) || '\x00' ∉ call.source)

theorem Workspace.isLegible_iff {ws : Workspace} {mode : SearchMode} {dir : Path} :
    ws.isLegible mode name dir = true ↔ ws.Legible mode name dir := by
  simp only [isLegible, Bool.and_eq_true, List.all_eq_true, Bool.or_eq_true, Bool.not_eq_true',
    decide_eq_true_eq]
  constructor
  · rintro ⟨⟨hdigits, htexts⟩, hsources⟩
    refine ⟨fun file hfile hjson => ?_, htexts, fun hmode hne call hcall hlocal => ?_⟩
    · have hfile := (hdigits file hfile).resolve_left (Bool.ne_false_iff.mpr hjson)
      exact isOverlong_eq_false.mp hfile
    · have hcalls := hsources.resolve_left (not_or.mpr ⟨fun hother => hother hmode, hne⟩)
      exact (hcalls call hcall).resolve_left (Bool.eq_false_iff.mp hlocal)
  · rintro ⟨hdigits, htexts, hsources⟩
    refine ⟨⟨fun file hfile => ?_, htexts⟩, ?_⟩
    · by_cases hjson : Text.endsWith ".json".toList file.1.name = true
      · exact .inr (isOverlong_eq_false.mpr (hdigits file hfile hjson))
      · exact .inl (Bool.eq_false_iff.mpr hjson)
    · by_cases hmode : mode = .enhanced
      · by_cases hne : dir = ws.root
        · exact .inl (.inr hne)
        · refine .inr fun call hcall => ?_
          by_cases hremote : isRemote ws.settings (unquote call.source) = true
          · exact .inl hremote
          · exact .inr (hsources hmode hne call hcall (Bool.eq_false_iff.mpr hremote))
      · exact .inl (.inl hmode)

instance (ws : Workspace) (mode : SearchMode) (name : Text) (dir : Path) :
    Decidable (ws.Legible mode name dir) :=
  decidable_of_iff _ Workspace.isLegible_iff

/-- A directory on the way up. -/
structure Workspace.Settles (ws : Workspace) (mode : SearchMode) (name : Text)
    (dir : Path) : Prop extends ws.Legible mode name dir where
  exists_ : ws.HasDirectory dir
  inside : ws.contains dir = true

theorem Direct.firstFound_heads (lists : List (List Text)) :
    Direct.firstFound (lists.map fun list => .ok list.head?) = .ok lists.flatten.head? := by
  induction lists with
  | nil => rfl
  | cons list lists ih =>
    cases list with
    | nil => exact ih
    | cons text texts => rfl

/-- The texts of the call sites, in order. -/
def siteTexts (name : Text) (sites : List (ModuleCall × List ModuleFrame)) : List Text :=
  sites.filterMap fun site => site.1.inputs.get? name

theorem siteTexts_cons_none {site : ModuleCall × List ModuleFrame}
    (h : site.1.inputs.get? name = none) : siteTexts name (site :: sites) = siteTexts name sites :=
  List.filterMap_cons_none h

theorem siteTexts_cons_some {site : ModuleCall × List ModuleFrame}
    (h : site.1.inputs.get? name = some text) :
    siteTexts name (site :: sites) = text :: siteTexts name sites :=
  List.filterMap_cons_some h

theorem Direct.threadArguments_eq (h : ∀ text ∈ siteTexts name sites, references text = [])
    (evaluate : Reference → Path → List ModuleFrame → Except Abort (Option Text)) :
    Direct.threadArguments evaluate name sites = .ok (siteTexts name sites).head? := by
  induction sites with
  | nil => rfl
  | cons site sites ih =>
    obtain ⟨call, stack⟩ := site
    unfold Direct.threadArguments
    cases hget : call.inputs.get? name with
    | none =>
      rw [siteTexts_cons_none hget] at h ⊢
      exact ih h
    | some argument =>
      rw [siteTexts_cons_some hget] at h ⊢
      dsimp only
      rw [Direct.expand_of_references (h argument List.mem_cons_self)]
      rfl

/-- An argument without references is taken as it stands. -/
theorem Answers.threadArguments {ws : Workspace} {I : Session → Prop} [Recalls ws I]
    (h : ∀ text ∈ siteTexts ctx.reference.name sites, references text = [])
    (nested : Context → Run Resolution) :
    Answers I (threadArguments nested ctx true sites)
      (.ok { value := (siteTexts ctx.reference.name sites).head? }) := by
  induction sites with
  | nil => exact pure _
  | cons site sites ih =>
    obtain ⟨call, stack⟩ := site
    rw [threadArguments_cons]
    cases hget : call.inputs.get? ctx.reference.name with
    | none =>
      rw [siteTexts_cons_none hget] at h ⊢
      exact ih h
    | some argument =>
      rw [siteTexts_cons_some hget] at h ⊢
      dsimp only
      rw [expand_of_references (h argument List.mem_cons_self)]
      exact note_bind (by simp) (pure _)

namespace Workspace

/-- What is looked up before the arguments of calls. -/
def foundFirst (ws : Workspace) (name : Text) (dir : Path) : List Text :=
  ws.overrides name dir ++ ws.declarations (localValue? · name) dir ++
    ws.declarations (outputValue? · name) dir

theorem assignments_eq (ws : Workspace) (mode : SearchMode) (name : Text) (dir : Path) :
    ws.assignments mode name dir = ws.foundFirst name dir ++ (ws.arguments mode name dir ++
        ws.declarations (variableDefault? · name) dir) :=
  List.append_assoc ..

namespace Settles

variable {ws : Workspace} {mode : SearchMode} {name : Text} {dir : Path}
  (h : ws.Settles mode name dir) (hworks : ws.disk.Works)
  (hroot : ws.root.IsNormal)

include h

theorem text_of_foundFirst (hmem : text ∈ ws.foundFirst name dir) :
    text ≠ [] ∧ references text = [] :=
  h.texts text (by simp [assignments_eq, hmem])

theorem text_of_arguments (hmem : text ∈ ws.arguments mode name dir) :
    text ≠ [] ∧ references text = [] :=
  h.texts text (by simp [assignments_eq, hmem])

theorem text_of_defaults (hmem : text ∈ ws.declarations (variableDefault? · name) dir) :
    text ≠ [] ∧ references text = [] :=
  h.texts text (by simp [assignments_eq, hmem])

include hworks

theorem firstFound :
    Direct.firstFound [Direct.override ws name dir,
      Direct.localValue ws name dir, Direct.output ws name dir] =
      .ok (ws.foundFirst name dir).head? := by
  have hne : ∀ text ∈ ws.foundFirst name dir, text ≠ [] :=
    fun text hmem => (h.text_of_foundFirst hmem).1
  have hoverride : Direct.override ws name dir = .ok (ws.overrides name dir).head? :=
    Direct.override_eq hworks h.exists_ h.digits
      fun text hmem => hne text (by simp [foundFirst, hmem])
  have hlocal : Direct.localValue ws name dir =
      .ok (ws.declarations (localValue? · name) dir).head? :=
    Direct.declared_eq hworks h.exists_ fun text hmem => hne text (by simp [foundFirst, hmem])
  have houtput : Direct.output ws name dir =
      .ok (ws.declarations (outputValue? · name) dir).head? :=
    Direct.declared_eq hworks h.exists_ fun text hmem => hne text (by simp [foundFirst, hmem])
  rw [hoverride, hlocal, houtput]
  have hheads := Direct.firstFound_heads [ws.overrides name dir,
    ws.declarations (localValue? · name) dir,
    ws.declarations (outputValue? · name) dir]
  simpa [foundFirst] using hheads

theorem default : Direct.default ws name dir =
    .ok (ws.declarations (variableDefault? · name) dir).head? :=
  Direct.declared_eq hworks h.exists_ fun _ hmem => (h.text_of_defaults hmem).1

include hroot

theorem hasNul_root : ws.root.hasNul = false := by
  have hdir := Path.hasNul_eq_false.mp (hworks.hasNul h.exists_)
  have hwithin := (contains_iff hroot h.exists_.normal).mp h.inside
  exact Path.hasNul_eq_false.mpr fun part hpart => hdir part (hwithin.subset hpart)

/-- The call sites of a directory that was not entered by a call. -/
theorem callSites (hmode : mode = .enhanced) {stack : List ModuleFrame}
    (hstack : ∀ frame, stack.getLast? = some frame → frame.directory ≠ dir) :
    Direct.callSites ws dir stack = .ok ((ws.callsInto dir).map fun call => (call, stack)) := by
  have hparent : dir ≠ ws.root → ws.contains dir.parent = true ∧ ws.HasDirectory dir.parent :=
    fun hne => ⟨contains_parent hroot h.exists_.normal h.inside hne, h.exists_.parent⟩
  have hcalls := Direct.callsInto_eq hworks (h.hasNul_root hworks hroot) hparent (h.sources hmode)
  unfold Direct.callSites
  rw [hcalls]
  split
  next frame hframe => exact if_neg (hstack frame hframe)
  next => rfl

omit hworks hroot in
theorem references_of_siteTexts (hmode : mode = .enhanced) (stack : List ModuleFrame) :
    ∀ text ∈ siteTexts name ((ws.callsInto dir).map fun call => (call, stack)),
      references text = [] := by
  intro text hmem
  rw [siteTexts, List.filterMap_map] at hmem
  subst hmode
  exact (h.text_of_arguments hmem).2

theorem threadedInput
    (evaluate : Reference → Path → List ModuleFrame → Except Abort (Option Text)) :
    Direct.threadedInput ws mode evaluate name dir [] = .ok (ws.arguments mode name dir).head? := by
  cases mode with
  | plain => rfl
  | enhanced =>
    unfold Direct.threadedInput
    rw [h.callSites hworks hroot rfl (by simp)]
    show Direct.threadArguments evaluate name _ = _
    rw [Direct.threadArguments_eq (h.references_of_siteTexts rfl []), siteTexts, List.filterMap_map]
    rfl

/-- A directory has the first text that it assigns, whatever references mean. -/
theorem searchInput (evaluate : Reference → Path → List ModuleFrame → Except Abort (Option Text)) :
    Direct.searchInput ws mode evaluate name dir [] =
      .ok ((ws.assignments mode name dir).head?.map some) := by
  unfold Direct.searchInput
  rw [h.firstFound hworks, h.threadedInput hworks hroot, h.default hworks, assignments_eq]
  cases hfirst : ws.foundFirst name dir with
  | cons text texts =>
    have htext := h.text_of_foundFirst (hfirst ▸ List.mem_cons_self)
    exact Direct.settle_of_references htext.2 _
  | nil =>
    -- nothing comes before the arguments, and a default counts only without one
    cases hargs : ws.arguments mode name dir with
    | cons text texts => rfl
    | nil =>
      cases hdefaults : ws.declarations (variableDefault? · name) dir with
      | nil => rfl
      | cons text texts =>
        have htext := h.text_of_defaults (hdefaults ▸ List.mem_cons_self)
        exact Direct.settle_of_references htext.2 _

variable {I : Session → Prop} [Recalls ws I]

theorem answers_threadedInput (hname : ctx.reference.name = name) (hdir : ctx.directory = dir)
    (hstack : ∀ frame, ctx.stack.getLast? = some frame → frame.directory ≠ dir)
    (nested : Context → Run Resolution) :
    Answers I (TerraformTrace.threadedInput ws mode nested ctx)
      (.ok { value := (ws.arguments mode name dir).head? }) := by
  subst hname hdir
  cases mode with
  | plain => exact Answers.pure _
  | enhanced =>
    have hsites : Answers I (TerraformTrace.callSites ws ctx) _ :=
      Answers.callSites hroot h.exists_.normal
    rw [h.callSites hworks hroot rfl hstack] at hsites
    have hthreaded : Answers I _ _ :=
      Answers.threadArguments (h.references_of_siteTexts rfl ctx.stack) nested
    rw [siteTexts, List.filterMap_map] at hthreaded
    exact Answers.ok_bind hsites hthreaded

omit hroot in
theorem answers_searchDefault (hname : ctx.reference.name = name)
    (hdir : ctx.directory = dir) (nested : Context → Run Resolution) :
    Answers I (TerraformTrace.searchDefault ws nested ctx .notFound)
      (searched (.ok ((ws.declarations (variableDefault? · name) dir).head?.map some))) := by
  subst hname hdir
  have hdefault : Answers I
      (lookupDefault ws ctx.reference.name ctx.directory) _ :=
    Answers.lookupDefault h.exists_.normal ctx.reference.name
  rw [h.default hworks] at hdefault
  refine Answers.ok_bind hdefault ?_
  cases hdefaults : ws.declarations (variableDefault? · ctx.reference.name) ctx.directory with
  | nil => exact Answers.pure _
  | cons text texts =>
    have htext := h.text_of_defaults (hdefaults ▸ List.mem_cons_self)
    rw [List.head?_cons, settle_of_references htext.2]
    exact Answers.pure _

/-- The engine finds the same without entering a frame. -/
theorem answers_searchInput (hname : ctx.reference.name = name) (hdir : ctx.directory = dir)
    (hstack : ∀ frame, ctx.stack.getLast? = some frame → frame.directory ≠ dir)
    (nested : Context → Run Resolution) :
    Answers I (TerraformTrace.searchInput ws mode nested ctx)
      (searched (.ok ((ws.assignments mode name dir).head?.map some))) := by
  have hthreaded : Answers I _ _ := h.answers_threadedInput hworks hroot hname hdir hstack nested
  have hdefault : Answers I _ _ := h.answers_searchDefault hworks hname hdir nested
  have hfound : Answers I _ _ :=
    Answers.firstFound_input (hdir ▸ h.exists_.normal) ctx.reference.name
  rw [hname, hdir, h.firstFound hworks] at hfound
  rw [searchInput_eq, assignments_eq, hname, hdir]
  refine Answers.ok_bind hfound ?_
  cases hfirst : ws.foundFirst name dir with
  | cons text texts =>
    have htext := h.text_of_foundFirst (hfirst ▸ List.mem_cons_self)
    show Answers I (TerraformTrace.settle nested ctx (some text)) _
    rw [settle_of_references htext.2]
    exact Answers.pure _
  | nil =>
    refine Answers.ok_bind hthreaded ?_
    cases hargs : ws.arguments mode name dir with
    | cons text texts => exact Answers.pure _
    | nil => exact hdefault

end Settles

end Workspace

/-! ### Requests -/

section Requests

variable {ws : Workspace} {mode : SearchMode} {wanted : Wanted} {start : Path}

theorem usablePath_of_hasNul (hnul : start.hasNul = false) : usablePath start = pure start := by
  simp [usablePath, Path.usable, hnul]

theorem checkDirectory_of_works (hworks : ws.disk.Works) (path : Path) :
    checkDirectory ws path = pure (ws.disk.tree.isDirectory path) := by
  simp [checkDirectory, Disk.isDirectory, hworks.outages]

/-- A request for a reference from a directory of the workspace is the frame of it. -/
theorem sought_eq (hworks : ws.disk.Works) {ref : Reference}
    (hwanted : wanted.reference? = some ref) (hnul : start.hasNul = false)
    (hcontains : ws.contains (ws.normalize start) = true)
    (hdir : ws.disk.tree.isDirectory (ws.normalize start) = true) :
    sought ws mode wanted start =
      (do return (← resolveFrom ws mode ref (ws.normalize start)).value) := by
  unfold sought
  rw [hwanted, usablePath_of_hasNul hnul]
  simp only [pure_bind, hcontains, checkDirectory_of_works hworks, hdir]
  rfl

/-- A request from outside the workspace finds nothing. -/
theorem outcome_sought_of_not_contains (hnul : start.hasNul = false)
    (hcontains : ws.contains (ws.normalize start) = false) (s : Session) :
    outcome (sought ws mode wanted start) s = .ok none := by
  unfold sought
  cases wanted.reference? with
  | none => rfl
  | some ref =>
    rw [usablePath_of_hasNul hnul]
    simp only [pure_bind, hcontains]
    rfl

/-- A request from a place that is not a directory finds nothing. -/
theorem outcome_sought_of_not_isDirectory (hworks : ws.disk.Works) (hnul : start.hasNul = false)
    (hdir : ws.disk.tree.isDirectory (ws.normalize start) = false)
    (s : Session) : outcome (sought ws mode wanted start) s = .ok none := by
  unfold sought
  cases wanted.reference? with
  | none => rfl
  | some ref =>
    rw [usablePath_of_hasNul hnul]
    simp only [pure_bind, checkDirectory_of_works hworks, hdir]
    split <;> rfl

end Requests

end TerraformTrace
