import TerraformTrace.Proofs.PassThrough
import TerraformTrace.Proofs.Recollection

/-!
# TerraformTrace.Proofs.CallSite

What a call passes to a module for an input comes out of the module at an output that is nothing
but that input: a *passage* through the module. Calls of one module share its directory, its
output and its input, and all that tells them apart on the way is the call at the top of the
stack. **Each call gets back what it passed itself** (`delivered_answer_eq`), whatever other calls
were asked for before on the same engine.

**What may be remembered.** Of the two frames of a passage only the text of its call may be
remembered. The key of the outer frame names the call, and that of the inner one has it in the
signature of its stack, so the frames of two calls do not share a key.
-/

namespace TerraformTrace

open Hcl

/-! ### Places -/

/-- A directory of a workspace on a disk that works. -/
structure Workspace.IsPlace (ws : Workspace) (dir : Path) : Prop where
  root : ws.root.IsNormal
  works : ws.disk.Works
  exists_ : ws.HasDirectory dir
  contains : ws.contains dir = true

namespace Workspace.IsPlace

variable {ws : Workspace} {dir : Path}

theorem parent (hat : ws.IsPlace dir) (hne : dir ≠ ws.root) : ws.IsPlace dir.parent :=
  ⟨hat.root, hat.works, hat.exists_.parent,
    Workspace.contains_parent hat.root hat.exists_.normal hat.contains hne⟩

theorem above (hat : ws.IsPlace dir) {place : Path}
    (habove : place ∈ ws.upToRoot dir) : ws.IsPlace place := by
  obtain ⟨hexists, hcontains⟩ := hat.exists_.above hat.root hat.contains habove
  exact ⟨hat.root, hat.works, hexists, hcontains⟩

theorem moduleCalls_eq (hat : ws.IsPlace dir) : Direct.moduleCalls ws dir = .ok (ws.calls dir) :=
  Direct.moduleCalls_eq hat.works hat.exists_

end Workspace.IsPlace

/-! ### Passages through modules -/

/-- The reference to an output of a called module. -/
def Reference.ofOutput (call output : Text) : Reference :=
  { kind := .moduleOutput, segments := [call, output], enough := Nat.le_refl 2 }

theorem Reference.isWellFormed_ofOutput {call output : Text} (hcall : Text.isName call = true)
    (houtput : Text.isName output = true) : (Reference.ofOutput call output).IsWellFormed := by
  intro segment hsegment
  rcases List.mem_cons.mp hsegment with rfl | hsegment
  · exact hcall
  · rwa [List.mem_singleton.mp hsegment]

/-- A way through a module: a call, and an output of the module that is one of its inputs. -/
structure Passage where
  call : ModuleCall
  /-- The directory of the module. -/
  target : Path
  input : Text
  output : Text
deriving DecidableEq, Repr

namespace Passage

/-- What asks for the output. -/
def reference (passage : Passage) : Reference := .ofOutput passage.call.name passage.output

/-- The module, entered by the call. -/
def frame (passage : Passage) : ModuleFrame :=
  { call := passage.call, directory := passage.target }

/-- What the call passes for the input. -/
def argument? (passage : Passage) : Option Text := passage.call.inputs.get? passage.input

end Passage

/-- The first call of its name in a directory is that of a passage: its source names the
directory of the module, the output there is the input, and nothing else there has the name of
the input before its default. -/
structure Workspace.HasPassage (ws : Workspace) (dir : Path) (passage : Passage) : Prop where
  callName : Text.isName passage.call.name = true
  inputName : Text.isName passage.input = true
  outputName : Text.isName passage.output = true
  called : (ws.calls dir).find? (·.name = passage.call.name) = some passage.call
  source : Direct.modulePath ws passage.call.source dir = .ok (some passage.target)
  passed : (ws.declarations (outputValue? · passage.output) passage.target).head? =
    some (Reference.ofInput passage.input).text
  overrides : ws.overrides passage.input passage.target = []
  digits : ws.hasOverlong passage.target = false
  locals : ws.declarations (localValue? · passage.input) passage.target = []
  outputs : ws.declarations (outputValue? · passage.input) passage.target = []

namespace Workspace.HasPassage

variable {ws : Workspace} {dir : Path} {passage other : Passage}

theorem isWellFormed (h : ws.HasPassage dir passage) : passage.reference.IsWellFormed :=
  Reference.isWellFormed_ofOutput h.callName h.outputName

section Two

variable (h : ws.HasPassage dir passage) (h' : ws.HasPassage dir other)

include h h'

/-- A call is told by its name. -/
theorem call_eq (hname : passage.call.name = other.call.name) : passage.call = other.call := by
  have hcalled := h.called
  rw [hname, h'.called] at hcalled
  exact (Option.some.inj hcalled).symm

/-- So is the directory of its module, and with the output also the input. -/
theorem target_eq (hname : passage.call.name = other.call.name) :
    passage.target = other.target := by
  have hsource := h.source
  rw [h.call_eq h' hname, h'.source] at hsource
  exact (Option.some.inj (Except.ok.inj hsource)).symm

theorem input_eq (hname : passage.call.name = other.call.name)
    (houtput : passage.output = other.output) : passage.input = other.input := by
  have hpassed := h.passed
  rw [houtput, h.target_eq h' hname, h'.passed] at hpassed
  have href := (Reference.isWellFormed_ofInput h'.inputName).text_inj
    (Reference.isWellFormed_ofInput h.inputName) (Option.some.inj hpassed)
  exact (List.cons.inj (congrArg Reference.segments href)).1.symm

/-- References to outputs of passages are told apart by their texts. -/
theorem names_eq (htext : passage.reference.text = other.reference.text) :
    passage.call.name = other.call.name ∧ passage.output = other.output := by
  have href := h.isWellFormed.text_inj h'.isWellFormed htext
  have hsegments := List.cons.inj (congrArg Reference.segments href)
  exact ⟨hsegments.1, (List.cons.inj hsegments.2).1⟩

end Two

/-- A reference to an output is not one to an input. -/
theorem text_ne (h : ws.HasPassage dir passage) {name : Text}
    (hname : Text.isName name = true) : passage.reference.text ≠ (Reference.ofInput name).text := by
  intro htext
  have href := h.isWellFormed.text_inj (Reference.isWellFormed_ofInput hname) htext
  cases congrArg Reference.kind href

variable (hat : ws.IsPlace dir) (h : ws.HasPassage dir passage)

include hat h

theorem isPlace : ws.IsPlace passage.target := ⟨hat.root, hat.works, hasDirectory_of_declarations
    (Direct.isNormal_of_modulePath hat.root hat.exists_.normal.2.1 h.source) h.passed,
    Direct.contains_of_modulePath h.source⟩

theorem call_directory : passage.call.directory = dir :=
  Direct.directory_of_mem hat.moduleCalls_eq (List.mem_of_find?_eq_some h.called)

theorem output_eq : Direct.output ws passage.output passage.target =
    .ok (some (Reference.ofInput passage.input).text) := by
  refine (Direct.declared_eq_bind hat.works (h.isPlace hat).exists_).trans ?_
  rw [h.passed]
  simp [present?, (Reference.ofInput passage.input).text_ne_nil]

end Workspace.HasPassage

/-! ### Names that are not assigned -/

/-- Nothing is looked up for a name that no file of variables, no local value and no output of a
directory has. -/
theorem Direct.firstFound_eq_none {ws : Workspace} {dir : Path} (hat : ws.IsPlace dir) {name : Text}
    (hoverrides : ws.overrides name dir = [])
    (hdigits : ws.hasOverlong dir = false)
    (hlocals : ws.declarations (localValue? · name) dir = [])
    (houtputs : ws.declarations (outputValue? · name) dir = []) :
    firstFound [override ws name dir, localValue ws name dir, output ws name dir] = .ok none := by
  have hoverride : override ws name dir = .ok none := by
    rcases override_of_overrides_eq_nil hat.works hat.exists_ hoverrides with
      ⟨-, hnone⟩ | ⟨hlong, -⟩
    · exact hnone
    · rw [hdigits] at hlong
      cases hlong
  have hlocal : localValue ws name dir = .ok none := by
    refine (declared_eq_bind hat.works hat.exists_).trans ?_
    rw [hlocals]
    rfl
  have houtput : output ws name dir = .ok none := by
    refine (declared_eq_bind hat.works hat.exists_).trans ?_
    rw [houtputs]
    rfl
  rw [hoverride, hlocal, houtput]
  rfl

/-! ### Through a passage -/

section Through

variable {ws : Workspace} {dir : Path} {passage : Passage} {ctx : Context}
  {nested : Context → Run Resolution}
  {Allowed Later : SearchMode → List Text → Remembered → Prop}
  (hat : ws.IsPlace dir) (h : ws.HasPassage dir passage)

include hat h

/-- The output of a passage leads to the input inside the module, entered by the call. -/
theorem leads_chaseOutput (href : ctx.reference = passage.reference)
    (hplace : ctx.directory = dir) {P : Resolution → Prop}
    (hnested : LeadsOn ws Allowed Later (nested (ctx.child (.ofInput passage.input) passage.target
        (ctx.entering passage.frame))) P) :
    LeadsOn ws Allowed Later (chaseOutput ws .enhanced nested ctx) P := by
  unfold chaseOutput
  rw [href, hplace]
  refine Leads.answer_bind (Answers.moduleCallsOf hat.exists_.normal) hat.moduleCalls_eq ?_
  simp only [h.called]
  rw [h.call_directory hat]
  refine Leads.answer_bind (Answers.modulePath hat.root _ hat.exists_.normal.2.1) h.source ?_
  refine Leads.answer_bind (Answers.lookupOutput (h.isPlace hat).exists_.normal _)
    (h.output_eq hat) ?_
  dsimp only
  rw [expand_text (Reference.isWellFormed_ofInput h.inputName)]
  exact hnested

section Inner

variable (href : ctx.reference = .ofInput passage.input) (hplace : ctx.directory = passage.target)
  (hmodule : ctx.currentModule? = some passage.frame) {argument : Text}
  (hargument : passage.argument? = some argument)

include href hplace hmodule hargument

/-- The argument of the call that the module was entered by is the one that counts. -/
theorem leads_threadInput {value : Option Text}
    (hexpand : LeadsOn ws Allowed Later
      (expand nested ctx dir ctx.leaving argument) (·.value = value)) :
    LeadsOn ws Allowed Later (threadInput ws nested ctx) (·.value = value) := by
  have hsites : callSites ws ctx = pure [(passage.call, ctx.leaving)] := by
    unfold callSites
    rw [hmodule, hplace]
    exact if_pos rfl
  have hname : ctx.reference.name = passage.input := by rw [href]; rfl
  unfold threadInput
  rw [hsites, pure_bind, threadArguments_cons, hname]
  rw [show passage.call.inputs.get? passage.input = some argument from hargument]
  dsimp only
  rw [h.call_directory hat]
  refine Leads.bind hexpand fun threaded hthreaded => ?_
  refine Recollects.note_bind _ ?_
  cases value with
  | some text =>
    rw [hthreaded]
    exact Leads.pure hthreaded
  | none =>
    rw [hthreaded]
    exact Leads.pure rfl

/-- Inside the module the search for the input goes on with what its call gives it. -/
theorem leads_searchDirectory {value : Option Text}
    (hexpand : LeadsOn ws Allowed Later
      (expand nested ctx dir ctx.leaving argument) (·.value = value))
    {P : SearchOutcome → Prop}
    (hrest : ∀ threaded : Resolution, threaded.value = value →
      LeadsOn ws Later Later (searchDefault ws nested ctx threaded) P) :
    LeadsOn ws Allowed Later (searchDirectory ws .enhanced nested ctx) P := by
  have hkind : ctx.reference.kind = .input := by rw [href]; rfl
  have hthreaded := leads_threadInput hat h href hplace hmodule hargument hexpand
  unfold searchDirectory
  rw [hkind]
  show Leads _ _ (searchInput ws .enhanced nested ctx) P
  rw [searchInput_eq, href, hplace]
  refine Leads.answer_bind (Answers.firstFound_input (h.isPlace hat).exists_.normal _)
    (Direct.firstFound_eq_none (h.isPlace hat) h.overrides h.digits h.locals h.outputs) ?_
  exact Leads.bind hthreaded hrest

/-- An input that its call gives a value is found inside the module. -/
theorem leads_searchSymbol_of_argument {value : Text}
    (hexpand : LeadsOn ws Allowed Later
      (expand nested ctx dir ctx.leaving argument) (·.value = some value)) :
    LeadsOn ws Allowed Later (searchSymbol ws .enhanced nested ctx) (·.value = some value) := by
  have hsearch : LeadsOn ws Allowed Later (searchDirectory ws .enhanced nested ctx)
      fun found => ∃ resolution, found = .settled resolution ∧ resolution.value = some value := by
    refine leads_searchDirectory hat h href hplace hmodule hargument hexpand
      fun threaded hthreaded => ?_
    unfold searchDefault
    rw [hthreaded]
    exact Leads.pure ⟨threaded, rfl, hthreaded⟩
  refine Leads.bind hsearch fun found hfound => ?_
  obtain ⟨resolution, rfl, hvalue⟩ := hfound
  exact Leads.pure hvalue

end Inner

/-- An output has the value that its input has inside the module. -/
theorem leads_searchSymbol_of_nested (href : ctx.reference = passage.reference)
    (hplace : ctx.directory = dir) {value : Text}
    (hnested : LeadsOn ws Allowed Later (nested (ctx.child (.ofInput passage.input) passage.target
        (ctx.entering passage.frame))) (·.value = some value)) :
    LeadsOn ws Allowed Later (searchSymbol ws .enhanced nested ctx) (·.value = some value) := by
  have hchase := leads_chaseOutput hat h href hplace hnested
  have hkind : ctx.reference.kind = .moduleOutput := by rw [href]; rfl
  unfold searchSymbol searchDirectory
  rw [hkind, bind_assoc]
  refine Leads.bind hchase fun chased hchased => ?_
  rw [hchased]
  exact Leads.pure hchased

end Through

/-! ### Calls that pass texts -/

/-- A passage whose call passes a text without references. -/
structure Workspace.Delivers (ws : Workspace) (dir : Path) (passage : Passage)
    (text : Text) : Prop extends ws.HasPassage dir passage where
  argument : passage.argument? = some text
  nonempty : text ≠ []
  references : references text = []

/-- The frame that asks for the output. -/
def Passage.outer (dir : Path) (passage : Passage) : Context :=
  { reference := passage.reference, directory := dir }

/-- The frame of the input inside the module. -/
def Passage.inner (dir : Path) (passage : Passage) : Context :=
  (passage.outer dir).child (.ofInput passage.input) passage.target [passage.frame]

/-- The text of its call is all that may be remembered of a frame of a passage. -/
def Workspace.Isolates (ws : Workspace) (dir : Path) (_ : SearchMode)
    (parts : List Text) (value : Remembered) : Prop :=
  ∀ passage text, ws.Delivers dir passage text →
    parts = (passage.outer dir).keyParts ∨ parts = (passage.inner dir).keyParts →
    value = .text text

section Delivers

variable {ws : Workspace} {dir : Path} {passage other : Passage} {text text' : Text}

namespace Workspace.Delivers

variable (h : ws.Delivers dir passage text) (h' : ws.Delivers dir other text')

include h h'

theorem text_eq (hname : passage.call.name = other.call.name)
    (hinput : passage.input = other.input) : text = text' := by
  have hargument := h.argument
  rw [Passage.argument?, h.call_eq h'.toHasPassage hname, hinput] at hargument
  exact Option.some.inj (hargument.symm.trans h'.argument)

/-- The key of the outer frame names the call and the output. -/
theorem text_eq_of_outer (hparts : (passage.outer dir).keyParts = (other.outer dir).keyParts) :
    text = text' := by
  obtain ⟨hname, houtput⟩ := h.names_eq h'.toHasPassage (List.cons.inj hparts).1
  exact h.text_eq h' hname (h.input_eq h'.toHasPassage hname houtput)

/-- The key of the inner frame names the input, and its stack the call. -/
theorem text_eq_of_inner (hat : ws.IsPlace dir)
    (hparts : (passage.inner dir).keyParts = (other.inner dir).keyParts) :
    text = text' := by
  simp only [Context.keyParts, Passage.inner, Context.child, List.map_cons, List.map_nil,
    List.cons.injEq, and_true] at hparts
  obtain ⟨hinput, -, -, hsignature⟩ := hparts
  have href := (Reference.isWellFormed_ofInput h.inputName).text_inj
    (Reference.isWellFormed_ofInput h'.inputName) hinput
  have hname : passage.call.name = other.call.name := by
    have hcalls : passage.frame.signature = other.frame.signature := by
      simpa [Text.join] using hsignature
    simp only [ModuleFrame.signature, Passage.frame, h.call_directory hat,
      h'.call_directory hat] at hcalls
    exact List.append_cancel_left hcalls
  exact h.text_eq h' hname (List.cons.inj (congrArg Reference.segments href)).1

theorem keyParts_ne : (passage.outer dir).keyParts ≠ (other.inner dir).keyParts :=
  fun hparts => h.text_ne h'.inputName (List.cons.inj hparts).1

end Workspace.Delivers

end Delivers

/-! ### Requests for outputs of passages -/

section Requests

variable {ws : Workspace} {dir : Path} {passage : Passage} {text : Text} (hat : ws.IsPlace dir)

include hat

/-- The text of the call may be remembered of its frames. -/
theorem isolates_of_delivers (h : ws.Delivers dir passage text) {mode : SearchMode}
    {parts : List Text} (hparts : parts = (passage.outer dir).keyParts ∨
      parts = (passage.inner dir).keyParts) :
    ws.Isolates dir mode parts (.text text) := by
  intro other text' hother hparts'
  refine congrArg Remembered.text ?_
  rcases hparts with rfl | rfl
  · rcases hparts' with houter | hinner
    · exact h.text_eq_of_outer hother houter
    · exact absurd hinner (h.keyParts_ne hother)
  · rcases hparts' with houter | hinner
    · exact absurd houter.symm (hother.keyParts_ne h)
    · exact h.text_eq_of_inner hother hat hinner

/-- A frame of a passage comes to the text of the call. -/
theorem leads_frame_of_delivers (h : ws.Delivers dir passage text)
    {ctx : Context} (hctx : ctx = passage.outer dir ∨
      ctx = passage.inner dir) (hcycle : ctx.isCycle = false)
    {compute : Run Resolution}
    (hcompute : LeadsOn ws (ws.Isolates dir) (ws.Isolates dir) compute (·.value = some text)) :
    LeadsOn ws (ws.Isolates dir) (ws.Isolates dir)
      (frame .enhanced ctx compute) (·.value = some text) := by
  have hparts : ctx.keyParts = (passage.outer dir).keyParts ∨
      ctx.keyParts = (passage.inner dir).keyParts :=
    hctx.imp (congrArg Context.keyParts) (congrArg Context.keyParts)
  refine Recollects.frame (P := (· = some text)) (fun _ _ _ hallowed => hallowed)
    (fun hcut => absurd hcut (by simp [hcycle])) (fun known hknown => ?_) (fun value hvalue => ?_)
    hcompute
  · rw [hknown passage text h hparts]
    simp [Remembered.asText, present?, h.nonempty]
  · rw [hvalue]
    exact isolates_of_delivers hat h hparts

/-- Asking for the output comes to the text of the call. -/
theorem leads_resolveFrom_of_delivers (hdepth : 0 < ws.settings.maxDepth)
    (h : ws.Delivers dir passage text) :
    LeadsOn ws (ws.Isolates dir) (ws.Isolates dir)
      (resolveFrom ws .enhanced passage.reference dir) (·.value = some text) := by
  obtain ⟨left, hleft⟩ := Nat.exists_eq_succ_of_ne_zero (Nat.ne_of_gt hdepth)
  have hcycle : (passage.inner dir).isCycle = false := by
    refine Bool.eq_false_iff.mpr fun hcycle => ?_
    have hmem := List.contains_iff_mem.mp hcycle
    simp only [Passage.inner, Context.child, Passage.outer, List.insert_nil,
      List.mem_singleton, Context.key, Prod.mk.injEq] at hmem
    exact h.text_ne h.inputName hmem.2.symm
  have hinner : LeadsOn ws (ws.Isolates dir) (ws.Isolates dir)
      (resolveFrame ws .enhanced (left + 1) (passage.inner dir))
      (·.value = some text) := by
    refine leads_frame_of_delivers hat h (.inr rfl) hcycle ?_
    refine leads_searchSymbol_of_argument hat h.toHasPassage rfl rfl rfl h.argument ?_
    rw [expand_of_references h.references]
    exact Leads.pure rfl
  unfold resolveFrom
  rw [hleft]
  refine leads_frame_of_delivers hat h (.inl rfl) rfl ?_
  exact leads_searchSymbol_of_nested hat h.toHasPassage rfl rfl hinner

end Requests

/-- A request for the output of a passage from its directory, or one that does not ask for a
value. -/
def Request.AsksPassage (ws : Workspace) (dir : Path) : Request → Prop
  | .value mode wanted place => mode = .enhanced ∧ place.hasNul = false ∧
    ws.normalize place = dir ∧ ∃ passage text,
      ws.Delivers dir passage text ∧ wanted.reference? = some passage.reference
  | request => request.isUpkeep = true

section Runs

variable {ws : Workspace} {dir : Path} (hat : ws.IsPlace dir) (hdepth : 0 < ws.settings.maxDepth)

include hat hdepth

theorem recollects_resolveIn {passage : Passage} {text : Text}
    (h : ws.Delivers dir passage text) {wanted : Wanted}
    (hwanted : wanted.reference? = some passage.reference) {start : Path}
    (hnul : start.hasNul = false) (hstart : ws.normalize start = dir) {s : Session}
    (hs : Recollects ws (ws.Isolates dir) s) :
    (resolveIn ws .enhanced wanted start s).1 = some text ∧ Recollects ws (ws.Isolates dir)
        (resolveIn ws .enhanced wanted start s).2 := by
  subst hstart
  exact Recollects.resolveIn hat.works hwanted hnul hat.contains hat.exists_.isDirectory
    (leads_resolveFrom_of_delivers hat hdepth h) hs

/-- One request keeps the frames of passages apart, and so do any number of them. -/
theorem recollects_perform {request : Request} (hrequest : request.AsksPassage ws dir)
    {s : Session} (hs : Recollects ws (ws.Isolates dir) s) :
    Recollects ws (ws.Isolates dir) (perform ws request s) := by
  cases request with
  | value mode wanted start =>
    obtain ⟨rfl, hnul, hstart, passage, text, h, hwanted⟩ := hrequest
    exact (recollects_resolveIn hat hdepth h hwanted hnul hstart hs).2
  | _ => exact hs.perform hrequest

theorem recollects_performAll {requests : List Request}
    (hrequests : ∀ request ∈ requests, request.AsksPassage ws dir) {s : Session}
    (hs : Recollects ws (ws.Isolates dir) s) :
    Recollects ws (ws.Isolates dir) (performAll ws requests s) := by
  induction requests generalizing s with
  | nil => exact hs
  | cons request requests ih =>
    rw [performAll_cons]
    exact ih (List.forall_mem_cons.mp hrequests).2
      (recollects_perform hat hdepth (hrequests request List.mem_cons_self) hs)

end Runs

/-- A call gets back what it passed itself: an output that is nothing but an input has the text
that this call passes for the input, whatever outputs of this and of other calls were asked for
before, and in whatever order. Nothing is found from outside the workspace. -/
theorem delivered_answer_eq {ws : Workspace} (hroot : ws.root.IsNormal)
    (hworks : ws.disk.Works) (hdepth : 0 < ws.settings.maxDepth) {fresh : Session}
    (hfresh : Session.create ws.settings = .ok fresh) {dir : Path}
    (hdir : ws.HasDirectory dir) {requests : List Request}
    (hrequests : ∀ request ∈ requests, request.AsksPassage ws dir)
    {passage : Passage} {text : Text} (h : ws.Delivers dir passage text)
    {wanted : Wanted} (hwanted : wanted.reference? = some passage.reference) {start : Path}
    (hnul : start.hasNul = false) (hstart : ws.normalize start = dir) :
    (resolveEnhanced ws wanted start (performAll ws requests fresh)).1 =
      if ws.contains dir then some text else none := by
  cases hcontains : ws.contains dir with
  | false =>
    show (resolveIn ..).1 = none
    rw [resolveIn_fst, outcome_sought_of_not_contains hnul (by rw [hstart]; exact hcontains)]
    rfl
  | true =>
    obtain ⟨hcache, hpaths, -⟩ := Session.empty_of_create hfresh
    have hat : ws.IsPlace dir := ⟨hroot, hworks, hdir, hcontains⟩
    have hrecollects := recollects_performAll hat hdepth hrequests (.of_empty hcache hpaths)
    exact (recollects_resolveIn hat hdepth h hwanted hnul hstart hrecollects).1

/-- Calls of two modules that pass their input on: two of them pass texts to one module, and the
output of the first is passed to both modules. -/
def sharing : Workspace := .ofFiles {} [
  (["main.tf"], "module \"a\" \x7b\n  source = \"./m\"\n  x = \"A\"\n\x7d
module \"b\" \x7b\n  source = \"./m\"\n  x = \"B\"\n\x7d
module \"c\" \x7b\n  source = \"./m\"\n  x = module.a.o\n\x7d
module \"d\" \x7b\n  source = \"./n\"\n  x = module.a.o\n\x7d\n"),
  (["m", "main.tf"], "output \"o\" \x7b\n  value = var.x\n\x7d\n"),
  (["n", "main.tf"], "output \"o\" \x7b\n  value = var.x\n\x7d\n")]

/-- The way through a module by the call of this name, which passes this argument. -/
def sharingPassage (name dir argument : String) : Passage where
  call := { name := name.toList, source := ("./" ++ dir).toList,
            inputs := [("x".toList, argument.toList)], directory := sharing.root }
  target := sharing.normalize (.ofText dir.toList)
  input := "x".toList
  output := "o".toList

def sharingPassages : List Passage :=
  [sharingPassage "a" "m" "\"A\"", sharingPassage "b" "m" "\"B\"",
    sharingPassage "c" "m" "module.a.o", sharingPassage "d" "n" "module.a.o"]

theorem works_sharing : sharing.disk.Works := ⟨rfl, by decide +kernel, by decide⟩

theorem hasDirectory_sharing : sharing.HasDirectory sharing.root := ⟨by decide, by decide +kernel⟩

theorem hasPassage_sharing {passage : Passage} (h : passage ∈ sharingPassages) :
    sharing.HasPassage sharing.root passage := by
  have hcalls : sharing.calls sharing.root = sharingPassages.map Passage.call := by decide +kernel
  -- what the two modules have is the same for all calls
  have hmodules : ∀ target ∈ ["m", "n"].map fun dir : String =>
      sharing.normalize (.ofText dir.toList),
      (sharing.declarations (outputValue? · "o".toList) target).head? =
        some (Reference.ofInput "x".toList).text ∧
      sharing.overrides "x".toList target = [] ∧ sharing.hasOverlong target = false ∧
      sharing.declarations (localValue? · "x".toList) target = [] ∧
      sharing.declarations (outputValue? · "x".toList) target = [] := by
    decide +kernel
  have hfacts : ∀ passage ∈ sharingPassages, Text.isName passage.call.name = true ∧
      passage.input = "x".toList ∧ passage.output = "o".toList ∧
      passage.target ∈ ["m", "n"].map (fun dir : String => sharing.normalize (.ofText dir.toList)) ∧
      (sharingPassages.map Passage.call).find? (·.name = passage.call.name) = some passage.call ∧
      '\x00' ∉ passage.call.source ∧
      sharing.moduleDirectory? passage.call.source sharing.root = some passage.target := by
    decide +kernel
  obtain ⟨hname, hinput, houtput, htarget, hcalled, hnul, hplace⟩ := hfacts passage h
  obtain ⟨hpassed, hoverrides, hdigits, hlocals, houtputs⟩ := hmodules passage.target htarget
  exact {
    callName := hname
    inputName := by rw [hinput]; decide
    outputName := by rw [houtput]; decide
    called := by rw [hcalls]; exact hcalled
    source := (Direct.modulePath_eq works_sharing rfl hasDirectory_sharing
      fun _ => hnul).trans (congrArg Except.ok hplace)
    passed := by rw [hinput, houtput]; exact hpassed
    overrides := by rw [hinput]; exact hoverrides
    digits := hdigits
    locals := by rw [hinput]; exact hlocals
    outputs := by rw [hinput]; exact houtputs }

theorem delivers_sharing (name text : String)
    (h : (name, text) ∈ [("a", "\"A\""), ("b", "\"B\"")]) :
    sharing.Delivers sharing.root (sharingPassage name "m" text) text.toList := by
  simp only [List.mem_cons, List.not_mem_nil, or_false, Prod.mk.injEq] at h
  rcases h with ⟨rfl, rfl⟩ | ⟨rfl, rfl⟩
  all_goals exact { hasPassage_sharing (by decide) with
    argument := by decide
    nonempty := by decide
    references := by decide +kernel }

/-- Each of two calls of one module gets its own text, whichever was asked for before. -/
theorem sharing_answer_eq :
    (resolveEnhanced sharing (written "module.a.o") here (performAll sharing
      [.value .enhanced (written "module.b.o") here, .wait .zero] .fresh)).1 =
        some "\"A\"".toList ∧
    (resolveEnhanced sharing (written "module.b.o") here (performAll sharing
      [.value .enhanced (written "module.a.o") here, .wait .zero] .fresh)).1 =
        some "\"B\"".toList := by
  have hfresh : Session.create sharing.settings = .ok .fresh := rfl
  have ha := delivers_sharing "a" "\"A\"" (by simp)
  have hb := delivers_sharing "b" "\"B\"" (by simp)
  have hwanted :
      (written "module.a.o").reference? = some (sharingPassage "a" "m" "\"A\"").reference ∧
      (written "module.b.o").reference? = some (sharingPassage "b" "m" "\"B\"").reference := by
    decide +kernel
  refine ⟨(delivered_answer_eq (by decide) works_sharing (by decide) hfresh
    hasDirectory_sharing ?_ ha hwanted.1 rfl (by decide)).trans (by decide),
    (delivered_answer_eq (by decide) works_sharing (by decide) hfresh
    hasDirectory_sharing ?_ hb hwanted.2 rfl (by decide)).trans (by decide)⟩
  · simp only [List.mem_cons, List.not_mem_nil, or_false, forall_eq_or_imp, forall_eq]
    exact ⟨⟨rfl, rfl, by decide, _, _, hb, hwanted.2⟩, rfl⟩
  · simp only [List.mem_cons, List.not_mem_nil, or_false, forall_eq_or_imp, forall_eq]
    exact ⟨⟨rfl, rfl, by decide, _, _, ha, hwanted.1⟩, rfl⟩

/-- A call of a module that passes its input on, beside a file over which the codec of the
encoding gives up. -/
def unmarkedCall : Workspace := .withUnmarked [
  (["main.tf"], "module \"a\" \x7b\n  source = \"./m\"\n  x = \"A\"\n\x7d\n"),
  (["m", "main.tf"], "output \"o\" \x7b\n  value = var.x\n\x7d\n")]

/-- The call passes a text for the input that the output of the module is, but the text does
not come back: the request is given up over the file. -/
theorem unmarkedCall_answer_eq_none :
    unmarkedCall.disk.codec?.isSome = true ∧
    unmarkedCall.calls unmarkedCall.root =
      [{ name := "a".toList, source := "./m".toList, inputs := [("x".toList, "\"A\"".toList)],
         directory := unmarkedCall.root }] ∧
    unmarkedCall.moduleDirectory? "./m".toList unmarkedCall.root =
      some (unmarkedCall.normalize (.ofText "m".toList)) ∧
    unmarkedCall.declarations (outputValue? · "o".toList)
      (unmarkedCall.normalize (.ofText "m".toList)) = ["var.x".toList] ∧
    (resolveEnhanced unmarkedCall (written "module.a.o") here .fresh).1 = none := by
  refine ⟨?_, ?_, ?_, ?_, ?_⟩
  all_goals decide +kernel

end TerraformTrace
