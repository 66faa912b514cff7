import TerraformTrace.Proofs.Cut
import TerraformTrace.Proofs.Follows

/-!
# TerraformTrace.Proofs.Soundness

What an engine remembers over a history of requests. Every request leaves a faithful
session faithful as long as its record is clean (`faithful_perform`), and so does every
history (`faithful_performAll`). An engine starts with nothing in its memory, which is
faithful.

**Directory search.** The argument of a call plays no part there, so a record is clean
if no frame means the empty text. `plain_results_sound` states what follows for the
cache and for every frame that was ever left.
-/

namespace TerraformTrace

open Hcl

/-! ### Requests that can be written down -/

namespace Request

/-- How the values that a request asks for are resolved. -/
def mode : Request → SearchMode
  | .value mode _ _ => mode
  | .property .. => .enhanced
  | .contexts .. => .enhanced
  | _ => .plain

/-- The references and the paths of the request are such as can be written down. -/
def IsWellFormed : Request → Prop
  | .value _ wanted place => wanted.IsWellFormed ∧ place.IsTidy
  | .property wanted _ place => wanted.IsWellFormed ∧ place.IsTidy
  | .contexts wanted directories =>
    wanted.IsWellFormed ∧ ∀ dir ∈ directories, dir.IsTidy
  | .modulePath _ place => place.IsTidy
  | _ => True

instance (request : Request) : Decidable request.IsWellFormed :=
  match request with
  | .value _ wanted place => inferInstanceAs (Decidable (wanted.IsWellFormed ∧ place.IsTidy))
  | .property wanted _ place => inferInstanceAs (Decidable (wanted.IsWellFormed ∧ place.IsTidy))
  | .contexts wanted directories => inferInstanceAs
      (Decidable (wanted.IsWellFormed ∧ ∀ dir ∈ directories, dir.IsTidy))
  | .modulePath _ place => inferInstanceAs (Decidable place.IsTidy)
  | .changed _ | .clear | .start | .dispose | .wait _ | .sweep | .tick =>
    inferInstanceAs (Decidable True)

end Request

/-! ### Sessions after requests -/

theorem grows_resolveFrom (ws : Workspace) (mode : SearchMode) (ref : Reference)
    (dir : Path) : Keeps Grows (resolveFrom ws mode ref dir) :=
  grows_resolveFrame ws mode _ _

theorem grows_performAll (ws : Workspace) (requests : List Request) (s : Session) :
    s.events <:+ (performAll ws requests s).events :=
  admits_grows.performAll (grows_resolveFrom ws) requests s

namespace Faithful

variable {ws : Workspace} {s : Session}

/-- A session that remembers nothing is faithful. -/
theorem of_empty (hcache : s.cache.entries = []) (hpaths : s.modulePaths = [])
    (hevents : s.events = []) : Faithful ws s where
  toRecollects := .of_empty hcache hpaths
  returned mode ctx value hmem := by simp [hevents] at hmem

/-- Entries may be dropped at any time, and nothing else in a cache matters. -/
theorem of_subset (hs : Faithful ws s) {cache : Cache Binary64 Remembered}
    (hsubset : cache.entries ⊆ s.cache.entries) : Faithful ws { s with cache } :=
  ⟨hs.toRecollects.of_subset hsubset, hs.returned⟩

theorem clear (hs : Faithful ws s) : Faithful ws (clear s).2 where
  toRecollects := .of_empty rfl rfl
  returned := hs.returned

theorem answered {α : Type} {mode : SearchMode} {onFailure : Text} {run : Run (Option α)}
    {result : Except Abort (Option α)} (hs : Faithful ws s)
    (hrun : Follows ws mode run result)
    (hclean : Clean ws mode (answered onFailure run s).2.events) :
    Faithful ws (answered onFailure run s).2 := by
  rw [answered_apply] at hclean ⊢
  cases hout : outcome run s with
  | ok value =>
    rw [hout] at hclean
    exact hrun.faithful s hs hclean
  | error abort =>
    rw [hout] at hclean
    exact (hrun.faithful s hs (hclean.of_suffix (List.suffix_cons _ _))).note (by simp)

section Requests

variable (hroot : ws.root.IsNormal)

include hroot

theorem resolveIn {mode : SearchMode} (hbars : mode = .enhanced → ws.HasNoBars)
    {wanted : Wanted} (hwanted : wanted.IsWellFormed) {start : Path} (hstart : start.IsTidy)
    (hs : Faithful ws s)
    (hclean : Clean ws mode (resolveIn ws mode wanted start s).2.events) :
    Faithful ws (resolveIn ws mode wanted start s).2 :=
  hs.answered (Follows.sought hroot hbars hwanted hstart) hclean

theorem resolveProperty (hbars : ws.HasNoBars) {wanted : Wanted}
    (hwanted : wanted.IsWellFormed) (property : Text) {start : Path} (hstart : start.IsTidy)
    (hs : Faithful ws s)
    (hclean : Clean ws .enhanced (resolveProperty ws wanted property start s).2.events) :
    Faithful ws (resolveProperty ws wanted property start s).2 := by
  have hbase : Clean ws .enhanced (resolveEnhanced ws wanted start s).2.events →
      Faithful ws (resolveEnhanced ws wanted start s).2 :=
    hs.resolveIn hroot (fun _ => hbars) hwanted hstart
  unfold TerraformTrace.resolveProperty at hclean ⊢
  rw [query_bind] at hclean ⊢
  cases hvalue : (resolveEnhanced ws wanted start s).1 with
  | none =>
    rw [hvalue] at hclean
    exact hbase hclean
  | some base =>
    rw [hvalue] at hclean
    have hproject : Follows ws .enhanced (project (some base) [property]) _ :=
      Follows.of_answers (Answers.project [property] (some base))
    have hgrows := admits_grows.answered ("Property projection failed for ".toList ++ property)
      (admits_grows.project [property] (some base)) (resolveEnhanced ws wanted start s).2
    exact (hbase (hclean.of_suffix hgrows)).answered hproject hclean

theorem resolveEach (hbars : ws.HasNoBars) {wanted : Wanted}
    (hwanted : wanted.IsWellFormed) {directories : List Path}
    (hdirectories : ∀ dir ∈ directories, dir.IsTidy) (hs : Faithful ws s)
    (hclean : Clean ws .enhanced (resolveEach ws wanted directories s).2.events) :
    Faithful ws (resolveEach ws wanted directories s).2 := by
  induction directories generalizing s with
  | nil => exact hs
  | cons dir directories ih =>
    have hrest := admits_grows.resolveEach (grows_resolveFrom ws) wanted directories
      (resolveEnhanced ws wanted dir s).2
    have hafter : (TerraformTrace.resolveEach ws wanted (dir :: directories) s).2 =
        (TerraformTrace.resolveEach ws wanted directories
          (resolveEnhanced ws wanted dir s).2).2 := by
      rw [TerraformTrace.resolveEach, query_bind, query_bind]
      cases (resolveEnhanced ws wanted dir s).1.bind present? with
      | none => rfl
      | some value => rfl
    rw [hafter] at hclean ⊢
    have hfirst := hs.resolveIn hroot (fun _ => hbars) hwanted
      (hdirectories dir List.mem_cons_self) (hclean.of_suffix hrest)
    exact ih (List.forall_mem_cons.mp hdirectories).2 hfirst hclean

end Requests

end Faithful

section History

variable {ws : Workspace} (hroot : ws.root.IsNormal)

include hroot

/-- A request leaves a faithful session faithful if its record is clean. -/
theorem faithful_perform {request : Request} (hrequest : request.IsWellFormed)
    (hbars : request.mode = .enhanced → ws.HasNoBars) {s : Session}
    (hs : Faithful ws s)
    (hclean : Clean ws request.mode (perform ws request s).events) :
    Faithful ws (perform ws request s) := by
  cases request with
  | value mode wanted start => exact hs.resolveIn hroot hbars hrequest.1 hrequest.2 hclean
  | property wanted property start =>
    exact hs.resolveProperty hroot (hbars rfl) hrequest.1 property hrequest.2 hclean
  | contexts wanted directories =>
    change Clean ws .enhanced (resolveInContexts ws wanted directories s).2.events at hclean
    show Faithful ws (resolveInContexts ws wanted directories s).2
    rcases resolveInContexts_cases ws wanted directories with ⟨error, hout⟩ | hout
    · rw [hout ws rfl]
      exact hs
    rw [hout ws rfl] at hclean ⊢
    refine hs.resolveEach hroot (hbars rfl) hrequest.1 (fun dir hmem => ?_) hclean
    obtain ⟨given, hgiven, rfl⟩ := List.mem_map.mp (List.mem_eraseDups.mp hmem)
    exact (Workspace.isNormal_normalize hroot (hrequest.2 given hgiven)).2.1
  | modulePath source start =>
    have hanswers : Answers (Faithful ws) (modulePath ws source start) _ :=
      Answers.modulePath hroot source hrequest
    show Faithful ws (resolveModulePath ws source start s).2
    rw [resolveModulePath_apply]
    exact hanswers.keeps s hs
  | changed | clear | start | dispose | wait | sweep | tick =>
    exact perform_of_isUpkeep ws rfl (fun hs hsubset => hs.of_subset hsubset)
      (fun hs => hs.clear) hs

theorem faithful_performAll {requests : List Request}
    (hrequests : ∀ request ∈ requests, request.IsWellFormed)
    (hbars : ∀ request ∈ requests, request.mode = .enhanced → ws.HasNoBars) {s : Session}
    (hs : Faithful ws s)
    (hclean : ∀ request ∈ requests, Clean ws request.mode (performAll ws requests s).events) :
    Faithful ws (performAll ws requests s) := by
  induction requests generalizing s with
  | nil => exact hs
  | cons request requests ih =>
    have hfirst : request ∈ request :: requests := List.mem_cons_self
    have hrest := grows_performAll ws requests (perform ws request s)
    have hperformed := faithful_perform hroot (hrequests request hfirst) (hbars request hfirst) hs
      ((hclean request hfirst).of_suffix hrest)
    exact ih (List.forall_mem_cons.mp hrequests).2
      (List.forall_mem_cons.mp hbars).2 hperformed
      (List.forall_mem_cons.mp hclean).2

end History

/-! ### Directory search -/

/-- Directory search does not look at the modules it is inside of. -/
theorem evaluate_plain_stack (ws : Workspace) (left : Nat) (ref : Reference)
    (dir : Path) (stack : List ModuleFrame) :
    evaluate ws .plain left ref dir stack = evaluate ws .plain left ref dir [] := by
  induction left generalizing ref dir stack with
  | zero => rfl
  | succ left ih =>
    have hnested : evaluate ws .plain left = fun ref dir _ => evaluate ws .plain left ref dir [] :=
      funext fun ref => funext fun dir => funext fun stack => ih ref dir stack
    unfold evaluate
    rw [hnested]
    rfl

theorem evaluateFrame_plain (ws : Workspace) (ctx : Context) : evaluateFrame ws .plain ctx =
      evaluatePlain ws ctx.reference ctx.directory ctx.depth :=
  evaluate_plain_stack ..

/-- Directory search remembers nothing but meanings. After any requests of an engine that
started with an empty memory, every result of a frame that may be remembered is the value
of its reference from its directory at its depth, found without memory and without a test
for cycles, and so is every whole resolution in the cache, however entries expired or
were displaced. Frames that mean the empty text are excepted: it stands for no value in
the cache. -/
theorem plain_results_sound {ws : Workspace} (hroot : ws.root.IsNormal) {requests : List Request}
    (hrequests : ∀ request ∈ requests, request.IsWellFormed ∧ request.mode = .plain)
    {s : Session} (hcache : s.cache.entries = []) (hpaths : s.modulePaths = [])
    (hevents : s.events = [])
    (hempty : ∀ ctx value, .returned .plain ctx value true ∈ (performAll ws requests s).events →
      evaluatePlain ws ctx.reference ctx.directory ctx.depth ≠ .ok (some [])) :
    (∀ ctx value, .returned .plain ctx value true ∈ (performAll ws requests s).events →
      evaluatePlain ws ctx.reference ctx.directory ctx.depth = .ok value) ∧
    ∀ parts entry,
      (cacheKey ResultKind.resolve.word parts, entry) ∈ (performAll ws requests s).cache.entries →
      ∃ (ref : Reference) (dir : Path) (depth : Nat) (value : Option Text),
        ref.IsWellFormed ∧ dir.IsNormal ∧
        parts = [ref.text, dir.toText, Text.ofNat depth, []] ∧
        evaluatePlain ws ref dir depth = .ok value ∧
        entry.value = .text (value.getD []) := by
  have hclean : Clean ws .plain (performAll ws requests s).events := {
    lost := nofun
    empty := fun ctx hmem => by
      rw [evaluateFrame_plain]
      exact hempty ctx (some []) hmem }
  have hfaithful : Faithful ws (performAll ws requests s) :=
    faithful_performAll hroot (fun request hmem => (hrequests request hmem).1)
      (fun request hmem hmode => by simp [(hrequests request hmem).2] at hmode)
      (Faithful.of_empty hcache hpaths hevents)
      fun request hmem => (hrequests request hmem).2 ▸ hclean
  constructor
  · intro ctx value hmem
    rw [← evaluateFrame_plain]
    exact (hfaithful.returned .plain ctx value hmem).2
  · intro parts entry hmem
    have hkept : Kept ws .plain parts entry.value :=
      Recollects.allowed_of_key (hfaithful.cache _ _ hmem)
    obtain ⟨ctx, value, hfound, hparts, hvalue, -, hentry⟩ := hkept
    rw [evaluateFrame_plain] at hvalue
    refine ⟨ctx.reference, ctx.directory, ctx.depth, value, hfound.reference,
      hfound.place.normal, ?_, hvalue, hentry⟩
    rw [hparts, Context.keyParts, hfound.place.stackless rfl]
    rfl

/-! ### A history with a cycle in it -/

/-- The frames of directory search that were left with a result that may be remembered. -/
def leftFrames (events : List Event) : List (Context × Option Text) :=
  events.filterMap fun
    | .returned .plain ctx value true => some (ctx, value)
    | _ => none

theorem mem_leftFrames {events : List Event} {ctx : Context} {value : Option Text} :
    (ctx, value) ∈ leftFrames events ↔ .returned .plain ctx value true ∈ events := by
  unfold leftFrames
  rw [List.mem_filterMap]
  constructor
  · rintro ⟨event, hmem, hevent⟩
    split at hevent
    · cases hevent
      exact hmem
    · cases hevent
  · exact fun hmem => ⟨_, hmem, rfl⟩

/-- The meaning of a frame of directory search, if it has one. -/
def meaning? (ws : Workspace) (ctx : Context) : Option (Option Text) :=
  (evaluatePlain ws ctx.reference ctx.directory ctx.depth).toOption

theorem meaning?_eq_some {ws : Workspace} {ctx : Context} {value : Option Text} :
    meaning? ws ctx = some value ↔
      evaluatePlain ws ctx.reference ctx.directory ctx.depth = .ok value := by
  unfold meaning?
  cases evaluatePlain ws ctx.reference ctx.directory ctx.depth with
  | error abort => simp [Except.toOption]
  | ok found => simp [Except.toOption]

/-- No frame that was left means the empty text. -/
theorem ne_empty_of_leftFrames {ws : Workspace} {events : List Event}
    (h : (leftFrames events).all (meaning? ws ·.1 ≠ some (some [])) = true)
    (ctx : Context) (value : Option Text)
    (hmem : .returned .plain ctx value true ∈ events) :
    evaluatePlain ws ctx.reference ctx.directory ctx.depth ≠ .ok (some []) := by
  have hframe := List.all_eq_true.mp h (ctx, value) (mem_leftFrames.mpr hmem)
  exact fun heq => of_decide_eq_true hframe (meaning?_eq_some.mpr heq)

/-- Two local values that go round in a circle, and a module that reads one of them. -/
def circular : Workspace := .ofFiles { maxDepth := 4 } [
  (["main.tf"],
    "locals \x7b\n  a = \"A$\x7blocal.b\x7d\"\n  b = \"B$\x7blocal.a\x7d\"\n  c = local.b\n\x7d
module \"m\" \x7b\n  source = \"./m\"\n\x7d\n"),
  (["m", "main.tf"], "output \"o\" \x7b\n  value = \x7b k = local.c \x7d\n\x7d\n")]

/-- Requests that cut the circle, run into the bound on depth, and use the cache. -/
def circularRequests : List Request :=
  (["local.a", "module.m.o.k", "local.c", "module.m.o"].map fun text =>
    .value .plain (.text (some text.toList)) (.ofText ".".toList)) ++ [.wait (.ofNat 3600), .sweep]

theorem circular_results_sound :
    (∃ cut, .cycleCut cut ∈ (performAll circular circularRequests .fresh).events) ∧
    (∃ frame ∈ leftFrames (performAll circular circularRequests .fresh).events,
      frame.2 = some "\x7b k = \"BA$\x7blocal.b\x7d\" \x7d".toList) ∧
    ∀ frame ∈ leftFrames (performAll circular circularRequests .fresh).events,
      evaluatePlain circular frame.1.reference frame.1.directory frame.1.depth = .ok frame.2 := by
  have hcut : (performAll circular circularRequests .fresh).events.any Event.isCut = true := by
    decide +kernel
  have hleft : (leftFrames (performAll circular circularRequests .fresh).events).any
      (·.2 = some "\x7b k = \"BA$\x7blocal.b\x7d\" \x7d".toList) = true := by
    decide +kernel
  have hmeaning : (leftFrames (performAll circular circularRequests .fresh).events).all
      (meaning? circular ·.1 ≠ some (some [])) = true := by
    decide +kernel
  have hsound := plain_results_sound (by decide) (by decide) rfl rfl rfl
    (ne_empty_of_leftFrames hmeaning)
  obtain ⟨frame, hmem, hvalue⟩ := List.any_eq_true.mp hleft
  exact ⟨exists_isCut.mp (List.any_eq_true.mp hcut), ⟨frame, hmem, of_decide_eq_true hvalue⟩,
    fun frame hmem => hsound.1 frame.1 frame.2 (mem_leftFrames.mp hmem)⟩

/-! ### References that cannot be written down

A reference that is made by hand can have a dot in a segment. Its text is then the text
of another reference, and so is its key. -/

/-- A variable with a dot in its name, and a variable with a property. -/
def dotted : Workspace :=
  .ofFiles {} [(["a.tfvars.json"], "\x7b\"a.b\": 1, \"a\": \x7b\"b\": 2\x7d\x7d")]

/-- The dotted name, asked for by hand. -/
def dottedInput : Wanted :=
  .reference { kind := .input, segments := ["a.b".toList], enough := by decide }

/-- The dotted name, and then the property. -/
def dottedRequests : List Request :=
  [.value .plain dottedInput (.ofText ".".toList),
    .value .plain (.text (some "var.a.b".toList)) (.ofText ".".toList)]

/-- The property is answered with the variable of the dotted name, which is not what it
means. -/
theorem dotted_result_unsound :
    (∀ ctx value,
      .returned .plain ctx value true ∈ (performAll dotted dottedRequests .fresh).events →
      evaluatePlain dotted ctx.reference ctx.directory ctx.depth ≠ .ok (some [])) ∧
    ∃ ctx value,
      .returned .plain ctx value true ∈ (performAll dotted dottedRequests .fresh).events ∧
      ctx.reference.IsWellFormed ∧ value = some "1".toList ∧
      evaluatePlain dotted ctx.reference ctx.directory ctx.depth = .ok (some "2".toList) := by
  have hrun : (leftFrames (performAll dotted dottedRequests .fresh).events).any (fun frame =>
      frame.1.reference.IsWellFormed ∧ frame.2 = some "1".toList ∧
        meaning? dotted frame.1 = some (some "2".toList)) = true := by
    decide +kernel
  have hmeanings : (leftFrames (performAll dotted dottedRequests .fresh).events).all
      (meaning? dotted ·.1 ≠ some (some [])) = true := by
    decide +kernel
  obtain ⟨frame, hmem, hframe⟩ := List.any_eq_true.mp hrun
  obtain ⟨hwell, hvalue, hmeaning⟩ := of_decide_eq_true hframe
  exact ⟨ne_empty_of_leftFrames hmeanings, frame.1, frame.2, mem_leftFrames.mp hmem, hwell, hvalue,
    meaning?_eq_some.mp hmeaning⟩

end TerraformTrace
