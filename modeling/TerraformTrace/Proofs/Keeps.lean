import TerraformTrace.Engine.Request
import TerraformTrace.Proofs.Observation
import TerraformTrace.Proofs.Path
import TerraformTrace.Proofs.Walk

/-!
# TerraformTrace.Proofs.Keeps

What runs do to the record of events. A run adds events and never takes one away. For a
relation `R` between event lists, `Keeps R run` says that the events before and after
the run are related.

**One walk for every relation.** When `R` is reflexive and transitive, keeping it goes
through sequencing; when it also allows the events that have nothing to do with frames
(`Admits R`), every look-up keeps it, whatever is looked up. What the frames of a
frame's children keep is then kept by its whole search.
-/

namespace TerraformTrace

open Hcl

variable {α β : Type}

/-! ### Events apart from frames -/

/-- An event that no frame has part in. -/
def Event.IsAside : Event → Prop
  | .entered _ => False
  | .cycleCut _ => False
  | .depthReached _ _ => False
  | .returned _ _ _ _ => False
  | .threaded _ _ _ _ => False
  | .stored key => ∀ (mode : SearchMode) parts, key ≠ cacheKey mode.kind.word parts
  | _ => True

/-- A relation between the events before and after a run that goes through sequencing
and does not look at events apart from frames. -/
structure Admits (R : List Event → List Event → Prop) : Prop where
  refl : ∀ events, R events events
  trans : ∀ {first second third}, R first second → R second third → R first third
  aside : ∀ {event} events, event.IsAside → R events (event :: events)

/-- A relation that does not look at the arguments of call sites either. -/
structure AdmitsSearch (R : List Event → List Event → Prop) : Prop extends Admits R where
  threaded : ∀ events ctx call value cacheable,
    R events (.threaded ctx call value cacheable :: events)

/-- The run relates the events before and after it. -/
def Keeps (R : List Event → List Event → Prop) (run : Run α) : Prop :=
  ∀ s, R s.events (after run s).events

/-- In a walk over two runs, the second one is of no interest. -/
theorem Keeps.valued {R : List Event → List Event → Prop} {x : Run α} {P : α → Prop}
    (h : Keeps R x) (hP : ∀ value, P value) : Valued (fun x _ => Keeps R x) x x P :=
  Valued.of h hP

namespace Admits

variable {R : List Event → List Event → Prop} {kind : ResultKind}

theorem pure (hR : Admits R) (value : α) : Keeps R (pure value : Run α) :=
  fun s => hR.refl s.events

theorem throw (hR : Admits R) (abort : Abort) : Keeps R (throw abort : Run α) :=
  fun s => hR.refl s.events

theorem bind (hR : Admits R) {x : Run α} {f : α → Run β} (hx : Keeps R x)
    (hf : ∀ value, Keeps R (f value)) : Keeps R (x >>= f) := by
  intro s
  rcases bind_cases x f s with ⟨abort, -, -, hafter⟩ | ⟨value, -, -, hafter⟩
  · rw [hafter]
    exact hx s
  · rw [hafter]
    exact hR.trans (hx s) (hf value _)

theorem sequential (hR : Admits R) :
    Sequential fun x y P => Valued (fun x _ => Keeps R x) x y P := by
  refine Valued.sequential hR.pure hR.throw fun {_ _ x _ f _} hx hf s => ?_
  rcases bind_cases x f s with ⟨abort, -, -, hafter⟩ | ⟨value, hout, -, hafter⟩
  · rw [hafter]
    exact hx s
  · rw [hafter]
    exact hR.trans (hx s) (hf s value hout _)

theorem lookUp (hR : Admits R) (key : Text) : Keeps R (lookUp key) :=
  fun s => hR.refl s.events

theorem remember (hR : Admits R) (h : kind.IsLookup) (parts : List Text)
    (value : Remembered) : Keeps R (remember (cacheKey kind.word parts) value) :=
  fun s => hR.aside s.events (h.cacheKey_ne parts)

theorem usablePath (hR : Admits R) (path : Path) : Keeps R (usablePath path) := by
  unfold TerraformTrace.usablePath
  split
  · exact hR.pure _
  · exact hR.throw _

/-! ### Look-ups -/

/-- What is only looked at is recorded apart from frames. -/
theorem of_observes (hR : Admits R) {x : Run α} {result : Except Abort α}
    (h : Observes x result) : Keeps R x := by
  intro s
  obtain ⟨-, added, hafter, hadded⟩ := h s
  rw [hafter]
  clear hafter
  induction added with
  | nil => exact hR.refl _
  | cons event added ih =>
    have hevent : event.IsAside := by
      have haccess := hadded event List.mem_cons_self
      cases event <;> trivial
    exact hR.trans (ih (List.forall_mem_cons.mp hadded).2)
      (hR.aside _ hevent)

theorem checkDirectory (hR : Admits R) (ws : Workspace) (path : Path) :
    Keeps R (checkDirectory ws path) :=
  hR.of_observes (Observes.checkDirectory ws path)

theorem rememberedLookup (hR : Admits R) (h : kind.IsLookup) (name : Text)
    (dir : Path) {compute : Run (Option Text)} (hcompute : Keeps R compute) :
    Keeps R (rememberedLookup kind name dir compute) := by
  unfold TerraformTrace.rememberedLookup
  refine hR.bind (hR.lookUp _) fun known => ?_
  split
  · exact hR.pure _
  · exact hR.bind hcompute fun _ => hR.bind (hR.remember h _ _) fun _ => hR.pure _

theorem lookupOverride (hR : Admits R) (ws : Workspace) (name : Text) (dir : Path) :
    Keeps R (lookupOverride ws name dir) :=
  hR.rememberedLookup (by decide) name dir
    (hR.of_observes (Observes.valueIn ws (Observes.overrideIn name) dir _))

theorem lookupDeclared (hR : Admits R) (ws : Workspace) (h : kind.IsLookup) (name : Text)
    (dir : Path) (extract : Text → Option Text) :
    Keeps R (lookupDeclared ws kind name dir extract) :=
  hR.rememberedLookup h name dir
    (hR.of_observes (Observes.valueIn ws (fun _ _ => Observes.pure _) dir _))

theorem lookupData (hR : Admits R) (ws : Workspace) (ref : Reference)
    (dir : Path) : Keeps R (lookupData ws ref dir) := by
  unfold TerraformTrace.lookupData
  split
  · exact hR.pure _
  · exact hR.lookupDeclared ws (by decide) _ dir _

theorem moduleCallsOf (hR : Admits R) (ws : Workspace) (dir : Path) :
    Keeps R (moduleCallsOf ws dir) := by
  unfold TerraformTrace.moduleCallsOf
  refine hR.bind (hR.lookUp _) fun known => ?_
  split
  · split
    · exact hR.pure _
    · exact hR.throw _
  · refine hR.bind (hR.of_observes (Observes.filesIn ws dir _)) fun files => ?_
    refine hR.bind (hR.of_observes (Observes.callsIn ws dir files)) fun calls => ?_
    exact hR.bind (hR.remember (by decide) _ _) fun _ => hR.pure _

theorem modulePath (hR : Admits R) (ws : Workspace) (source : Text) (dir : Path) :
    Keeps R (modulePath ws source dir) := by
  unfold TerraformTrace.modulePath
  refine hR.bind (hR.usablePath dir) fun usable => ?_
  -- the table of module directories is read and extended without an event
  refine hR.bind (fun s => hR.refl s.events) fun session => ?_
  split
  · exact hR.pure _
  · split
    · exact hR.pure _
    · refine hR.bind (hR.usablePath _) fun place => ?_
      dsimp only
      split
      · exact hR.pure _
      · refine hR.bind (hR.checkDirectory ws _) fun isDirectory => ?_
        split
        · exact hR.pure _
        · exact hR.bind (fun s => hR.refl s.events) fun _ => hR.pure _

theorem ofLookups (hR : Admits R) (ws : Workspace) :
    OfLookups (fun x y P => Valued (fun x _ => Keeps R x) x y P) ws ws.disk fun _ => True where
  toSequential := hR.sequential
  parent _ _ := trivial
  isDirectory _ := Keeps.valued (hR.checkDirectory ws _) fun _ => trivial
  override name _ _ := Keeps.valued (hR.lookupOverride ws name _) fun _ => trivial
  localValue name _ _ := Keeps.valued (hR.lookupDeclared ws (by decide) name _ _) fun _ => trivial
  output name _ _ := Keeps.valued (hR.lookupDeclared ws (by decide) name _ _) fun _ => trivial
  default name _ _ := Keeps.valued (hR.lookupDeclared ws (by decide) name _ _) fun _ => trivial
  data ref _ _ := Keeps.valued (hR.lookupData ws ref _) fun _ => trivial
  calls _ := Keeps.valued (hR.moduleCallsOf ws _) fun _ _ _ => trivial
  place source _ _ := Keeps.valued (hR.modulePath ws source _) fun _ _ _ => trivial

theorem callSites (hR : Admits R) (ws : Workspace) (ctx : Context) : Keeps R (callSites ws ctx) :=
  ((hR.ofLookups ws).callSites trivial fun _ _ => ⟨trivial, trivial⟩).1

/-- The look-ups that come first in the search for an input. -/
theorem firstFound_input (hR : Admits R) (ws : Workspace) (name : Text) (dir : Path) :
    Keeps R (firstFound [TerraformTrace.lookupOverride ws name dir, lookupLocal ws name dir,
      lookupOutput ws name dir]) :=
  ((hR.ofLookups ws).firstFound_input name trivial).1

theorem project (hR : Admits R) (properties : List Text) (value : Option Text) :
    Keeps R (project value properties) :=
  (hR.sequential.project properties value).1

theorem foldlM (hR : Admits R) {step : β → α → Run β}
    (hstep : ∀ state item, Keeps R (step state item)) (items : List α) (state : β) :
    Keeps R (items.foldlM step state) :=
  (hR.sequential.foldlM (fun state item => Keeps.valued (hstep state item) fun _ => trivial)
    items state).1

/-! ### The search in one directory

The frames below a frame are those of its children, which `nested` resolves. -/

section Search

variable {nested : Context → Run Resolution} {ctx : Context} {dir : Path} {stack : List ModuleFrame}

theorem expandOne (hR : Admits R) (hnested : ∀ ref, Keeps R (nested (ctx.child ref dir stack)))
    (expansion : Expansion) (ref : Reference) :
    Keeps R (expandOne nested ctx dir stack expansion ref) :=
  (hR.sequential.expandOne (fun _ => Keeps.valued (hnested _) fun _ => trivial) expansion ref).1

theorem expand (hR : Admits R) (hnested : ∀ ref, Keeps R (nested (ctx.child ref dir stack)))
    (value : Text) : Keeps R (expand nested ctx dir stack value) :=
  (hR.sequential.expand (fun _ => Keeps.valued (hnested _) fun _ => trivial) value).1

variable (ws : Workspace) (mode : SearchMode)
  (hnested : ∀ ref dir stack, Keeps R (nested (ctx.child ref dir stack)))

include hnested

theorem settle (hR : Admits R) (found : Option Text) : Keeps R (settle nested ctx found) := by
  cases found with
  | none => exact hR.pure _
  | some value => exact hR.bind (hR.expand (fun _ => hnested _ _ _) value) fun _ => hR.pure _

theorem chaseOutput (hR : Admits R) : Keeps R (chaseOutput ws mode nested ctx) :=
  ((hR.ofLookups ws).chaseOutput trivial (fun _ _ => ⟨trivial, trivial⟩)
    (fun _ _ _ _ _ => Keeps.valued (hnested _ _ _) fun _ => trivial) mode).1

theorem searchParent (hR : Admits R) : Keeps R (searchParent ws nested ctx) :=
  ((hR.ofLookups ws).searchParent trivial (fun _ _ => ⟨trivial, trivial⟩)
    fun _ _ _ _ _ => Keeps.valued (hnested _ _ _) fun _ => trivial).1

theorem searchDefault (hR : Admits R) (threaded : Resolution) :
    Keeps R (searchDefault ws nested ctx threaded) :=
  ((hR.ofLookups ws).searchDefault trivial (fun _ _ => ⟨trivial, trivial⟩)
    (fun _ _ _ _ _ => Keeps.valued (hnested _ _ _) fun _ => trivial) threaded).1

end Search

end Admits

namespace AdmitsSearch

variable {R : List Event → List Event → Prop} {nested : Context → Run Resolution} {ctx : Context}

section Search

variable (ws : Workspace) (mode : SearchMode)
  (hnested : ∀ ref dir stack, Keeps R (nested (ctx.child ref dir stack)))

include hnested

theorem threadOn (hR : AdmitsSearch R) (cacheable : Bool) (call : ModuleCall)
    (sites : List (ModuleCall × List ModuleFrame)) (threaded : Resolution) :
    Keeps R (threadOn nested ctx cacheable call sites threaded) := by
  refine hR.bind (fun s => hR.threaded s.events _ _ _ _) fun _ => ?_
  split
  · exact hR.pure _
  · have hstack (stack : List ModuleFrame) : AreHere (fun _ => True) stack :=
      fun _ _ => ⟨trivial, trivial⟩
    exact (hR.sequential.threadArguments
      (fun _ _ _ _ _ => Keeps.valued (hnested _ _ _) fun _ => trivial)
      (fun _ _ _ _ => Keeps.valued (fun s => hR.threaded s.events _ _ _ _) fun _ => trivial)
      (fun site _ => ⟨trivial, hstack site.2⟩) _).1

theorem threadedInput (hR : AdmitsSearch R) : Keeps R (threadedInput ws mode nested ctx) :=
  ((hR.ofLookups ws).threadedInput trivial (fun _ _ => ⟨trivial, trivial⟩)
    (fun _ _ _ _ _ => Keeps.valued (hnested _ _ _) fun _ => trivial)
    (fun _ _ _ _ => Keeps.valued (fun s => hR.threaded s.events _ _ _ _) fun _ => trivial) mode).1

theorem searchDirectory (hR : AdmitsSearch R) : Keeps R (searchDirectory ws mode nested ctx) :=
  ((hR.ofLookups ws).searchDirectory trivial (fun _ _ => ⟨trivial, trivial⟩)
    (fun _ _ _ _ _ => Keeps.valued (hnested _ _ _) fun _ => trivial)
    (fun _ _ _ _ => Keeps.valued (fun s => hR.threaded s.events _ _ _ _) fun _ => trivial) mode).1

/-- What holds for the frames of a frame's children holds for its whole search. -/
theorem searchSymbol (hR : AdmitsSearch R) : Keeps R (searchSymbol ws mode nested ctx) :=
  ((hR.ofLookups ws).searchSymbol trivial (fun _ _ => ⟨trivial, trivial⟩)
    (fun _ _ _ _ _ => Keeps.valued (hnested _ _ _) fun _ => trivial)
    (fun _ _ _ _ => Keeps.valued (fun s => hR.threaded s.events _ _ _ _) fun _ => trivial) mode).1

end Search

/-- A frame adds the events of its computation and four of its own. -/
theorem frame (hR : AdmitsSearch R) {mode : SearchMode} {compute : Run Resolution}
    (hentered : ∀ events, R events (.entered ctx :: events))
    (hcut : ∀ events, R events (.cycleCut ctx :: events))
    (hstored : ∀ events, R events (.stored (frameKey mode ctx) :: events))
    (hreturned : ∀ events value flag, R events (.returned mode ctx value flag :: events))
    (hcompute : Keeps R compute) : Keeps R (frame mode ctx compute) := by
  intro s
  have hopened := hR.trans (hentered s.events) (hcompute (opened mode ctx s))
  refine frame_cases mode ctx compute s fun hends => ?_
  cases hends with
  | cut hcycle => exact hR.trans (hentered _) (hR.trans (hcut _) (hreturned _ _ _))
  | hit hcycle known hget => exact hR.trans (hentered _) (hreturned _ _ _)
  | aborted hcycle hget abort hout => exact hopened
  | stored hcycle hget value hout =>
    exact hR.trans hopened (hR.trans (hstored _) (hreturned _ _ _))
  | unstored hcycle hget value hout => exact hR.trans hopened (hreturned _ _ _)

end AdmitsSearch

/-! ### Requests -/

/-- Whether a request does not ask for anything. -/
def Request.isUpkeep : Request → Bool
  | .value .. | .property .. | .contexts .. | .modulePath .. => false
  | .changed _ | .clear | .start | .dispose | .wait _ | .sweep | .tick => true

theorem Cache.entries_invalidate_subset (cache : Cache Binary64 Remembered) (fragment : Text) :
    (cache.invalidate fragment).2.entries ⊆ cache.entries := by
  unfold Cache.invalidate
  split
  · exact List.Subset.refl _
  · exact fun _ hmem => (List.mem_filter.mp hmem).1

theorem Cache.entries_tick_subset (cache : Cache Binary64 Remembered) :
    cache.tick.entries ⊆ cache.entries := by
  unfold Cache.tick
  split
  · exact fun _ hmem => (List.mem_filter.mp hmem).1
  · exact List.Subset.refl _

variable (ws : Workspace)

/-- A notice of a path that cannot be used changes nothing. -/
theorem snd_notify (file : Path) (s : Session) :
    (notify ws file s).2 = s ∨ (notify ws file s).2 = (fileChanged ws file s).2 := by
  unfold notify
  rcases file.usable_cases with ⟨-, husable⟩ | ⟨-, husable⟩
  · rw [husable]
    exact .inl rfl
  · rw [husable]
    exact .inr rfl

/-- Upkeep drops entries or everything, so it keeps what does not depend on more. -/
theorem perform_of_isUpkeep {request : Request}
    (hrequest : request.isUpkeep = true) {I : Session → Prop}
    (hsubset : ∀ {s : Session} {cache : Cache Binary64 Remembered}, I s →
      cache.entries ⊆ s.cache.entries → I { s with cache })
    (hclear : ∀ {s : Session}, I s → I (clear s).2) {s : Session} (hs : I s) :
    I (perform ws request s) := by
  have hinvalidate : ∀ (fragment : Text) {s : Session}, I s → I (invalidate fragment s).2 :=
    fun fragment s hs => hsubset hs (s.cache.entries_invalidate_subset fragment)
  cases request with
  | changed file =>
    have hfile := hinvalidate (ws.normalize file).parent.toText
      (hinvalidate (ws.normalize file).toText hs)
    show I (notify ws file s).2
    rcases snd_notify ws file s with hout | hout
    · rwa [hout]
    · rw [hout]
      exact hinvalidate (kindFragment ResultKind.enhanced.word)
        (hinvalidate (kindFragment ResultKind.resolve.word) hfile)
  | clear => exact hclear hs
  | start => exact hsubset hs (List.Subset.refl _)
  | dispose =>
    have hstopped : I { s with cache := s.cache.stopSweeper } := hsubset hs (List.Subset.refl _)
    exact hclear hstopped
  | wait time => exact hsubset hs (List.Subset.refl _)
  | sweep => exact hsubset hs fun _ hmem => (List.mem_filter.mp hmem).1
  | tick => exact hsubset hs s.cache.entries_tick_subset
  | value | property | contexts | modulePath => cases hrequest

theorem performAll_nil (s : Session) : performAll ws [] s = s := rfl

theorem performAll_cons (request : Request) (requests : List Request) (s : Session) :
    performAll ws (request :: requests) s = performAll ws requests (perform ws request s) := rfl

/-- What is done for each of some items fails for one of them, or gives a list of results. -/
theorem mapM_cases {ε : Type} {f : α → Except ε β} {g : α → β} {Bad : α → Prop}
    (hf : ∀ item, (Bad item ∧ ∃ error, f item = .error error) ∨ (¬Bad item ∧ f item = .ok (g item)))
    (items : List α) :
    ((∃ item ∈ items, Bad item) ∧ ∃ error, items.mapM f = .error error) ∨
      ((¬∃ item ∈ items, Bad item) ∧ items.mapM f = .ok (items.map g)) := by
  induction items with
  | nil => exact .inr ⟨by simp, rfl⟩
  | cons item items ih =>
    rw [List.mapM_cons]
    rcases hf item with ⟨hbad, error, herror⟩ | ⟨hgood, hok⟩
    · rw [herror]
      exact .inl ⟨⟨item, List.mem_cons_self, hbad⟩, error, rfl⟩
    · rw [hok]
      rcases ih with ⟨⟨bad, hmem, hbad⟩, error, herror⟩ | ⟨hrest, hrestOk⟩
      · rw [herror]
        exact .inl ⟨⟨bad, List.mem_cons_of_mem _ hmem, hbad⟩, error, rfl⟩
      · rw [hrestOk]
        exact .inr ⟨by simpa [hgood] using hrest, rfl⟩

/-- Several directories are at their places, unless one of them has a path that cannot be
used. -/
theorem mapM_locate_cases (directories : List Path) :
    (∃ error, directories.mapM ws.locate = .error error) ∨
      directories.mapM ws.locate = .ok (directories.map ws.normalize) := by
  have hlocate (path : Path) : (path.hasNul = true ∧ ∃ error, ws.locate path = .error error) ∨
      (¬path.hasNul = true ∧ ws.locate path = .ok (ws.normalize path)) := by
    unfold Workspace.locate
    rcases path.usable_cases with ⟨hnul, husable⟩ | ⟨hnul, husable⟩
    · rw [husable]
      exact .inl ⟨hnul, _, rfl⟩
    · rw [husable]
      exact .inr ⟨hnul, rfl⟩
  rcases mapM_cases hlocate directories with ⟨-, herror⟩ | ⟨-, hok⟩
  · exact .inl herror
  · exact .inr hok

/-- Several directories are asked in turn, unless one of them has a path that cannot be used.
Which of the two it is depends on the root only. -/
theorem resolveInContexts_cases (wanted : Wanted) (directories : List Path) :
    (∃ error, ∀ other : Workspace, other.root = ws.root →
        resolveInContexts other wanted directories = pure (.error error)) ∨
      ∀ other : Workspace, other.root = ws.root → resolveInContexts other wanted directories =
          .ok <$> resolveEach other wanted (directories.map ws.normalize).eraseDups := by
  have hsame {other : Workspace} (h : other.root = ws.root) : other.locate = ws.locate := by
    have hnormalize : other.normalize = ws.normalize := by
      funext path
      rw [Workspace.normalize, h]
      rfl
    funext path
    rw [Workspace.locate, hnormalize]
    rfl
  rcases mapM_locate_cases ws directories with ⟨error, herror⟩ | hok
  · exact .inl ⟨error, fun other h => by
      rw [resolveInContexts, gatherInContexts, hsame h, herror]⟩
  · exact .inr fun other h => by
      rw [resolveInContexts, gatherInContexts, hsame h, hok]

theorem query_bind (x : Query α) (f : α → Query β) (s : Session) :
    (x >>= f) s = f (x s).1 (x s).2 := rfl

theorem answered_apply (onFailure : Text) (run : Run (Option α)) (s : Session) :
    answered onFailure run s =
      match outcome run s with
      | .ok value => (value, after run s)
      | .error abort =>
        (none, { after run s with
          events := .gaveUp onFailure abort.message :: (after run s).events }) := by
  unfold answered outcome after
  cases run s <;> rfl

theorem resolveModulePath_apply (source : Text) (start : Path) (s : Session) :
    resolveModulePath ws source start s =
      (outcome (modulePath ws source start) s, after (modulePath ws source start) s) := by
  unfold resolveModulePath outcome after
  cases modulePath ws source start s <;> rfl

namespace AdmitsSearch

variable {R : List Event → List Event → Prop} {ws : Workspace}

theorem answered (hR : AdmitsSearch R) (onFailure : Text) {run : Run (Option α)}
    (hrun : Keeps R run) (s : Session) : R s.events (answered onFailure run s).2.events := by
  rw [answered_apply]
  split
  · exact hrun s
  · exact hR.trans (hrun s) (hR.aside _ trivial)

section Perform

variable (hR : AdmitsSearch R) (hframes : ∀ mode ref dir, Keeps R (resolveFrom ws mode ref dir))

include hR hframes

theorem resolveIn (mode : SearchMode) (wanted : Wanted) (start : Path) (s : Session) :
    R s.events (resolveIn ws mode wanted start s).2.events := by
  refine hR.answered _ ?_ s
  split
  · exact hR.pure _
  · refine hR.bind (hR.usablePath start) fun usable => ?_
    dsimp only
    split
    · exact hR.pure _
    · refine hR.bind (hR.checkDirectory ws _) fun isDirectory => ?_
      split
      · exact hR.pure _
      · exact hR.bind (hframes _ _ _) fun _ => hR.pure _

theorem resolveProperty (wanted : Wanted) (property : Text) (start : Path) (s : Session) :
    R s.events (resolveProperty ws wanted property start s).2.events := by
  have hbase := hR.resolveIn hframes .enhanced wanted start s
  unfold TerraformTrace.resolveProperty
  rw [query_bind]
  cases (resolveEnhanced ws wanted start s).1 with
  | none => exact hbase
  | some base => exact hR.trans hbase (hR.answered _ (hR.project _ _) _)

theorem resolveEach (wanted : Wanted) (directories : List Path) (s : Session) :
    R s.events (resolveEach ws wanted directories s).2.events := by
  induction directories generalizing s with
  | nil => exact hR.refl _
  | cons dir directories ih =>
    have hfirst := hR.resolveIn hframes .enhanced wanted dir s
    have hrest := ih (resolveEnhanced ws wanted dir s).2
    unfold TerraformTrace.resolveEach
    rw [query_bind, query_bind]
    cases (resolveEnhanced ws wanted dir s).1.bind present? with
    | none => exact hR.trans hfirst hrest
    | some value => exact hR.trans hfirst hrest

/-- What every frame keeps is kept by every request. -/
theorem perform (request : Request) (s : Session) :
    R s.events (TerraformTrace.perform ws request s).events := by
  cases request with
  | value mode wanted start => exact hR.resolveIn hframes mode wanted start s
  | property wanted property start => exact hR.resolveProperty hframes wanted property start s
  | contexts wanted directories =>
    show R s.events (resolveInContexts ws wanted directories s).2.events
    rcases resolveInContexts_cases ws wanted directories with ⟨error, hout⟩ | hout
    · rw [hout ws rfl]
      exact hR.refl _
    · rw [hout ws rfl]
      exact hR.resolveEach hframes wanted _ s
  | modulePath source start =>
    show R s.events (resolveModulePath ws source start s).2.events
    rw [resolveModulePath_apply]
    exact hR.modulePath ws source start s
  | changed file =>
    show R s.events (notify ws file s).2.events
    rcases snd_notify ws file s with hout | hout
    · rw [hout]
      exact hR.refl _
    · rw [hout]
      exact hR.refl _
  | clear => exact hR.refl _
  | start => exact hR.refl _
  | dispose => exact hR.refl _
  | wait time => exact hR.refl _
  | sweep => exact hR.refl _
  | tick => exact hR.refl _

theorem performAll (requests : List Request) (s : Session) :
    R s.events (TerraformTrace.performAll ws requests s).events := by
  induction requests generalizing s with
  | nil => exact hR.refl _
  | cons request requests ih => exact hR.trans (hR.perform hframes request s) (ih _)

end Perform

end AdmitsSearch

end TerraformTrace
