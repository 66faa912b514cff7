import TerraformTrace.Proofs.Cut

/-!
# TerraformTrace.Proofs.FrameNesting

How frames nest. The record of a resolution tells which frames are open at any time: one opens
when it is entered or lies too deep, and the innermost one closes when a frame returns. **A frame
opens only below its caller, with a smaller rank and with the callers on its own path for its
visited frames**; so nesting ends whatever is declared, be it a circle of names or a module that
calls itself, and nothing is taken for a cycle because of a branch that has returned.

The rank is the number of levels left and, on the same level, whether the reference has
properties: the frame of a reference with properties opens that of its symbol without going
deeper. A frame calls another one only after it was found not to be on its own path, so each
caller adds one to the visited frames.
-/

namespace TerraformTrace

open Hcl

/-! ### Open frames -/

/-- The frames that are open after an event, innermost first. -/
def Event.openAfter : Event → List Context → List Context
  | .entered ctx, path => ctx :: path
  | .depthReached _ ctx, path => ctx :: path
  | .returned _ _ _ _, path => path.tail
  | _, path => path

/-- The frames that are open after some events, latest first. -/
def openFrames (events : List Event) : List Context := events.foldr Event.openAfter []

/-- The frames of a path that called the next one as their child. The others resolve the symbol
of their reference on the same level. -/
def callers (ctx : Context) : (path : List Context) → List Context
  | [] => []
  | caller :: path =>
    if ctx = caller.child ctx.reference ctx.directory ctx.stack then
      caller :: callers caller path
    else callers caller path

/-- The levels left below a frame, and whether its reference has properties. -/
def Context.rank (limit : Nat) (ctx : Context) : Nat × Nat :=
  (limit + 1 - ctx.depth, if ctx.reference.properties.isEmpty then 0 else 1)

/-- A frame that may open below the frames of a path. -/
structure Context.OpensOn (limit : Nat) (path : List Context) (ctx : Context) : Prop where
  rank_lt : ∀ caller ∈ path.head?,
    Prod.Lex (· < ·) (· < ·) (ctx.rank limit) (caller.rank limit)
  depth_le : ctx.depth ≤ limit + 1
  nodup : ctx.visited.Nodup
  length_visited : ctx.visited.length = ctx.depth
  visited_eq : ctx.visited = (callers ctx path).map Context.key

/-- Whether an event may happen while the frames of a path are open. -/
def Event.IsInTurn (limit : Nat) (path : List Context) : Event → Prop
  | .entered ctx => ctx.OpensOn limit path
  | .depthReached _ ctx => ctx.OpensOn limit path
  | .returned _ ctx _ _ => path.head? = some ctx
  | _ => True

/-- Every event happens while it may. -/
def InTurn (limit : Nat) (events : List Event) : Prop :=
  ∀ event rest, event :: rest <:+ events → event.IsInTurn limit (openFrames rest)

theorem InTurn.cons {limit : Nat} {event : Event} {events : List Event} (h : InTurn limit events)
    (hevent : event.IsInTurn limit (openFrames events)) : InTurn limit (event :: events) := by
  intro other rest hsuffix
  rcases List.suffix_cons_iff.mp hsuffix with hlast | hearlier
  · cases hlast
    exact hevent
  · exact h other rest hearlier

namespace Context.OpensOn

variable {limit : Nat} {path : List Context} {ctx : Context}

theorem root (limit : Nat) (ref : Reference) (dir : Path) :
    OpensOn limit [] { reference := ref, directory := dir } where
  rank_lt := nofun
  depth_le := Nat.zero_le _
  nodup := .nil
  length_visited := rfl
  visited_eq := rfl

/-- The frame that a caller opens for its child. -/
theorem child (h : ctx.OpensOn limit path) (hcycle : ctx.isCycle = false)
    (hdepth : ctx.depth ≤ limit) (ref : Reference) (dir : Path)
    (stack : List ModuleFrame) :
    OpensOn limit (ctx :: path) (ctx.child ref dir stack) := by
  have hnew : ctx.key ∉ ctx.visited := by simpa [Context.isCycle] using hcycle
  have hvisited : (ctx.child ref dir stack).visited =
      ctx.key :: ctx.visited := List.insert_of_not_mem hnew
  refine ⟨fun caller hcaller => ?_, Nat.succ_le_succ hdepth, ?_, ?_, ?_⟩
  · cases hcaller
    refine .left _ _ ?_
    show limit + 1 - (ctx.depth + 1) < limit + 1 - ctx.depth
    omega
  · rw [hvisited]
    exact List.nodup_cons.mpr ⟨hnew, h.nodup⟩
  · rw [hvisited, List.length_cons, h.length_visited]
    rfl
  · have hcallers : callers (ctx.child ref dir stack) (ctx :: path) =
        ctx :: callers ctx path := if_pos rfl
    rw [hvisited, hcallers, List.map_cons, ← h.visited_eq]

/-- The frame that a reference with properties opens for its symbol. -/
theorem symbol (h : ctx.OpensOn limit path) (hproperties : ctx.reference.properties ≠ []) :
    OpensOn limit (ctx :: path) (ctx.withReference ctx.reference.base) := by
  refine ⟨fun caller hcaller => ?_, h.depth_le, h.nodup, h.length_visited, ?_⟩
  · cases hcaller
    have hrank : ctx.rank limit = (limit + 1 - ctx.depth, 1) := by
      simp [Context.rank, hproperties]
    have hsymbol : (ctx.withReference ctx.reference.base).rank limit =
        (limit + 1 - ctx.depth, 0) := by
      simp [Context.rank, Context.withReference]
    rw [hrank, hsymbol]
    exact .right _ Nat.one_pos
  · -- the symbol stands on the level of its caller, so it is no child
    rw [callers, if_neg, ← h.visited_eq]
    · rfl
    · intro hchild
      have hdepth := congrArg Context.depth hchild
      simp [Context.withReference, Context.child] at hdepth

end Context.OpensOn

/-! ### Records -/

/-- The events since those of `base` begin with the frame of `root`, have happened in their turn,
and leave the frames of `path` open. -/
def Recorded (limit : Nat) (root : Context) (base : List Event) (path : List Context)
    (events : List Event) : Prop :=
  ∃ later, events = later ++ .entered root :: base ∧ InTurn limit (later ++ [.entered root]) ∧
    openFrames (later ++ [.entered root]) = path

namespace Recorded

variable {limit : Nat} {root : Context} {base : List Event} {path : List Context}
  {events : List Event}

theorem start (h : root.OpensOn limit []) :
    Recorded limit root base [root] (.entered root :: base) :=
  ⟨[], rfl, InTurn.cons (by simp [InTurn]) h, rfl⟩

theorem cons (h : Recorded limit root base path events) (event : Event)
    (hevent : event.IsInTurn limit path) :
    Recorded limit root base (event.openAfter path) (event :: events) := by
  obtain ⟨later, rfl, hturn, rfl⟩ := h
  exact ⟨event :: later, rfl, hturn.cons hevent, rfl⟩

/-- What happens apart from frames leaves them open. -/
theorem admits (limit : Nat) (root : Context) (base : List Event) (path : List Context) :
    AdmitsSearch fun events events' =>
      Recorded limit root base path events → Recorded limit root base path events' where
  refl _ h := h
  trans h h' := h' ∘ h
  aside {event} events haside h := by
    cases event <;> first | exact haside.elim | exact h.cons _ trivial
  threaded events ctx call value cacheable h := h.cons _ trivial

end Recorded

/-! ### Runs -/

section Runs

variable {limit : Nat} {root : Context} {base : List Event} {path : List Context} {α β : Type}

/-- From a session, the run leaves the frames of `path` open, unless it is given up; and events
happen in their turn in any case. -/
def Leaves (limit : Nat) (root : Context) (base : List Event) (path : List Context) (x : Run α)
    (s : Session) (P : α → Prop) : Prop :=
  match outcome x s with
  | .ok value => P value ∧ Recorded limit root base path (after x s).events
  | .error _ => ∃ others, Recorded limit root base others (after x s).events

/-- The run closes the frames that it opens. -/
def Nests (limit : Nat) (root : Context) (base : List Event) (path : List Context) (x : Run α)
    (P : α → Prop) : Prop :=
  ∀ s, Recorded limit root base path s.events → Leaves limit root base path x s P

namespace Nests

theorem bind {P : α → Prop} {Q : β → Prop} {x : Run α} {f : α → Run β}
    (hx : Nests limit root base path x P)
    (hf : ∀ value, P value → Nests limit root base path (f value) Q) :
    Nests limit root base path (x >>= f) Q := by
  intro s hs
  have hfirst := hx s hs
  unfold Leaves at hfirst ⊢
  rcases bind_cases x f s with ⟨abort, hout, hbind, hafter⟩ | ⟨value, hout, hbind, hafter⟩
  · rw [hout] at hfirst
    rw [hbind, hafter]
    exact hfirst
  · rw [hout] at hfirst
    rw [hbind, hafter]
    exact hf value hfirst.1 _ hfirst.2

theorem sequential : Sequential fun x _ P => Nests limit root base path x P where
  pure h _ hs := ⟨h, hs⟩
  throw _ _ hs := ⟨path, hs⟩
  bind := bind

/-- What is looked up opens no frame. -/
theorem of_valued {x y : Run α} {P : α → Prop}
    (h : Valued (fun x _ => Keeps (fun events events' =>
      Recorded limit root base path events → Recorded limit root base path events') x) x y P) :
    Nests limit root base path x P := by
  intro s hs
  have hkept := h.1 s hs
  unfold Leaves
  cases hout : outcome x s with
  | ok value => exact ⟨h.2 s value hout, hkept⟩
  | error abort => exact ⟨path, hkept⟩

theorem ofLookups (ws : Workspace) :
    OfLookups (fun x _ P => Nests limit root base path x P) ws ws.disk fun _ => True :=
  have hlookups := (Recorded.admits limit root base path).ofLookups ws
  { toSequential := sequential
    parent := hlookups.parent
    isDirectory := fun h => of_valued (hlookups.isDirectory h)
    override := fun name _ h => of_valued (hlookups.override name h)
    localValue := fun name _ h => of_valued (hlookups.localValue name h)
    output := fun name _ h => of_valued (hlookups.output name h)
    default := fun name _ h => of_valued (hlookups.default name h)
    data := fun ref _ h => of_valued (hlookups.data ref h)
    calls := fun h => of_valued (hlookups.calls h)
    place := fun source _ h => of_valued (hlookups.place source h) }

end Nests

/-- A frame that is entered closes again. -/
theorem Leaves.frame {mode : SearchMode} {ctx : Context} {compute : Run Resolution}
    {s : Session} (hentered : Recorded limit root base (ctx :: path) (.entered ctx :: s.events))
    (hcompute : ctx.isCycle = false → Nests limit root base (ctx :: path) compute fun _ => True) :
    Leaves limit root base path (frame mode ctx compute) s fun _ => True := by
  unfold Leaves
  refine frame_cases mode ctx compute s fun hends => ?_
  cases hends with
  | cut hcycle => exact ⟨trivial, (hentered.cons (.cycleCut ctx) trivial).cons _ rfl⟩
  | hit hcycle known hget => exact ⟨trivial, hentered.cons _ rfl⟩
  | aborted hcycle hget abort hout =>
    have hinside := hcompute hcycle (opened mode ctx s) hentered
    rw [Leaves, hout] at hinside
    exact hinside
  | stored hcycle hget value hout =>
    have hinside := hcompute hcycle (opened mode ctx s) hentered
    rw [Leaves, hout] at hinside
    exact ⟨trivial, (hinside.2.cons (.stored _) trivial).cons _ rfl⟩
  | unstored hcycle hget value hout =>
    have hinside := hcompute hcycle (opened mode ctx s) hentered
    rw [Leaves, hout] at hinside
    exact ⟨trivial, hinside.2.cons _ rfl⟩

end Runs

/-! ### Frames -/

section Frames

variable {ws : Workspace} {mode : SearchMode} {root : Context} {base : List Event}
  {path : List Context} {ctx : Context} {left : Nat}
  (hnested : ∀ {path ctx}, Context.OpensOn ws.settings.maxDepth path ctx →
    ctx.depth + left = ws.settings.maxDepth + 1 →
    Nests ws.settings.maxDepth root base path (resolveFrame ws mode left ctx) fun _ => True)
  (hopens : ctx.OpensOn ws.settings.maxDepth path)
  (hdepth : ctx.depth + (left + 1) = ws.settings.maxDepth + 1)

include hnested hopens hdepth

/-- A search opens the frames of children. -/
theorem nests_searchSymbol (hcycle : ctx.isCycle = false) :
    Nests ws.settings.maxDepth root base (ctx :: path)
      (searchSymbol ws mode (resolveFrame ws mode left) ctx) fun _ => True := by
  refine @OfLookups.searchSymbol _ _ _ _ (Nests.ofLookups ws) _
    (resolveFrame ws mode left) _ trivial (fun _ _ => ⟨trivial, trivial⟩)
    (fun ref dir stack _ _ => ?_) (fun call value cacheable _ => ?_) mode
  · refine hnested (hopens.child hcycle (by omega) ref dir stack) ?_
    show ctx.depth + 1 + left = _
    omega
  · exact fun s hs => ⟨trivial, hs.cons _ trivial⟩

theorem leaves_resolveFrame {s : Session}
    (hentered : Recorded ws.settings.maxDepth root base (ctx :: path) (.entered ctx :: s.events)) :
    Leaves ws.settings.maxDepth root base path
      (resolveFrame ws mode (left + 1) ctx) s fun _ => True := by
  unfold resolveFrame
  dsimp only
  split
  next => exact .frame hentered (nests_searchSymbol hnested hopens hdepth)
  next hproperties =>
    have hsymbol := hopens.symbol (by simpa using hproperties)
    refine .frame hentered fun _ =>
      Nests.bind (P := fun _ => True) (fun s hs => ?_) fun result _ => ?_
    · exact .frame (hs.cons _ hsymbol) (nests_searchSymbol hnested hsymbol hdepth)
    · exact Nests.bind (Nests.sequential.project _ _) fun value _ => fun s hs => ⟨trivial, hs⟩

end Frames

theorem nests_resolveFrame {ws : Workspace} {mode : SearchMode} {root : Context}
    {base : List Event} (left : Nat) {path : List Context} {ctx : Context}
    (hopens : ctx.OpensOn ws.settings.maxDepth path)
    (hdepth : ctx.depth + left = ws.settings.maxDepth + 1) :
    Nests ws.settings.maxDepth root base path (resolveFrame ws mode left ctx) fun _ => True := by
  induction left generalizing path ctx with
  | zero => exact fun s hs => ⟨trivial, (hs.cons (.depthReached _ ctx) hopens).cons _ rfl⟩
  | succ left ih =>
    exact fun s hs => leaves_resolveFrame ih hopens hdepth (hs.cons _ hopens)

/-- **Frames nest within bounds, and know the callers on their own path.** A resolution begins
with its own frame. From there on every frame that opens has a smaller rank than the one it opens
in, lies no deeper than one level below the limit, and has visited as many frames as it lies
deep, which are the callers that are open; every frame that returns is the innermost open one; and
if the resolution comes to an end, all frames have returned. -/
theorem frames_inTurn (ws : Workspace) (mode : SearchMode) (ref : Reference)
    (dir : Path) (s : Session) :
    ∃ later,
      (after (resolveFrom ws mode ref dir) s).events =
        later ++ .entered { reference := ref, directory := dir } :: s.events ∧
      InTurn ws.settings.maxDepth (later ++ [.entered { reference := ref, directory := dir }]) ∧
      ∀ resolution, outcome (resolveFrom ws mode ref dir) s = .ok resolution →
        openFrames (later ++ [.entered { reference := ref, directory := dir }]) = [] := by
  have hroot := Context.OpensOn.root ws.settings.maxDepth ref dir
  have hleaves : Leaves ws.settings.maxDepth { reference := ref, directory := dir } s.events []
      (resolveFrom ws mode ref dir) s fun _ => True :=
    leaves_resolveFrame (nests_resolveFrame _) hroot (Nat.zero_add _) (.start hroot)
  unfold Leaves at hleaves
  split at hleaves
  next resolution hout =>
    obtain ⟨-, later, hevents, hturn, hopen⟩ := hleaves
    exact ⟨later, hevents, hturn, fun _ _ => hopen⟩
  next abort hout =>
    obtain ⟨-, later, hevents, hturn, -⟩ := hleaves
    refine ⟨later, hevents, hturn, fun resolution hok => ?_⟩
    rw [hok] at hout
    cases hout

/-- Two local values that stand for each other. -/
def circling : Workspace := .ofFiles { maxDepth := 2 } [(["main.tf"],
  "locals \x7b\n  a = local.b\n  b = local.a\n\x7d\n")]

/-- A property of one of them is asked for. -/
def circlingRun : Run Resolution :=
  resolveFrom circling .plain ⟨.localValue, ["a".toList, "p".toList], by decide⟩
    (.ofText "/w".toList)

theorem circlingRun_inTurn :
    InTurn 2 (after circlingRun .fresh).events ∧ openFrames (after circlingRun .fresh).events = [] ∧
      ∃ cut, .cycleCut cut ∈ (after circlingRun .fresh).events := by
  have hcut : (after circlingRun .fresh).events.any Event.isCut = true := by decide +kernel
  have hok : (outcome circlingRun .fresh).toBool = true := by decide +kernel
  obtain ⟨later, hevents, hturn, hclosed⟩ := frames_inTurn circling .plain
    ⟨.localValue, ["a".toList, "p".toList], by decide⟩ (.ofText "/w".toList) .fresh
  cases hout : outcome circlingRun .fresh with
  | error abort =>
    rw [hout] at hok
    cases hok
  | ok resolution =>
    have hopen := (congrArg openFrames hevents).trans (hclosed resolution hout)
    exact ⟨(congrArg (InTurn 2) hevents).mpr hturn, hopen,
      exists_isCut.mp (List.any_eq_true.mp hcut)⟩

end TerraformTrace
