import TerraformTrace.Engine.Query
import TerraformTrace.Proofs.Key

/-!
# TerraformTrace.Proofs.Run

Reasoning about runs of the engine. A run is a function of the session; here it is
taken apart into its *outcome*, a value or the reason it was given up for, and the
session *after* it, which is there in both cases.

**How a frame ends.** Everything a frame does around the computation of its result is
said once, by `frameEnds`: it is cut, answered from the cache, given up, or it comes to
a result that is remembered or not. What holds of all frames is proved by these cases.
-/

namespace TerraformTrace

open Hcl

variable {α β : Type} {s : Session} {ctx : Context} {f : α → Run β} (mode : SearchMode)

/-! ### Outcome and session -/

/-- How a run ends. -/
def outcome (run : Run α) (session : Session) : Except Abort α :=
  match run session with
  | .ok value _ => .ok value
  | .error abort _ => .error abort

/-- The session after a run, whether or not it was given up. -/
def after (run : Run α) (session : Session) : Session :=
  match run session with
  | .ok _ session => session
  | .error _ session => session

theorem run_eq_ok_iff {run : Run α} {s' : Session} {value : α} :
    run s = .ok value s' ↔ outcome run s = .ok value ∧ after run s = s' := by
  unfold outcome after
  cases run s <;> simp

theorem outcome_bind (x : Run α) (f : α → Run β) (s : Session) :
    outcome (x >>= f) s = outcome x s >>= fun value => outcome (f value) (after x s) := by
  show outcome (EStateM.bind x f) s = _
  unfold outcome after EStateM.bind
  cases x s <;> rfl

theorem after_bind_of_ok {x : Run α} {value : α}
    (h : outcome x s = .ok value) : after (x >>= f) s = after (f value) (after x s) := by
  show after (EStateM.bind x f) s = _
  unfold outcome at h
  unfold after EStateM.bind
  cases hx : x s with
  | ok found s' =>
    rw [hx] at h
    cases h
    rfl
  | error abort s' =>
    rw [hx] at h
    cases h

theorem after_bind_of_error {x : Run α} {abort : Abort}
    (h : outcome x s = .error abort) : after (x >>= f) s = after x s := by
  show after (EStateM.bind x f) s = _
  unfold outcome at h
  unfold after EStateM.bind
  cases hx : x s with
  | ok found s' =>
    rw [hx] at h
    cases h
  | error abort s' => rfl

/-- A sequence is given up in its first part, or its second part goes on from where the
first one ended. -/
theorem bind_cases (x : Run α) (f : α → Run β) (s : Session) :
    (∃ abort, outcome x s = .error abort ∧ outcome (x >>= f) s = .error abort ∧
      after (x >>= f) s = after x s) ∨
    (∃ value, outcome x s = .ok value ∧
      outcome (x >>= f) s = outcome (f value) (after x s) ∧
      after (x >>= f) s = after (f value) (after x s)) := by
  cases hx : outcome x s with
  | error abort =>
    refine Or.inl ⟨abort, rfl, ?_, after_bind_of_error hx⟩
    rw [outcome_bind, hx]
    rfl
  | ok value =>
    refine Or.inr ⟨value, rfl, ?_, after_bind_of_ok hx⟩
    rw [outcome_bind, hx]
    rfl

/-- A sequence that comes to a value has come to one in both of its parts. -/
theorem bind_ok {x : Run α} {result : β} (h : outcome (x >>= f) s = .ok result) :
    ∃ value, outcome x s = .ok value ∧ outcome (f value) (after x s) = .ok result ∧
      after (x >>= f) s = after (f value) (after x s) := by
  rcases bind_cases x f s with ⟨abort, -, hout, -⟩ | ⟨value, hx, hout, hafter⟩
  · rw [hout] at h
    cases h
  · exact ⟨value, hx, hout ▸ h, hafter⟩

@[simp]
theorem outcome_lookUp (key : Text) (s : Session) :
    outcome (lookUp key) s = .ok (s.cache.get key).1 := rfl

/-! ### The search for an input in parts -/

/-- What is done once the argument of a call was expanded: the other call sites are tried
if it came to nothing. -/
def threadOn (nested : Context → Run Resolution) (ctx : Context) (cacheable : Bool)
    (call : ModuleCall) (sites : List (ModuleCall × List ModuleFrame)) (threaded : Resolution) :
    Run Resolution := do
  note (.threaded ctx call threaded.value threaded.cacheable)
  if threaded.value.isSome then return threaded
  else threadArguments nested ctx (cacheable && threaded.cacheable) sites

theorem threadArguments_cons (nested : Context → Run Resolution) (ctx : Context)
    (cacheable : Bool) (call : ModuleCall) (stack : List ModuleFrame)
    (sites : List (ModuleCall × List ModuleFrame)) :
    threadArguments nested ctx cacheable ((call, stack) :: sites) =
      match call.inputs.get? ctx.reference.name with
      | none => threadArguments nested ctx cacheable sites
      | some argument =>
        expand nested ctx call.directory stack argument >>=
          threadOn nested ctx cacheable call sites := rfl

/-- The value that call sites give an input, in the mode that follows them. -/
def threadedInput (ws : Workspace) (mode : SearchMode) (nested : Context → Run Resolution)
    (ctx : Context) : Run Resolution :=
  match mode with
  | .plain => pure .notFound
  | .enhanced => threadInput ws nested ctx

/-- The rest of the search for an input once the call sites were asked. -/
def searchDefault (ws : Workspace) (nested : Context → Run Resolution) (ctx : Context)
    (threaded : Resolution) : Run SearchOutcome := do
  if threaded.value.isSome then return .settled threaded
  match ← settle nested ctx (← lookupDefault ws ctx.reference.name ctx.directory) with
  | .settled resolution => return .settled resolution
  | .missed _ => return .missed threaded.cacheable

theorem searchInput_eq (ws : Workspace) (mode : SearchMode)
    (nested : Context → Run Resolution) (ctx : Context) :
    searchInput ws mode nested ctx = (do
      let found ← firstFound
        [lookupOverride ws ctx.reference.name ctx.directory,
          lookupLocal ws ctx.reference.name ctx.directory,
          lookupOutput ws ctx.reference.name ctx.directory]
      if found.isSome then settle nested ctx found
      else threadedInput ws mode nested ctx >>= searchDefault ws nested ctx) := by
  cases mode <;> rfl

/-! ### Keys of frames -/

/-- The key a frame's result is remembered under. -/
def frameKey (mode : SearchMode) (ctx : Context) : Text := cacheKey mode.kind.word ctx.keyParts

/-! ### How a frame ends -/

/-- The session in which the result of a frame is computed: the frame is entered and the
cache was asked. -/
def opened (mode : SearchMode) (ctx : Context) (s : Session) : Session :=
  { s with
    cache := (s.cache.get (frameKey mode ctx)).2, events := .entered ctx :: s.events }

/-- The ways a frame can end, each with its outcome and the session after it. -/
inductive FrameEnds (mode : SearchMode) (ctx : Context) (compute : Run Resolution)
    (s : Session) : Except Abort Resolution → Session → Prop
  /-- The frame is on its own path. -/
  | cut (hcycle : ctx.isCycle = true) :
    FrameEnds mode ctx compute s (.ok .cut)
      { s with
        events := .returned mode ctx none false :: .cycleCut ctx :: .entered ctx :: s.events }
  /-- The result is remembered. -/
  | hit (hcycle : ctx.isCycle = false) (known : Remembered)
    (hget : (s.cache.get (frameKey mode ctx)).1 = some known) :
    FrameEnds mode ctx compute s (.ok { value := present? known.asText }) { opened mode ctx s with
        events := .returned mode ctx (present? known.asText) true :: .entered ctx :: s.events }
  /-- The computation is given up. -/
  | aborted (hcycle : ctx.isCycle = false)
    (hget : (s.cache.get (frameKey mode ctx)).1 = none) (abort : Abort)
    (hcompute : outcome compute (opened mode ctx s) = .error abort) :
    FrameEnds mode ctx compute s (.error abort) (after compute (opened mode ctx s))
  /-- The result is computed and remembered. -/
  | stored (hcycle : ctx.isCycle = false)
    (hget : (s.cache.get (frameKey mode ctx)).1 = none) (value : Option Text)
    (hcompute : outcome compute (opened mode ctx s) = .ok { value }) :
    FrameEnds mode ctx compute s (.ok { value })
      { after compute (opened mode ctx s) with
        cache := (after compute (opened mode ctx s)).cache.set (frameKey mode ctx)
          (.text (value.getD []))
        events := .returned mode ctx value true :: .stored (frameKey mode ctx) ::
          (after compute (opened mode ctx s)).events }
  /-- The result is computed and must not be remembered. -/
  | unstored (hcycle : ctx.isCycle = false)
    (hget : (s.cache.get (frameKey mode ctx)).1 = none) (value : Option Text)
    (hcompute : outcome compute (opened mode ctx s) = .ok { value, cacheable := false }) :
    FrameEnds mode ctx compute s (.ok { value, cacheable := false })
      { after compute (opened mode ctx s) with
        events := .returned mode ctx value false :: (after compute (opened mode ctx s)).events }

theorem frame_of_isCycle (compute : Run Resolution) (s : Session) (hcycle : ctx.isCycle = true) :
    frame mode ctx compute s = .ok .cut
      { s with
        events := .returned mode ctx none false :: .cycleCut ctx :: .entered ctx :: s.events } := by
  unfold frame
  rw [if_pos hcycle]
  rfl

theorem note_apply (event : Event) (s : Session) :
    note event s = .ok () { s with events := event :: s.events } := rfl

theorem lookUp_apply (key : Text) (s : Session) :
    lookUp key s = .ok (s.cache.get key).1 { s with cache := (s.cache.get key).2 } := rfl

/-- Off its own path a frame asks the cache, and otherwise its computation. -/
theorem frame_of_not_isCycle (compute : Run Resolution) (s : Session)
    (hcycle : ctx.isCycle = false) :
    frame mode ctx compute s =
      match (s.cache.get (frameKey mode ctx)).1 with
      | some known => .ok { value := present? known.asText }
          { opened mode ctx s with
            events := .returned mode ctx (present? known.asText) true :: .entered ctx :: s.events }
      | none =>
        match compute (opened mode ctx s) with
        | .error abort s' => .error abort s'
        | .ok result s' =>
          if result.cacheable then
            .ok result { s' with
              cache := s'.cache.set (frameKey mode ctx) (.text (result.value.getD []))
              events := .returned mode ctx result.value result.cacheable ::
                .stored (frameKey mode ctx) :: s'.events }
          else
            .ok result { s' with
              events := .returned mode ctx result.value result.cacheable :: s'.events } := by
  unfold frame remembered
  rw [if_neg (by simp [hcycle])]
  simp only [bind, EStateM.bind, note_apply, lookUp_apply, pure, EStateM.pure, frameKey, opened]
  cases (s.cache.get (cacheKey mode.kind.word ctx.keyParts)).1 with
  | some known => rfl
  | none =>
    dsimp only [EStateM.bind]
    cases compute { s with
        cache := (s.cache.get (cacheKey mode.kind.word ctx.keyParts)).2
        events := .entered ctx :: s.events } with
    | error abort s' => rfl
    | ok result s' =>
      obtain ⟨value, cacheable⟩ := result
      cases cacheable <;> rfl

/-- A frame ends in one of the five ways. -/
theorem frameEnds (ctx : Context) (compute : Run Resolution) (s : Session) :
    FrameEnds mode ctx compute s (outcome (frame mode ctx compute) s)
      (after (frame mode ctx compute) s) := by
  unfold outcome after
  cases hcycle : ctx.isCycle with
  | true =>
    rw [frame_of_isCycle mode compute s hcycle]
    exact .cut hcycle
  | false =>
    rw [frame_of_not_isCycle mode compute s hcycle]
    cases hget : (s.cache.get (frameKey mode ctx)).1 with
    | some known => exact .hit hcycle known hget
    | none =>
      cases hrun : compute (opened mode ctx s) with
      | error abort s' =>
        have hout : outcome compute (opened mode ctx s) = .error abort := by
          rw [outcome, hrun]
        have hafter : after compute (opened mode ctx s) = s' := by rw [after, hrun]
        exact hafter ▸ .aborted hcycle hget abort hout
      | ok result s' =>
        obtain ⟨hout, rfl⟩ := run_eq_ok_iff.mp hrun
        obtain ⟨value, cacheable⟩ := result
        cases cacheable with
        | true => exact .stored hcycle hget value hout
        | false => exact .unstored hcycle hget value hout

/-- What holds however a frame ends holds of the frame. -/
@[elab_as_elim]
theorem frame_cases (ctx : Context) (compute : Run Resolution) (s : Session)
    {motive : Except Abort Resolution → Session → Prop}
    (h : ∀ {out s'}, FrameEnds mode ctx compute s out s' → motive out s') :
    motive (outcome (frame mode ctx compute) s) (after (frame mode ctx compute) s) :=
  h (frameEnds mode ctx compute s)

/-- A cache without entries is asked in vain. -/
theorem Cache.get_of_empty {τ : Type} [Sub τ] [LT τ] [DecidableLT τ] {cache : Cache τ α}
    (h : cache.entries = []) (key : Text) :
    cache.get key = (none, { cache with misses := cache.misses + 1 }) := by
  simp [Cache.get, h]

/-- Without memory, the first frame is computed. -/
theorem outcome_frame_of_empty (h : s.cache.entries = []) {mode : SearchMode}
    (hvisited : ctx.visited = []) (compute : Run Resolution) :
    outcome (frame mode ctx compute) s = outcome compute (opened mode ctx s) := by
  have hcycle : ctx.isCycle = false := by
    rw [Context.isCycle, hvisited]
    rfl
  have hget : (s.cache.get (frameKey mode ctx)).1 = none := by
    rw [Cache.get_of_empty h]
  refine frame_cases mode ctx compute s fun hends => ?_
  cases hends with
  | cut hcut => simp [hcycle] at hcut
  | hit hcycle known hknown => simp [hget] at hknown
  | aborted hcycle hget abort hout => exact hout.symm
  | stored hcycle hget value hout => exact hout.symm
  | unstored hcycle hget value hout => exact hout.symm

/-- The kinds of results that belong to one directory. -/
def ResultKind.IsLookup (kind : ResultKind) : Prop := kind ≠ .resolve ∧ kind ≠ .enhanced

instance (kind : ResultKind) : Decidable kind.IsLookup :=
  inferInstanceAs (Decidable (kind ≠ .resolve ∧ kind ≠ .enhanced))

theorem ResultKind.IsLookup.cacheKey_ne {kind : ResultKind} (h : kind.IsLookup)
    (parts : List Text) (mode : SearchMode) (parts' : List Text) :
    cacheKey kind.word parts ≠ cacheKey mode.kind.word parts' := by
  intro hkey
  have hkind := ResultKind.word_inj (cacheKey_inj hkey).1
  cases mode with
  | plain => exact h.1 hkind
  | enhanced => exact h.2 hkind

end TerraformTrace
