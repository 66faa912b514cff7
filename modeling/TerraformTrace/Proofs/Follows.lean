import TerraformTrace.Proofs.Faithful
import TerraformTrace.Proofs.Tally

/-!
# TerraformTrace.Proofs.Follows

Resolution against evaluation without memory. A run from a faithful session leaves the
session faithful, and comes to what direct evaluation comes to if no frame is cut in it
(`Follows`). The two are proved together, because a result that is remembered has to be
the direct one, and a remembered result that is read again stands for a computation.

**What can go wrong.** `Clean` names the two ways in which a result other than the
direct one is remembered: over the lost argument of a call, and when a result is the
empty text, which is remembered like a missing value. A cut itself does no harm to the
session, since a result with a cut behind it is not remembered otherwise.

`follows_resolveFrame` is the result for frames and `Follows.sought` that for requests.
-/

namespace TerraformTrace

open Hcl

variable {ref : Reference}

/-! ### Clean records -/

/-- As far as the frames of a mode go: no argument of a call was lost, and no frame whose
meaning is the empty text came to it. -/
structure Clean (ws : Workspace) (mode : SearchMode) (events : List Event) : Prop where
  lost : mode = .enhanced → ∀ ctx call, .threaded ctx call none false ∉ events
  empty : ∀ ctx, .returned mode ctx (some []) true ∈ events →
    evaluateFrame ws mode ctx ≠ .ok (some [])

theorem Clean.of_suffix {ws : Workspace} {mode : SearchMode} {earlier events : List Event}
    (h : Clean ws mode events) (hsuffix : earlier <:+ events) :
    Clean ws mode earlier where
  lost hmode ctx call hmem := h.lost hmode ctx call (hsuffix.subset hmem)
  empty ctx hmem := h.empty ctx (hsuffix.subset hmem)

/-- Events are only added. -/
def Grows (before after : List Event) : Prop := before <:+ after

theorem admits_grows : AdmitsSearch Grows where
  refl := List.suffix_refl
  trans := List.IsSuffix.trans
  aside events _ := List.suffix_cons _ events
  threaded events _ _ _ _ := List.suffix_cons _ events

/-! ### Following direct evaluation -/

/-- From a faithful session and with a clean record, the run leaves the session faithful,
and comes to this result unless a frame is cut. -/
structure Follows {α : Type} (ws : Workspace) (mode : SearchMode) (run : Run α)
    (result : Except Abort α) : Prop where
  faithful : ∀ s, Faithful ws s → Clean ws mode (after run s).events → Faithful ws (after run s)
  agrees : ∀ s, Faithful ws s → Clean ws mode (after run s).events →
    ¬ Occurs Event.isCut s.events (after run s).events → outcome run s = result

namespace Follows

variable {α β : Type} {ws : Workspace} {mode : SearchMode} {f : α → Run β} {result : Except Abort α}

theorem pure (value : α) : Follows ws mode (pure value) (.ok value) :=
  ⟨fun _ hs _ => hs, fun _ _ _ _ => rfl⟩

/-- Every look-up follows its direct value. -/
theorem of_answers {run : Run α} (h : Answers (Faithful ws) run result) :
    Follows ws mode run result :=
  ⟨fun s hs _ => h.keeps s hs, fun s hs _ _ => h.outcome s hs⟩

/-- The second part starts from a session that is faithful, whatever the first came to. -/
theorem bind {x : Run α} {next : α → Except Abort β} (hx : Follows ws mode x result)
    (hf : ∀ value, Follows ws mode (f value) (next value)) (hgrows : Keeps Grows x)
    (hgrows' : ∀ value, Keeps Grows (f value)) :
    Follows ws mode (x >>= f) (result >>= next) where
  faithful s hs hclean := by
    rcases bind_cases x f s with ⟨abort, -, -, hafter⟩ | ⟨value, -, -, hafter⟩
    · rw [hafter] at hclean ⊢
      exact hx.faithful s hs hclean
    · rw [hafter] at hclean ⊢
      exact (hf value).faithful _ (hx.faithful s hs (hclean.of_suffix (hgrows' value _))) hclean
  agrees s hs hclean hcut := by
    rcases bind_cases x f s with ⟨abort, hout, hboth, hafter⟩ | ⟨value, hout, hboth, hafter⟩
    · rw [hafter] at hclean hcut
      rw [hboth, ← hx.agrees s hs hclean hcut, hout]
      rfl
    · rw [hafter] at hclean hcut
      have hlate := hgrows' value (after x s)
      have hmiddle := hclean.of_suffix hlate
      have hfirst := hx.agrees s hs hmiddle
        fun hoccurs => hcut (hoccurs.widen (List.suffix_refl _) hlate)
      have hsecond := (hf value).agrees _ (hx.faithful s hs hmiddle) hclean
        fun hoccurs => hcut (hoccurs.widen (hgrows s) (List.suffix_refl _))
      rw [hboth, hsecond, ← hfirst, hout]
      rfl

theorem map {x : Run α} (hx : Follows ws mode x result) (hgrows : Keeps Grows x) (f : α → β) :
    Follows ws mode (x >>= fun value => Pure.pure (f value))
      (result >>= fun value => .ok (f value)) :=
  bind hx (fun value => pure (f value)) hgrows fun _ => admits_grows.pure _

/-- After a look-up the second part starts from the direct value. -/
theorem lookup_bind {x : Run α} {next : α → Except Abort β}
    (hx : Answers (Faithful ws) x result) (hquiet : Keeps Quiet x)
    (hf : ∀ value, result = .ok value → Follows ws mode (f value) (next value)) :
    Follows ws mode (x >>= f) (result >>= next) where
  faithful s hs hclean := by
    have hout := hx.outcome s hs
    cases result with
    | error abort =>
      rw [after_bind_of_error hout]
      exact hx.keeps s hs
    | ok value =>
      rw [after_bind_of_ok hout] at hclean ⊢
      exact (hf value rfl).faithful _ (hx.keeps s hs) hclean
  agrees s hs hclean hcut := by
    have hout := hx.outcome s hs
    rw [outcome_bind, hout]
    cases result with
    | error abort => rfl
    | ok value =>
      rw [after_bind_of_ok hout] at hclean hcut
      exact (hf value rfl).agrees _ (hx.keeps s hs) hclean
        fun hoccurs => hcut (hoccurs.widen (hquiet s).suffix (List.suffix_refl _))

theorem ok_lookup_bind {x : Run α} {value : α} {result : Except Abort β}
    (hx : Answers (Faithful ws) x (.ok value)) (hquiet : Keeps Quiet x)
    (hf : Follows ws mode (f value) result) : Follows ws mode (x >>= f) result := by
  have hboth : Follows ws mode (x >>= f) (Except.ok value >>= fun _ => result) :=
    lookup_bind hx hquiet fun found hfound => by
      cases hfound
      exact hf
  exact hboth

/-- An event of which nothing is asked is recorded. -/
theorem note_bind {event : Event} {run : Run α}
    (hevent : ∀ mode ctx value, event ≠ .returned mode ctx value true)
    (hrun : Follows ws mode run result) :
    Follows ws mode (note event >>= fun _ => run) result where
  faithful _ hs hclean := hrun.faithful _
    (hs.note fun mode ctx value heq => absurd heq (hevent mode ctx value)) hclean
  agrees s hs hclean hcut := hrun.agrees _
    (hs.note fun mode ctx value heq => absurd heq (hevent mode ctx value)) hclean
    fun hoccurs => hcut (hoccurs.widen (List.suffix_cons event s.events) (List.suffix_refl _))

end Follows

/-! ### The search in one directory -/

/-- A value as the result of a frame that nothing was cut in. -/
def resolved (result : Except Abort (Option Text)) : Except Abort Resolution :=
  result >>= fun value => .ok { value }

/-- A value, or none, as the outcome of a search that nothing was cut in. -/
def searched (result : Except Abort (Option (Option Text))) : Except Abort SearchOutcome :=
  result >>= fun found =>
    match found with
    | some value => .ok (.settled { value })
    | none => .ok (.missed true)

/-- An expansion in which a reference was replaced by what came of it. -/
def Expansion.replaced (expansion : Expansion) (ref : Reference) (result : Resolution) :
    Expansion :=
  let cacheable := expansion.cacheable && result.cacheable
  match result.value with
  | some value =>
    { expansion with value := substitute expansion.value ref.text value, cacheable }
  | none => { expansion with cacheable, unresolved := expansion.unresolved ++ [ref] }

/-- The value of a finished expansion. -/
def Expansion.result? (expansion : Expansion) (value : Text) : Option Text :=
  match orderedReferences value, expansion.unresolved with
  | [_], [ref] => if isAlias value ref then none else some expansion.value
  | _, _ => some expansion.value

theorem expand_eq (nested : Context → Run Resolution) (ctx : Context) (dir : Path)
    (stack : List ModuleFrame) (value : Text) :
    expand nested ctx dir stack value =
      (orderedReferences value).foldlM (expandOne nested ctx dir stack) { value } >>=
        fun expansion =>
          pure { value := expansion.result? value, cacheable := expansion.cacheable } := by
  unfold expand Expansion.result?
  refine bind_congr fun expansion => ?_
  match orderedReferences value, expansion.unresolved with
  | [_], [ref] =>
    dsimp only
    split <;> rfl
  | [], _ => rfl
  | [_], [] => rfl
  | [_], _ :: _ :: _ => rfl
  | _ :: _ :: _, _ => rfl

theorem Direct.expand_eq (evaluate : Reference → Except Abort (Option Text)) (value : Text) :
    Direct.expand evaluate value =
      (orderedReferences value).foldlM (Direct.expandOne evaluate) { value } >>=
        fun expansion => .ok (expansion.result? value) := by
  unfold Direct.expand Expansion.result?
  refine bind_congr fun expansion => ?_
  match orderedReferences value, expansion.unresolved with
  | [_], [ref] =>
    dsimp only
    split <;> rfl
  | [], _ => rfl
  | [_], [] => rfl
  | [_], _ :: _ :: _ => rfl
  | _ :: _ :: _, _ => rfl

/-- Direct expansion does not touch the flag. -/
theorem Direct.cacheable_of_foldlM {evaluate : Reference → Except Abort (Option Text)}
    {references : List Reference} {start final : Expansion}
    (h : references.foldlM (Direct.expandOne evaluate) start = .ok final) :
    final.cacheable = start.cacheable := by
  induction references generalizing start with
  | nil =>
    cases h
    rfl
  | cons ref references ih =>
    rw [List.foldlM_cons] at h
    obtain ⟨next, hnext, hrest⟩ := Direct.bind_ok h
    obtain ⟨value, -, hstep⟩ := Direct.bind_ok hnext
    rw [ih hrest]
    cases value with
    | some value =>
      cases hstep
      rfl
    | none =>
      cases hstep
      rfl

/-- Nested frames at this depth follow direct evaluation. -/
structure NestedFollows (ws : Workspace) (mode : SearchMode) (depth : Nat)
    (nested : Context → Run Resolution)
    (evaluate : Reference → Path → List ModuleFrame → Except Abort (Option Text)) : Prop where
  grows : ∀ child, Keeps Grows (nested child)
  follows : ∀ child : Context, child.IsFound ws mode → child.depth = depth →
    Follows ws mode (nested child) (resolved (evaluate child.reference child.directory child.stack))

namespace Follows

variable {ws : Workspace} {mode : SearchMode} {ctx : Context} {nested : Context → Run Resolution}
  {evaluate : Reference → Path → List ModuleFrame → Except Abort (Option Text)}
  {dir : Path} {stack : List ModuleFrame}

theorem foldlM {α β : Type} {step : β → α → Run β} {direct : β → α → Except Abort β}
    {items : List α}
    (hstep : ∀ item ∈ items, ∀ state, Follows ws mode (step state item) (direct state item))
    (hgrows : ∀ state item, Keeps Grows (step state item)) (state : β) :
    Follows ws mode (items.foldlM step state) (items.foldlM direct state) := by
  induction items generalizing state with
  | nil => exact pure state
  | cons item items ih =>
    rw [List.foldlM_cons, List.foldlM_cons]
    exact bind (hstep item List.mem_cons_self state)
      (fun next => ih (List.forall_mem_cons.mp hstep).2 next)
      (hgrows state item) fun next => admits_grows.foldlM hgrows items next

section Search

variable (hnested : NestedFollows ws mode (ctx.depth + 1) nested evaluate)

include hnested

theorem expandOne (hplace : Reaches ws mode dir stack)
    (href : ref.IsWellFormed) (expansion : Expansion) :
    Follows ws mode (expandOne nested ctx dir stack expansion ref)
      (Direct.expandOne (evaluate · dir stack) expansion ref) := by
  have hchild := hnested.follows (ctx.child ref dir stack)
    ⟨href, hplace⟩ rfl
  have hboth : Follows ws mode (TerraformTrace.expandOne nested ctx dir stack expansion ref)
      (resolved (evaluate ref dir stack) >>= fun result =>
        .ok (expansion.replaced ref result)) := by
    refine bind hchild (fun result => ?_) (hnested.grows _) fun result => ?_
    · unfold Expansion.replaced
      cases result.value with
      | some value => exact pure _
      | none => exact pure _
    · dsimp only
      cases result.value with
      | some value => exact admits_grows.pure _
      | none => exact admits_grows.pure _
  unfold Direct.expandOne
  dsimp only
  cases hvalue : evaluate ref dir stack with
  | error abort => rwa [hvalue] at hboth
  | ok value =>
    rw [hvalue] at hboth
    cases value with
    | some value =>
      simpa [resolved, Expansion.replaced, Bind.bind, Except.bind, Pure.pure,
        Except.pure] using hboth
    | none =>
      simpa [resolved, Expansion.replaced, Bind.bind, Except.bind, Pure.pure,
        Except.pure] using hboth

theorem expand (hplace : Reaches ws mode dir stack) (value : Text) :
    Follows ws mode (expand nested ctx dir stack value)
      (resolved (Direct.expand (evaluate · dir stack) value)) := by
  have hone : ∀ ref ∈ orderedReferences value, ∀ expansion, Follows ws mode
      (TerraformTrace.expandOne nested ctx dir stack expansion ref)
      (Direct.expandOne (evaluate · dir stack) expansion ref) :=
    fun ref hmem expansion =>
      expandOne hnested hplace (isWellFormed_of_mem_orderedReferences hmem) expansion
  have hgrows : ∀ expansion ref, Keeps Grows
      (TerraformTrace.expandOne nested ctx dir stack expansion ref) :=
    admits_grows.expandOne fun ref => hnested.grows _
  have hboth := (foldlM hone hgrows { value }).map (admits_grows.foldlM hgrows _ _)
    fun expansion =>
      { value := expansion.result? value, cacheable := expansion.cacheable : Resolution }
  rw [expand_eq, Direct.expand_eq]
  cases hexpansion : (orderedReferences value).foldlM
      (Direct.expandOne (evaluate · dir stack)) { value } with
  | error abort => rwa [hexpansion] at hboth
  | ok expansion =>
    have hflag : expansion.cacheable = true := Direct.cacheable_of_foldlM hexpansion
    rw [hexpansion] at hboth
    simpa [resolved, Bind.bind, Except.bind, hflag] using hboth

theorem threadArguments {sites : List (ModuleCall × List ModuleFrame)}
    (hsites : ∀ site ∈ sites, Reaches ws mode site.1.directory site.2) (cacheable : Bool) :
    Follows ws mode (threadArguments nested ctx cacheable sites)
      (Direct.threadArguments evaluate ctx.reference.name sites >>= fun value =>
        .ok { value, cacheable := value.isSome || cacheable }) := by
  induction sites generalizing cacheable with
  | nil => exact pure _
  | cons site sites ih =>
    obtain ⟨call, outside⟩ := site
    have hrest := ih (List.forall_mem_cons.mp hsites).2
    rw [threadArguments_cons]
    unfold Direct.threadArguments
    cases call.inputs.get? ctx.reference.name with
    | none => exact hrest cacheable
    | some argument =>
      have hargument : Follows ws mode
          (TerraformTrace.expand nested ctx call.directory outside argument)
          (resolved (Direct.expand (evaluate · call.directory outside) argument)) :=
        expand hnested (hsites _ List.mem_cons_self) argument
      have hstep : ∀ threaded, Follows ws mode (threadOn nested ctx cacheable call sites threaded)
          (if threaded.value.isSome then .ok threaded
            else Direct.threadArguments evaluate ctx.reference.name sites >>= fun value =>
              .ok { value, cacheable := value.isSome || (cacheable && threaded.cacheable) }) := by
        intro threaded
        refine note_bind (by simp) ?_
        split
        · exact pure threaded
        · exact hrest _
      have hboth := bind hargument hstep
        (admits_grows.expand (fun _ => hnested.grows _) argument)
        (admits_grows.threadOn (fun _ _ _ => hnested.grows _) cacheable call sites)
      dsimp only
      cases hvalue : Direct.expand (evaluate · call.directory outside) argument with
      | error abort => rwa [hvalue] at hboth
      | ok value =>
        rw [hvalue] at hboth
        cases value with
        | some value => exact hboth
        | none => simpa [resolved, Bind.bind, Except.bind] using hboth

omit hnested in
theorem resolved_bind {α : Type} (x : Except Abort α) (f : α → Except Abort (Option Text)) :
    resolved (x >>= f) = x >>= fun value => resolved (f value) :=
  bind_assoc ..

omit hnested in
theorem searched_bind {α : Type} (x : Except Abort α)
    (f : α → Except Abort (Option (Option Text))) :
    searched (x >>= f) = x >>= fun value => searched (f value) :=
  bind_assoc ..

theorem threadedInput (hroot : ws.root.IsNormal)
    (hplace : Reaches ws mode ctx.directory ctx.stack) :
    Follows ws mode (threadedInput ws mode nested ctx)
      (resolved (Direct.threadedInput ws mode evaluate ctx.reference.name
        ctx.directory ctx.stack)) := by
  cases mode with
  | plain => exact pure _
  | enhanced =>
    unfold TerraformTrace.threadedInput threadInput Direct.threadedInput
    dsimp only
    rw [resolved_bind]
    refine lookup_bind (Answers.callSites hroot hplace.normal)
      (admits_quiet.callSites ws ctx) fun sites hsites => ?_
    have hreached : ∀ site ∈ sites, Reaches ws .enhanced site.1.directory site.2 :=
      fun site hmem => hplace.site hsites hmem
    have hthreaded := threadArguments hnested hreached true
    simpa only [resolved, Bool.or_true] using hthreaded

omit hnested in
theorem isName_of_moduleAddress? (href : ref.IsWellFormed) {call output : Text}
    (h : ref.moduleAddress? = some (call, output)) : Text.isName call = true := by
  unfold Reference.moduleAddress? at h
  split at h
  next hsegments =>
    cases h
    exact href call (by simp [hsegments])
  next => cases h

theorem chaseOutput (hroot : ws.root.IsNormal)
    (hbars : mode = .enhanced → ws.HasNoBars) (hfound : ctx.IsFound ws mode) :
    Follows ws mode (chaseOutput ws mode nested ctx)
      (resolved (Direct.chaseOutput ws mode evaluate ctx.reference ctx.directory ctx.stack)) := by
  unfold TerraformTrace.chaseOutput Direct.chaseOutput
  cases haddress : ctx.reference.moduleAddress? with
  | none => exact pure _
  | some address =>
    obtain ⟨callName, outputName⟩ := address
    dsimp only
    rw [resolved_bind]
    refine lookup_bind (Answers.moduleCallsOf hfound.place.normal)
      (admits_quiet.moduleCallsOf ws _) fun calls hcalls => ?_
    cases hcall : calls.find? (·.name = callName) with
    | none => exact pure _
    | some call =>
      have hdir : call.directory.IsNormal := by
        rw [Direct.directory_of_mem hcalls (List.mem_of_find?_eq_some hcall)]
        exact hfound.place.normal
      dsimp only
      rw [resolved_bind]
      refine lookup_bind (Answers.modulePath hroot call.source hdir.2.1)
        (admits_quiet.modulePath ws _ _) fun place hplace => ?_
      cases place with
      | none => exact pure _
      | some target =>
        have hname := isName_of_moduleAddress? hfound.reference haddress
        have hreached := hfound.place.entering hroot hbars hcalls hname hcall hplace
        dsimp only
        rw [resolved_bind]
        refine lookup_bind (Answers.lookupOutput hreached.normal outputName)
          (admits_quiet.lookupDeclared ws (by decide) _ _ _) fun output _ => ?_
        cases output with
        | none => exact pure _
        | some output => exact expand hnested hreached output

theorem searchParent (hfound : ctx.IsFound ws mode) : Follows ws mode (searchParent ws nested ctx)
      (resolved (Direct.searchParent ws evaluate ctx.reference ctx.directory ctx.stack)) := by
  unfold TerraformTrace.searchParent Direct.searchParent
  dsimp only
  split
  · exact pure _
  · refine ok_lookup_bind (Answers.checkDirectory _) (admits_quiet.checkDirectory ws _) ?_
    split
    · exact pure _
    · exact hnested.follows (ctx.child ctx.reference ctx.directory.parent ctx.stack)
        ⟨hfound.reference, hfound.place.parent⟩ rfl

theorem settle (hplace : Reaches ws mode ctx.directory ctx.stack) (found : Option Text) :
    Follows ws mode (settle nested ctx found)
      (searched (Direct.settle (evaluate · ctx.directory ctx.stack) found)) := by
  cases found with
  | none => exact pure _
  | some value =>
    have hvalue := (expand hnested hplace value).map
      (admits_grows.expand (fun _ => hnested.grows _) value) SearchOutcome.settled
    unfold TerraformTrace.settle Direct.settle
    rw [searched_bind]
    rw [resolved, bind_assoc] at hvalue
    exact hvalue

/-- The default of an input after what its call sites gave it. -/
def defaulted (ws : Workspace) (evaluate : Reference → Except Abort (Option Text))
    (name : Text) (dir : Path) (threaded : Resolution) : Except Abort SearchOutcome := do
  if threaded.value.isSome then return .settled threaded
  let default ← Direct.default ws name dir
  match ← searched (Direct.settle evaluate default) with
  | .settled resolution => return .settled resolution
  | .missed _ => return .missed threaded.cacheable

omit hnested in
/-- Where the call sites gave nothing and nothing was cut, a miss is a miss. -/
theorem defaulted_notFound (evaluate : Reference → Except Abort (Option Text)) (name : Text)
    (dir : Path) :
    defaulted ws evaluate name dir .notFound =
      searched (do Direct.settle evaluate (← Direct.default ws name dir)) := by
  rw [searched_bind]
  refine bind_congr fun default => ?_
  cases Direct.settle evaluate default with
  | error abort => rfl
  | ok found =>
    cases found with
    | some value => rfl
    | none => rfl

theorem searchDefault (hplace : Reaches ws mode ctx.directory ctx.stack) (threaded : Resolution) :
    Follows ws mode (searchDefault ws nested ctx threaded)
      (defaulted ws (evaluate · ctx.directory ctx.stack) ctx.reference.name
        ctx.directory threaded) := by
  unfold TerraformTrace.searchDefault defaulted
  split
  · exact pure _
  · refine lookup_bind (Answers.lookupDefault hplace.normal _)
      (admits_quiet.lookupDeclared ws (by decide) _ _ _) fun default _ => ?_
    refine bind (settle hnested hplace default) (fun found => ?_)
      (admits_grows.settle (fun _ _ _ => hnested.grows _) default) fun found => ?_
    · cases found with
      | settled resolution => exact pure _
      | missed cacheable => exact pure _
    · cases found with
      | settled resolution => exact admits_grows.pure _
      | missed cacheable => exact admits_grows.pure _

theorem searchInput (hroot : ws.root.IsNormal) (hplace : Reaches ws mode ctx.directory ctx.stack) :
    Follows ws mode (searchInput ws mode nested ctx)
      (searched (Direct.searchInput ws mode evaluate ctx.reference.name
        ctx.directory ctx.stack)) := by
  rw [searchInput_eq]
  unfold Direct.searchInput
  rw [searched_bind]
  refine lookup_bind (Answers.firstFound_input hplace.normal _)
    (admits_quiet.firstFound_input ws _ _) fun found _ => ?_
  split
  · exact settle hnested hplace found
  · have hboth := bind (threadedInput hnested hroot hplace) (searchDefault hnested hplace)
      (admits_grows.threadedInput ws mode fun _ _ _ => hnested.grows _)
      (admits_grows.searchDefault ws fun _ _ _ => hnested.grows _)
    rw [searched_bind]
    cases hthreaded : Direct.threadedInput ws mode evaluate ctx.reference.name
        ctx.directory ctx.stack with
    | error abort => rwa [hthreaded] at hboth
    | ok threaded =>
      rw [hthreaded] at hboth
      cases threaded with
      | some value => exact hboth
      | none =>
        have hdefault : Follows ws mode _ (defaulted ws
            (evaluate · ctx.directory ctx.stack) ctx.reference.name
            ctx.directory .notFound) := hboth
        rwa [defaulted_notFound] at hdefault

theorem searchDirectory (hroot : ws.root.IsNormal)
    (hbars : mode = .enhanced → ws.HasNoBars) (hfound : ctx.IsFound ws mode) :
    Follows ws mode (searchDirectory ws mode nested ctx)
      (searched (Direct.searchDirectory ws mode evaluate ctx.reference
        ctx.directory ctx.stack)) := by
  unfold TerraformTrace.searchDirectory Direct.searchDirectory
  cases hkind : ctx.reference.kind with
  | input => exact searchInput hnested hroot hfound.place
  | localValue =>
    dsimp only
    rw [searched_bind]
    exact lookup_bind (Answers.lookupLocal hfound.place.normal _)
      (admits_quiet.lookupDeclared ws (by decide) _ _ _)
      fun found _ => settle hnested hfound.place found
  | moduleOutput =>
    dsimp only
    have hchased : ∀ chased : Resolution, Follows ws mode
        (if chased.value.isSome then Pure.pure (.settled chased)
          else Pure.pure (.missed chased.cacheable) : Run SearchOutcome)
        (if chased.value.isSome then .ok (.settled chased)
          else .ok (.missed chased.cacheable)) := by
      intro chased
      split
      · exact pure _
      · exact pure _
    have hboth := bind (chaseOutput hnested hroot hbars hfound) hchased
      (admits_grows.chaseOutput ws mode fun _ _ _ => hnested.grows _) fun chased => by
        split
        · exact admits_grows.pure _
        · exact admits_grows.pure _
    cases hvalue : Direct.chaseOutput ws mode evaluate ctx.reference ctx.directory ctx.stack with
    | error abort => rwa [hvalue] at hboth
    | ok value =>
      rw [hvalue] at hboth
      cases value with
      | some value => exact hboth
      | none => exact hboth
  | dataAttribute =>
    dsimp only
    rw [searched_bind]
    exact lookup_bind (Answers.lookupData hfound.place.normal hfound.reference)
      (admits_quiet.lookupData ws _ _) fun found _ => settle hnested hfound.place found

theorem searchSymbol (hroot : ws.root.IsNormal)
    (hbars : mode = .enhanced → ws.HasNoBars) (hfound : ctx.IsFound ws mode) :
    Follows ws mode (searchSymbol ws mode nested ctx)
      (resolved (Direct.searchSymbol ws mode evaluate ctx.reference ctx.directory ctx.stack)) := by
  have hparent : Keeps Grows (TerraformTrace.searchParent ws nested ctx) :=
    admits_grows.searchParent ws fun _ _ _ => hnested.grows _
  have hstep : ∀ found : SearchOutcome, Follows ws mode
      (match found with
        | .settled resolution => Pure.pure resolution
        | .missed cacheable =>
          TerraformTrace.searchParent ws nested ctx >>= fun above =>
            Pure.pure { above with cacheable := above.cacheable && cacheable })
      (match found with
        | .settled resolution => .ok resolution
        | .missed cacheable =>
          resolved (Direct.searchParent ws evaluate ctx.reference ctx.directory
            ctx.stack) >>= fun above =>
              .ok { above with cacheable := above.cacheable && cacheable }) := by
    intro found
    cases found with
    | settled resolution => exact pure _
    | missed cacheable => exact (searchParent hnested hfound).map hparent _
  have hboth := bind (searchDirectory hnested hroot hbars hfound) hstep
    (admits_grows.searchDirectory ws mode fun _ _ _ => hnested.grows _) fun found => by
      cases found with
      | settled resolution => exact admits_grows.pure _
      | missed cacheable => exact admits_grows.bind hparent fun _ => admits_grows.pure _
  unfold TerraformTrace.searchSymbol Direct.searchSymbol
  rw [resolved_bind]
  cases hvalue : Direct.searchDirectory ws mode evaluate ctx.reference ctx.directory ctx.stack with
  | error abort => rwa [hvalue] at hboth
  | ok found =>
    rw [hvalue] at hboth
    cases found with
    | some value => exact hboth
    | none =>
      dsimp only [searched, Bind.bind, Except.bind] at hboth ⊢
      cases habove : Direct.searchParent ws evaluate ctx.reference ctx.directory ctx.stack with
      | error abort => rwa [habove] at hboth
      | ok value => rwa [habove] at hboth

end Search

/-! ### Frames -/

variable {compute : Run Resolution} {result : Except Abort (Option Text)}

theorem resolved_eq_ok {value : Option Text} {cacheable : Bool}
    (h : resolved result = .ok { value, cacheable }) : result = .ok value := by
  cases result with
  | error abort => cases h
  | ok found =>
    cases h
    rfl

/-- A computation whose flag stays up comes to the direct value: what a cut could have
changed would have lowered the flag, or be on record as a lost argument. -/
theorem of_flag (hcompute : Follows ws mode compute (resolved result))
    (htallies : Tallies mode true Resolution.cacheable compute) {s : Session}
    (hs : Faithful ws s) (hclean : Clean ws mode (after compute s).events)
    {value : Option Text} (hout : outcome compute s = .ok { value }) : result = .ok value := by
  have htally := htallies s _ hout
  -- a cut under a flag that is up would be a lost argument, which a clean record has not
  have hcut : ¬ Occurs Event.isCut s.events (after compute s).events := by
    intro hoccurs
    obtain ⟨hmode, added, hadded, event, hmem, hlost⟩ := (htally.kept rfl).2 hoccurs
    obtain ⟨ctx, call, rfl⟩ := Event.isLost_iff.mp hlost
    exact hclean.lost hmode ctx call (hadded ▸ List.mem_append_left _ hmem)
  have hagrees := hcompute.agrees s hs hclean hcut
  exact resolved_eq_ok (hagrees.symm.trans hout)

/-- A frame follows its meaning if its computation does. -/
theorem frame (hfound : ctx.IsFound ws mode) (hmeaning : evaluateFrame ws mode ctx = result)
    (hcompute : Follows ws mode compute (resolved result))
    (htallies : Tallies mode true Resolution.cacheable compute) :
    Follows ws mode (frame mode ctx compute) (resolved result) where
  faithful s hs hclean := by
    revert hclean
    refine frame_cases mode ctx compute s fun hends hclean => ?_
    cases hends with
    | cut hcycle => exact ((hs.note (by simp)).note (by simp)).note (by simp)
    | hit hcycle known hget =>
      exact hs.opened.returned_frame hfound (Kept.of_frame hfound (hs.allowed hget))
    | aborted hcycle hget abort hout => exact hcompute.faithful _ hs.opened hclean
    | stored hcycle hget value hout =>
      have hbefore := hclean.of_suffix ((List.suffix_cons _ _).trans (List.suffix_cons _ _))
      have hdirect : evaluateFrame ws mode ctx = .ok value :=
        hmeaning.trans (hcompute.of_flag htallies hs.opened hbefore hout)
      -- the empty text would be read back as no value
      have hvalue : value ≠ some [] := by
        rintro rfl
        exact hclean.empty ctx List.mem_cons_self hdirect
      exact (hcompute.faithful _ hs.opened hbefore).stored_frame hfound hdirect hvalue
    | unstored hcycle hget value hout =>
      have hbefore := hclean.of_suffix (List.suffix_cons _ _)
      exact (hcompute.faithful _ hs.opened hbefore).note (by simp)
  agrees s hs hclean hcut := by
    revert hclean hcut
    refine frame_cases mode ctx compute s fun hends hclean hcut => ?_
    have hentered : s.events <:+ (opened mode ctx s).events := List.suffix_cons _ _
    cases hends with
    | cut hcycle =>
      exact absurd ((Occurs.cons rfl).widen (List.suffix_cons _ _) (List.suffix_cons _ _)) hcut
    | hit hcycle known hget =>
      have hknown := Kept.of_frame hfound (hs.allowed hget)
      rw [← hmeaning, hknown]
      rfl
    | aborted hcycle hget abort hout =>
      rw [← hout]
      exact hcompute.agrees _ hs.opened hclean fun hoccurs =>
        hcut (hoccurs.widen hentered (List.suffix_refl _))
    | stored hcycle hget value hout =>
      have hlate := (List.suffix_cons (Event.stored (frameKey mode ctx))
        (after compute (opened mode ctx s)).events).trans
          (List.suffix_cons (Event.returned mode ctx value true) _)
      rw [← hout]
      exact hcompute.agrees _ hs.opened (hclean.of_suffix hlate) fun hoccurs =>
        hcut (hoccurs.widen hentered hlate)
    | unstored hcycle hget value hout =>
      have hlate := List.suffix_cons (Event.returned mode ctx value false)
        (after compute (opened mode ctx s)).events
      rw [← hout]
      exact hcompute.agrees _ hs.opened (hclean.of_suffix hlate) fun hoccurs =>
        hcut (hoccurs.widen hentered hlate)

end Follows

theorem Grows.frame {mode : SearchMode} {ctx : Context} {compute : Run Resolution}
    (hcompute : Keeps Grows compute) : Keeps Grows (frame mode ctx compute) :=
  admits_grows.frame (fun events => List.suffix_cons _ events)
    (fun events => List.suffix_cons _ events) (fun events => List.suffix_cons _ events)
    (fun events _ _ => List.suffix_cons _ events) hcompute

theorem grows_resolveFrame (ws : Workspace) (mode : SearchMode) (left : Nat)
    (ctx : Context) : Keeps Grows (resolveFrame ws mode left ctx) := by
  induction left generalizing ctx with
  | zero => exact fun s => (List.suffix_cons _ _).trans (List.suffix_cons _ _)
  | succ left ih =>
    have hsearch : ∀ symbol, Keeps Grows
        (searchSymbol ws mode (resolveFrame ws mode left) symbol) :=
      fun symbol => admits_grows.searchSymbol ws mode fun _ _ _ => ih _
    unfold resolveFrame
    dsimp only
    split
    · exact Grows.frame (hsearch _)
    · exact Grows.frame (admits_grows.bind (Grows.frame (hsearch _)) fun base =>
        admits_grows.bind (admits_grows.project _ _) fun _ => admits_grows.pure _)

section Frames

variable {ws : Workspace} {mode : SearchMode}

theorem evaluateFrame_of_depth {ctx : Context} {left : Nat}
    (h : ctx.depth + left = ws.settings.maxDepth + 1) :
    evaluateFrame ws mode ctx = evaluate ws mode left ctx.reference ctx.directory ctx.stack := by
  have hleft : ws.settings.maxDepth + 1 - ctx.depth = left := by omega
  rw [evaluateFrame, hleft]

theorem Reference.base_eq (h : ref.properties = []) : ref.base = ref := by
  obtain ⟨kind, segments, enough⟩ := ref
  have hlength : segments.length ≤ kind.arity := List.drop_eq_nil_iff.mp h
  simp only [Reference.base, Reference.symbol, List.take_of_length_le hlength]

theorem Direct.project_nil (value : Option Text) : Direct.project value [] = .ok value := by
  cases value <;> rfl

/-- The meaning of a symbol is what its search finds. -/
theorem evaluate_of_properties (h : ref.properties = []) (left : Nat) (dir : Path)
    (stack : List ModuleFrame) :
    evaluate ws mode (left + 1) ref dir stack =
      Direct.searchSymbol ws mode (evaluate ws mode left) ref dir stack := by
  unfold evaluate
  rw [Reference.base_eq h, h]
  cases Direct.searchSymbol ws mode (evaluate ws mode left) ref dir stack with
  | error abort => rfl
  | ok value => exact Direct.project_nil value

/-- A reference with properties means the projected value of its symbol. -/
theorem evaluate_eq_project (ref : Reference) (left : Nat) (dir : Path) (stack : List ModuleFrame) :
    evaluate ws mode (left + 1) ref dir stack =
      evaluate ws mode (left + 1) ref.base dir stack >>= fun value =>
        Direct.project value ref.properties := by
  rw [evaluate_of_properties (Reference.base_properties ref)]
  rfl

/-- The computation of a frame whose reference has properties. -/
theorem Follows.projected {compute : Run Resolution} {result : Except Abort (Option Text)}
    (hcompute : Follows ws mode compute (resolved result)) (hgrows : Keeps Grows compute)
    (properties : List Text) :
    Follows ws mode
      (do
        let base ← compute
        let value ← project base.value properties
        return { value, cacheable := base.cacheable })
      (resolved (result >>= fun value => Direct.project value properties)) := by
  have hvalue : ∀ base : Resolution, Follows ws mode (project base.value properties)
      (Direct.project base.value properties) :=
    fun base => Follows.of_answers (Answers.project properties base.value)
  have hproject := fun base : Resolution =>
    (hvalue base).map (admits_grows.project properties base.value)
      fun value => { value, cacheable := base.cacheable : Resolution }
  have hboth := Follows.bind hcompute hproject hgrows fun base =>
    admits_grows.bind (admits_grows.project properties base.value) fun _ => admits_grows.pure _
  rw [Follows.resolved_bind]
  cases result with
  | error abort => exact hboth
  | ok value => exact hboth

/-- Every frame that an engine comes to follows its meaning. -/
theorem follows_resolveFrame (hroot : ws.root.IsNormal)
    (hbars : mode = .enhanced → ws.HasNoBars) (left : Nat) (ctx : Context)
    (hfound : ctx.IsFound ws mode)
    (hdepth : ctx.depth + left = ws.settings.maxDepth + 1) :
    Follows ws mode (resolveFrame ws mode left ctx)
      (resolved (evaluate ws mode left ctx.reference ctx.directory ctx.stack)) := by
  induction left generalizing ctx with
  | zero =>
    have hmeaning : evaluateFrame ws mode ctx = .ok none :=
      evaluateFrame_of_depth hdepth
    exact Follows.note_bind (by simp)
      ⟨fun s hs hclean => hs.returned_frame hfound hmeaning, fun s hs hclean hcut => rfl⟩
  | succ left ih =>
    have hnested : NestedFollows ws mode (ctx.depth + 1)
        (resolveFrame ws mode left) (evaluate ws mode left) :=
      ⟨grows_resolveFrame ws mode left, fun child hchild hlevel => ih child hchild (by omega)⟩
    have htallies : ∀ symbol, Tallies mode true Resolution.cacheable
        (searchSymbol ws mode (resolveFrame ws mode left) symbol) :=
      fun symbol => Tallies.searchSymbol (tallies_resolveFrame ws mode left) ws
    have hgrows : ∀ symbol, Keeps Grows (searchSymbol ws mode (resolveFrame ws mode left) symbol) :=
      fun symbol => admits_grows.searchSymbol ws mode fun _ _ _ => hnested.grows _
    -- the frame of a symbol at the level of this context
    have hsymbol : ∀ ref : Reference, ref.IsWellFormed → ref.properties = [] → Follows ws mode
          (frame mode (ctx.withReference ref)
            (searchSymbol ws mode (resolveFrame ws mode left) (ctx.withReference ref)))
          (resolved (evaluate ws mode (left + 1) ref ctx.directory ctx.stack)) := by
      intro ref href hproperties
      have hframe : (ctx.withReference ref).IsFound ws mode := ⟨href, hfound.place⟩
      refine Follows.frame hframe (evaluateFrame_of_depth hdepth) ?_ (htallies _)
      rw [evaluate_of_properties hproperties]
      exact Follows.searchSymbol hnested hroot hbars hframe
    unfold resolveFrame
    dsimp only
    split
    next hproperties => exact hsymbol _ hfound.reference (List.isEmpty_iff.mp hproperties)
    next hproperties =>
      have hbase := hsymbol _ hfound.reference.base (Reference.base_properties _)
      refine Follows.frame hfound (evaluateFrame_of_depth hdepth) ?_
        (Tallies.projected (Tallies.frame (htallies _)) _)
      rw [evaluate_eq_project]
      exact hbase.projected (Grows.frame (hgrows _)) _

end Frames

/-! ### Requests -/

/-- The run behind a request for a value. -/
def sought (ws : Workspace) (mode : SearchMode) (wanted : Wanted) (start : Path) :
    Run (Option Text) := do
  match wanted.reference? with
  | none => return none
  | some ref =>
    let dir := ws.normalize (← usablePath start)
    if !ws.contains dir then return none
    if !(← checkDirectory ws dir) then return none
    return (← resolveFrom ws mode ref dir).value

theorem resolveIn_eq (ws : Workspace) (mode : SearchMode) (wanted : Wanted) (start : Path) :
    resolveIn ws mode wanted start =
      answered ("Unexpected failure resolving ".toList ++ wanted.shown)
        (sought ws mode wanted start) := rfl

theorem resolved_value (result : Except Abort (Option Text)) :
    (resolved result >>= fun resolution => .ok resolution.value) = result := by
  cases result <;> rfl

theorem Follows.sought {ws : Workspace} {mode : SearchMode}
    (hroot : ws.root.IsNormal) (hbars : mode = .enhanced → ws.HasNoBars)
    {wanted : Wanted} (hwanted : wanted.IsWellFormed) {start : Path} (hstart : start.IsTidy) :
    Follows ws mode (sought ws mode wanted start) (evaluateRequest ws mode wanted start) := by
  unfold TerraformTrace.sought evaluateRequest
  cases href : wanted.reference? with
  | none => exact pure none
  | some ref =>
    refine lookup_bind (Answers.usablePath start) (admits_quiet.usablePath start)
      fun usable husable => ?_
    have hnormal : (ws.normalize usable).IsNormal := by
      rw [Direct.eq_of_usable husable]
      exact Workspace.isNormal_normalize hroot hstart
    dsimp only
    split
    · exact pure none
    · refine ok_lookup_bind (Answers.checkDirectory _) (admits_quiet.checkDirectory ws _) ?_
      split
      · exact pure none
      · have hframe := follows_resolveFrame hroot hbars (ws.settings.maxDepth + 1)
          { reference := ref, directory := ws.normalize usable }
          ⟨hwanted.reference? href, Reaches.start hnormal⟩ (Nat.zero_add _)
        have hvalue := hframe.map (grows_resolveFrame ws mode _ _) Resolution.value
        rwa [resolved_value] at hvalue

end TerraformTrace
