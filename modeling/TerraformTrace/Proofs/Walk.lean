import TerraformTrace.Proofs.Run

/-!
# TerraformTrace.Proofs.Walk

One walk through the search of a frame, for every way to judge it. A judgement says something
about two runs side by side and about what they come to: that they do the same, that they
cannot be told apart, or, when the second run is of no interest, what the first one keeps.

**What goes through sequencing and holds for look-ups holds for searches.** A judgement that
goes through sequencing (`Sequential`) and holds for every look-up in the directories it is
about (`OfLookups`) holds for the whole search of a frame, if it holds for the frames of the
frame's children. Nothing else is asked of it, so each use proves the look-ups alone.
-/

namespace TerraformTrace

open Hcl

variable {α β γ : Type}

/-- The modules that were entered lie where a judgement is about them. -/
def AreHere (Here : Path → Prop) (stack : List ModuleFrame) : Prop :=
  ∀ frame ∈ stack, Here frame.call.directory ∧ Here frame.directory

/-! ### Sequencing -/

/-- A judgement on two runs and on what they come to that goes through sequencing. -/
structure Sequential (J : ∀ {α : Type}, Run α → Run α → (α → Prop) → Prop) : Prop where
  pure : ∀ {α : Type} {P : α → Prop} {value : α}, P value → J (pure value) (pure value) P
  throw : ∀ {α : Type} {P : α → Prop} (abort : Abort), J (throw abort) (throw abort) P
  bind : ∀ {α β : Type} {P : α → Prop} {Q : β → Prop} {x y : Run α} {f g : α → Run β},
    J x y P → (∀ value, P value → J (f value) (g value) Q) → J (x >>= f) (y >>= g) Q

namespace Sequential

variable {J : ∀ {α : Type}, Run α → Run α → (α → Prop) → Prop} {x y : Run α} {P Q : α → Prop}

theorem ite (_ : Sequential J) {c : Prop} [Decidable c] {x' y' : Run α} (hthen : c → J x y P)
    (helse : ¬ c → J x' y' P) : J (if c then x else x') (if c then y else y') P := by
  by_cases hc : c
  · rw [if_pos hc, if_pos hc]
    exact hthen hc
  · rw [if_neg hc, if_neg hc]
    exact helse hc

variable (hJ : Sequential J)

include hJ

theorem imp (h : J x y P) (hPQ : ∀ value, P value → Q value) : J x y Q := by
  have hsame : J (x >>= Pure.pure) (y >>= Pure.pure) Q :=
    hJ.bind h fun value hvalue => hJ.pure (hPQ value hvalue)
  rwa [bind_pure, bind_pure] at hsame

theorem filterM {keep keep' : α → Run Bool} {items : List α}
    (hkeep : ∀ item ∈ items, J (keep item) (keep' item) fun _ => True) :
    J (items.filterM keep) (items.filterM keep') fun kept => ∀ item ∈ kept, item ∈ items := by
  have hloop : ∀ (rest kept : List α), (∀ item ∈ rest, item ∈ items) →
      (∀ item ∈ kept, item ∈ items) →
      J (rest.filterAuxM keep kept) (rest.filterAuxM keep' kept)
        fun result => ∀ item ∈ result, item ∈ items := by
    intro rest
    induction rest with
    | nil => exact fun kept _ hkept => hJ.pure hkept
    | cons item rest ih =>
      intro kept hrest hkept
      rw [List.filterAuxM, List.filterAuxM]
      have hitem := hrest item List.mem_cons_self
      refine hJ.bind (hkeep item hitem) fun verdict _ => ?_
      refine ih _ (List.forall_mem_cons.mp hrest).2 ?_
      cases verdict with
      | false => exact hkept
      | true => exact List.forall_mem_cons.mpr ⟨hitem, hkept⟩
  refine hJ.bind (hloop items [] (fun _ h => h) nofun) fun kept hkept => hJ.pure ?_
  exact fun item hitem => hkept item (List.mem_reverse.mp hitem)

theorem foldlM {step step' : β → γ → Run β}
    (hstep : ∀ state item, J (step state item) (step' state item) fun _ => True) (items : List γ)
    (state : β) : J (items.foldlM step state) (items.foldlM step' state) fun _ => True := by
  induction items generalizing state with
  | nil => exact hJ.pure trivial
  | cons item items ih =>
    rw [List.foldlM_cons, List.foldlM_cons]
    exact hJ.bind (hstep state item) fun next _ => ih next

theorem project (properties : List Text) (value : Option Text) :
    J (project value properties) (project value properties) fun _ => True := by
  induction properties generalizing value with
  | nil => cases value <;> exact hJ.pure trivial
  | cons property properties ih =>
    cases value with
    | none => exact hJ.pure trivial
    | some value =>
      unfold TerraformTrace.project
      cases Literal.property? value property with
      | ok value => exact ih value
      | error error =>
        cases error with
        | tooManyDigits digits => exact hJ.throw _
        | _ => exact hJ.pure trivial

theorem firstFound_cons {lookup lookup' : Run (Option Text)} {rest rest' : List (Run (Option Text))}
    (hlookup : J lookup lookup' fun _ => True)
    (hrest : J (firstFound rest) (firstFound rest') fun _ => True) :
    J (firstFound (lookup :: rest)) (firstFound (lookup' :: rest')) fun _ => True := by
  refine hJ.bind hlookup fun value _ => ?_
  cases value with
  | some value => exact hJ.pure trivial
  | none => exact hrest

/-! ### Values with references in them -/

variable {nested nested' : Context → Run Resolution} {ctx : Context} {dir : Path}
  {stack : List ModuleFrame}
  (hnested : ∀ ref, J (nested (ctx.child ref dir stack))
    (nested' (ctx.child ref dir stack)) fun _ => True)

include hnested

theorem expandOne (expansion : Expansion) (ref : Reference) :
    J (expandOne nested ctx dir stack expansion ref)
      (expandOne nested' ctx dir stack expansion ref) fun _ => True := by
  refine hJ.bind (hnested ref) fun result _ => ?_
  dsimp only
  cases result.value with
  | some value => exact hJ.pure trivial
  | none => exact hJ.pure trivial

theorem expand (value : Text) :
    J (expand nested ctx dir stack value) (expand nested' ctx dir stack value) fun _ => True := by
  unfold TerraformTrace.expand
  refine hJ.bind (hJ.foldlM (hJ.expandOne hnested) _ _) fun expansion _ => ?_
  split
  · exact hJ.ite (fun _ => hJ.pure trivial) fun _ => hJ.pure trivial
  · exact hJ.pure trivial

omit hnested in
theorem threadArguments {Here : Path → Prop}
    (hnested : ∀ ref dir stack, Here dir → AreHere Here stack → J (nested (ctx.child ref dir stack))
        (nested' (ctx.child ref dir stack)) fun _ => True)
    (hthreaded : ∀ call value cacheable, Here call.directory →
      J (note (.threaded ctx call value cacheable))
        (note (.threaded ctx call value cacheable)) fun _ => True)
    {sites : List (ModuleCall × List ModuleFrame)}
    (hsites : ∀ site ∈ sites, Here site.1.directory ∧ AreHere Here site.2) (cacheable : Bool) :
    J (threadArguments nested ctx cacheable sites)
      (threadArguments nested' ctx cacheable sites) fun _ => True := by
  induction sites generalizing cacheable with
  | nil => exact hJ.pure trivial
  | cons site sites ih =>
    obtain ⟨call, stack⟩ := site
    obtain ⟨⟨hcall, hentered⟩, hothers⟩ := List.forall_mem_cons.mp hsites
    rw [threadArguments_cons, threadArguments_cons]
    cases call.inputs.get? ctx.reference.name with
    | none => exact ih hothers cacheable
    | some argument =>
      refine hJ.bind (hJ.expand (fun ref => hnested ref _ _ hcall hentered) argument)
        fun threaded _ => hJ.bind (hthreaded call _ _ hcall) fun _ _ => ?_
      exact hJ.ite (fun _ => hJ.pure trivial) fun _ => ih hothers _

end Sequential

/-! ### Judgements on runs alone -/

/-- A judgement on two runs, together with what the first one comes to. -/
def Valued (K : ∀ {α : Type}, Run α → Run α → Prop) {α : Type} (x y : Run α) (P : α → Prop) :
    Prop :=
  K x y ∧ ∀ s value, outcome x s = .ok value → P value

namespace Valued

variable {K : ∀ {α : Type}, Run α → Run α → Prop}

theorem of {x y : Run α} {P : α → Prop} (h : K x y) (hP : ∀ value, P value) : Valued K x y P :=
  ⟨h, fun _ value _ => hP value⟩

theorem sequential (hpure : ∀ {α : Type} (value : α), K (pure value) (pure value))
    (hthrow : ∀ {α : Type} (abort : Abort), K (throw abort : Run α) (throw abort))
    (hbind : ∀ {α β : Type} {x y : Run α} {f g : α → Run β}, K x y →
      (∀ s value, outcome x s = .ok value → K (f value) (g value)) → K (x >>= f) (y >>= g)) :
    Sequential fun x y P => Valued K x y P where
  pure h := ⟨hpure _, fun _ _ hout => Except.ok.inj hout ▸ h⟩
  throw abort := ⟨hthrow abort, nofun⟩
  bind hx hf := by
    refine ⟨hbind hx.1 fun s value hout => (hf value (hx.2 s value hout)).1, ?_⟩
    intro s result hout
    obtain ⟨value, hvalue, hresult, -⟩ := bind_ok hout
    exact (hf value (hx.2 s value hvalue)).2 _ result hresult

end Valued

/-! ### Two disks -/

/-- The workspace with another disk. -/
def Workspace.withDisk (ws : Workspace) (disk : Disk) : Workspace := { ws with disk }

section WithDisk

variable (ws : Workspace) (disk : Disk)

@[simp]
theorem Workspace.withDisk_root : (ws.withDisk disk).root = ws.root := rfl

@[simp]
theorem Workspace.withDisk_settings : (ws.withDisk disk).settings = ws.settings := rfl

@[simp]
theorem Workspace.withDisk_normalize (path : Path) :
    (ws.withDisk disk).normalize path = ws.normalize path := rfl

@[simp]
theorem Workspace.withDisk_contains (path : Path) :
    (ws.withDisk disk).contains path = ws.contains path := rfl

@[simp]
theorem sourcePath_withDisk (source : Text) (dir : Path) :
    sourcePath (ws.withDisk disk) source dir = sourcePath ws source dir := rfl

end WithDisk

/-! ### Look-ups -/

/-- A judgement that holds for the look-ups on two disks in the directories `Here`, out of
which they do not lead. -/
structure OfLookups (J : ∀ {α : Type}, Run α → Run α → (α → Prop) → Prop) (ws : Workspace)
    (disk : Disk) (Here : Path → Prop) : Prop extends Sequential J where
  parent : ∀ {dir}, Here dir → ws.contains dir.parent = true → Here dir.parent
  isDirectory : ∀ {dir}, Here dir → J (checkDirectory ws dir)
    (checkDirectory (ws.withDisk disk) dir) fun _ => True
  override : ∀ name {dir}, Here dir → J (lookupOverride ws name dir)
    (lookupOverride (ws.withDisk disk) name dir) fun _ => True
  localValue : ∀ name {dir}, Here dir → J (lookupLocal ws name dir)
    (lookupLocal (ws.withDisk disk) name dir) fun _ => True
  output : ∀ name {dir}, Here dir → J (lookupOutput ws name dir)
    (lookupOutput (ws.withDisk disk) name dir) fun _ => True
  default : ∀ name {dir}, Here dir → J (lookupDefault ws name dir)
    (lookupDefault (ws.withDisk disk) name dir) fun _ => True
  data : ∀ ref {dir}, Here dir → J (lookupData ws ref dir)
    (lookupData (ws.withDisk disk) ref dir) fun _ => True
  calls : ∀ {dir}, Here dir → J (moduleCallsOf ws dir) (moduleCallsOf (ws.withDisk disk) dir)
    fun calls => ∀ call ∈ calls, Here call.directory
  place : ∀ source {dir}, Here dir → J (modulePath ws source dir)
    (modulePath (ws.withDisk disk) source dir)
    fun found => ∀ place, found = some place → Here place

namespace OfLookups

variable {J : ∀ {α : Type}, Run α → Run α → (α → Prop) → Prop} {ws : Workspace}
  {disk : Disk} {Here : Path → Prop} (hJ : OfLookups J ws disk Here)
  {nested nested' : Context → Run Resolution} {ctx : Context}

include hJ

theorem callsInto {dir : Path} (h : Here dir) :
    J (callsInto ws dir) (callsInto (ws.withDisk disk) dir)
      fun calls => ∀ call ∈ calls, Here call.directory := by
  unfold TerraformTrace.callsInto
  simp only [Workspace.withDisk_root, Workspace.withDisk_contains]
  refine hJ.ite (fun _ => hJ.pure nofun) fun hguard => ?_
  simp only [Bool.or_eq_true, Bool.not_eq_true', not_or, Bool.not_eq_false] at hguard
  have hparent := hJ.parent h hguard.2
  refine hJ.bind (hJ.calls hparent) fun calls hcalls => ?_
  refine hJ.imp (hJ.filterM fun call _ => ?_) fun kept hkept call hcall =>
    hcalls call (hkept call hcall)
  exact hJ.bind (hJ.place call.source hparent) fun _ _ => hJ.pure trivial

/-- The look-ups that come first in the search for an input. -/
theorem firstFound_input (name : Text) {dir : Path} (h : Here dir) :
    J (firstFound [lookupOverride ws name dir,
        lookupLocal ws name dir,
        lookupOutput ws name dir])
      (firstFound [lookupOverride (ws.withDisk disk) name dir,
        lookupLocal (ws.withDisk disk) name dir,
        lookupOutput (ws.withDisk disk) name dir]) fun _ => True :=
  hJ.firstFound_cons (hJ.override name h) <|
    hJ.firstFound_cons (hJ.localValue name h) <|
      hJ.firstFound_cons (hJ.output name h) (hJ.pure trivial)

/-! ### The search in one directory

The frames below a frame are those of its children, as far as the judgement is about them. -/

section Search

variable (hdir : Here ctx.directory) (hstack : AreHere Here ctx.stack)

include hdir hstack

theorem callSites :
    J (callSites ws ctx) (callSites (ws.withDisk disk) ctx)
      fun sites => ∀ site ∈ sites, Here site.1.directory ∧ AreHere Here site.2 := by
  have haround : J (TerraformTrace.callsInto ws ctx.directory >>= fun calls =>
        Pure.pure (calls.map fun call => (call, ctx.stack)))
      (TerraformTrace.callsInto (ws.withDisk disk) ctx.directory >>= fun calls =>
        Pure.pure (calls.map fun call => (call, ctx.stack)))
      fun sites => ∀ site ∈ sites, Here site.1.directory ∧ AreHere Here site.2 :=
    hJ.bind (hJ.callsInto hdir) fun calls hcalls =>
      hJ.pure (List.forall_mem_map.mpr fun call hcall => ⟨hcalls call hcall, hstack⟩)
  unfold TerraformTrace.callSites
  cases hmodule : ctx.currentModule? with
  | none => exact haround
  | some frame =>
    refine hJ.ite (fun _ => hJ.pure fun site hsite => ?_) fun _ => haround
    -- inside a module the call is that of the innermost frame of the stack
    have hframe := hstack frame (List.mem_of_getLast? hmodule)
    rw [List.mem_singleton.mp hsite]
    exact ⟨hframe.1, fun other hother => hstack other (List.dropLast_subset _ hother)⟩

variable (hnested : ∀ ref dir stack, Here dir → AreHere Here stack →
  J (nested (ctx.child ref dir stack)) (nested' (ctx.child ref dir stack)) fun _ => True)

include hnested

theorem settle (found : Option Text) :
    J (settle nested ctx found) (settle nested' ctx found) fun _ => True := by
  cases found with
  | none => exact hJ.pure trivial
  | some value =>
    exact hJ.bind (hJ.expand (fun ref => hnested ref _ _ hdir hstack) value)
      fun _ _ => hJ.pure trivial

theorem chaseOutput (mode : SearchMode) :
    J (chaseOutput ws mode nested ctx)
      (chaseOutput (ws.withDisk disk) mode nested' ctx) fun _ => True := by
  unfold TerraformTrace.chaseOutput
  cases ctx.reference.moduleAddress? with
  | none => exact hJ.pure trivial
  | some address =>
    obtain ⟨callName, outputName⟩ := address
    refine hJ.bind (hJ.calls hdir) fun calls hcalls => ?_
    cases hfind : calls.find? (·.name = callName) with
    | none => exact hJ.pure trivial
    | some call =>
      have hcall := hcalls call (List.mem_of_find?_eq_some hfind)
      refine hJ.bind (hJ.place call.source hcall) fun found hfound => ?_
      cases found with
      | none => exact hJ.pure trivial
      | some target =>
        have htarget := hfound target rfl
        refine hJ.bind (hJ.output outputName htarget) fun output _ => ?_
        cases output with
        | none => exact hJ.pure trivial
        | some output =>
          refine hJ.expand (fun ref => hnested ref _ _ htarget ?_) output
          cases mode with
          | plain => exact hstack
          | enhanced =>
            exact List.forall_mem_append.mpr
              ⟨hstack, List.forall_mem_singleton.mpr ⟨hcall, htarget⟩⟩

theorem searchParent :
    J (searchParent ws nested ctx) (searchParent (ws.withDisk disk) nested' ctx) fun _ => True := by
  unfold TerraformTrace.searchParent
  simp only [Workspace.withDisk_root, Workspace.withDisk_contains]
  refine hJ.ite (fun _ => hJ.pure trivial) fun hguard => ?_
  simp only [Bool.or_eq_true, Bool.not_eq_true', not_or, Bool.not_eq_false] at hguard
  have hparent := hJ.parent hdir hguard.2
  refine hJ.bind (hJ.isDirectory hparent) fun isDirectory _ => ?_
  exact hJ.ite (fun _ => hJ.pure trivial) fun _ => hnested _ _ _ hparent hstack

theorem searchDefault (threaded : Resolution) :
    J (searchDefault ws nested ctx threaded)
      (searchDefault (ws.withDisk disk) nested' ctx threaded) fun _ => True := by
  unfold TerraformTrace.searchDefault
  refine hJ.ite (fun _ => hJ.pure trivial) fun _ => ?_
  refine hJ.bind (hJ.default _ hdir) fun value _ => ?_
  refine hJ.bind (hJ.settle hdir hstack hnested value) fun result _ => ?_
  cases result with
  | settled resolution => exact hJ.pure trivial
  | missed cacheable => exact hJ.pure trivial

variable (hthreaded : ∀ call value cacheable, Here call.directory →
  J (note (.threaded ctx call value cacheable)) (note (.threaded ctx call value cacheable))
    fun _ => True)

include hthreaded

theorem threadedInput (mode : SearchMode) :
    J (threadedInput ws mode nested ctx)
      (threadedInput (ws.withDisk disk) mode nested' ctx) fun _ => True := by
  cases mode with
  | plain => exact hJ.pure trivial
  | enhanced =>
    exact hJ.bind (hJ.callSites hdir hstack) fun sites hsites =>
      hJ.threadArguments hnested hthreaded hsites true

theorem searchInput (mode : SearchMode) :
    J (searchInput ws mode nested ctx)
      (searchInput (ws.withDisk disk) mode nested' ctx) fun _ => True := by
  rw [searchInput_eq, searchInput_eq]
  refine hJ.bind (hJ.firstFound_input _ hdir) fun found _ => ?_
  refine hJ.ite (fun _ => hJ.settle hdir hstack hnested found) fun _ => ?_
  exact hJ.bind (hJ.threadedInput hdir hstack hnested hthreaded mode) fun threaded _ =>
    hJ.searchDefault hdir hstack hnested threaded

theorem searchDirectory (mode : SearchMode) :
    J (searchDirectory ws mode nested ctx)
      (searchDirectory (ws.withDisk disk) mode nested' ctx) fun _ => True := by
  have hsettle := fun found (_ : True) => hJ.settle hdir hstack hnested found
  unfold TerraformTrace.searchDirectory
  cases ctx.reference.kind with
  | input => exact hJ.searchInput hdir hstack hnested hthreaded mode
  | localValue => exact hJ.bind (hJ.localValue _ hdir) hsettle
  | moduleOutput =>
    refine hJ.bind (hJ.chaseOutput hdir hstack hnested mode) fun chased _ => ?_
    exact hJ.ite (fun _ => hJ.pure trivial) fun _ => hJ.pure trivial
  | dataAttribute => exact hJ.bind (hJ.data _ hdir) hsettle

/-- The search of a frame is judged as the frames of its children are. -/
theorem searchSymbol (mode : SearchMode) :
    J (searchSymbol ws mode nested ctx)
      (searchSymbol (ws.withDisk disk) mode nested' ctx) fun _ => True := by
  refine hJ.bind (hJ.searchDirectory hdir hstack hnested hthreaded mode) fun found _ => ?_
  cases found with
  | settled resolution => exact hJ.pure trivial
  | missed cacheable =>
    exact hJ.bind (hJ.searchParent hdir hstack hnested) fun _ _ => hJ.pure trivial

end Search

end OfLookups

end TerraformTrace
