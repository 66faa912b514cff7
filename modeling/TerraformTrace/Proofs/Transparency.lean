import TerraformTrace.Proofs.Soundness

/-!
# TerraformTrace.Proofs.Transparency

Answers of an engine with a history against those of a fresh one.

**Where they agree.** A request in which no frame is cut is answered as evaluation
without memory answers it, from whatever faithful session it starts
(`resolveIn_eq_answer`). So two engines over one tree agree on it, whatever they were
asked before (`answer_eq_fresh`).

**Where they differ.** Each condition of that theorem is needed: `answers_differ` has a
tree for each of them on which a second request is answered differently than by a fresh
engine. A cycle is cut on the path of a request, while what is remembered was cut off
by the bound on depth; the empty text is remembered as no value; the default of an input
is remembered although its argument was cut; and texts of keys coincide for directories
with bars in their names and for references that cannot be written down.
-/

namespace TerraformTrace

open Hcl

/-! ### One request -/

/-- The answer to a request that comes to this: nothing if it is given up. -/
def answer (result : Except Abort (Option Text)) : Option Text := result.toOption.join

section Answer

variable {ws : Workspace} {mode : SearchMode} {wanted : Wanted} {start : Path}
  {s : Session}

theorem resolveIn_fst :
    (resolveIn ws mode wanted start s).1 = answer (outcome (sought ws mode wanted start) s) := by
  rw [resolveIn_eq, answered_apply]
  cases outcome (sought ws mode wanted start) s with
  | ok value => rfl
  | error abort => rfl

/-- At most it is recorded that the request was given up. -/
theorem after_sought_suffix :
    (after (sought ws mode wanted start) s).events <:+
      (resolveIn ws mode wanted start s).2.events := by
  rw [resolveIn_eq, answered_apply]
  cases outcome (sought ws mode wanted start) s with
  | ok value => exact List.suffix_refl _
  | error abort => exact List.suffix_cons _ _

/-- A request without a cut is answered by evaluation without memory. -/
theorem resolveIn_eq_answer (hroot : ws.root.IsNormal)
    (hbars : mode = .enhanced → ws.HasNoBars) (hwanted : wanted.IsWellFormed)
    (hstart : start.IsTidy) (hs : Faithful ws s)
    (hclean : Clean ws mode (resolveIn ws mode wanted start s).2.events)
    (hcut : ¬ Occurs Event.isCut s.events (resolveIn ws mode wanted start s).2.events) :
    (resolveIn ws mode wanted start s).1 = answer (evaluateRequest ws mode wanted start) := by
  have hfollows := Follows.sought hroot hbars hwanted hstart
  have hagrees := hfollows.agrees s hs (hclean.of_suffix after_sought_suffix) fun hoccurs =>
    hcut (hoccurs.widen (List.suffix_refl _) after_sought_suffix)
  rw [resolveIn_fst, hagrees]

end Answer

/-! ### Two engines -/

/-- A record without a lost argument, and in which no frame came to the empty text. -/
structure Calm (events : List Event) : Prop where
  lost : ∀ ctx call, .threaded ctx call none false ∉ events
  empty : ∀ mode ctx, .returned mode ctx (some []) true ∉ events

theorem Calm.clean {ws : Workspace} {events : List Event} (h : Calm events)
    (mode : SearchMode) : Clean ws mode events :=
  ⟨fun _ => h.lost, fun ctx hmem => absurd hmem (h.empty mode ctx)⟩

theorem Calm.of_suffix {earlier events : List Event} (h : Calm events)
    (hsuffix : earlier <:+ events) : Calm earlier :=
  ⟨fun ctx call hmem => h.lost ctx call (hsuffix.subset hmem),
    fun mode ctx hmem => h.empty mode ctx (hsuffix.subset hmem)⟩

/-- A session that was just made is empty. -/
theorem Session.empty_of_create {settings : Settings} {s : Session}
    (h : Session.create settings = .ok s) :
    s.cache.entries = [] ∧ s.modulePaths = [] ∧ s.events = [] := by
  unfold Session.create Cache.create at h
  obtain ⟨cache, hcache, hs⟩ := Direct.bind_ok h
  cases hs
  split at hcache
  · cases hcache
  · cases hcache
    exact ⟨rfl, rfl, rfl⟩

theorem faithful_of_create {ws : Workspace} {settings : Settings} {s : Session}
    (h : Session.create settings = .ok s) : Faithful ws s := by
  obtain ⟨hcache, hpaths, hevents⟩ := Session.empty_of_create h
  exact Faithful.of_empty hcache hpaths hevents

/-- An engine answers a request as a fresh engine does, whatever it was asked before, if
neither of them cuts a frame in answering it, no argument was lost and no frame came to
the empty text. Cycles may have been cut in answering the earlier requests. -/
theorem answer_eq_fresh {ws : Workspace} (hroot : ws.root.IsNormal)
    {fresh : Session} (hfresh : Session.create ws.settings = .ok fresh)
    {history : List Request} {mode : SearchMode} {wanted : Wanted} {start : Path}
    (hrequests : ∀ request ∈ .value mode wanted start :: history,
      request.IsWellFormed ∧ (request.mode = .enhanced → ws.HasNoBars))
    (hcalm : Calm (resolveIn ws mode wanted start (performAll ws history fresh)).2.events)
    (hcalm' : Calm (resolveIn ws mode wanted start fresh).2.events)
    (hcut : ¬ Occurs Event.isCut (performAll ws history fresh).events
      (resolveIn ws mode wanted start (performAll ws history fresh)).2.events)
    (hcut' : ¬ Occurs Event.isCut fresh.events (resolveIn ws mode wanted start fresh).2.events) :
    (resolveIn ws mode wanted start (performAll ws history fresh)).1 =
      (resolveIn ws mode wanted start fresh).1 := by
  obtain ⟨⟨hwanted, hstart⟩, hbars⟩ := hrequests _ List.mem_cons_self
  have hhistory : ∀ request ∈ history,
      request.IsWellFormed ∧ (request.mode = .enhanced → ws.HasNoBars) :=
    fun request hmem => hrequests request (List.mem_cons_of_mem _ hmem)
  have hsession : Faithful ws fresh := faithful_of_create hfresh
  have hlast : (performAll ws history fresh).events <:+
      (resolveIn ws mode wanted start (performAll ws history fresh)).2.events :=
    admits_grows.resolveIn (grows_resolveFrom ws) mode wanted start _
  have hwarm : Faithful ws (performAll ws history fresh) :=
    faithful_performAll hroot (fun request hmem => (hhistory request hmem).1)
      (fun request hmem => (hhistory request hmem).2) hsession
      fun request _ => (hcalm.of_suffix hlast).clean request.mode
  calc (resolveIn ws mode wanted start (performAll ws history fresh)).1
    _ = answer (evaluateRequest ws mode wanted start) :=
      resolveIn_eq_answer hroot hbars hwanted hstart hwarm (hcalm.clean mode) hcut
    _ = (resolveIn ws mode wanted start fresh).1 :=
      (resolveIn_eq_answer hroot hbars hwanted hstart hsession (hcalm'.clean mode) hcut').symm

/-! ### A history that does no harm -/

/-- Whether an event disturbs what is remembered. -/
def Event.disturbs : Event → Bool
  | .threaded _ _ none false => true
  | .returned _ _ (some []) true => true
  | _ => false

theorem calm_of_any {events : List Event} (h : events.any Event.disturbs = false) :
    Calm events := by
  have hnone := List.any_eq_false.mp h
  exact ⟨fun ctx call hmem => hnone _ hmem rfl, fun mode ctx hmem => hnone _ hmem rfl⟩

/-- The frames that were cut. -/
def cuts (events : List Event) : List Context :=
  events.filterMap fun
    | .cycleCut ctx => some ctx
    | _ => none

theorem not_occurs_of_cuts {before after : List Event} (h : cuts after = cuts before) :
    ¬ Occurs Event.isCut before after := by
  rintro ⟨added, rfl, event, hmem, hcut⟩
  obtain ⟨ctx, rfl⟩ := Event.isCut_iff.mp hcut
  have hadded : cuts added = [] := by
    have happend : cuts added ++ cuts before = cuts before := by
      rwa [cuts, List.filterMap_append] at h
    exact List.append_left_eq_self.mp happend
  have hctx : ctx ∈ cuts added := List.mem_filterMap.mpr ⟨_, hmem, rfl⟩
  rw [hadded] at hctx
  exact absurd hctx List.not_mem_nil

/-- The text of a reference. -/
def written (text : String) : Wanted := .text (some text.toList)

/-- The root of the workspace. -/
def here : Path := .ofText ".".toList

/-- The circle was cut in an earlier request, and the last one is answered as anew. -/
theorem circular_answer_eq_fresh :
    (∃ cut, .cycleCut cut ∈ (performAll circular circularRequests .fresh).events) ∧
    (resolveIn circular .enhanced (written "module.m.o") here
      (performAll circular circularRequests .fresh)).1 =
      (resolveIn circular .enhanced (written "module.m.o") here .fresh).1 := by
  have hwarm : (performAll circular circularRequests .fresh).events.any Event.isCut = true ∧
      (resolveIn circular .enhanced (written "module.m.o") here
        (performAll circular circularRequests .fresh)).2.events.any Event.disturbs = false ∧
      cuts (resolveIn circular .enhanced (written "module.m.o") here
        (performAll circular circularRequests .fresh)).2.events =
          cuts (performAll circular circularRequests .fresh).events := by
    decide +kernel
  have hfresh : (resolveIn circular .enhanced (written "module.m.o") here
        .fresh).2.events.any Event.disturbs = false ∧
      cuts (resolveIn circular .enhanced (written "module.m.o") here .fresh).2.events =
        cuts Session.fresh.events := by
    decide +kernel
  obtain ⟨hcut, hcalm, hcuts⟩ := hwarm
  exact ⟨exists_isCut.mp (List.any_eq_true.mp hcut),
    answer_eq_fresh (by decide) rfl (by decide) (calm_of_any hcalm) (calm_of_any hfresh.1)
      (not_occurs_of_cuts hcuts) (not_occurs_of_cuts hfresh.2)⟩

/-! ### Histories that show

In each of these a request is answered differently after another one than by a fresh
engine. -/

/-- The answers to a request, after an earlier one and by a fresh engine. -/
def twoAnswers (ws : Workspace) (earlier : Request) (mode : SearchMode) (wanted : Wanted)
    (start : Path) : Option (Option Text × Option Text) := do
  let fresh ← (Session.create ws.settings).toOption
  return ((resolveIn ws mode wanted start (perform ws earlier fresh)).1,
    (resolveIn ws mode wanted start fresh).1)

/-- The circle with so few levels that the bound on depth is met before the cycle. -/
def shallow : Workspace := { circular with settings := { maxDepth := 2 } }

/-- A local value whose text disappears. -/
def vanishing : Workspace :=
  .ofFiles {} [(["main.tf"], "locals \x7b\n  a = \"\"\n  x = $\x7blocal.a\x7d\n\x7d\n")]

/-- A directory whose name reads like the end of one call and the start of another. -/
def barred : Workspace := .ofFiles {} [
  (["d", "main.tf"], "output \"o\" \x7b\n  value = var.v\n\x7d\n"),
  (["a", "main.tf"], "module \"m\" \x7b\n  source = \"../d\"\n  v = \"1\"\n\x7d
output \"o\" \x7b\n  value = module.m.o\n\x7d\n"),
  (["x", "main.tf"], "module \"p\" \x7b\n  source = \"../a\"\n\x7d\n"),
  (["x::p|", "w", "a", "main.tf"], "module \"m\" \x7b\n  source = \"../../../d\"\n  v = \"2\"\n\x7d
locals \x7b\n  l = module.m.o\n\x7d\n")]

/-- A circle that the bound on depth ends in one request and a cut in the other; a text
that vanishes; an input whose argument is cut; a bar in the name of a directory; and a
reference that cannot be written down. -/
theorem answers_differ :
    twoAnswers shallow (.value .plain (written "local.c") here) .plain (written "local.a") here =
      some (some "\"ABA$\x7b\"BA$\x7blocal.b\x7d\"\x7d\"".toList,
        some "\"AB$\x7blocal.a\x7d\"".toList) ∧
    twoAnswers vanishing (.value .plain (written "local.x") here) .plain (written "local.x") here =
      some (none, some []) ∧
    twoAnswers selfCalling (.value .enhanced (written "local.s") here) .enhanced
        (written "local.t") here =
      some (some "\"d\"".toList, some "\"S-$\x7bmodule.m.o\x7d\"".toList) ∧
    twoAnswers barred (.value .enhanced (written "module.p.o") (.ofText "x".toList)) .enhanced
        (written "local.l") (.ofText "x::p|/w/a".toList) =
      some (some "\"1\"".toList, some "\"2\"".toList) ∧
    twoAnswers dotted (.value .plain dottedInput here) .plain (written "var.a.b") here =
      some (some "1".toList, some "2".toList) := by
  refine ⟨?_, ?_, ?_, ?_, ?_⟩
  all_goals decide +kernel

end TerraformTrace
