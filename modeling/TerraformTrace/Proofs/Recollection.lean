import TerraformTrace.Proofs.Coherent
import TerraformTrace.Proofs.DirectorySearch

/-!
# TerraformTrace.Proofs.Recollection

Runs in sessions that remember look-ups and modules rightly, and of whole frames only results of
a sort. There a frame comes to what its computation comes to, if the results of the sort are
right for it (`Recollects.frame`).

**The sort of results may grow.** `Leads` has a sort for the session before a run and one for the
session after it. What is stored on the way back from a frame need not be of the sort that the
frame itself relied on.
-/

namespace TerraformTrace

open Hcl

variable {α β : Type}

/-! ### Runs that lead from sessions to sessions -/

/-- From sessions of one sort, a run comes to a value of a sort and leads to sessions of
another sort. -/
def Leads (I J : Session → Prop) (x : Run α) (P : α → Prop) : Prop :=
  ∀ s, I s → ∃ value, outcome x s = .ok value ∧ P value ∧ J (after x s)

namespace Leads

variable {I J K : Session → Prop} {P : α → Prop} {x : Run α} {f : α → Run β}

theorem pure {value : α} (h : P value) : Leads I I (pure value) P :=
  fun _ hs => ⟨value, rfl, h, hs⟩

theorem bind {R : β → Prop} (hx : Leads I J x P)
    (hf : ∀ value, P value → Leads J K (f value) R) : Leads I K (x >>= f) R := by
  intro s hs
  obtain ⟨value, hvalue, hP, hnext⟩ := hx s hs
  rw [outcome_bind, hvalue, after_bind_of_ok hvalue]
  exact hf value hP _ hnext

/-- What comes after a run with one known value. -/
theorem eq_bind {value : α} {R : β → Prop} (hx : Leads I J x (· = value))
    (hf : Leads J K (f value) R) : Leads I K (x >>= f) R :=
  bind hx fun found hfound => by rw [hfound]; exact hf

/-- What comes after a run that answers. -/
theorem answer_bind {result : Except Abort α} {value : α} {R : β → Prop} (hx : Answers I x result)
    (hresult : result = .ok value) (hf : Leads I K (f value) R) : Leads I K (x >>= f) R :=
  eq_bind (fun s hs => ⟨value, (hx.outcome s hs).trans hresult, rfl, hx.keeps s hs⟩) hf

end Leads

/-- A run on sessions that recollect, and what may be remembered after it. -/
abbrev LeadsOn (ws : Workspace) (Allowed Later : SearchMode → List Text → Remembered → Prop)
    (x : Run α) (P : α → Prop) : Prop :=
  Leads (Recollects ws Allowed) (Recollects ws Later) x P

namespace Recollects

variable {ws : Workspace} {Allowed Later : SearchMode → List Text → Remembered → Prop}
  {s : Session} {value : Option Text} {mode : SearchMode} {J : Session → Prop}

theorem note_bind (event : Event) {x : Run α} {P : α → Prop}
    (h : Leads (Recollects ws Allowed) J x P) :
    Leads (Recollects ws Allowed) J (note event >>= fun _ => x) P :=
  fun _ hs => h _ (hs.of_events _)

/-! ### Frames -/

/-- A frame comes to what its computation comes to, if what is remembered of it is right and
what it comes to may be remembered. -/
theorem frame {ctx : Context} {compute : Run Resolution} {P : Option Text → Prop}
    (hlater : ∀ mode parts value, Allowed mode parts value → Later mode parts value)
    (hcut : ctx.isCycle = true → P none)
    (hhit : ∀ known, Allowed mode ctx.keyParts known → P (present? known.asText))
    (hstore : ∀ value, P value → Later mode ctx.keyParts (.text (value.getD [])))
    (hcompute : LeadsOn ws Allowed Later compute fun result => P result.value) :
    LeadsOn ws Allowed Later (frame mode ctx compute) fun result => P result.value := by
  intro s hs
  obtain ⟨result, hresult, hP, hnext⟩ :=
    hcompute (opened mode ctx s) ((hs.lookUp (frameKey mode ctx)).of_events _)
  refine frame_cases mode ctx compute s fun hends => ?_
  cases hends with
  | cut hcycle => exact ⟨_, rfl, hcut hcycle, (hs.of_events _).widen hlater⟩
  | hit _ known hget =>
    exact ⟨_, rfl, hhit known (hs.allowed hget),
      ((hs.lookUp (frameKey mode ctx)).of_events _).widen hlater⟩
  | aborted _ _ abort habort =>
    rw [hresult] at habort
    cases habort
  | stored _ _ value hvalue =>
    rw [hresult] at hvalue
    cases hvalue
    exact ⟨_, rfl, hP, (hnext.remember (.inr ⟨mode, _, rfl, hstore value hP⟩)).of_events _⟩
  | unstored _ _ value hvalue =>
    rw [hresult] at hvalue
    cases hvalue
    exact ⟨_, rfl, hP, hnext.of_events _⟩

/-! ### Requests -/

theorem perform (h : Recollects ws Allowed s) {request : Request}
    (hrequest : request.isUpkeep = true) :
    Recollects ws Allowed (perform ws request s) :=
  perform_of_isUpkeep ws hrequest (fun hs hsubset => hs.of_subset hsubset)
    (fun _ => of_empty rfl rfl) h

/-- A request in which its reference comes to a value. -/
theorem resolveIn {wanted : Wanted} {start : Path} {ref : Reference}
    (hworks : ws.disk.Works) (hwanted : wanted.reference? = some ref)
    (hnul : start.hasNul = false)
    (hcontains : ws.contains (ws.normalize start) = true)
    (hdir : ws.disk.tree.isDirectory (ws.normalize start) = true)
    (hframe : LeadsOn ws Allowed Later
      (resolveFrom ws mode ref (ws.normalize start)) (·.value = value))
    (h : Recollects ws Allowed s) :
    (resolveIn ws mode wanted start s).1 = value ∧
      Recollects ws Later (resolveIn ws mode wanted start s).2 := by
  obtain ⟨result, hresult, rfl, hnext⟩ := hframe s h
  have hsought : outcome (sought ws mode wanted start) s = .ok result.value := by
    rw [sought_eq hworks hwanted hnul hcontains hdir, outcome_bind, hresult]
    rfl
  rw [resolveIn_eq, answered_apply, hsought]
  refine ⟨rfl, ?_⟩
  rw [sought_eq hworks hwanted hnul hcontains hdir]
  show Recollects ws Later (after _ s)
  rw [after_bind_of_ok hresult]
  exact hnext

end Recollects

end TerraformTrace
