import TerraformTrace.Proofs.Evaluation
import TerraformTrace.Proofs.Run

/-!
# TerraformTrace.Proofs.Observation

Runs that only look. Listing a directory and reading its files leaves nothing in a session but
the record of it, and comes to the same in every session: to what it comes to without memory.
So whatever is said of the cache and of the table of modules is not affected.
-/

namespace TerraformTrace

open Hcl

variable {α β : Type}

/-- An event in which the disk is accessed. -/
def Event.IsAccess : Event → Prop
  | .listed _ => True
  | .read _ => True
  | .cannotList _ _ => True
  | .cannotRead _ _ => True
  | .cannotStat _ _ => True
  | .malformed _ _ => True
  | _ => False

/-- A run that comes to this in every session and does nothing but record accesses. -/
def Observes (x : Run α) (result : Except Abort α) : Prop :=
  ∀ s, outcome x s = result ∧ ∃ added, after x s = { s with events := added ++ s.events } ∧
    ∀ event ∈ added, event.IsAccess

namespace Observes

theorem pure (value : α) : Observes (pure value) (.ok value) := fun _ => ⟨rfl, [], rfl, nofun⟩

theorem throw (abort : Abort) : Observes (throw abort : Run α) (.error abort) :=
  fun _ => ⟨rfl, [], rfl, nofun⟩

theorem bind {x : Run α} {f : α → Run β} {result : Except Abort α} {next : α → Except Abort β}
    (hx : Observes x result) (hf : ∀ value, Observes (f value) (next value)) :
    Observes (x >>= f) (result >>= next) := by
  intro s
  obtain ⟨hout, added, hafter, hadded⟩ := hx s
  rw [outcome_bind, hout]
  cases result with
  | error abort => exact ⟨rfl, added, (after_bind_of_error hout).trans hafter, hadded⟩
  | ok value =>
    obtain ⟨hnext, more, hafter', hmore⟩ := hf value (after x s)
    refine ⟨hnext, more ++ added, ?_, fun event hevent => ?_⟩
    · rw [after_bind_of_ok hout, hafter', hafter, List.append_assoc]
    · exact (List.mem_append.mp hevent).elim (hmore event) (hadded event)

theorem note_bind {event : Event} (hevent : event.IsAccess) {x : Run α} {result : Except Abort α}
    (hx : Observes x result) : Observes (note event >>= fun _ => x) result := by
  have hnote : Observes (note event) (.ok ()) :=
    fun _ => ⟨rfl, [event], rfl, fun _ hmem => List.mem_singleton.mp hmem ▸ hevent⟩
  exact bind hnote fun _ => hx

/-! ### Files -/

variable (ws : Workspace)

theorem checkDirectory (path : Path) :
    Observes (checkDirectory ws path) (.ok (Direct.isDirectory ws path)) := by
  unfold TerraformTrace.checkDirectory Direct.isDirectory
  cases ws.disk.isDirectory path with
  | ok answer => exact pure answer
  | error error => exact note_bind (by trivial) (pure false)

theorem filesIn (dir : Path) (suffixes : List Text) : Observes (filesIn ws dir suffixes)
      (Direct.files ws dir suffixes) := by
  unfold TerraformTrace.filesIn Direct.files
  refine note_bind (by trivial) ?_
  cases ws.disk.list dir with
  | ok names => exact pure _
  | error failure =>
    cases failure with
    | reported error => exact note_bind (by trivial) (pure _)
    | _ => exact throw _

theorem readFile (path : Path) : Observes (readFile ws path) (Direct.text? ws path) := by
  unfold TerraformTrace.readFile Direct.text?
  refine note_bind (by trivial) ?_
  cases ws.disk.readText path with
  | ok text => exact pure _
  | error failure =>
    cases failure with
    | reported error => exact note_bind (by trivial) (pure _)
    | _ => exact throw _

/-! ### What files have -/

theorem firstValue {extract : Path → Text → Run (Option Text)}
    {direct : Path → Text → Except Abort (Option Text)}
    (hextract : ∀ path text, Observes (extract path text) (direct path text)) (paths : List Path) :
    Observes (firstValue ws extract paths) (Direct.firstValue ws direct paths) := by
  induction paths with
  | nil => exact pure _
  | cons path paths ih =>
    unfold TerraformTrace.firstValue Direct.firstValue
    refine bind (readFile ws path) fun text => ?_
    cases text with
    | none => exact ih
    | some text =>
      refine bind (hextract path text) fun value => ?_
      cases value with
      | none => exact ih
      | some value => exact pure _

theorem overrideIn (name : Text) (path : Path) (text : Text) :
    Observes (overrideIn name path text) (Direct.overrideIn name path text) := by
  unfold TerraformTrace.overrideIn Direct.overrideIn
  split
  · cases Literal.jsonVariable? text name with
    | ok value => exact pure value
    | error error =>
      cases error with
      | tooManyDigits digits => exact throw _
      | _ => exact note_bind (by trivial) (pure none)
  · exact pure _

theorem callsIn (dir : Path) (paths : List Path) :
    Observes (callsIn ws dir paths) (Direct.callsIn ws dir paths) := by
  induction paths with
  | nil => exact pure _
  | cons path paths ih =>
    unfold TerraformTrace.callsIn Direct.callsIn
    exact bind (readFile ws path) fun text => bind ih fun more => pure _

/-! ### What directories have -/

theorem valueIn {extract : Path → Text → Run (Option Text)}
    {direct : Path → Text → Except Abort (Option Text)}
    (hextract : ∀ path text, Observes (extract path text) (direct path text)) (dir : Path)
    (suffixes : List Text) :
    Observes (do
        let files ← TerraformTrace.filesIn ws dir suffixes
        TerraformTrace.firstValue ws extract files)
      (do
        let files ← Direct.files ws dir suffixes
        Direct.firstValue ws direct files) :=
  bind (filesIn ws dir suffixes) (firstValue ws hextract)

theorem moduleCalls (dir : Path) :
    Observes (do
        let files ← TerraformTrace.filesIn ws dir ws.settings.configurationSuffixes
        TerraformTrace.callsIn ws dir files)
      (Direct.moduleCalls ws dir) :=
  bind (filesIn ws dir _) (callsIn ws dir)

end Observes

end TerraformTrace
