import TerraformTrace.Proofs.Keeps
import TerraformTrace.Proofs.Lookup

/-!
# TerraformTrace.Proofs.Faithful

What a session may remember. The invariant `Faithful` says of every entry of the cache
that it holds the direct value of what its key names: a look-up in one directory, the
module calls of one, or a whole frame. The same goes for the table of module
directories and for every result in the record that may be remembered.

**A key may stand for many frames.** What is kept under it is the meaning of one of them, and
found frames with one key have one meaning (`Kept.of_frame`).
-/

namespace TerraformTrace

open Hcl

variable {ws : Workspace} {mode : SearchMode} {parts : List Text} {known : Remembered}
  {ctx : Context} {value : Option Text} {event : Event} {s : Session}

/-! ### What may be remembered -/

/-- A remembered result that is the meaning of a frame with this key. -/
def Kept (ws : Workspace) (mode : SearchMode) (parts : List Text) (known : Remembered) : Prop :=
  ∃ (ctx : Context) (value : Option Text), ctx.IsFound ws mode ∧
    parts = ctx.keyParts ∧ evaluateFrame ws mode ctx = .ok value ∧
    value ≠ some [] ∧ known = .text (value.getD [])

theorem Kept.of_frame (hfound : ctx.IsFound ws mode) (h : Kept ws mode ctx.keyParts known) :
    evaluateFrame ws mode ctx = .ok (present? known.asText) := by
  obtain ⟨other, value, hother, hparts, hvalue, hne, rfl⟩ := h
  rw [hfound.evaluateFrame_eq hother hparts, hvalue]
  exact congrArg Except.ok (present?_getD hne).symm

/-- A session that remembers nothing but direct values. -/
structure Faithful (ws : Workspace) (s : Session) : Prop extends Recollects ws (Kept ws) s where
  returned : ∀ mode ctx value, .returned mode ctx value true ∈ s.events →
    ctx.IsFound ws mode ∧ evaluateFrame ws mode ctx = .ok value

/-! ### Steps of a faithful session -/

namespace Faithful

section Session

variable (h : Faithful ws s)

include h

theorem note (hevent : ∀ mode ctx value, event = .returned mode ctx value true →
      ctx.IsFound ws mode ∧ evaluateFrame ws mode ctx = .ok value) :
    Faithful ws { s with events := event :: s.events } where
  toRecollects := h.of_events _
  returned mode ctx value hmem := by
    rcases List.mem_cons.mp hmem with heq | hmem
    · exact hevent mode ctx value heq.symm
    · exact h.returned mode ctx value hmem

/-! A frame is entered, and left with a result that is its meaning. -/

theorem opened : Faithful ws (opened mode ctx s) := by
  have hlookUp : Faithful ws { s with cache := (s.cache.get (frameKey mode ctx)).2 } :=
    ⟨h.lookUp _, h.returned⟩
  exact hlookUp.note (by simp)

theorem returned_frame (hfound : ctx.IsFound ws mode)
    (hvalue : evaluateFrame ws mode ctx = .ok value) :
    Faithful ws { s with events := .returned mode ctx value true :: s.events } := by
  refine h.note fun mode' ctx' value' heq => ?_
  obtain ⟨rfl, rfl, rfl, -⟩ := Event.returned.inj heq
  exact ⟨hfound, hvalue⟩

theorem stored_frame (hfound : ctx.IsFound ws mode)
    (hvalue : evaluateFrame ws mode ctx = .ok value) (hne : value ≠ some []) :
    Faithful ws { s with
      cache := s.cache.set (frameKey mode ctx) (.text (value.getD []))
      events := .returned mode ctx value true :: .stored (frameKey mode ctx) :: s.events } := by
  have hkept : Faithful ws { s with
      cache := s.cache.set (frameKey mode ctx) (.text (value.getD [])) } :=
    ⟨h.remember (.inr ⟨mode, _, rfl, ctx, value, hfound, rfl, hvalue, hne, rfl⟩), h.returned⟩
  have hstored : ∀ mode' ctx' value',
      Event.stored (frameKey mode ctx) ≠ .returned mode' ctx' value' true := nofun
  exact (hkept.note fun _ _ _ heq => absurd heq (hstored _ _ _)).returned_frame hfound hvalue

end Session

instance : Recalls ws (Faithful ws) where
  noted h hevent := h.note fun mode ctx value heq => absurd heq (hevent mode ctx value)
  lookedUp key h := ⟨h.lookUp key, h.returned⟩
  recalled h := h.recalled
  remembered h hlookup hdir hvalue :=
    ⟨h.remember (.inl ⟨_, _, hlookup, hdir, rfl, hvalue⟩), h.returned⟩
  found h := h.found
  entered h hdir hplace := ⟨h.enter hdir hplace, h.returned⟩

end Faithful

end TerraformTrace
