import TerraformTrace.Literal

/-!
# TerraformTrace.Proofs.LiteralCalls

Reading a literal reads the literals inside it, and so calls itself. **Each of these calls is on a
strictly shorter text, so that reading ends, whatever the text** (`read_descends`).

To speak of calls, the body of the reader is taken with its calls left open (`readBy`). Tied to
itself it is the reader; `readWithin` ties it again, with a bound on the depth and a note of each
call, and runs without any knowledge of lengths. Which calls are to be made is said without the
reader (`callsOf`). That a bound is enough comes from the texts inside a text (`length_part_le`):
the body of a heredoc is cut and joined again, and comments are taken out of an item, but neither
is longer than what stands between the brackets.
-/

namespace TerraformTrace.Literal

open Text Hcl

variable {text : Text}

/-! ### The texts inside a literal -/

/-- The texts that are read when a text is: the values of the fields of an object, the items of a
list. -/
def parts (text : Text) : List Text :=
  if isBetween '{' '}' (strip text) = true then
    (assignments (inner (strip text)) true).map (·.value)
  else if isBetween '[' ']' (strip text) = true then items (inner (strip text))
  else []

theorem length_inner_of_isBetween {opening closing : Char} (hne : opening ≠ closing)
    (h : isBetween opening closing text = true) : (inner text).length + 2 = text.length := by
  match text with
  | [] => simp [isBetween] at h
  | [c] =>
    simp only [isBetween, List.head?_cons, List.getLast?_singleton, Bool.and_eq_true,
      decide_eq_true_eq, Option.some.injEq] at h
    exact absurd (h.1.symm.trans h.2) hne
  | _ :: _ :: _ => simp [inner]

/-- What stands inside a text is shorter, by the two brackets at least. -/
theorem length_part_le {part : Text} (h : part ∈ parts text) : part.length + 2 ≤ text.length := by
  have hstrip := length_strip_le text
  rw [parts] at h
  split at h
  next hobject =>
    obtain ⟨field, hfield, rfl⟩ := List.mem_map.mp h
    have hvalue := length_value_le hfield
    have hinner := length_inner_of_isBetween (by decide) hobject
    omega
  next =>
    split at h
    next hlist =>
      have hitem := length_item_le h
      have hinner := length_inner_of_isBetween (by decide) hlist
      omega
    next => cases h

/-! ### The reader with its calls -/

/-- A call of the reader by itself: the text that is being read, and the one to be read for it. -/
structure Call where
  caller : Text
  callee : Text

/-- The body of the reader, with `call` in the place of its calls. -/
def readBy {m : Type → Type} [Monad m] [MonadExceptOf LiteralError m] (call : Text → m Json)
    (text : Text) : m Json :=
  if isBetween '{' '}' (strip text) = true then do
    let fields := assignments (inner (strip text)) true
    if fields.isEmpty && !(strip (inner (strip text))).isEmpty then
      throw (.noFields (strip text))
    else
      let pairs ← fields.mapM fun field => do
        let value ← call field.value
        return (Runes.ofText field.name, value)
      return .object (Json.collect pairs)
  else if isBetween '[' ']' (strip text) = true then do
    let values ← (items (inner (strip text))).mapM call
    return .array values
  else MonadExcept.ofExcept (scalar (strip text))

/-- The reader is its body, tied to itself. -/
theorem read_eq_readBy (text : Text) : read text = readBy read text := by
  rw [read, readBy]
  split
  next =>
    simp only [List.mapM_subtype, List.unattach_attach]
    rfl
  next =>
    split
    next => simp only [List.mapM_subtype, List.unattach_attach]
    next => cases scalar (strip text) <;> rfl

/-- Readings that note their calls, also when they fail, and that can be given up. -/
abbrev Traced := ExceptT LiteralError (StateT (List Call) Option)

/-- Notes a call behind those made before. -/
def note (call : Call) : Traced Unit := modify (· ++ [call])

/-- Reads a text with at most `depth` readings inside each other, this one included. -/
def readWithin : (depth : Nat) → (text : Text) → Traced Json
  | 0, _ => ExceptT.mk (StateT.lift none)
  | depth + 1, text => readBy (fun part => do note ⟨text, part⟩; readWithin depth part) text

/-- The calls behind a text, in their order: each of the texts inside it is read, and then the
texts inside that one. -/
def callsOf (text : Text) : List Call :=
  (parts text).attach.flatMap fun ⟨part, hpart⟩ =>
    have : part.length < text.length := Nat.lt_of_succ_lt (length_part_le hpart)
    ⟨text, part⟩ :: callsOf part
termination_by text.length

theorem callsOf_eq (text : Text) :
    callsOf text = (parts text).flatMap fun part => ⟨text, part⟩ :: callsOf part := by
  rw [callsOf]
  simp only [List.flatMap_subtype, List.unattach_attach]

theorem callee_of_mem_callsOf {call : Call} (h : call ∈ callsOf text) :
    call.callee ∈ parts call.caller := by
  induction hlength : text.length using Nat.strongRecOn generalizing text with
  | ind n ih =>
    subst hlength
    rw [callsOf_eq] at h
    obtain ⟨part, hpart, hcall⟩ := List.mem_flatMap.mp h
    rcases List.mem_cons.mp hcall with rfl | hcall
    · exact hpart
    · exact ih part.length (Nat.lt_of_succ_lt (length_part_le hpart)) hcall rfl

/-- A reading that comes to `result` at every depth from `least` on. It makes the same calls at
each of these depths: all of `calls` if it succeeds, and otherwise the first of them. -/
def Ends {α : Type} (reading : Nat → Traced α) (least : Nat) (result : Except LiteralError α)
    (calls : List Call) : Prop :=
  ∃ made, made <+: calls ∧ (∀ value, result = .ok value → made = calls) ∧
    ∀ depth before, least ≤ depth →
      (reading depth).run.run before = some (result, before ++ made)

namespace Ends

variable {α β : Type} {reading : Nat → Traced α} {least : Nat} {result : Except LiteralError α}
  {calls : List Call}

theorem deeper {deep : Nat} (h : Ends reading least result calls) (hdeep : least ≤ deep) :
    Ends reading deep result calls := by
  obtain ⟨made, hmade, hall, hruns⟩ := h
  exact ⟨made, hmade, hall, fun depth before hdepth =>
    hruns depth before (Nat.le_trans hdeep hdepth)⟩

theorem of_succ (h : Ends (fun depth => reading (depth + 1)) least result calls) :
    Ends reading (least + 1) result calls := by
  obtain ⟨made, hmade, hall, hruns⟩ := h
  refine ⟨made, hmade, hall, fun depth before hdepth => ?_⟩
  match depth, hdepth with
  | depth + 1, hdepth => exact hruns depth before (Nat.le_of_succ_le_succ hdepth)

/-- What makes no call. -/
theorem of_result (result : Except LiteralError α) :
    Ends (fun _ => MonadExcept.ofExcept result) least result [] := by
  refine ⟨[], List.nil_prefix, fun _ _ => rfl, fun _ before _ => ?_⟩
  rw [List.append_nil]
  cases result <;> rfl

theorem of_note (call : Call) : Ends (fun _ => note call) least (.ok ()) [call] :=
  ⟨[call], List.prefix_refl _, fun _ _ => rfl, fun _ _ _ => rfl⟩

theorem bind {next : α → Nat → Traced β} {results : α → Except LiteralError β} {more : List Call}
    (h : Ends reading least result calls)
    (hnext : ∀ value, Ends (next value) least (results value) more) :
    Ends (fun depth => reading depth >>= (next · depth)) least (result >>= results)
      (calls ++ more) := by
  obtain ⟨made, hmade, hall, hruns⟩ := h
  cases result with
  | error error =>
    refine ⟨made, hmade.trans (List.prefix_append ..), nofun, fun depth before hdepth => ?_⟩
    rw [ExceptT.run_bind, StateT.run_bind, hruns depth before hdepth]
    rfl
  | ok value =>
    obtain ⟨made', hmade', hall', hruns'⟩ := hnext value
    obtain rfl := hall value rfl
    refine ⟨made ++ made', (List.prefix_append_right_inj _).mpr hmade', fun last hlast => by
      rw [hall' last hlast], fun depth before hdepth => ?_⟩
    rw [ExceptT.run_bind, StateT.run_bind, hruns depth before hdepth, ← List.append_assoc]
    exact hruns' depth (before ++ made) hdepth

theorem map (f : α → β) (h : Ends reading least result calls) :
    Ends (fun depth => reading depth >>= fun value => pure (f value)) least
      (result >>= fun value => pure (f value)) calls := by
  have hboth := h.bind fun value => of_result (.ok (f value))
  rwa [List.append_nil] at hboth

theorem mapM {items : List α} {read : α → Nat → Traced β} {result : α → Except LiteralError β}
    {calls : α → List Call}
    (h : ∀ item ∈ items, Ends (read item) least (result item) (calls item)) :
    Ends (fun depth => items.mapM (read · depth)) least (items.mapM result)
      (items.flatMap calls) := by
  induction items with
  | nil => exact of_result (.ok [])
  | cons item rest ih =>
    simp only [List.mapM_cons, List.flatMap_cons]
    refine (h item List.mem_cons_self).bind fun value => ?_
    exact (ih (List.forall_mem_cons.mp h).2).map (value :: ·)

/-- The body of the reader ends if its calls do. -/
theorem of_readBy {call : Nat → Text → Traced Json} {calls : Text → List Call}
    (h : ∀ part ∈ parts text, Ends (call · part) least (read part) (calls part)) :
    Ends (fun depth => readBy (call depth) text) least (read text)
      ((parts text).flatMap calls) := by
  rw [read_eq_readBy]
  by_cases hobject : isBetween '{' '}' (strip text) = true
  · simp only [readBy, parts, if_pos hobject, List.forall_mem_map, List.flatMap_map] at h ⊢
    split
    next hnone =>
      rw [Bool.and_eq_true, List.isEmpty_iff] at hnone
      rw [hnone.1]
      exact of_result (.error (.noFields (strip text)))
    next =>
      have hfields := mapM fun field hfield => (h field hfield).map (Runes.ofText field.name, ·)
      exact hfields.map fun pairs => Json.object (Json.collect pairs)
  · by_cases hlist : isBetween '[' ']' (strip text) = true
    · simp only [readBy, parts, if_neg hobject, if_pos hlist] at h ⊢
      exact (mapM h).map Json.array
    · simp only [readBy, parts, if_neg hobject, if_neg hlist]
      cases scalar (strip text) <;> exact of_result _

theorem of_readWithin (text : Text) :
    Ends (readWithin · text) (text.length / 2 + 1) (read text) (callsOf text) := by
  induction hlength : text.length using Nat.strongRecOn generalizing text with
  | ind n ih =>
    subst hlength
    rw [callsOf_eq]
    refine of_succ (of_readBy fun part hpart => ?_)
    -- a part is shorter by two characters, so it needs one reading less
    have hlength := length_part_le hpart
    have hcall := (ih part.length (by omega) part rfl).deeper
      (show part.length / 2 + 1 ≤ text.length / 2 by omega)
    exact (of_note ⟨text, part⟩).bind fun _ => hcall

end Ends

/-- **Reading a literal ends, whatever the text.** The calls that are noted are all that the reader
makes: behind each text that it reads those on the texts inside it, in their order, as far as the
reading goes, which is to the end unless it fails. Each call is on a strictly shorter text; and at
most half as many readings as there are characters, and one more, stand inside each other. -/
theorem read_descends (text : Text) :
    ∃ calls : List Call,
      (∀ depth, text.length < 2 * depth →
        (readWithin depth text).run.run [] = some (read text, calls)) ∧
      calls <+: callsOf text ∧ (∀ value, read text = .ok value → calls = callsOf text) ∧
      ∀ call ∈ calls,
        call.callee ∈ parts call.caller ∧ call.callee.length < call.caller.length := by
  obtain ⟨calls, hcalls, hall, hruns⟩ := Ends.of_readWithin text
  refine ⟨calls, fun depth hdepth => hruns depth [] (by omega), hcalls, hall, fun call hcall => ?_⟩
  have hpart := callee_of_mem_callsOf (hcalls.subset hcall)
  exact ⟨hpart, Nat.lt_of_succ_lt (length_part_le hpart)⟩

-- the body of a heredoc is read without its indentation, an item without its comment, and
-- nothing is read behind an item that is no literal
example :
    ((readWithin 4 "[\x7ba = <<-E\n  [2]\nE\n\x7d, b /* c */, 7]".toList).run.run []).map
      (fun outcome => outcome.2.map (·.callee)) =
    some ["\x7ba = <<-E\n  [2]\nE\n\x7d".toList, "[2]".toList, "2".toList, "b".toList] := by
  decide +kernel

end TerraformTrace.Literal
