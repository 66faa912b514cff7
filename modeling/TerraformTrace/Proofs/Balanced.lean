import TerraformTrace.Hcl.Block
import TerraformTrace.Proofs.MaskRun

/-!
# TerraformTrace.Proofs.Balanced

Masks whose brackets are closed in the order in which they have to be. The scanners count
brackets, each in its own way: the reader of values counts all kinds, the search for the
end of a block counts braces, and the scan for blocks keeps a depth. **They all pass over a
balanced mask as a whole** and stand at the same depth after it.

A text is *closed* if, read in code, it leads back to code and has a balanced mask. Closed
texts are what values and the bodies of blocks are made of.
-/

namespace TerraformTrace.Hcl

open Text

/-! ### Balanced masks -/

/-- An opening bracket, and the bracket that closes it. -/
inductive Encloses : Char → Char → Prop
  | brace : Encloses '{' '}'
  | bracket : Encloses '[' ']'
  | parenthesis : Encloses '(' ')'

/-- Every bracket is closed by its own kind, and all that stands outside of brackets is of
a class. -/
inductive Balanced : (Char → Prop) → Text → Prop
  | nil {P : Char → Prop} : Balanced P []
  | char {P : Char → Prop} {c : Char} (hopener : isOpener c = false) (hcloser : isCloser c = false)
    (hc : P c) : Balanced P [c]
  | append {P : Char → Prop} {shown more : Text} (hshown : Balanced P shown)
    (hmore : Balanced P more) : Balanced P (shown ++ more)
  | group {P : Char → Prop} {opening closing : Char} {inside : Text}
    (hencloses : Encloses opening closing) (hinside : Balanced (fun _ => True) inside) :
    Balanced P (opening :: (inside ++ [closing]))

variable {P Q : Char → Prop} {shown text : Text} {depth : Nat}

theorem Balanced.mono (h : Balanced P shown) (hPQ : ∀ c, P c → Q c) : Balanced Q shown := by
  induction h with
  | nil => exact .nil
  | char hopener hcloser hc => exact .char hopener hcloser (hPQ _ hc)
  | append _ _ hshown hmore => exact .append (hshown hPQ) (hmore hPQ)
  | group hencloses hinside => exact .group hencloses hinside

theorem Balanced.of_forall (h : ∀ c ∈ shown, isOpener c = false ∧ isCloser c = false ∧ P c) :
    Balanced P shown := by
  induction shown with
  | nil => exact .nil
  | cons c rest ih =>
    obtain ⟨hopener, hcloser, hc⟩ := h c List.mem_cons_self
    exact .append (.char hopener hcloser hc) (ih (List.forall_mem_cons.mp h).2)

/-- A text is passed character by character: its mask leads from one depth to another, and
all that stands at depth zero is of a class. -/
inductive Passes (R : Char → Prop) : Nat → Text → Text → Nat → Prop
  | nil (depth : Nat) : Passes R depth [] [] depth
  | cons {depth after : Nat} {m : Char} {text shown : Text} (hm : depth = 0 → R m) (c : Char)
    (hrest : Passes R (nextDepth depth m) text shown after) :
    Passes R depth (c :: text) (m :: shown) after

theorem Passes.append {R : Char → Prop} {depth middle after : Nat} {text' shown' : Text}
    (h : Passes R depth text shown middle) (hmore : Passes R middle text' shown' after) :
    Passes R depth (text ++ text') (shown ++ shown') after := by
  induction h with
  | nil => exact hmore
  | cons hm c _ ih => exact .cons hm c (ih hmore)

theorem exists_append_of_length {n m : Nat} (h : n + m = text.length) :
    ∃ first second, text = first ++ second ∧ n = first.length ∧ m = second.length :=
  ⟨text.take n, text.drop n, (List.take_append_drop ..).symm, by simp; omega, by simp; omega⟩

/-- A balanced mask leads back to its depth. -/
theorem Balanced.passes {R : Char → Prop} (h : Balanced P shown)
    (hlength : shown.length = text.length) (hchar : depth = 0 → ∀ c, isCloser c = false → P c → R c)
    (hopening : depth = 0 → R '{' ∧ R '[' ∧ R '(') : Passes R depth text shown depth := by
  induction h generalizing text depth with
  | nil =>
    rw [List.length_eq_zero_iff.mp hlength.symm]
    exact .nil depth
  | @char _ c hopener hcloser hc =>
    obtain ⟨d, rfl⟩ := List.length_eq_one_iff.mp hlength.symm
    have hdepth : nextDepth depth c = depth := by simp [nextDepth, hopener, hcloser]
    exact .cons (fun hzero => hchar hzero c hcloser hc) d (by rw [hdepth]; exact .nil depth)
  | append _ _ hshown hmore =>
    rw [List.length_append] at hlength
    obtain ⟨first, second, rfl, hfirst, hsecond⟩ := exists_append_of_length hlength
    exact (hshown hfirst hchar hopening).append (hmore hsecond hchar hopening)
  | @group _ opening closing inside hencloses _ hinside =>
    -- the text is cut where its mask is, whatever characters stand there
    obtain ⟨first, text, rfl⟩ := List.exists_cons_of_length_eq_add_one hlength.symm
    simp only [List.length_cons, List.length_append, Nat.add_right_cancel_iff] at hlength
    obtain ⟨middle, last, rfl, hmiddle, hlast⟩ := exists_append_of_length hlength
    obtain ⟨last, rfl⟩ := List.length_eq_one_iff.mp hlast.symm
    have hdown : nextDepth depth opening = depth + 1 := by cases hencloses <;> rfl
    have hup : nextDepth (depth + 1) closing = depth := by cases hencloses <;> rfl
    refine .cons (fun hzero => by cases hencloses <;> simp [hopening hzero]) first ?_
    rw [hdown]
    have hdeep : depth + 1 ≠ 0 := Nat.succ_ne_zero depth
    refine (hinside hmiddle (absurd · hdeep) (absurd · hdeep)).append
      (.cons (absurd · hdeep) last ?_)
    rw [hup]
    exact .nil depth

/-! ### Lengths

Scanners count the characters they pass one by one. -/

theorem map_add_map {count : Option Nat} {m n k : Nat} (h : m + n = k) :
    (count.map (· + m)).map (· + n) = count.map (· + k) := by
  rw [Option.map_map]
  refine congrArg (count.map ·) (funext fun length => ?_)
  simp only [Function.comp]
  omega

/-! ### Values -/

theorem extent?_step {c : Char} (h : depth = 0 → isCloser c = false ∧ endsValue c = false)
    (rest : Text) : extent? depth (c :: rest) = (extent? (nextDepth depth c) rest).map (· + 1) := by
  cases depth with
  | zero => cases hopener : isOpener c <;> simp [extent?, nextDepth, hopener, h rfl]
  | succ depth =>
    cases hopener : isOpener c <;> cases hcloser : isCloser c <;>
      simp [extent?, nextDepth, hopener, hcloser]

theorem Passes.extent? {before after : Nat}
    (h : Passes (fun c => isCloser c = false ∧ endsValue c = false) before text shown after)
    (rest : Text) :
    extent? before (shown ++ rest) = (extent? after rest).map (· + shown.length) := by
  induction h with
  | nil => simp
  | cons hm c _ ih => rw [List.cons_append, extent?_step hm, ih, map_add_map rfl, List.length_cons]

/-- A value goes on over a balanced mask; at depth zero nothing in it may end the value. -/
theorem Balanced.extent? (h : Balanced P shown) (hP : depth = 0 → ∀ c, P c → endsValue c = false)
    (rest : Text) : extent? depth (shown ++ rest) = (extent? depth rest).map (· + shown.length) :=
  have hpasses := h.passes rfl (fun hzero c hcloser hc => ⟨hcloser, hP hzero c hc⟩)
    fun _ => by decide
  hpasses.extent? rest

/-! ### The end of a block -/

theorem closingBrace?_char {c : Char} (hopen : c ≠ '{') (hclose : c ≠ '}') (depth : Nat)
    (rest : Text) : closingBrace? depth (c :: rest) = (closingBrace? depth rest).map (· + 1) := by
  cases depth <;> simp [closingBrace?, hopen, hclose]

/-- The brace that closes a block is not in a balanced mask. -/
theorem Balanced.closingBrace? (h : Balanced P shown) (depth : Nat) (rest : Text) :
    closingBrace? depth (shown ++ rest) = (closingBrace? depth rest).map (· + shown.length) := by
  induction h generalizing depth rest with
  | nil => simp
  | char hopener hcloser _ =>
    simp only [isOpener, isCloser, Bool.or_eq_false_iff, decide_eq_false_iff_not]
      at hopener hcloser
    exact closingBrace?_char hopener.1.1 hcloser.1.1 depth rest
  | append _ _ hshown hmore =>
    rw [List.append_assoc, hshown, hmore, map_add_map]
    rw [List.length_append, Nat.add_comm]
  | @group _ opening closing inside hencloses _ hinside =>
    rw [List.cons_append, List.append_assoc, List.singleton_append]
    -- braces change the depth on the way, and other brackets do not
    have hpass : Hcl.closingBrace? depth (opening :: (inside ++ closing :: rest)) =
        (((Hcl.closingBrace? depth rest).map (· + 1)).map (· + inside.length)).map (· + 1) := by
      cases hencloses with
      | brace => cases depth <;> simp [Hcl.closingBrace?, hinside]
      | bracket =>
        rw [closingBrace?_char (by decide) (by decide), hinside,
          closingBrace?_char (by decide) (by decide)]
      | parenthesis =>
        rw [closingBrace?_char (by decide) (by decide), hinside,
          closingBrace?_char (by decide) (by decide)]
    rw [hpass, map_add_map rfl, map_add_map rfl]
    simp [Nat.add_comm, Nat.add_left_comm]

/-! ### Blocks -/

/-- Only a line break at depth zero lets a block begin. -/
theorem scanBlocks_cons {m : Char} (hm : depth = 0 → m ≠ '\n') (keyword : Text)
    (pos : Nat) (c : Char) (text mask : Text) :
    scanBlocks keyword 0 depth false pos (c :: text) (m :: mask) =
      scanBlocks keyword 0 (nextDepth depth m) false (pos + 1) text mask := by
  have hfresh : (false || (decide (depth = 0) && decide (m = '\n'))) = false := by simpa using hm
  rw [scanBlocks, if_neg (by simp), hfresh]

theorem Passes.scanBlocks {before after : Nat} (h : Passes (· ≠ '\n') before text shown after)
    (keyword : Text) (pos : Nat) (rest mask : Text) :
    scanBlocks keyword 0 before false pos (text ++ rest) (shown ++ mask) =
      scanBlocks keyword 0 after false (pos + text.length) rest mask := by
  induction h generalizing pos with
  | nil => rfl
  | cons hm c _ ih =>
    rw [List.cons_append, List.cons_append, scanBlocks_cons hm, ih, List.length_cons,
      Nat.add_assoc, Nat.add_comm 1]

/-- The scan for blocks passes over a balanced mask; at depth zero it may have no line break. -/
theorem Balanced.scanBlocks (h : Balanced P shown) (hlength : shown.length = text.length)
    (hP : depth = 0 → ∀ c, P c → c ≠ '\n') (keyword : Text) (pos : Nat) (rest mask : Text) :
    scanBlocks keyword 0 depth false pos (text ++ rest) (shown ++ mask) =
      scanBlocks keyword 0 depth false (pos + text.length) rest mask :=
  (h.passes hlength (fun hzero c _ hc => hP hzero c hc) fun _ => by decide).scanBlocks
    keyword pos rest mask

/-! ### Closed texts -/

/-- Brackets are shown as they are, around what is shown between them. -/
theorem Encloses.shows {opening closing : Char} (h : Encloses opening closing)
    (hshows : Mask.Shows [] text shown []) :
    Mask.Shows [] (opening :: (text ++ [closing])) (opening :: (shown ++ [closing])) [] := by
  have hopening : Mask.Shows [] [opening] [opening] [] := by
    cases h <;> exact Mask.shows_code (by decide)
  have hclosing : Mask.Shows [] [closing] [closing] [] := by
    cases h <;> exact Mask.shows_code (by decide)
  exact .cons hopening (hshows.append hclosing)

/-- Read in code, the text leads back to code, and its mask is balanced. -/
def IsClosed (P : Char → Prop) (text : Text) : Prop :=
  ∃ shown, Mask.Shows [] text shown [] ∧ Balanced P shown

namespace IsClosed

variable {more : Text}

theorem nil : IsClosed P [] := ⟨[], .nil [], .nil⟩

theorem append (h : IsClosed P text) (h' : IsClosed P more) : IsClosed P (text ++ more) := by
  obtain ⟨shown, hshows, hbalanced⟩ := h
  obtain ⟨shown', hshows', hbalanced'⟩ := h'
  exact ⟨shown ++ shown', hshows.append hshows', hbalanced.append hbalanced'⟩

theorem mono (h : IsClosed P text) (hPQ : ∀ c, P c → Q c) : IsClosed Q text := by
  obtain ⟨shown, hshows, hbalanced⟩ := h
  exact ⟨shown, hshows, hbalanced.mono hPQ⟩

/-- A class of characters that are nothing but themselves to the mask and the brackets. -/
def IsPlain (c : Char) : Prop :=
  c ∉ ['"', '#', '/', '<'] ∧ isOpener c = false ∧ isCloser c = false

instance (c : Char) : Decidable (IsPlain c) :=
  inferInstanceAs (Decidable (_ ∧ _ ∧ _))

/-- Plain characters are shown as they are. -/
theorem shows_of_forall (h : ∀ c ∈ text, IsPlain c) : Mask.Shows [] text text [] := by
  have hshows := Mask.Shows.of_forall id fun c hc => Mask.shows_code (h c hc).1
  rwa [List.map_id] at hshows

theorem of_forall (h : ∀ c ∈ text, IsPlain c ∧ P c) : IsClosed P text := by
  refine ⟨text, shows_of_forall fun c hc => (h c hc).1, .of_forall fun c hc => ?_⟩
  obtain ⟨⟨-, hopener, hcloser⟩, hc⟩ := h c hc
  exact ⟨hopener, hcloser, hc⟩

theorem group {opening closing : Char} (hencloses : Encloses opening closing)
    (h : IsClosed (fun _ => True) text) : IsClosed P (opening :: (text ++ [closing])) := by
  obtain ⟨shown, hshows, hbalanced⟩ := h
  exact ⟨_, hencloses.shows hshows, .group hencloses hbalanced⟩

end IsClosed

end TerraformTrace.Hcl
