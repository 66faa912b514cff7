import Mathlib.Tactic.SplitIfs
import TerraformTrace.Engine.Resolve
import TerraformTrace.Proofs.Text

/-!
# TerraformTrace.Proofs.Key

**Keys of remembered results can be read back.** A key is a JSON array of strings in
which only quotes, backslashes and controls are escaped. Each character is written as
a code that no other character's code begins with, and no code begins with the quote
that ends the string, so a key determines its kind and its parts.

The parts of a frame's key are texts themselves; that they determine the frame is the
subject of `TerraformTrace.Proofs.Frame`.
-/

namespace TerraformTrace

/-! ### Codes of characters -/

namespace Json

/-- The number that hexadecimal digits stand for. -/
def hexValue (digits : Text) : Nat :=
  (digits.filterMap Text.hexDigit?).foldl (fun value digit => 16 * value + digit) 0

theorem hexValue_hexDigits {n : Nat} (h : n < 0x20) : hexValue (Text.hexDigits 4 n) = n := by
  have hall : ∀ k : Fin 0x20, hexValue (Text.hexDigits 4 k.val) = k.val := by decide +kernel
  exact hall ⟨n, h⟩

/-- The character that the letter of a short escape stands for. -/
def ofLetter (letter : Char) : Char :=
  if letter = 'n' then '\n'
  else if letter = 'r' then '\r'
  else if letter = 't' then '\t'
  else if letter = 'f' then '\x0c'
  else if letter = 'b' then '\x08'
  else letter

/-- A short escape is a backslash and a letter that tells the character. -/
theorem shortEscape?_eq_some {c : Char} {code : Text} (h : shortEscape? c = some code) :
    ∃ letter, code = ['\\', letter] ∧ letter ≠ 'u' ∧ ofLetter letter = c := by
  unfold shortEscape? at h
  split_ifs at h <;> cases h <;> subst_vars <;> exact ⟨_, rfl, by decide, by decide⟩

/-- The characters without a short escape: the other ones are the quote, the backslash and
control characters. -/
theorem shortEscape?_eq_none {c : Char} (hquote : c ≠ '"') (hescape : c ≠ '\\')
    (hcode : 0x20 ≤ c.toNat) : shortEscape? c = none := by
  have hcontrol : ∀ d : Char, d.toNat < 0x20 → c ≠ d := by
    rintro d hd rfl
    omega
  simp [shortEscape?, hquote, hescape, hcontrol '\n' (by decide), hcontrol '\r' (by decide),
    hcontrol '\t' (by decide), hcontrol '\x0c' (by decide), hcontrol '\x08' (by decide)]

/-- What a character is written as: itself, a short escape or the escape of its number. -/
inductive RawCode (c : Char) : Text → Prop
  | plain : c ≠ '"' → c ≠ '\\' → RawCode c [c]
  | short {letter : Char} : letter ≠ 'u' → ofLetter letter = c → RawCode c ['\\', letter]
  | unit : c.toNat < 0x20 → RawCode c (unitEscape c.toNat)

theorem rawCode (c : Char) : RawCode c (writeRawChar c) := by
  unfold writeRawChar
  cases hshort : shortEscape? c with
  | some code =>
    obtain ⟨letter, rfl, hu, hletter⟩ := shortEscape?_eq_some hshort
    exact .short hu hletter
  | none =>
    dsimp only
    split
    · exact .unit ‹_›
    · refine .plain ?_ ?_ <;> rintro rfl <;> simp [shortEscape?] at hshort

/-- No code begins with the code of another character. -/
theorem writeRawChar_append_inj {c d : Char} {s t : Text}
    (h : writeRawChar c ++ s = writeRawChar d ++ t) : c = d ∧ s = t := by
  have hc := rawCode c
  have hd := rawCode d
  generalize writeRawChar c = code at h hc
  generalize writeRawChar d = other at h hd
  cases hc with
  | plain hquote hback =>
    cases hd with
    | plain => simpa using h
    | short => exact absurd (List.cons.inj h).1 hback
    | unit => exact absurd (List.cons.inj h).1 hback
  | short hu hletter =>
    cases hd with
    | plain hquote hback => exact absurd (List.cons.inj h).1.symm hback
    | short _ hother =>
      simp only [List.cons_append, List.nil_append, List.cons.injEq, true_and] at h
      obtain ⟨rfl, rfl⟩ := h
      exact ⟨hletter.symm.trans hother, rfl⟩
    | unit => exact absurd (List.cons.inj (List.cons.inj h).2).1 hu
  | unit hlt =>
    cases hd with
    | plain hquote hback => exact absurd (List.cons.inj h).1.symm hback
    | short hu => exact absurd (List.cons.inj (List.cons.inj h).2).1.symm hu
    | unit hlt' =>
      simp only [unitEscape, List.cons_append, List.cons.injEq, true_and] at h
      have hlength : (Text.hexDigits 4 c.toNat).length = (Text.hexDigits 4 d.toNat).length := by
        simp [Text.hexDigits]
      obtain ⟨hdigits, hrest⟩ := List.append_inj h hlength
      have hnat : c.toNat = d.toNat := by
        rw [← hexValue_hexDigits hlt, ← hexValue_hexDigits hlt', hdigits]
      exact ⟨Char.toNat_inj.mp hnat, hrest⟩

theorem writeRawChar_head_ne_quote (c : Char) (s t : Text) : writeRawChar c ++ s ≠ '"' :: t := by
  have hc := rawCode c
  generalize writeRawChar c = code at hc
  cases hc <;> simp_all [unitEscape]

/-! ### Codes of strings -/

/-- The end of a string is where its quote stands, whatever follows. -/
theorem writeRawString_append_inj {a b s t : Text}
    (h : writeRawString a ++ s = writeRawString b ++ t) : a = b ∧ s = t := by
  have hbody : a.flatMap writeRawChar ++ '"' :: s = b.flatMap writeRawChar ++ '"' :: t := by
    simpa [writeRawString] using h
  clear h
  induction a generalizing b with
  | nil =>
    cases b with
    | nil => simpa using hbody
    | cons d b =>
      rw [List.flatMap_cons, List.append_assoc] at hbody
      exact absurd hbody.symm (writeRawChar_head_ne_quote d _ _)
  | cons c a ih =>
    cases b with
    | nil =>
      rw [List.flatMap_cons, List.append_assoc] at hbody
      exact absurd hbody (writeRawChar_head_ne_quote c _ _)
    | cons d b =>
      rw [List.flatMap_cons, List.flatMap_cons, List.append_assoc, List.append_assoc] at hbody
      obtain ⟨rfl, hrest⟩ := writeRawChar_append_inj hbody
      obtain ⟨rfl, rfl⟩ := ih hrest
      exact ⟨rfl, rfl⟩

end Json

/-! ### Keys -/

/-- Written strings with separators between them, up to the bracket that ends them. -/
theorem joinRest_writeRawString_inj {xs ys : List Text}
    (h : Text.joinRest ", ".toList (xs.map Json.writeRawString) ++ [']'] =
      Text.joinRest ", ".toList (ys.map Json.writeRawString) ++ [']']) : xs = ys := by
  induction xs generalizing ys with
  | nil =>
    cases ys with
    | nil => rfl
    | cons y ys => simp [Text.joinRest] at h
  | cons x xs ih =>
    cases ys with
    | nil => simp [Text.joinRest] at h
    | cons y ys =>
      simp only [List.map_cons, Text.joinRest, List.append_assoc,
        List.append_cancel_left_eq] at h
      rw [Text.join_cons, Text.join_cons, List.append_assoc, List.append_assoc] at h
      obtain ⟨rfl, hrest⟩ := Json.writeRawString_append_inj h
      rw [ih hrest]

/-- **A key determines its kind and its parts.** -/
theorem cacheKey_inj {kind kind' : Text} {parts parts' : List Text}
    (h : cacheKey kind parts = cacheKey kind' parts') : kind = kind' ∧ parts = parts' := by
  simp only [cacheKey, List.map_cons, Text.join_cons, List.cons_append, List.cons.injEq,
    true_and, List.append_assoc] at h
  obtain ⟨rfl, hrest⟩ := Json.writeRawString_append_inj h
  exact ⟨rfl, joinRest_writeRawString_inj hrest⟩

theorem ResultKind.word_inj {kind kind' : ResultKind} (h : kind.word = kind'.word) :
    kind = kind' := by
  revert h
  cases kind <;> cases kind' <;> decide

theorem SearchMode.kind_inj {mode mode' : SearchMode} (h : mode.kind = mode'.kind) :
    mode = mode' := by
  revert h
  cases mode <;> cases mode' <;> decide

end TerraformTrace
