import TerraformTrace.Proofs.JsonGrammar
import TerraformTrace.Proofs.RoundTrip

/-!
# TerraformTrace.Proofs.JsonNumber

Numbers of JSON, read back. **A number is read up to a delimiter** (`readScalar_number`): white
space, a comma or a closing bracket. This matters for numbers alone, which go on as long as they
can. An integer that is not too long is written as a number (`spellsNumber_ofInt`), and so is a
floating-point number that is read back at all (`spells_float`).
-/

namespace TerraformTrace.Json

open Text Hcl

variable {power : Option Int} {c : Char} {value : Json}

/-! ### Numbers -/

/-- What may follow a value: white space, a comma or a closing bracket. -/
def isDelimiter (c : Char) : Bool := isSpace c || c = ',' || c = ']' || c = '}'

/-- Nothing, or a delimiter. -/
def IsDelimited (rest : Text) : Prop := ∀ c ∈ rest.head?, isDelimiter c = true

theorem digitRun_append {digits rest : Text} (h : ∀ c ∈ digits, c.isDigit = true)
    (hrest : ∀ c ∈ rest.head?, c.isDigit = false) : digitRun (digits ++ rest) = (digits, rest) := by
  rw [digitRun, List.span_eq_takeWhile_dropWhile, List.takeWhile_append_of_pos h,
    List.dropWhile_append_of_pos h]
  cases rest with
  | nil => simp
  | cons c rest => simp [hrest c rfl]

theorem fraction_append {point decimals rest : Text} (h : SpellsFraction point decimals)
    (hrest : ∀ c ∈ rest.head?, c ≠ '.' ∧ c.isDigit = false) :
    fraction (point ++ rest) = (decimals, rest) := by
  cases h with
  | none =>
    rw [List.nil_append]
    unfold fraction
    split
    next after => exact absurd rfl (hrest '.' rfl).1
    next => rfl
  | some hdigits =>
    have hrun := digitRun_append hdigits.isDigit fun c hc => (hrest c hc).2
    rw [List.cons_append, fraction, hrun]
    split
    next heq => exact absurd (Prod.mk.inj heq).1 hdigits.ne_nil
    next heq =>
      obtain ⟨rfl, rfl⟩ := Prod.mk.inj heq
      rfl

theorem exponent_append {mark rest : Text} (h : SpellsExponent mark power)
    (hrest : ∀ c ∈ rest.head?, c ≠ 'e' ∧ c ≠ 'E' ∧ c.isDigit = false) :
    exponent (mark ++ rest) = (power, rest) := by
  have hrun {c : Char} {more : Text} (hdigits : IsDigits (c :: more)) :
      digitRun (c :: (more ++ rest)) = (c :: more, rest) :=
    digitRun_append hdigits.isDigit fun c hc => (hrest c hc).2.2
  have hmark {e : Char} (he : e = 'e' ∨ e = 'E') : (e = 'e' || e = 'E') = true := by simpa using he
  cases h with
  | none =>
    cases rest with
    | nil => rfl
    | cons c rest =>
      obtain ⟨hlower, hupper, -⟩ := hrest c rfl
      rw [List.nil_append]
      simp [exponent, hlower, hupper]
  | @unsigned e digits he hdigits =>
    obtain ⟨c, more, rfl⟩ := List.exists_cons_of_ne_nil hdigits.ne_nil
    have hc := hdigits.isDigit c List.mem_cons_self
    have hminus : c ≠ '-' := by
      rintro rfl
      cases hc
    have hplus : c ≠ '+' := by
      rintro rfl
      cases hc
    simp [exponent, hmark he, hminus, hplus, hrun hdigits]
  | @plus e digits he hdigits =>
    obtain ⟨c, more, rfl⟩ := List.exists_cons_of_ne_nil hdigits.ne_nil
    simp [exponent, hmark he, hrun hdigits]
  | @minus e digits he hdigits =>
    obtain ⟨c, more, rfl⟩ := List.exists_cons_of_ne_nil hdigits.ne_nil
    simp [exponent, hmark he, hrun hdigits]

theorem isDelimiter_cases (h : isDelimiter c = true) :
    c ≠ '.' ∧ c ≠ 'e' ∧ c ≠ 'E' ∧ c.isDigit = false := by
  simp only [isDelimiter, isSpace, Bool.or_eq_true, decide_eq_true_eq] at h
  rcases h with ((((((rfl | rfl) | rfl) | rfl) | rfl) | rfl) | rfl) <;> decide

theorem SpellsExponent.head? {mark rest : Text} (h : SpellsExponent mark power)
    (hrest : IsDelimited rest) : ∀ c ∈ (mark ++ rest).head?, c ≠ '.' ∧ c.isDigit = false := by
  have hmark {e : Char} (he : e = 'e' ∨ e = 'E') {tail : Text} :
      ∀ c ∈ (e :: tail).head?, c ≠ '.' ∧ c.isDigit = false := fun c hc => by
    obtain rfl := Option.some.inj hc
    rcases he with rfl | rfl <;> decide
  cases h with
  | none =>
    intro c hc
    obtain ⟨hpoint, -, -, hdigit⟩ := isDelimiter_cases (hrest c hc)
    exact ⟨hpoint, hdigit⟩
  | unsigned he => exact hmark he
  | plus he => exact hmark he
  | minus he => exact hmark he

theorem SpellsFraction.head? {point decimals rest : Text} (h : SpellsFraction point decimals)
    (hrest : ∀ c ∈ rest.head?, c.isDigit = false) :
    ∀ c ∈ (point ++ rest).head?, c.isDigit = false := by
  cases h with
  | none => exact hrest
  | some =>
    intro c hc
    obtain rfl := Option.some.inj hc
    rfl

/-- A number is read up to a delimiter. -/
theorem readNumber_append {negative : Bool} {whole point decimals mark : Text}
    (hwhole : IsDigits whole) (hzero : whole.head? = some '0' → whole = ['0'])
    (hpoint : SpellsFraction point decimals) (hmark : SpellsExponent mark power)
    (hvalue : numberValue negative whole decimals power = .ok value) (place : Text) {rest : Text}
    (hrest : IsDelimited rest) :
    readNumber negative place (whole ++ (point ++ (mark ++ rest))) = .ok (value, rest) := by
  have hexponent := exponent_append hmark fun c hc => (isDelimiter_cases (hrest c hc)).2
  have hfraction := fraction_append hpoint (hmark.head? hrest)
  have hrun := digitRun_append hwhole.isDigit
    (hpoint.head? fun c hc => (hmark.head? hrest c hc).2)
  have hresult : (if (decimals.isEmpty && power.isNone) = true then do
        let value ← integer negative whole
        return (value, rest)
      else .ok (.float (Binary64.ofDecimal negative (digitsValue (whole ++ decimals))
        (power.getD 0 - decimals.length)), rest) : Except Fault (Json × Text)) =
      .ok (value, rest) := by
    rw [numberValue] at hvalue
    split at hvalue
    next hinteger =>
      rw [if_pos hinteger, hvalue]
      rfl
    next hfloat =>
      obtain rfl := Except.ok.inj hvalue
      rw [if_neg hfloat]
  obtain ⟨c, more, rfl⟩ := List.exists_cons_of_ne_nil hwhole.ne_nil
  rw [← hresult]
  by_cases hc : c = '0'
  · subst hc
    obtain ⟨-, rfl⟩ := List.cons.inj (hzero rfl)
    simp only [readNumber, List.cons_append, List.nil_append, hfraction, hexponent]
    rfl
  · rw [List.cons_append] at hrun ⊢
    simp [readNumber, hc, hrun, hfraction, hexponent]

theorem find?_words_of_isDigit (negative : Bool) (hc : c.isDigit = true) (more : Text) :
    words.find? (fun word => word.1.isPrefixOf (signText negative ++ c :: more)) = none := by
  have hne : ∀ {d : Char}, d.isDigit = false → d ≠ c := fun hd heq => by
    rw [heq, hc] at hd
    cases hd
  refine List.find?_eq_none.mpr fun word hword => ?_
  simp only [words, List.mem_cons, List.not_mem_nil, or_false] at hword
  rcases hword with rfl | rfl | rfl | rfl | rfl | rfl <;> cases negative <;>
    simp [signText, hne]

theorem readScalar_number {text : Text} (h : SpellsNumber text value) {rest : Text}
    (hrest : IsDelimited rest) : readScalar (text ++ rest) = .ok (value, rest) := by
  obtain ⟨hwhole, hzero, hpoint, hmark, hvalue⟩ := h
  rename_i negative whole point decimals mark power
  have hnumber := readNumber_append hwhole hzero hpoint hmark hvalue
  obtain ⟨c, more, rfl⟩ := List.exists_cons_of_ne_nil hwhole.ne_nil
  have hc := hwhole.isDigit c List.mem_cons_self
  have hword := find?_words_of_isDigit negative hc (more ++ (point ++ (mark ++ rest)))
  simp only [List.append_assoc, List.cons_append] at hnumber ⊢
  rw [readScalar.eq_def, hword]
  cases negative with
  | true => exact hnumber _ hrest
  | false =>
    have hsign : c ≠ '-' := by
      rintro rfl
      cases hc
    simp only [signText, Bool.false_eq_true, if_false, List.nil_append]
    split
    next heq => exact absurd (List.cons.inj heq).1 hsign
    next => exact hnumber _ hrest

theorem SpellsNumber.ne_nil {text : Text} (h : SpellsNumber text value) : text ≠ [] := by
  obtain ⟨hwhole, -, -, -, -⟩ := h
  simp [hwhole.ne_nil]

theorem ne_nil_of_mem_words {word : Text} (h : (word, value) ∈ words) : word ≠ [] := by
  rintro rfl
  simp [words] at h

theorem readScalar_word {word : Text} (h : (word, value) ∈ words) (rest : Text) :
    readScalar (word ++ rest) = .ok (value, rest) := by
  simp only [words, List.mem_cons, List.not_mem_nil, or_false, Prod.mk.injEq] at h
  rcases h with ⟨rfl, rfl⟩ | ⟨rfl, rfl⟩ | ⟨rfl, rfl⟩ | ⟨rfl, rfl⟩ | ⟨rfl, rfl⟩ | ⟨rfl, rfl⟩ <;> rfl

/-! ### Integers -/

/-- No number but zero is written with a zero at the front. -/
theorem head?_ofNat {n : Nat} (h : (ofNat n).head? = some '0') : n = 0 := by
  induction n using Nat.strongRecOn with
  | ind n ih =>
    by_cases hn : n < 10
    · rw [ofNat, Nat.toDigits_of_lt_base hn] at h
      have hall : ∀ k : Fin 10, Nat.digitChar k.val = '0' → k.val = 0 := by decide
      exact hall ⟨n, hn⟩ (Option.some.inj h)
    · -- the front of the digits is that of a tenth
      rw [ofNat, Nat.toDigits_of_base_le (by decide) (Nat.le_of_not_lt hn),
        List.head?_append_of_ne_nil _ Nat.toDigits_ne_nil] at h
      have htenth := ih (n / 10) (by omega) h
      omega

/-- An integer that is not too long. -/
theorem spellsNumber_ofInt {n : Int} (h : (ofNat n.natAbs).length ≤ maxDigits) :
    SpellsNumber (ofInt n) (.int n) := by
  have hdigits : IsDigits (ofNat n.natAbs) := ⟨ofNat_ne_nil _, fun _ => isDigit_of_mem_ofNat⟩
  have hzero : (ofNat n.natAbs).head? = some '0' → ofNat n.natAbs = ['0'] := fun hhead => by
    rw [head?_ofNat hhead]
    rfl
  have hvalue : numberValue (n < 0) (ofNat n.natAbs) [] none = .ok (.int n) := by
    have hinteger : numberValue (n < 0) (ofNat n.natAbs) [] none =
        integer (n < 0) (ofNat n.natAbs) := rfl
    rw [hinteger, integer, if_neg (Nat.not_lt.mpr h), digitsValue_ofNat]
    by_cases hn : n < 0
    · have hneg : -(n.natAbs : Int) = n := by omega
      simp only [hn, decide_true, if_true, hneg]
    · have hpos : (n.natAbs : Int) = n := by omega
      simp only [hn, decide_false, Bool.false_eq_true, if_false, hpos]
  have htext : ofInt n = signText (n < 0) ++ (ofNat n.natAbs ++ ([] ++ [])) := by
    rw [ofInt, signText, List.append_nil, List.append_nil]
    by_cases hn : n < 0 <;> simp [hn]
  rw [htext]
  exact .mk hdigits hzero .none .none hvalue

/-! ### Floating-point numbers -/

/-- The characters of written numbers. -/
def isNumeralChar (c : Char) : Bool := c.isAlphanum || c = '.' || c = '-' || c = '+'

theorem isNumeralChar_of_isDigit (h : c.isDigit = true) : isNumeralChar c = true := by
  simp [isNumeralChar, Char.isAlphanum, h]

theorem not_isBlank_of_isNumeralChar (h : isNumeralChar c = true) : isBlank c = false := by
  simp only [isNumeralChar, Bool.or_eq_true, decide_eq_true_eq] at h
  rcases h with ((halphanum | rfl) | rfl) | rfl
  · have hname := (isNameRest_and_writeRune (c := c) (by simp [halphanum])).1
    exact not_isBlank_of_isPathChar (by simp [isPathChar, hname])
  all_goals decide

theorem isNumeralChar_ofNat (n : Nat) : ∀ c ∈ ofNat n, isNumeralChar c = true := fun _ hc =>
  isNumeralChar_of_isDigit (isDigit_of_mem_ofNat hc)

theorem isNumeralChar_ofInt (n : Int) : ∀ c ∈ ofInt n, isNumeralChar c = true := fun c hc => by
  rcases eq_or_isDigit_of_mem_ofInt hc with rfl | hdigit
  · decide
  · exact isNumeralChar_of_isDigit hdigit

theorem isNumeralChar_zeros (n : Nat) : ∀ c ∈ List.replicate n '0', isNumeralChar c = true :=
  fun c hc => by
    rw [List.eq_of_mem_replicate hc]
    decide

theorem isNumeralChar_layout {digits : Text} (h : ∀ c ∈ digits, isNumeralChar c = true)
    (leading : Int) :
    ∀ c ∈ Binary64.layout numberLayout digits leading, isNumeralChar c = true := by
  have hpoint : isNumeralChar '.' = true := by decide
  have hzero : isNumeralChar '0' = true := by decide
  unfold Binary64.layout
  split
  next =>
    have hpointed : ∀ c ∈ Binary64.pointed digits, isNumeralChar c = true := by
      match digits, h with
      | [], h => exact h
      | [digit], h => exact h
      | first :: second :: rest, h =>
        obtain ⟨hfirst, hrest⟩ := List.forall_mem_cons.mp h
        exact List.forall_mem_cons.mpr ⟨hfirst, List.forall_mem_cons.mpr ⟨hpoint, hrest⟩⟩
    have hsign : isNumeralChar (if leading < 0 then '-' else '+') = true := by
      split <;> decide
    refine List.forall_mem_append.mpr ⟨hpointed, List.forall_mem_cons.mpr ⟨by decide,
      List.forall_mem_cons.mpr ⟨hsign, List.forall_mem_append.mpr ⟨isNumeralChar_zeros _,
        isNumeralChar_ofNat _⟩⟩⟩⟩
  next =>
    split
    next =>
      exact List.forall_mem_cons.mpr ⟨hzero, List.forall_mem_cons.mpr ⟨hpoint,
        List.forall_mem_append.mpr ⟨isNumeralChar_zeros _, h⟩⟩⟩
    next =>
      have hpadded : ∀ c ∈ digits ++ List.replicate (leading.toNat + 1 - digits.length) '0',
          isNumeralChar c = true := List.forall_mem_append.mpr ⟨h, isNumeralChar_zeros _⟩
      refine List.forall_mem_append.mpr ⟨fun c hc => hpadded c (List.mem_of_mem_take hc),
        List.forall_mem_cons.mpr ⟨hpoint, ?_⟩⟩
      split
      next => exact List.forall_mem_singleton.mpr hzero
      next => exact fun c hc => hpadded c (List.mem_of_mem_drop hc)

/-- A floating-point number is written without blanks. -/
theorem isNumeralChar_write (x : Binary64) :
    ∀ c ∈ x.write numberLayout, isNumeralChar c = true := by
  have hsign : isNumeralChar '-' = true := by decide
  cases x with
  | nan => exact forall_of_all (by decide)
  | infinity negative => cases negative <;> exact forall_of_all (by decide)
  | finite negative significand exponent =>
    have hbody : ∀ c ∈ (if significand = 0 then "0.0".toList else
        Binary64.layout numberLayout
          (Binary64.significantDigits (Binary64.shortest significand exponent).digits)
          ((Binary64.shortest significand exponent).exponent +
            (ofNat (Binary64.shortest significand exponent).digits).length - 1)),
        isNumeralChar c = true := by
      split
      next => exact forall_of_all (by decide)
      next =>
        refine isNumeralChar_layout (fun c hc => ?_) _
        rw [Binary64.significantDigits] at hc
        have hdigit := (List.dropWhile_suffix _).subset (List.mem_reverse.mp hc)
        exact isNumeralChar_ofNat _ c (List.mem_reverse.mp hdigit)
    rw [Binary64.write]
    dsimp only
    split
    next => exact List.forall_mem_cons.mpr ⟨hsign, hbody⟩
    next => exact hbody

theorem isSpace_of_isNumeralChar (h : isNumeralChar c = true) : isSpace c = false := by
  refine Bool.eq_false_iff.mpr fun hspace => ?_
  simp only [isSpace, Bool.or_eq_true, decide_eq_true_eq] at hspace
  rcases hspace with ((rfl | rfl) | rfl) | rfl <;> exact absurd h (by decide)

/-- A number that is read back is written as a number, or as a word. -/
theorem spells_float {x : Binary64} (h : read (write (.float x)) = .ok (.float x)) :
    SpellsNumber (x.write numberLayout) (.float x) ∨ (x.write numberLayout, .float x) ∈ words := by
  obtain ⟨before, literal, after, hbefore, hafter, htext, hspells⟩ := spells_of_read h
  rw [write, writeAt] at htext
  have hchars := isNumeralChar_write x
  rw [htext] at hchars
  have hnil {space : Text} (hspace : IsSpace space)
      (hsub : ∀ c ∈ space, isNumeralChar c = true) : space = [] :=
    List.eq_nil_iff_forall_not_mem.mpr fun c hc => by
      have hnone := isSpace_of_isNumeralChar (hsub c hc)
      rw [hspace c hc] at hnone
      cases hnone
  obtain ⟨hchars, hrest⟩ := List.forall_mem_append.mp hchars
  obtain ⟨-, hrest⟩ := List.forall_mem_append.mp hrest
  rw [htext, hnil hbefore hchars, hnil hafter hrest, List.nil_append, List.append_nil]
  cases hspells with
  | word hword => exact .inr hword
  | number hnumber => exact .inl hnumber

end TerraformTrace.Json
