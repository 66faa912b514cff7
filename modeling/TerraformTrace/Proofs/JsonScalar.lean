import Mathlib.Data.List.Chain
import Mathlib.Data.List.TakeDrop
import Mathlib.Data.List.TakeWhile
import TerraformTrace.Literal
import TerraformTrace.Proofs.Frame

/-!
# TerraformTrace.Proofs.JsonScalar

Strings and integers are read back as they were written. A string is written in ASCII,
rune by rune, and **the reader gives back the runes one by one** (`read_writeString`), as
long as no two of them are the halves of a surrogate pair: those are read as the one
character that the pair stands for.

The only rune whose reading depends on what follows is a high surrogate. What can follow
it is said by `StartsNotLow`.
-/

namespace TerraformTrace

variable {text : Text} {c : Char}

/-! ### Surrogate pairs -/

/-- Whether two runes are the halves of a surrogate pair. -/
def Rune.isPair : Rune → Rune → Bool
  | .surrogate high, .surrogate low => high.val < 0x400 && 0x400 ≤ low.val
  | _, _ => false

/-- No two neighbours are the halves of a surrogate pair. -/
def Runes.IsJoined (runes : Runes) : Prop :=
  runes.IsChain fun first second => Rune.isPair first second = false

instance (runes : Runes) : Decidable runes.IsJoined :=
  inferInstanceAs (Decidable (List.IsChain _ _))

namespace Json

open Text

variable {rest : Text}

/-! ### Units -/

theorem hexDigit?_digitChar {n : Nat} (h : n < 16) : hexDigit? (Nat.digitChar n) = some n := by
  have hall : ∀ k : Fin 16, hexDigit? (Nat.digitChar k.val) = some k.val := by decide
  exact hall ⟨n, h⟩

/-- Four hexadecimal digits are read as the unit they were written from. -/
theorem unit?_hexDigits {n : Nat} (h : n < 0x10000) (hrest : rest ≠ []) :
    unit? (hexDigits 4 n ++ rest) = some (n, rest) := by
  have hdigits : hexDigits 4 n = [Nat.digitChar (n / 4096 % 16), Nat.digitChar (n / 256 % 16),
      Nat.digitChar (n / 16 % 16), Nat.digitChar (n / 1 % 16)] := rfl
  have hvalue : ((n / 4096 % 16 * 16 + n / 256 % 16) * 16 + n / 16 % 16) * 16 + n / 1 % 16 = n := by
    omega
  have hdigit (k : Nat) : hexDigit? (Nat.digitChar (k % 16)) = some (k % 16) :=
    hexDigit?_digitChar (Nat.mod_lt _ (by decide))
  rw [hdigits]
  simp only [List.cons_append, List.nil_append, unit?, List.isEmpty_iff, if_neg hrest, hdigit,
    Option.bind_eq_bind, Option.bind_some, hvalue]
  rfl

/-- A text that does not start with the escape of a low surrogate. -/
def StartsNotLow (text : Text) : Prop :=
  (∀ rest, text ≠ '\\' :: 'u' :: rest) ∨
    ∃ unit rest, text = unitEscape unit ++ rest ∧ unit < 0x10000 ∧ isLowUnit unit = false ∧
      rest ≠ []

/-- The escape of a unit, unless it is the first half of a pair. -/
theorem unitEscape?_unit (place : Text) {unit : Nat} (h : unit < 0x10000) (hrest : rest ≠ [])
    (hlow : isHighUnit unit = true → StartsNotLow rest) :
    unitEscape? place (hexDigits 4 unit ++ rest) = .ok (runeOfUnit unit, rest) := by
  simp only [unitEscape?, unit?_hexDigits h hrest]
  split
  · rename_i low
    cases hhigh : isHighUnit unit with
    | false => rfl
    | true =>
      rcases hlow hhigh with hother | ⟨second, more, htext, hsecond, hnotLow, hmore⟩
      · exact absurd rfl (hother low)
      · simp only [unitEscape, List.cons_append, List.cons.injEq, true_and] at htext
        simp [htext, unit?_hexDigits hsecond hmore, hnotLow]
  · rfl

theorem length_of_unit? {unit : Nat} (h : unit? text = some (unit, rest)) : 4 < text.length := by
  rw [unit?.eq_def] at h
  split at h
  · rename_i a b c d more
    split at h
    · cases h
    · rename_i hmore
      have hpositive := List.length_pos_iff.mpr (mt List.isEmpty_iff.mpr hmore)
      simp only [List.length_cons]
      omega
  · cases h

/-- The escapes of a pair. -/
theorem unitEscape?_pair (place : Text) {low : Text} {high second : Nat}
    (htext : unit? text = some (high, '\\' :: 'u' :: low)) (hhigh : isHighUnit high = true)
    (hlow : unit? low = some (second, rest)) (hsecond : isLowUnit second = true) :
    unitEscape? place text =
      .ok (.char (Char.ofNat (0x10000 + (high - 0xD800) * 0x400 + (second - 0xDC00))), rest) := by
  have hlength : 4 < low.length := length_of_unit? hlow
  simp only [unitEscape?, htext, hhigh, hlength, Bool.true_and, decide_true, if_true, hlow, hsecond]

/-! ### Runes -/

/-- What a rune is written as. -/
inductive Code : Rune → Text → Prop
  | plain {c : Char} (hcode : 0x20 ≤ c.toNat) (hquote : c ≠ '"') (hescape : c ≠ '\\') :
      Code (.char c) [c]
  | short {c letter : Char} (hunit : letter ≠ 'u') (hletter : escape? letter = some c) :
      Code (.char c) ['\\', letter]
  | unit {c : Char} (hcode : c.toNat < 0x10000) : Code (.char c) (unitEscape c.toNat)
  | pair {c : Char} (hcode : 0x10000 ≤ c.toNat) :
      Code (.char c) (unitEscape (0xD800 + (c.toNat - 0x10000) / 0x400) ++
        unitEscape (0xDC00 + (c.toNat - 0x10000) % 0x400))
  | surrogate {offset : Fin 0x800} :
      Code (.surrogate offset) (unitEscape (0xD800 + offset.val))

theorem code_of_shortEscape? {escape : Text} (h : shortEscape? c = some escape) :
    Code (.char c) escape := by
  unfold shortEscape? at h
  split_ifs at h <;> cases h <;> subst_vars <;> exact .short (by decide) (by decide)

theorem code_writeRune (rune : Rune) : Code rune (writeRune rune) := by
  cases rune with
  | surrogate offset => exact .surrogate
  | char c =>
    cases hshort : shortEscape? c with
    | some escape =>
      have hwrite : writeRune (.char c) = escape := by simp [writeRune, hshort]
      rw [hwrite]
      exact code_of_shortEscape? hshort
    | none =>
      have hquote : c ≠ '"' := by
        rintro rfl
        simp [shortEscape?] at hshort
      have hescape : c ≠ '\\' := by
        rintro rfl
        simp [shortEscape?] at hshort
      simp only [writeRune, hshort, Bool.and_eq_true, decide_eq_true_eq]
      split
      · rename_i hcode
        exact .plain hcode.1 hquote hescape
      · split
        · rename_i hcode
          exact .unit hcode
        · rename_i hcode
          exact .pair (Nat.le_of_not_lt hcode)

/-! ### Characters -/

theorem toNat_lt (c : Char) : c.toNat < 0x110000 := by
  have hvalid := c.valid
  simp only [UInt32.isValidChar, Nat.isValidChar] at hvalid
  show c.val.toNat < 0x110000
  omega

/-- A character is no half of a pair. -/
theorem toNat_not_surrogate (c : Char) : c.toNat < 0xD800 ∨ 0xE000 ≤ c.toNat := by
  have hvalid := c.valid
  simp only [UInt32.isValidChar, Nat.isValidChar] at hvalid
  show c.val.toNat < 0xD800 ∨ 0xE000 ≤ c.val.toNat
  omega

theorem runeOfUnit_toNat (c : Char) : runeOfUnit c.toNat = .char c := by
  have hne := toNat_not_surrogate c
  rw [runeOfUnit, dif_neg (by omega), Char.ofNat_toNat]

theorem runeOfUnit_surrogate (offset : Fin 0x800) :
    runeOfUnit (0xD800 + offset.val) = .surrogate offset := by
  have hlt := offset.isLt
  have hoffset : 0xD800 + offset.val - 0xD800 = offset.val := by omega
  rw [runeOfUnit, dif_pos (by omega)]
  simp [hoffset]

theorem rune_unitEscape (opening : Text) (unit : Nat) (rest : Text) :
    rune opening (unitEscape unit ++ rest) =
      unitEscape? ('u' :: (hexDigits 4 unit ++ rest)) (hexDigits 4 unit ++ rest) := by
  simp [unitEscape, rune]

namespace Code

variable {rune : Rune} {code : Text}

theorem head? (h : Code rune code) (rest : Text) : (code ++ rest).head? ≠ some '"' := by
  cases h <;> simp_all [unitEscape]

theorem ne_nil (h : Code rune code) : code ≠ [] := by
  cases h <;> simp [unitEscape]

/-- A rune is read from its code. After a high surrogate no low one may follow. -/
theorem rune_append (h : Code rune code) (opening : Text) (hrest : rest ≠ [])
    (hlow : ∀ offset : Fin 0x800, rune = .surrogate offset → offset.val < 0x400 →
      StartsNotLow rest) : Json.rune opening (code ++ rest) = .ok (rune, rest) := by
  cases h with
  | @plain c hcode hquote hescape =>
    have hprintable : ¬c.toNat < 0x20 := Nat.not_lt.mpr hcode
    simp [Json.rune, hescape, hprintable]
  | @short c letter _ hletter => simp [Json.rune, hletter]
  | @unit c hcode =>
    have hne := toNat_not_surrogate c
    have hhigh : isHighUnit c.toNat = false := by
      simp only [isHighUnit, Bool.and_eq_false_iff, decide_eq_false_iff_not]
      omega
    rw [rune_unitEscape, unitEscape?_unit _ hcode hrest (by simp [hhigh]), runeOfUnit_toNat]
  | @pair c hcode =>
    have hlt := toNat_lt c
    have hhigh : isHighUnit (0xD800 + (c.toNat - 0x10000) / 0x400) = true := by
      simp only [isHighUnit, Bool.and_eq_true, decide_eq_true_eq]
      omega
    have hsecond : isLowUnit (0xDC00 + (c.toNat - 0x10000) % 0x400) = true := by
      simp only [isLowUnit, Bool.and_eq_true, decide_eq_true_eq]
      omega
    have hvalue : 0x10000 + (0xD800 + (c.toNat - 0x10000) / 0x400 - 0xD800) * 0x400 +
        (0xDC00 + (c.toNat - 0x10000) % 0x400 - 0xDC00) = c.toNat := by omega
    have hunit : unit? (hexDigits 4 (0xD800 + (c.toNat - 0x10000) / 0x400) ++
        '\\' :: 'u' :: (hexDigits 4 (0xDC00 + (c.toNat - 0x10000) % 0x400) ++ rest)) =
          some (0xD800 + (c.toNat - 0x10000) / 0x400, _) :=
      unit?_hexDigits (by omega) (by simp)
    rw [List.append_assoc, rune_unitEscape, unitEscape, List.cons_append, List.cons_append,
      unitEscape?_pair _ hunit hhigh (unit?_hexDigits (by omega) hrest) hsecond, hvalue,
      Char.ofNat_toNat]
  | @surrogate offset =>
    have hlt := offset.isLt
    have hhigh (h : isHighUnit (0xD800 + offset.val) = true) : offset.val < 0x400 := by
      simp only [isHighUnit, Bool.and_eq_true, decide_eq_true_eq] at h
      omega
    rw [rune_unitEscape, unitEscape?_unit _ (by omega) hrest (fun h => hlow offset rfl (hhigh h)),
      runeOfUnit_surrogate]

/-- Only a low surrogate starts with the escape of one. -/
theorem startsNotLow (h : Code rune code)
    (hlow : ∀ offset : Fin 0x800, rune = .surrogate offset → offset.val < 0x400)
    (hrest : rest ≠ []) : StartsNotLow (code ++ rest) := by
  cases h with
  | plain _ _ hescape => exact .inl (by simp [hescape])
  | short hunit _ => exact .inl (by simp [hunit])
  | @unit c hcode =>
    have hne := toNat_not_surrogate c
    refine .inr ⟨c.toNat, rest, rfl, hcode, ?_, hrest⟩
    simp only [isLowUnit, Bool.and_eq_false_iff, decide_eq_false_iff_not]
    omega
  | @pair c hcode =>
    have hlt := toNat_lt c
    refine .inr ⟨0xD800 + (c.toNat - 0x10000) / 0x400, _, List.append_assoc .., by omega, ?_,
      by simp [hrest]⟩
    simp only [isLowUnit, Bool.and_eq_false_iff, decide_eq_false_iff_not]
    omega
  | @surrogate offset =>
    have hlt := hlow offset rfl
    refine .inr ⟨0xD800 + offset.val, rest, rfl, by omega, ?_, hrest⟩
    simp only [isLowUnit, Bool.and_eq_false_iff, decide_eq_false_iff_not]
    omega

end Code

/-! ### Strings -/

theorem runes_succ (h : text.head? ≠ some '"') (opening : Text) (rounds : Nat) :
    runes opening (rounds + 1) text = do
      let (first, rest) ← rune opening text
      let (more, rest) ← runes opening rounds rest
      return (first :: more, rest) := by
  cases text with
  | nil => rfl
  | cons c text =>
    have hc : c ≠ '"' := by simpa using h
    rw [runes]
    simpa using hc

/-- The runes of a string are read one by one up to the closing quote. -/
theorem runes_flatMap (string : Runes) (h : string.IsJoined) (opening : Text) {rounds : Nat}
    (hrounds : string.length ≤ rounds) (rest : Text) :
    runes opening rounds (string.flatMap writeRune ++ '"' :: rest) = .ok (string, rest) := by
  induction string generalizing rounds with
  | nil => cases rounds <;> rfl
  | cons first string ih =>
    obtain ⟨rounds, rfl⟩ := Nat.exists_eq_add_of_le' hrounds
    rw [List.length_cons] at hrounds
    have hcode := code_writeRune first
    have hmore : string.flatMap writeRune ++ '"' :: rest ≠ [] := by simp
    have htext : (first :: string).flatMap writeRune ++ '"' :: rest =
        writeRune first ++ (string.flatMap writeRune ++ '"' :: rest) := by simp
    have hjoined : Runes.IsJoined string := h.of_cons
    -- after a high surrogate the string goes on with no low one
    have hlow : ∀ offset : Fin 0x800, first = .surrogate offset → offset.val < 0x400 →
        StartsNotLow (string.flatMap writeRune ++ '"' :: rest) := by
      intro offset hfirst hhigh
      cases string with
      | nil => exact .inl (by simp)
      | cons second string =>
        rw [List.flatMap_cons, List.append_assoc]
        refine (code_writeRune second).startsNotLow (fun low hsecond => ?_) (by simp)
        have hpair := (List.isChain_cons_cons.mp h).1
        simpa [hfirst, hsecond, Rune.isPair, hhigh] using hpair
    rw [htext, List.length_cons, ← Nat.add_assoc, runes_succ (hcode.head? _),
      hcode.rune_append opening hmore hlow]
    simp only [bind, Except.bind]
    rw [ih hjoined (Nat.le_add_left ..)]
    rfl

theorem length_le_flatMap_writeRune (string : Runes) :
    string.length ≤ (string.flatMap writeRune).length := by
  induction string with
  | nil => exact Nat.le_refl _
  | cons first string ih =>
    have hpositive := List.length_pos_iff.mpr (code_writeRune first).ne_nil
    simp only [List.flatMap_cons, List.length_append, List.length_cons]
    omega

/-- A string is read back. -/
theorem read_writeString {string : Runes} (h : string.IsJoined) :
    read (writeString string) = .ok (.string string) := by
  have hlength : string.length ≤ (string.flatMap writeRune ++ ['"']).length := by
    have hle := length_le_flatMap_writeRune string
    rw [List.length_append]
    omega
  have hruns := runes_flatMap string h (writeString string) hlength []
  have hstart : skipSpace (writeString string) = writeString string := rfl
  rw [read, if_neg (by simp [writeString]), hstart]
  have hvalue : readValue (2 * (writeString string).length + 1) (writeString string) =
      .ok (.string string, []) := by
    show (do
      let (value, rest) ← readString (string.flatMap writeRune ++ ['"'])
      return (Json.string value, rest) : Except Fault (Json × Text)) = _
    rw [readString]
    exact congrArg (· >>= fun result => pure (Json.string result.1, result.2)) hruns
  rw [hvalue]
  rfl

/-! ### Joined strings -/

variable {offset : Fin 0x800}

theorem eq_of_runeOfUnit {unit : Nat} (h : runeOfUnit unit = .surrogate offset) :
    unit = 0xD800 + offset.val := by
  obtain ⟨offset, hoffset⟩ := offset
  rw [runeOfUnit] at h
  split at h
  · rename_i hunit
    simp only [Rune.surrogate.injEq, Fin.mk.injEq] at h
    simp only
    omega
  · exact Rune.noConfusion h

/-- A surrogate is read from a unit of its own. -/
theorem unit?_of_surrogate {place : Text}
    (h : unitEscape? place text = .ok (.surrogate offset, rest)) :
    unit? text = some (0xD800 + offset.val, rest) := by
  have hunit {unit : Nat} {more : Text} (htext : unit? text = some (unit, more))
      (halone : Except.ok (runeOfUnit unit, more) =
        (.ok (.surrogate offset, rest) : Except Fault _)) :
      unit? text = some (0xD800 + offset.val, rest) := by
    obtain ⟨hrune, hrest⟩ := Prod.mk.inj (Except.ok.inj halone)
    rw [htext, eq_of_runeOfUnit hrune, hrest]
  simp only [unitEscape?] at h
  split at h
  · simp at h
  · rename_i htext
    split at h
    · split at h
      · split at h
        · simp at h
        · split at h
          · simp at h
          · exact hunit htext h
      · exact hunit htext h
    · exact hunit htext h

theorem rune_surrogate {opening : Text} (h : rune opening text = .ok (.surrogate offset, rest)) :
    ∃ digits, text = '\\' :: 'u' :: digits ∧ unit? digits = some (0xD800 + offset.val, rest) ∧
      unitEscape? ('u' :: digits) digits = .ok (.surrogate offset, rest) := by
  rw [rune.eq_def] at h
  split at h
  · exact ⟨_, rfl, unit?_of_surrogate h, h⟩
  · cases h
  · split at h <;> cases h
  · split at h <;> cases h
  · cases h

/-- Two runes that are read one after the other are no halves of a pair. -/
theorem not_isPair_of_rune {opening more : Text} {first second : Rune}
    (hfirst : rune opening text = .ok (first, more))
    (hsecond : rune opening more = .ok (second, rest)) : Rune.isPair first second = false := by
  cases first with
  | char c => rfl
  | surrogate high =>
    cases second with
    | char c => rfl
    | surrogate low =>
      refine Bool.eq_false_iff.mpr fun hpair => ?_
      simp only [Rune.isPair, Bool.and_eq_true, decide_eq_true_eq] at hpair
      have hhigh : isHighUnit (0xD800 + high.val) = true := by
        simp only [isHighUnit, Bool.and_eq_true, decide_eq_true_eq]
        omega
      have hlow : isLowUnit (0xD800 + low.val) = true := by
        have hlt := low.isLt
        simp only [isLowUnit, Bool.and_eq_true, decide_eq_true_eq]
        omega
      obtain ⟨digits, rfl, hunit, hescape⟩ := rune_surrogate hfirst
      obtain ⟨digits', rfl, hunit', -⟩ := rune_surrogate hsecond
      rw [unitEscape?_pair _ hunit hhigh hunit' hlow] at hescape
      simp at hescape

/-- The runes that are read are joined, and the first is the one the text starts with. -/
theorem isJoined_of_runes {opening : Text} {rounds : Nat} {string : Runes}
    (h : runes opening rounds text = .ok (string, rest)) :
    string.IsJoined ∧ ∀ first ∈ string.head?, ∃ more, rune opening text = .ok (first, more) := by
  fun_induction runes opening rounds text generalizing string rest with
  | case1 rounds more =>
    obtain ⟨rfl, -⟩ := Prod.mk.inj (Except.ok.inj h)
    exact ⟨.nil, nofun⟩
  | case2 => cases h
  | case3 text rounds hquote ih =>
    obtain ⟨⟨first, more⟩, hfirst, h⟩ := Direct.bind_ok h
    obtain ⟨⟨string', after⟩, hstring, h⟩ := Direct.bind_ok h
    obtain ⟨rfl, -⟩ := Prod.mk.inj (Except.ok.inj h)
    obtain ⟨hjoined, hhead⟩ := ih more hstring
    refine ⟨List.isChain_cons.mpr ⟨fun second hsecond => ?_, hjoined⟩, fun other hother => ?_⟩
    · obtain ⟨_, hnext⟩ := hhead second hsecond
      exact not_isPair_of_rune hfirst hnext
    · obtain rfl : first = other := by simpa using hother
      exact ⟨more, hfirst⟩

end Json

/-! ### Integers -/

namespace Text

theorem isDigit_of_mem_ofNat {n : Nat} (h : c ∈ ofNat n) : c.isDigit = true :=
  Nat.isDigit_of_mem_toDigits (by decide) (by decide) h

theorem eq_or_isDigit_of_mem_ofInt {n : Int} (h : c ∈ ofInt n) : c = '-' ∨ c.isDigit = true := by
  unfold ofInt at h
  split at h
  · exact (List.mem_cons.mp h).imp_right isDigit_of_mem_ofNat
  · exact .inr (isDigit_of_mem_ofNat h)

theorem ofNat_ne_nil (n : Nat) : ofNat n ≠ [] := Nat.toDigits_ne_nil

theorem isDecimal_of_isDigit (h : c.isDigit = true) : isDecimal c = true := by
  simp [isDecimal, digit?, h]

/-- The digits of a number stand for it. -/
theorem digitsValue_ofNat (n : Nat) : digitsValue (ofNat n) = n := by
  have hdigits : ∀ (text : Text) (value : Nat), (∀ c ∈ text, c.isDigit = true) →
      (text.filterMap digit?).foldl (fun value digit => 10 * value + digit) value =
        Nat.ofDigitChars 10 text value := by
    intro text
    induction text with
    | nil => intro value _; rfl
    | cons c text ih =>
      intro value h
      obtain ⟨hc, htext⟩ := List.forall_mem_cons.mp h
      have hdigit : digit? c = some (c.toNat - 0x30) := by simp [digit?, hc]
      rw [List.filterMap_cons_some hdigit, List.foldl_cons, ih _ htext]
      rfl
  rw [digitsValue, hdigits _ 0 fun c hc => isDigit_of_mem_ofNat hc]
  exact Nat.ofDigitChars_ten_toDigits

end Text

namespace Literal

open Text

/-- Digits alone are a number without fraction and exponent. -/
theorem numeral?_digits {digits : Text} {negative : Bool}
    (hsign : sign false text = (negative, digits)) (hne : digits ≠ [])
    (h : ∀ c ∈ digits, isDecimal c = true) :
    numeral? text = some { negative, whole := digits, decimals := [], power := none } := by
  have hspan : digits.span isDecimal = (digits, []) := by
    rw [List.span_eq_takeWhile_dropWhile, List.takeWhile_eq_self_iff.mpr h,
      List.dropWhile_eq_nil_iff.mpr h]
  unfold numeral?
  rw [hsign]
  simp only [hspan]
  cases digits with
  | nil => exact absurd rfl hne
  | cons c digits => rfl

theorem sign_of_isDigit (h : ∀ c ∈ text, c.isDigit = true) : sign false text = (false, text) := by
  unfold sign
  split
  · simp at h
  · simp at h
  · rfl

/-- The numeral of an integer. -/
theorem numeral?_ofInt (n : Int) :
    numeral? (ofInt n) =
      some { negative := n < 0, whole := ofNat n.natAbs, decimals := [], power := none } := by
  have hdecimal : ∀ c ∈ ofNat n.natAbs, isDecimal c = true := fun c hc =>
    isDecimal_of_isDigit (isDigit_of_mem_ofNat hc)
  unfold ofInt
  split
  · rename_i hnegative
    have hsign : sign false ('-' :: ofNat n.natAbs) = (true, ofNat n.natAbs) := rfl
    rw [numeral?_digits hsign (ofNat_ne_nil _) hdecimal]
    simp [hnegative]
  · rename_i hpositive
    rw [numeral?_digits (sign_of_isDigit fun c hc => isDigit_of_mem_ofNat hc) (ofNat_ne_nil _)
      hdecimal]
    simp [hpositive]

/-- An integer that is not too long is read back. -/
theorem scalar_ofInt {n : Int} (h : (ofNat n.natAbs).length ≤ Json.maxDigits) :
    scalar (ofInt n) = .ok (.int n) := by
  have hnumeral := numeral?_ofInt n
  have hvalue : Numeral.value
      { negative := n < 0, whole := ofNat n.natAbs, decimals := [], power := none } =
      .ok (.int n) := by
    have hlength : ¬Json.maxDigits < (ofNat n.natAbs).length := by omega
    simp only [Numeral.value, Json.integer, hlength, digitsValue_ofNat, List.isEmpty_nil,
      Option.isNone_none, Bool.and_self, if_true, if_false, decide_eq_true_eq]
    split
    · rename_i hnegative
      simp only [Except.ok.injEq, Json.int.injEq]
      omega
    · rename_i hpositive
      simp only [Except.ok.injEq, Json.int.injEq]
      omega
  -- no other literal is a number
  have hquote : isBetween '"' '"' (ofInt n) = false := by
    refine Bool.eq_false_iff.mpr fun hbetween => ?_
    simp only [isBetween, Bool.and_eq_true, decide_eq_true_eq] at hbetween
    rcases eq_or_isDigit_of_mem_ofInt (List.mem_of_head? hbetween.1) with h | h <;> cases h
  have hne {word : Text} (hword : numeral? word = none) : ofInt n ≠ word := by
    rintro rfl
    simp [hnumeral] at hword
  rw [scalar, hquote]
  simp only [Bool.false_and, Bool.false_eq_true, if_false]
  rw [if_neg (hne (by decide)), if_neg (hne (by decide)), if_neg (hne (by decide)), hnumeral]
  exact hvalue

end Literal

end TerraformTrace
