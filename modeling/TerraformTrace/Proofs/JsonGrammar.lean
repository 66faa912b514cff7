import TerraformTrace.Proofs.JsonScalar

/-!
# TerraformTrace.Proofs.JsonGrammar

The grammar of JSON, as a relation between texts and values: `Spells text value`. A list or an
object is the texts of its items or members with commas between them, and each of them keeps the
white space around its parts (`Item`, `Member`), so that **a text can be put together again from
what is read of it**.

Whatever the reader takes is spelled by the part of the text that it passes over
(`spells_of_read`). The reader is opened here once, function by function.
-/

namespace TerraformTrace.Json

open Text

variable {value : Json} {rounds : Nat}

/-! ### Strings -/

/-- The value of four hexadecimal digits. -/
def unitValue? : Text → Option Nat
  | [a, b, c, d] => do
    let a ← hexDigit? a
    let b ← hexDigit? b
    let c ← hexDigit? c
    let d ← hexDigit? d
    return ((a * 16 + b) * 16 + c) * 16 + d
  | _ => none

/-- How a code point can be written in a string. -/
inductive SpellsRune : Text → Rune → Prop
  | plain {c : Char} (hcode : 0x20 ≤ c.toNat) (hquote : c ≠ '"') (hescape : c ≠ '\\') :
      SpellsRune [c] (.char c)
  | short {c letter : Char} (hletter : escape? letter = some c) :
      SpellsRune ['\\', letter] (.char c)
  | unit {digits : Text} {unit : Nat} (hdigits : unitValue? digits = some unit) :
      SpellsRune ('\\' :: 'u' :: digits) (runeOfUnit unit)
  | pair {digits digits' : Text} {high low : Nat} (hhigh : unitValue? digits = some high)
      (hlow : unitValue? digits' = some low) :
      SpellsRune ('\\' :: 'u' :: (digits ++ '\\' :: 'u' :: digits'))
        (.char (Char.ofNat (0x10000 + (high - 0xD800) * 0x400 + (low - 0xDC00))))

/-- What stands between the quotes of a string. -/
inductive SpellsRunes : Text → Runes → Prop
  | nil : SpellsRunes [] []
  | cons {code body : Text} {first : Rune} {more : Runes} (hfirst : SpellsRune code first)
      (hmore : SpellsRunes body more) : SpellsRunes (code ++ body) (first :: more)

theorem exists_of_unit? {text rest : Text} {unit : Nat} (h : unit? text = some (unit, rest)) :
    ∃ digits, text = digits ++ rest ∧ unitValue? digits = some unit := by
  rw [unit?.eq_def] at h
  split at h
  next a b c d more =>
    split at h
    next => cases h
    next =>
      simp only [bind, Option.bind_eq_some_iff] at h
      obtain ⟨x, hx, y, hy, z, hz, w, hw, h⟩ := h
      cases h
      refine ⟨[a, b, c, d], rfl, ?_⟩
      simp [unitValue?, hx, hy, hz, hw]
  next => cases h

theorem exists_of_unitEscape? {place text rest : Text} {rune : Rune}
    (h : unitEscape? place text = .ok (rune, rest)) :
    ∃ digits, text = digits ++ rest ∧ SpellsRune ('\\' :: 'u' :: digits) rune := by
  rw [unitEscape?] at h
  split at h
  next => cases h
  next unit after hunit =>
    obtain ⟨digits, rfl, hdigits⟩ := exists_of_unit? hunit
    have halone (halone : Except.ok (runeOfUnit unit, after) =
        (.ok (rune, rest) : Except Fault _)) :
        ∃ digits', digits ++ after = digits' ++ rest ∧
          SpellsRune ('\\' :: 'u' :: digits') rune := by
      obtain ⟨rfl, rfl⟩ := Prod.mk.inj (Except.ok.inj halone)
      exact ⟨digits, rfl, .unit hdigits⟩
    split at h
    next low =>
      split at h
      next =>
        split at h
        next => cases h
        next second rest' hsecond =>
          split at h
          next =>
            cases h
            obtain ⟨digits', rfl, hdigits'⟩ := exists_of_unit? hsecond
            exact ⟨digits ++ '\\' :: 'u' :: digits', by simp, .pair hdigits hdigits'⟩
          next => exact halone h
      next => exact halone h
    next => exact halone h

theorem exists_of_rune {opening text rest : Text} {first : Rune}
    (hquote : text.head? ≠ some '"') (h : rune opening text = .ok (first, rest)) :
    ∃ code, text = code ++ rest ∧ SpellsRune code first := by
  rw [rune.eq_def] at h
  split at h
  next more =>
    obtain ⟨digits, rfl, hdigits⟩ := exists_of_unitEscape? h
    exact ⟨'\\' :: 'u' :: digits, rfl, hdigits⟩
  next => cases h
  next c more _ =>
    split at h
    next value hletter =>
      cases h
      exact ⟨['\\', c], rfl, .short hletter⟩
    next => cases h
  next c more hunit hlone hescape =>
    split at h
    next => cases h
    next hcode =>
      obtain ⟨rfl, rfl⟩ := Prod.mk.inj (Except.ok.inj h)
      refine ⟨[c], rfl, .plain (Nat.le_of_not_lt hcode) (by simpa using hquote) ?_⟩
      rintro rfl
      cases more with
      | nil => exact hlone rfl rfl
      | cons d more => exact hescape d more rfl rfl
  next => cases h

/-- A string is read up to its closing quote. -/
theorem exists_of_readString {text rest : Text} {value : Runes}
    (h : readString text = .ok (value, rest)) :
    ∃ body, text = body ++ '"' :: rest ∧ SpellsRunes body value ∧ value.IsJoined := by
  rw [readString] at h
  have hjoined := (isJoined_of_runes h).1
  generalize '"' :: text = opening at h
  generalize text.length = rounds at h
  suffices hbody : ∃ body, text = body ++ '"' :: rest ∧ SpellsRunes body value by
    obtain ⟨body, htext, hbody⟩ := hbody
    exact ⟨body, htext, hbody, hjoined⟩
  clear hjoined
  fun_induction runes opening rounds text generalizing value rest with
  | case1 rounds more =>
    cases h
    exact ⟨[], rfl, .nil⟩
  | case2 => cases h
  | case3 rounds text hquote ih =>
    obtain ⟨⟨first, more⟩, hfirst, h⟩ := Direct.bind_ok h
    obtain ⟨⟨string, after⟩, hstring, h⟩ := Direct.bind_ok h
    cases h
    have hhead : text.head? ≠ some '"' := fun hhead => by
      obtain ⟨tail, rfl⟩ := List.head?_eq_some_iff.mp hhead
      exact hquote tail rfl
    obtain ⟨code, rfl, hcode⟩ := exists_of_rune hhead hfirst
    obtain ⟨body, rfl, hbody⟩ := ih more hstring
    exact ⟨code ++ body, by rw [List.append_assoc], .cons hcode hbody⟩

/-! ### Numbers -/

/-- The value of a number, from its digits before and after the point and its exponent. -/
def numberValue (negative : Bool) (whole decimals : Text) (power : Option Int) :
    Except Fault Json :=
  if decimals.isEmpty && power.isNone then integer negative whole
  else .ok (.float (Binary64.ofDecimal negative (digitsValue (whole ++ decimals))
    (power.getD 0 - decimals.length)))

/-- A run of digits. -/
structure IsDigits (digits : Text) : Prop where
  ne_nil : digits ≠ []
  isDigit : ∀ c ∈ digits, c.isDigit = true

/-- How the digits after the point are written. -/
inductive SpellsFraction : Text → Text → Prop
  | none : SpellsFraction [] []
  | some {digits : Text} (hdigits : IsDigits digits) : SpellsFraction ('.' :: digits) digits

/-- How an exponent is written. -/
inductive SpellsExponent : Text → Option Int → Prop
  | none : SpellsExponent [] none
  | unsigned {e : Char} {digits : Text} (he : e = 'e' ∨ e = 'E') (hdigits : IsDigits digits) :
      SpellsExponent (e :: digits) (some (digitsValue digits))
  | plus {e : Char} {digits : Text} (he : e = 'e' ∨ e = 'E') (hdigits : IsDigits digits) :
      SpellsExponent (e :: '+' :: digits) (some (digitsValue digits))
  | minus {e : Char} {digits : Text} (he : e = 'e' ∨ e = 'E') (hdigits : IsDigits digits) :
      SpellsExponent (e :: '-' :: digits) (some (-digitsValue digits))

/-- The sign of a number. -/
def signText (negative : Bool) : Text := if negative then ['-'] else []

/-- A number: a sign, digits that do not begin with a zero unless it is the only one, a
fraction and an exponent. -/
inductive SpellsNumber : Text → Json → Prop
  | mk {negative : Bool} {whole point decimals mark : Text} {power : Option Int} {value : Json}
      (hwhole : IsDigits whole) (hzero : whole.head? = some '0' → whole = ['0'])
      (hpoint : SpellsFraction point decimals) (hmark : SpellsExponent mark power)
      (hvalue : numberValue negative whole decimals power = .ok value) :
      SpellsNumber (signText negative ++ (whole ++ (point ++ mark))) value

/-- A number is an integer of not too many digits, or a floating-point number. -/
theorem SpellsNumber.cases {text : Text} (h : SpellsNumber text value) :
    (∃ (negative : Bool) (whole : Text), IsDigits whole ∧ whole.length ≤ maxDigits ∧
        value = .int (if negative then -(digitsValue whole : Int) else digitsValue whole)) ∨
      ∃ negative digits power, value = .float (Binary64.ofDecimal negative digits power) := by
  obtain ⟨hwhole, -, -, -, hvalue⟩ := h
  rw [numberValue] at hvalue
  split at hvalue
  next =>
    rw [integer] at hvalue
    split at hvalue
    next => cases hvalue
    next hlength =>
      exact .inl ⟨_, _, hwhole, Nat.le_of_not_lt hlength, (Except.ok.inj hvalue).symm⟩
  next => exact .inr ⟨_, _, _, (Except.ok.inj hvalue).symm⟩

theorem exists_of_digitRun {text digits rest : Text} (h : digitRun text = (digits, rest)) :
    text = digits ++ rest ∧ ∀ c ∈ digits, c.isDigit = true := by
  rw [digitRun, List.span_eq_takeWhile_dropWhile] at h
  obtain ⟨rfl, rfl⟩ := Prod.mk.inj h
  exact ⟨List.takeWhile_append_dropWhile.symm, List.all_eq_true.mp List.all_takeWhile⟩

theorem exists_of_fraction {text rest decimals : Text} (h : fraction text = (decimals, rest)) :
    ∃ point, text = point ++ rest ∧ SpellsFraction point decimals := by
  unfold fraction at h
  split at h
  next after =>
    split at h
    next =>
      obtain ⟨rfl, rfl⟩ := Prod.mk.inj h
      exact ⟨[], rfl, .none⟩
    next digits more hne hrun =>
      obtain ⟨rfl, rfl⟩ := Prod.mk.inj h
      obtain ⟨rfl, hdigits⟩ := exists_of_digitRun hrun
      exact ⟨'.' :: digits, rfl, .some ⟨hne, hdigits⟩⟩
  next =>
    obtain ⟨rfl, rfl⟩ := Prod.mk.inj h
    exact ⟨[], rfl, .none⟩

theorem exists_of_exponent {text rest : Text} {power : Option Int}
    (h : exponent text = (power, rest)) :
    ∃ mark, text = mark ++ rest ∧ SpellsExponent mark power := by
  have hnone {text : Text} (h : (none, text) = (power, rest)) :
      ∃ mark, text = mark ++ rest ∧ SpellsExponent mark power := by
    obtain ⟨rfl, rfl⟩ := Prod.mk.inj h
    exact ⟨[], rfl, .none⟩
  unfold exponent at h
  split at h
  next e after =>
    split at h
    next he =>
      rw [Bool.or_eq_true, decide_eq_true_eq, decide_eq_true_eq] at he
      split at h
      next negative unsigned hsign =>
        split at h
        next => exact hnone h
        next digits more hne hrun =>
          obtain ⟨rfl, rfl⟩ := Prod.mk.inj h
          obtain ⟨rfl, hdigits⟩ := exists_of_digitRun hrun
          split at hsign
          next =>
            obtain ⟨rfl, rfl⟩ := Prod.mk.inj hsign
            exact ⟨_, rfl, .minus he ⟨hne, hdigits⟩⟩
          next =>
            obtain ⟨rfl, rfl⟩ := Prod.mk.inj hsign
            exact ⟨_, rfl, .plus he ⟨hne, hdigits⟩⟩
          next =>
            obtain ⟨rfl, rfl⟩ := Prod.mk.inj hsign
            exact ⟨_, rfl, .unsigned he ⟨hne, hdigits⟩⟩
    next => exact hnone h
  next => exact hnone h

theorem exists_of_readNumber {negative : Bool} {place text rest : Text}
    (h : readNumber negative place text = .ok (value, rest)) :
    ∃ number, signText negative ++ text = number ++ rest ∧ SpellsNumber number value := by
  unfold readNumber at h
  split at h
  next whole after hwhole =>
    have hdigits : text = whole ++ after ∧ (∀ c ∈ whole, c.isDigit = true) ∧
        (whole.head? = some '0' → whole = ['0']) := by
      split at hwhole
      next =>
        obtain ⟨rfl, rfl⟩ := Prod.mk.inj hwhole
        exact ⟨rfl, List.forall_mem_singleton.mpr rfl, fun _ => rfl⟩
      next hstart =>
        obtain ⟨rfl, hdigits⟩ := exists_of_digitRun hwhole
        refine ⟨rfl, hdigits, fun hhead => ?_⟩
        obtain ⟨more, rfl⟩ := List.head?_eq_some_iff.mp hhead
        exact absurd rfl (hstart (more ++ after))
    obtain ⟨rfl, hdigits, hzero⟩ := hdigits
    split at h
    next => cases h
    next hempty =>
      split at h
      next decimals after' hfraction =>
        obtain ⟨point, rfl, hpoint⟩ := exists_of_fraction hfraction
        split at h
        next power after'' hexponent =>
          obtain ⟨mark, rfl, hmark⟩ := exists_of_exponent hexponent
          have hvalue : numberValue negative whole decimals power = .ok value ∧ after'' = rest := by
            rw [numberValue]
            split at h
            next hinteger =>
              obtain ⟨number, hnumber, h⟩ := Direct.bind_ok h
              cases h
              exact ⟨by rw [if_pos hinteger, hnumber], rfl⟩
            next hfloat =>
              cases h
              exact ⟨if_neg hfloat, rfl⟩
          obtain ⟨hvalue, rfl⟩ := hvalue
          refine ⟨signText negative ++ (whole ++ (point ++ mark)), by simp, ?_⟩
          exact .mk ⟨mt List.isEmpty_iff.mpr hempty, hdigits⟩ hzero hpoint hmark hvalue

/-! ### Values -/

/-- White space between tokens. -/
def IsSpace (space : Text) : Prop := ∀ c ∈ space, isSpace c = true

/-- An item of a list, with the white space around it. -/
structure Item where
  before : Text
  literal : Text
  after : Text
  value : Json
  isSpace_before : IsSpace before
  isSpace_after : IsSpace after

def Item.text (item : Item) : Text := item.before ++ (item.literal ++ item.after)

/-- A member of an object: a key as it is spelled between its quotes, a colon and a value, with
the white space around them. -/
structure Member where
  before : Text
  spelled : Text
  key : Runes
  gap : Text
  item : Item
  isSpace_before : IsSpace before
  isSpace_gap : IsSpace gap
  spellsRunes : SpellsRunes spelled key
  isJoined : key.IsJoined

def Member.text (member : Member) : Text :=
  member.before ++ '"' :: (member.spelled ++ '"' :: (member.gap ++ ':' :: member.item.text))

/-- The fields that members make. -/
def fieldsOf (members : List Member) : List (Runes × Json) :=
  collect (members.map fun member => (member.key, member.item.value))

/-- The texts of JSON values. -/
inductive Spells : Text → Json → Prop
  | word {text : Text} {value : Json} (hword : (text, value) ∈ words) : Spells text value
  | number {text : Text} {value : Json} (hnumber : SpellsNumber text value) : Spells text value
  | string {body : Text} {value : Runes} (hbody : SpellsRunes body value)
      (hjoined : value.IsJoined) : Spells ('"' :: (body ++ ['"'])) (.string value)
  | emptyArray {space : Text} (hspace : IsSpace space) :
      Spells ('[' :: (space ++ [']'])) (.array [])
  | array {items : List Item} (hne : items ≠ [])
      (hitems : ∀ item ∈ items, Spells item.literal item.value) :
      Spells ('[' :: (join [','] (items.map Item.text) ++ [']'])) (.array (items.map (·.value)))
  | emptyObject {space : Text} (hspace : IsSpace space) :
      Spells ('{' :: (space ++ ['}'])) (.object [])
  | object {members : List Member} (hne : members ≠ [])
      (hvalues : ∀ member ∈ members, Spells member.item.literal member.item.value) :
      Spells ('{' :: (join [','] (members.map Member.text) ++ ['}'])) (.object (fieldsOf members))

theorem exists_of_readScalar {text rest : Text} (h : readScalar text = .ok (value, rest)) :
    ∃ literal, text = literal ++ rest ∧ Spells literal value := by
  rw [readScalar.eq_def] at h
  split at h
  next word value' hfind =>
    cases h
    have hprefix := List.find?_some hfind
    obtain ⟨rest, rfl⟩ := List.isPrefixOf_iff_prefix.mp hprefix
    exact ⟨word, by rw [List.drop_left], .word (List.mem_of_find?_eq_some hfind)⟩
  next =>
    split at h
    next after =>
      obtain ⟨number, htext, hnumber⟩ := exists_of_readNumber h
      exact ⟨number, htext, .number hnumber⟩
    next =>
      obtain ⟨number, htext, hnumber⟩ := exists_of_readNumber h
      exact ⟨number, htext, .number hnumber⟩

theorem exists_skipSpace (text : Text) : ∃ space, IsSpace space ∧ text = space ++ skipSpace text :=
  ⟨text.takeWhile isSpace, List.all_eq_true.mp List.all_takeWhile,
    List.takeWhile_append_dropWhile.symm⟩

/-! ### What the reader passes over

Each of the three functions of the reader is sound if the functions are that it calls with one
round less. The items and the members begin with white space that has been passed over
before. -/

/-- What is read as a value is spelled by the text that was passed over. -/
def ValuesSound (rounds : Nat) : Prop :=
  ∀ {text rest : Text} {value : Json}, readValue rounds text = .ok (value, rest) →
    ∃ literal, text = literal ++ rest ∧ Spells literal value

def ItemsSound (rounds : Nat) : Prop :=
  ∀ {text rest : Text} {values : List Json}, readItems rounds text = .ok (values, rest) →
    ∀ {before : Text}, IsSpace before → ∃ items : List Item, items ≠ [] ∧
      before ++ text = join [','] (items.map Item.text) ++ ']' :: rest ∧
      values = items.map (·.value) ∧ ∀ item ∈ items, Spells item.literal item.value

def FieldsSound (rounds : Nat) : Prop :=
  ∀ {text rest : Text} {fields : List (Runes × Json)}, readFields rounds text = .ok (fields, rest) →
    ∀ {before : Text}, IsSpace before → ∃ members : List Member, members ≠ [] ∧
      before ++ text = join [','] (members.map Member.text) ++ '}' :: rest ∧
      fields = members.map (fun member => (member.key, member.item.value)) ∧
      ∀ member ∈ members, Spells member.item.literal member.item.value

theorem itemsSound_succ (hvalues : ValuesSound rounds)
    (hitems : ItemsSound rounds) : ItemsSound (rounds + 1) := by
  intro text rest values hread before hbefore
  rw [readItems] at hread
  obtain ⟨⟨value, behind⟩, hvalue, hbehind⟩ := Direct.bind_ok hread
  obtain ⟨literal, rfl, hliteral⟩ := hvalues hvalue
  obtain ⟨after, hafter, hspace⟩ := exists_skipSpace behind
  dsimp only at hbehind
  split at hbehind
  next rest' hnext =>
    cases hbehind
    refine ⟨[⟨before, literal, after, value, hbefore, hafter⟩], List.cons_ne_nil _ _, ?_, rfl,
      List.forall_mem_singleton.mpr hliteral⟩
    rw [hspace, hnext]
    simp [join, Item.text]
  next rest' hnext =>
    obtain ⟨⟨more, behind'⟩, hmore, hbehind⟩ := Direct.bind_ok hbehind
    cases hbehind
    obtain ⟨before', hbefore', hrest⟩ := exists_skipSpace rest'
    obtain ⟨items, hne, htext, rfl, hspells⟩ := hitems hmore hbefore'
    refine ⟨⟨before, literal, after, value, hbefore, hafter⟩ :: items, List.cons_ne_nil _ _, ?_,
      rfl, List.forall_mem_cons.mpr ⟨hliteral, hspells⟩⟩
    rw [hspace, hnext, hrest, htext, List.map_cons, join_cons_of_ne_nil (by simpa using hne)]
    simp [Item.text]
  next => cases hbehind

theorem fieldsSound_succ (hvalues : ValuesSound rounds)
    (hfields : FieldsSound rounds) : FieldsSound (rounds + 1) := by
  intro text rest fields hread before hbefore
  rw [readFields.eq_def] at hread
  dsimp only at hread
  split at hread
  next after =>
    obtain ⟨⟨key, behind⟩, hkey, hread⟩ := Direct.bind_ok hread
    obtain ⟨spelled, hspelledText, hspelled, hjoined⟩ := exists_of_readString hkey
    obtain ⟨gap, hgap, hgapText⟩ := exists_skipSpace behind
    split at hread
    next right hcolon =>
      obtain ⟨⟨value, behind'⟩, hvalue, hread⟩ := Direct.bind_ok hread
      obtain ⟨space, hspace, hright⟩ := exists_skipSpace right
      obtain ⟨literal, hliteralText, hliteral⟩ := hvalues hvalue
      obtain ⟨after', hafter', hbehind'⟩ := exists_skipSpace behind'
      let member : Member := ⟨before, spelled, key, gap,
        ⟨space, literal, after', value, hspace, hafter'⟩, hbefore, hgap, hspelled, hjoined⟩
      split at hread
      next rest' hnext =>
        cases hread
        refine ⟨[member], List.cons_ne_nil _ _, ?_, rfl, List.forall_mem_singleton.mpr hliteral⟩
        rw [hspelledText, hgapText, hcolon, hright, hliteralText, hbehind', hnext]
        simp [join, Member.text, Item.text, member]
      next rest' hnext =>
        obtain ⟨⟨more, behind''⟩, hmore, hread⟩ := Direct.bind_ok hread
        cases hread
        obtain ⟨before', hbefore', hrest⟩ := exists_skipSpace rest'
        obtain ⟨members, hne, htext, rfl, hspells⟩ := hfields hmore hbefore'
        refine ⟨member :: members, List.cons_ne_nil _ _, ?_, rfl,
          List.forall_mem_cons.mpr ⟨hliteral, hspells⟩⟩
        rw [hspelledText, hgapText, hcolon, hright, hliteralText, hbehind', hnext, hrest, htext,
          List.map_cons, join_cons_of_ne_nil (by simpa using hne)]
        simp [Member.text, Item.text, member]
      next => cases hread
    next => cases hread
  next => cases hread

theorem valuesSound_succ (hfields : FieldsSound rounds)
    (hitems : ItemsSound rounds) : ValuesSound (rounds + 1) := by
  intro text rest value hread
  rw [readValue.eq_def] at hread
  dsimp only at hread
  split at hread
  next after =>
    obtain ⟨⟨string, behind⟩, hstring, hread⟩ := Direct.bind_ok hread
    cases hread
    obtain ⟨body, rfl, hbody, hjoined⟩ := exists_of_readString hstring
    exact ⟨_, by simp, .string hbody hjoined⟩
  next after =>
    obtain ⟨space, hspace, hafter⟩ := exists_skipSpace after
    split at hread
    next behind hclose =>
      cases hread
      exact ⟨_, by rw [hafter, hclose]; simp, .emptyObject hspace⟩
    next =>
      obtain ⟨⟨fields, behind⟩, hfield, hread⟩ := Direct.bind_ok hread
      cases hread
      obtain ⟨members, hne, htext, rfl, hspells⟩ := hfields hfield hspace
      exact ⟨_, by rw [hafter, htext]; simp, .object hne hspells⟩
  next after =>
    obtain ⟨space, hspace, hafter⟩ := exists_skipSpace after
    split at hread
    next behind hclose =>
      cases hread
      exact ⟨_, by rw [hafter, hclose]; simp, .emptyArray hspace⟩
    next =>
      obtain ⟨⟨values, behind⟩, hitem, hread⟩ := Direct.bind_ok hread
      cases hread
      obtain ⟨items, hne, htext, rfl, hspells⟩ := hitems hitem hspace
      exact ⟨_, by rw [hafter, htext]; simp, .array hne hspells⟩
  next => exact exists_of_readScalar hread

theorem sound (rounds : Nat) :
    ValuesSound rounds ∧ FieldsSound rounds ∧ ItemsSound rounds := by
  induction rounds with
  | zero =>
    refine ⟨?_, ?_, ?_⟩
    · intro text rest value h
      cases h
    · intro text rest fields h
      cases h
    · intro text rest values h
      cases h
  | succ rounds ih =>
    obtain ⟨hvalues, hfields, hitems⟩ := ih
    exact ⟨valuesSound_succ hfields hitems, fieldsSound_succ hvalues hfields,
      itemsSound_succ hvalues hitems⟩

/-- **What is read is what the text spells**, apart from white space around it. -/
theorem spells_of_read {text : Text} (h : read text = .ok value) :
    ∃ before literal after, IsSpace before ∧ IsSpace after ∧
      text = before ++ (literal ++ after) ∧ Spells literal value := by
  rw [read] at h
  split at h
  next => cases h
  next =>
    obtain ⟨⟨value', behind⟩, hvalue, h⟩ := Direct.bind_ok h
    obtain ⟨before, hbefore, htext⟩ := exists_skipSpace text
    obtain ⟨literal, hliteralText, hliteral⟩ := (sound _).1 hvalue
    obtain ⟨after, hafter, hbehind⟩ := exists_skipSpace behind
    dsimp only at h
    split at h
    next hend =>
      cases h
      rw [hend, List.append_nil] at hbehind
      exact ⟨before, literal, after, hbefore, hafter, by rw [htext, hliteralText, hbehind],
        hliteral⟩
    next => cases h

/-- The joined strings are those that some text denotes. -/
theorem isJoined_iff {string : Runes} :
    string.IsJoined ↔ ∃ text, read text = .ok (.string string) := by
  refine ⟨fun h => ⟨_, read_writeString h⟩, fun ⟨text, h⟩ => ?_⟩
  obtain ⟨-, literal, -, -, -, -, hspells⟩ := spells_of_read h
  cases hspells with
  | word hword => simp [words] at hword
  | number hnumber => obtain ⟨_, _, -, -, h⟩ | ⟨_, _, _, h⟩ := hnumber.cases <;> cases h
  | string _ hjoined => exact hjoined

end TerraformTrace.Json
