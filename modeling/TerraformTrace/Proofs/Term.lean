import Mathlib.Data.List.TakeDrop
import TerraformTrace.Literal
import TerraformTrace.Proofs.Balanced

/-!
# TerraformTrace.Proofs.Term

The grammar of written literals: numbers, truth values, `null`, references, quoted
strings with escapes and interpolated references, and lists and objects of literals,
nested to any depth and laid out on one line or on several. A tree carries all that its
text shows, down to the spaces, and **every tree is well formed by construction**: its
parts hold the proofs that they are names, numbers and references.

The text of a literal is closed, and no character outside of its brackets ends a value
(`Term.isClosed`). The readers know no more of it than that, and what it begins and ends
with.
-/

namespace TerraformTrace.Hcl

open Text

/-! ### Classes of characters -/

/-- The characters that mean something to the mask or are brackets. -/
def signs : Text := ['"', '#', '/', '<', '{', '[', '(', '}', ']', ')']

section Classes

variable {p : Char → Bool} {c d : Char}

theorem ne_of_class (hc : p c = true) (hd : p d = false) : c ≠ d := by
  rintro rfl
  rw [hc] at hd
  cases hd

theorem isPlain_of_class (hp : ∀ d ∈ signs, p d = false) (hc : p c = true) :
    IsClosed.IsPlain c := by
  have hne : ∀ d ∈ signs, c ≠ d := fun d hd => ne_of_class hc (hp d hd)
  simp only [signs, List.forall_mem_cons] at hne
  simp [IsClosed.IsPlain, isOpener, isCloser, hne]

theorem endsValue_of_class (hp : ∀ d ∈ ['\n', ',', hidden], p d = false) (hc : p c = true) :
    endsValue c = false := by
  have hne : ∀ d ∈ ['\n', ',', hidden], c ≠ d := fun d hd => ne_of_class hc (hp d hd)
  simp only [List.forall_mem_cons] at hne
  simp [endsValue, hne]

theorem isPlain_of_wordClass (hp : ∀ d ∈ '\n' :: ',' :: hidden :: signs, p d = false)
    (hc : p c = true) : IsClosed.IsPlain c ∧ endsValue c = false := by
  refine ⟨isPlain_of_class (fun d hd => hp d (by simp [hd])) hc,
    endsValue_of_class (fun d hd => hp d ?_) hc⟩
  simp only [List.mem_cons, List.not_mem_nil, or_false] at hd ⊢
  rcases hd with rfl | rfl | rfl <;> simp

/-- A text without signs is closed. -/
theorem isClosed_of_class (hp : ∀ d ∈ signs, p d = false) {text : Text}
    (h : ∀ c ∈ text, p c = true) : IsClosed (fun _ => True) text :=
  .of_forall fun c hc => ⟨isPlain_of_class hp (h c hc), trivial⟩

/-- A text without signs that does not end a value. -/
theorem isClosed_of_wordClass (hp : ∀ d ∈ '\n' :: ',' :: hidden :: signs, p d = false)
    {text : Text} (h : ∀ c ∈ text, p c = true) : IsClosed (endsValue · = false) text :=
  .of_forall fun c hc => isPlain_of_wordClass hp (h c hc)

end Classes

/-- A text all of whose characters are of one class. -/
structure TextOf (p : Char → Bool) where
  text : Text
  all : ∀ c ∈ text, p c = true

/-- A name. -/
structure Identifier where
  text : Text
  isName : Text.isName text = true

/-- What may stand between the items of a list: spaces, tabs and line breaks. -/
def isLayout (c : Char) : Bool := isIndent c || c = '\n'

theorem Identifier.isPathChar (name : Identifier) : ∀ c ∈ name.text, isPathChar c = true := by
  intro c hc
  simp [TerraformTrace.isPathChar, isNameRest_of_mem name.isName hc]

theorem Identifier.exists_cons (name : Identifier) :
    ∃ c rest, name.text = c :: rest ∧ TerraformTrace.isPathChar c = true := by
  cases hname : name.text with
  | nil => exact absurd name.isName (by rw [hname]; decide)
  | cons c rest => exact ⟨c, rest, rfl, name.isPathChar c (by simp [hname])⟩

/-! ### Numbers -/

/-- A character that can stand in a number. -/
def isNumberChar (c : Char) : Bool := isDecimal c || ['+', '-', '.', 'e', 'E'].contains c

theorem isNumberChar_of_isDecimal {c : Char} (h : isDecimal c = true) : isNumberChar c = true := by
  simp [isNumberChar, h]

theorem isNumberChar_of_mem_sign (plus : Bool) {text : Text}
    (h : ∀ c ∈ (Literal.sign plus text).2, isNumberChar c = true) :
    ∀ c ∈ text, isNumberChar c = true := by
  unfold Literal.sign at h
  split at h
  next rest => exact List.forall_mem_cons.mpr ⟨by decide, h⟩
  next rest =>
    refine List.forall_mem_cons.mpr ⟨by decide, ?_⟩
    split at h
    · exact h
    · exact (List.forall_mem_cons.mp h).2
  next => exact h

/-- The digits at the front of a text can stand in a number. -/
theorem isNumberChar_of_span {text : Text}
    (h : ∀ c ∈ (text.span isDecimal).2, isNumberChar c = true) :
    ∀ c ∈ text, isNumberChar c = true := by
  rw [List.span_eq_takeWhile_dropWhile] at h
  rw [← List.takeWhile_append_dropWhile (p := isDecimal) (l := text)]
  refine List.forall_mem_append.mpr ⟨fun c hc => ?_, h⟩
  exact isNumberChar_of_isDecimal (List.all_eq_true.mp List.all_takeWhile c hc)

theorem isNumberChar_of_mem_fraction? {text digits rest : Text}
    (hfraction : Literal.fraction? text = some (digits, rest))
    (h : ∀ c ∈ rest, isNumberChar c = true) : ∀ c ∈ text, isNumberChar c = true := by
  unfold Literal.fraction? at hfraction
  split at hfraction
  next rest' =>
    refine List.forall_mem_cons.mpr ⟨by decide, isNumberChar_of_span ?_⟩
    split at hfraction
    next => cases hfraction
    next hspan =>
      cases hfraction
      rwa [hspan]
  next =>
    cases hfraction
    exact h

theorem isNumberChar_of_mem_exponent? {text : Text} {power : Option Int}
    (hexponent : Literal.exponent? text = some power) : ∀ c ∈ text, isNumberChar c = true := by
  cases text with
  | nil => nofun
  | cons e rest =>
    rw [Literal.exponent?] at hexponent
    split at hexponent
    next he =>
      refine List.forall_mem_cons.mpr ⟨?_, isNumberChar_of_mem_sign true ?_⟩
      · simp only [Bool.or_eq_true, decide_eq_true_eq] at he
        rcases he with rfl | rfl <;> decide
      · dsimp only at hexponent
        split at hexponent
        next => cases hexponent
        next hdigits =>
          simp only [Bool.or_eq_true, not_or, Bool.not_eq_true, Bool.not_eq_false',
            List.all_eq_true] at hdigits
          exact fun c hc => isNumberChar_of_isDecimal (hdigits.2 c hc)
    next => cases hexponent

/-- A number is not empty and is made of digits, signs, the point and the letter of the
exponent. -/
theorem isNumberChar_of_numeral? {text : Text} (h : (Literal.numeral? text).isSome = true) :
    text ≠ [] ∧ ∀ c ∈ text, isNumberChar c = true := by
  refine ⟨?_, isNumberChar_of_mem_sign false (isNumberChar_of_span ?_)⟩
  · rintro rfl
    cases h
  · obtain ⟨numeral, hnumeral⟩ := Option.isSome_iff_exists.mp h
    unfold Literal.numeral? at hnumeral
    dsimp only at hnumeral
    split at hnumeral
    next => cases hnumeral
    next hspan =>
      obtain ⟨⟨decimals, rest⟩, hfraction, hnumeral⟩ := Option.bind_eq_some_iff.mp hnumeral
      obtain ⟨power, hexponent, -⟩ := Option.bind_eq_some_iff.mp hnumeral
      rw [hspan]
      exact isNumberChar_of_mem_fraction? hfraction (isNumberChar_of_mem_exponent? hexponent)

/-! ### Quoted strings -/

/-- A piece of a quoted string. -/
inductive Piece
  | char (c : Char) (hquote : c ≠ '"') (hescape : c ≠ '\\') (hline : c ≠ '\n')
  | escaped (c : Char) (hline : c ≠ '\n')
  | interpolation (ref : Reference) (href : ref.IsWellFormed)

namespace Piece

def text : Piece → Text
  | char c _ _ _ => [c]
  | escaped c _ => ['\\', c]
  | interpolation ref _ => ['$', '{'] ++ (ref.text ++ ['}'])

/-- A dollar sign and a brace stand side by side in interpolations only. -/
def AreApart : List Piece → Prop
  | first :: second :: rest =>
    ¬(first.text = ['$'] ∧ second.text = ['{']) ∧ AreApart (second :: rest)
  | _ => True

/-- The text of the pieces, up to and with the closing quote. -/
def remainder (pieces : List Piece) : Text := pieces.flatMap text ++ ['"']

end Piece

/-- A quoted string. -/
structure Quoted where
  pieces : List Piece
  apart : Piece.AreApart pieces

/-- What stands between the quotes. -/
def Quoted.content (quoted : Quoted) : Text := quoted.pieces.flatMap Piece.text

def Quoted.text (quoted : Quoted) : Text := '"' :: (quoted.content ++ ['"'])

/-- Read inside a string, the text ends the string, and only blanks and the characters of
references are shown up to there. -/
def ClosesString (text : Text) : Prop :=
  ∃ shown, Mask.Shows [.string] text shown [] ∧
    ∀ c ∈ shown, c = '"' ∨ c = ' ' ∨ isPathChar c = true

namespace ClosesString

variable {text piece shown : Text}

theorem append (hpiece : Mask.Shows [.string] piece shown [.string])
    (hshown : ∀ c ∈ shown, c = ' ' ∨ isPathChar c = true) (h : ClosesString text) :
    ClosesString (piece ++ text) := by
  obtain ⟨shown', hshows, hshown'⟩ := h
  exact ⟨shown ++ shown', hpiece.append hshows,
    List.forall_mem_append.mpr ⟨fun c hc => .inr (hshown c hc), hshown'⟩⟩

/-- Characters without a meaning in a string. -/
theorem chars (piece : Text) (hpiece : ∀ c ∈ piece, c ≠ '\\' ∧ c ≠ '$' ∧ c ≠ '"' ∧ c ≠ '\n')
    (h : ClosesString text) : ClosesString (piece ++ text) := by
  have hshows : Mask.Shows [.string] piece (piece.map fun _ => ' ') [.string] :=
    .of_forall _ fun c hc =>
      have hc := hpiece c hc
      Mask.shows_stringChar hc.1 hc.2.1 hc.2.2.1 hc.2.2.2
  refine h.append hshows fun c hc => ?_
  obtain ⟨-, -, rfl⟩ := List.mem_map.mp hc
  exact .inl rfl

theorem dollar (hopen : ∀ rest, (text ++ rest).head? ≠ some '{')
    (hescape : ∀ rest, ['$', '{'].isPrefixOf (text ++ rest) = false) (h : ClosesString text) :
    ClosesString ('$' :: text) := by
  obtain ⟨shown', hshows, hshown'⟩ := h
  exact ⟨' ' :: shown', hshows.dollar hopen hescape,
    List.forall_mem_cons.mpr ⟨.inr (.inl rfl), hshown'⟩⟩

/-- The path in an interpolation is shown. -/
theorem interpolation {path : Text} (hpath : ∀ c ∈ path, isPathChar c = true)
    (h : ClosesString text) : ClosesString (['$', '{'] ++ (path ++ ['}']) ++ text) := by
  have hinside : Mask.Shows [.interpolation 0, .string] path path [.interpolation 0, .string] :=
    Mask.shows_path rfl hpath
  refine h.append (Mask.shows_openInterpolation.append
    (hinside.append (Mask.shows_endInterpolation [.string]))) ?_
  simpa [or_imp, forall_and] using fun c hc => Or.inr (hpath c hc)

/-- After another dollar sign an interpolation is literal text. -/
theorem escapedInterpolation {path : Text} (hpath : ∀ c ∈ path, isPathChar c = true)
    (h : ClosesString text) : ClosesString ('$' :: (['$', '{'] ++ (path ++ ['}']) ++ text)) := by
  have hchars : ClosesString (path ++ ['}'] ++ text) := by
    refine h.chars _ (List.forall_mem_append.mpr ⟨fun c hc => ?_, by simp⟩)
    have hne : ∀ {d}, isPathChar d = false → c ≠ d := ne_of_isPathChar (hpath c hc)
    exact ⟨hne (by decide), hne (by decide), hne (by decide), hne (by decide)⟩
  exact hchars.append Mask.shows_escapedInterpolation (by simp)

end ClosesString

namespace Piece

theorem AreApart.of_cons {piece : Piece} {pieces : List Piece} (h : AreApart (piece :: pieces)) :
    (piece.text = ['$'] → ∀ next ∈ pieces.head?, next.text ≠ ['{']) ∧ AreApart pieces := by
  cases pieces with
  | nil => exact ⟨fun _ => by simp, trivial⟩
  | cons next pieces =>
    refine ⟨fun hdollar other hother hbrace => h.1 ⟨hdollar, ?_⟩, h.2⟩
    cases hother
    exact hbrace

theorem head?_remainder_ne {pieces : List Piece} (h : ∀ piece ∈ pieces.head?, piece.text ≠ ['{'])
    (rest : Text) : (remainder pieces ++ rest).head? ≠ some '{' := by
  cases pieces with
  | nil => simp [remainder]
  | cons piece pieces =>
    have hpiece := h piece rfl
    cases piece with
    | char c => simpa [remainder, text] using hpiece
    | escaped c => simp [remainder, text]
    | interpolation ref => simp [remainder, text]

/-- The remainder of a string closes it, and it still does after a dollar sign that is not
followed by a brace: the sign may yet be the first of two that stand before an
interpolation and take it its meaning. -/
theorem closesString_remainder (pieces : List Piece) (hapart : AreApart pieces) :
    ClosesString (remainder pieces) ∧
      ((∀ piece ∈ pieces.head?, piece.text ≠ ['{']) → ClosesString ('$' :: remainder pieces)) := by
  induction pieces with
  | nil =>
    have hquote : ClosesString (remainder []) :=
      ⟨['"'], Mask.shows_closeQuote [], by simp⟩
    exact ⟨hquote, fun _ => hquote.dollar (by simp [remainder]) fun _ => rfl⟩
  | cons piece pieces ih =>
    obtain ⟨hnext, hrest⟩ := hapart.of_cons
    obtain ⟨hremainder, hdollar⟩ := ih hrest
    have hcons : remainder (piece :: pieces) = piece.text ++ remainder pieces := by
      simp [remainder]
    rw [hcons]
    cases piece with
    | char c hquote hescape hline =>
      have hclose : ClosesString (c :: remainder pieces) := by
        by_cases hc : c = '$'
        · rw [hc]
          exact hdollar (hnext (by rw [text, hc]))
        · exact hremainder.chars [c] (by simp [hquote, hescape, hline, hc])
      refine ⟨hclose, fun hbrace => hclose.dollar (fun rest => ?_) fun rest => ?_⟩
      · simpa [text] using hbrace
      · -- two dollar signs and a brace would escape an interpolation
        refine Bool.eq_false_iff.mpr fun hprefix => ?_
        obtain ⟨hc, more, hmore⟩ : '$' = c ∧ ['{'] <+: remainder pieces ++ rest :=
          List.cons_prefix_cons.mp (List.isPrefixOf_iff_prefix.mp hprefix)
        refine head?_remainder_ne (hnext (by rw [text, hc])) rest ?_
        rw [← hmore]
        rfl
    | escaped c hline =>
      have hclose := hremainder.append (Mask.shows_escape hline) (by simp)
      exact ⟨hclose, fun _ => hclose.dollar (by simp [text]) fun _ => rfl⟩
    | interpolation ref href =>
      have hpath := href.isPathChar
      exact ⟨hremainder.interpolation hpath, fun _ => hremainder.escapedInterpolation hpath⟩

end Piece

/-- What a string shows has no brackets and ends no value. -/
theorem balanced_quoted {shown : Text} (h : ∀ c ∈ shown, c = '"' ∨ c = ' ' ∨ isPathChar c = true) :
    Balanced (endsValue · = false) ('"' :: shown) := by
  have hquote : isOpener '"' = false ∧ isCloser '"' = false ∧ endsValue '"' = false := by decide
  refine .of_forall (List.forall_mem_cons.mpr ⟨hquote, fun c hc => ?_⟩)
  rcases h c hc with rfl | rfl | hpath
  · exact hquote
  · decide
  · have hplain : IsClosed.IsPlain c :=
      isPlain_of_class (p := isPathChar) (forall_of_all (by decide)) hpath
    have hinside : endsValue c = false :=
      endsValue_of_class (p := isPathChar) (forall_of_all (by decide)) hpath
    exact ⟨hplain.2.1, hplain.2.2, hinside⟩

/-- A quoted string is closed, whatever it holds. -/
theorem Quoted.isClosed (quoted : Quoted) : IsClosed (endsValue · = false) quoted.text := by
  obtain ⟨shown, hshows, hshown⟩ := (Piece.closesString_remainder _ quoted.apart).1
  exact ⟨'"' :: shown, (Mask.shows_openQuote rfl).append hshows, balanced_quoted hshown⟩

/-! ### Literals -/

/-- The name of an object's field. -/
inductive FieldName
  | bare (name : Identifier)
  | quoted (name : Quoted)

/-- The name of a field and the operator after it. -/
structure FieldKey where
  name : FieldName
  gap : TextOf isGap
  /-- Whether the operator is a colon. -/
  colon : Bool
  space : TextOf isGap

mutual

/-- A literal as it is written. -/
inductive Term
  | number (text : Text) (hnumber : (Literal.numeral? text).isSome = true)
  | boolean (value : Bool)
  | null
  | reference (ref : Reference) (href : ref.IsWellFormed)
  | quoted (content : Quoted)
  | list (items : Items)
  | object (fields : Fields)

/-- The items of a list. Items are separated by commas, and one may follow the last. -/
inductive Items
  | none (layout : TextOf isLayout)
  | last (before : TextOf isLayout) (item : Term) (after : TextOf isLayout)
  | next (before : TextOf isLayout) (item : Term) (after : TextOf isLayout) (more : Items)

/-- The fields of an object. Fields are separated by commas or line breaks. -/
inductive Fields
  | none (layout : TextOf isLayout)
  | last (before : TextOf isLayout) (key : FieldKey) (value : Term) (after : TextOf isLayout)
  | next (before : TextOf isLayout) (key : FieldKey) (value : Term) (after : TextOf isLayout)
    (comma : Bool) (more : Fields)

end

def FieldName.text : FieldName → Text
  | bare name => name.text
  | quoted name => name.text

def FieldKey.text (key : FieldKey) : Text :=
  key.name.text ++ (key.gap.text ++ ([if key.colon then ':' else '='] ++ key.space.text))

mutual

def Term.text : Term → Text
  | .number text _ => text
  | .boolean value => if value then "true".toList else "false".toList
  | .null => "null".toList
  | .reference ref _ => ref.text
  | .quoted content => content.text
  | .list items => '[' :: (items.text ++ [']'])
  | .object fields => '{' :: (fields.text ++ ['}'])

def Items.text : Items → Text
  | .none layout => layout.text
  | .last before item after => before.text ++ (item.text ++ after.text)
  | .next before item after more =>
    before.text ++ (item.text ++ (after.text ++ ([','] ++ more.text)))

def Fields.text : Fields → Text
  | .none layout => layout.text
  | .last before key value after => before.text ++ (key.text ++ (value.text ++ after.text))
  | .next before key value after comma more =>
    before.text ++ (key.text ++ (value.text ++ (after.text ++
      ([if comma then ',' else '\n'] ++ more.text))))

end

/-! ### Literals are closed -/

theorem TextOf.isClosed_layout (layout : TextOf isLayout) : IsClosed (fun _ => True) layout.text :=
  isClosed_of_class (forall_of_all (by decide)) layout.all

theorem TextOf.isClosed_gap (gap : TextOf isGap) : IsClosed (fun _ => True) gap.text :=
  isClosed_of_class (forall_of_all (by decide)) gap.all

theorem isClosed_path {text : Text} (h : ∀ c ∈ text, isPathChar c = true) :
    IsClosed (endsValue · = false) text :=
  isClosed_of_wordClass (forall_of_all (by decide)) h

theorem FieldName.isClosed (name : FieldName) : IsClosed (fun _ => True) name.text := by
  cases name with
  | bare name => exact (isClosed_path name.isPathChar).mono fun _ _ => trivial
  | quoted name => exact name.isClosed.mono fun _ _ => trivial

theorem FieldKey.isClosed (key : FieldKey) : IsClosed (fun _ => True) key.text := by
  refine key.name.isClosed.append (key.gap.isClosed_gap.append (.append ?_ key.space.isClosed_gap))
  cases key.colon <;> exact .of_forall (forall_of_all (by decide))

mutual

/-- A literal is closed, and nothing outside of its brackets ends a value. -/
theorem Term.isClosed : (term : Term) → IsClosed (endsValue · = false) term.text
  | .number text hnumber =>
    isClosed_of_wordClass (forall_of_all (by decide)) (isNumberChar_of_numeral? hnumber).2
  | .boolean value => by cases value <;> exact .of_forall (forall_of_all (by decide))
  | .null => .of_forall (forall_of_all (by decide))
  | .reference _ href => isClosed_path href.isPathChar
  | .quoted content => content.isClosed
  | .list items => .group .bracket items.isClosed
  | .object fields => .group .brace fields.isClosed

theorem Items.isClosed : (items : Items) → IsClosed (fun _ => True) items.text
  | .none layout => layout.isClosed_layout
  | .last before item after =>
    before.isClosed_layout.append <|
      (item.isClosed.mono fun _ _ => trivial).append after.isClosed_layout
  | .next before item after more =>
    before.isClosed_layout.append <| (item.isClosed.mono fun _ _ => trivial).append <|
      after.isClosed_layout.append <|
        .append (.of_forall (forall_of_all (by decide))) more.isClosed

theorem Fields.isClosed : (fields : Fields) → IsClosed (fun _ => True) fields.text
  | .none layout => layout.isClosed_layout
  | .last before key value after =>
    before.isClosed_layout.append <| key.isClosed.append <|
      (value.isClosed.mono fun _ _ => trivial).append after.isClosed_layout
  | .next before key value after comma more =>
    before.isClosed_layout.append <| key.isClosed.append <|
      (value.isClosed.mono fun _ _ => trivial).append <| after.isClosed_layout.append <|
        .append (by cases comma <;> exact .of_forall (forall_of_all (by decide))) more.isClosed

end

/-! ### The ends of a literal -/

/-- The code points of the blanks. -/
def blankCodes : List Nat := List.range' 0x09 5 ++ List.range' 0x1C 5 ++ wideBlanks

theorem not_isBlank_of_isNumberChar {c : Char} (h : isNumberChar c = true) : isBlank c = false := by
  refine Bool.eq_false_iff.mpr fun hblank => ?_
  have hmem : c.toNat ∈ blankCodes := by
    simp only [isBlank, Bool.or_eq_true, Bool.and_eq_true, decide_eq_true_eq] at hblank
    simp only [blankCodes, wideBlanks, List.mem_append, List.mem_range'_1, List.mem_cons,
      List.not_mem_nil, or_false]
    omega
  have hnone : ∀ n ∈ blankCodes, isNumberChar (Char.ofNat n) = false := by decide +kernel
  have hc := hnone _ hmem
  rw [Char.ofNat_toNat, h] at hc
  cases hc

/-- No blanks at either end, and no heredoc at the beginning. -/
structure IsTrimmed (text : Text) : Prop where
  first : ∃ c rest, text = c :: rest ∧ isBlank c = false ∧ c ≠ '<'
  last : ∃ front c, text = front ++ [c] ∧ isBlank c = false

theorem IsTrimmed.of_class {p : Char → Bool} (hp : ∀ {c}, p c = true → isBlank c = false)
    (hangle : p '<' = false) {text : Text} (hne : text ≠ []) (h : ∀ c ∈ text, p c = true) :
    IsTrimmed text where
  first := by
    obtain ⟨c, rest, rfl⟩ := List.exists_cons_of_ne_nil hne
    have hc := h c List.mem_cons_self
    exact ⟨c, rest, rfl, hp hc, ne_of_class hc hangle⟩
  last := by
    have hlast := List.dropLast_concat_getLast hne
    exact ⟨_, _, hlast.symm, hp (h _ (List.getLast_mem hne))⟩

theorem IsTrimmed.between {opening closing : Char}
    (h : isBlank opening = false ∧ opening ≠ '<' ∧ isBlank closing = false) (text : Text) :
    IsTrimmed (opening :: (text ++ [closing])) where
  first := ⟨opening, _, rfl, h.1, h.2.1⟩
  last := ⟨opening :: text, closing, rfl, h.2.2⟩

theorem isTrimmed_path {text : Text} (hne : text ≠ []) (h : ∀ c ∈ text, isPathChar c = true) :
    IsTrimmed text :=
  .of_class not_isBlank_of_isPathChar (by decide) hne h

theorem Term.isTrimmed (term : Term) : IsTrimmed term.text := by
  cases term with
  | number text hnumber =>
    obtain ⟨hne, hchars⟩ := isNumberChar_of_numeral? hnumber
    exact .of_class not_isBlank_of_isNumberChar (by decide) hne hchars
  | boolean value =>
    cases value <;> exact isTrimmed_path (by decide) (forall_of_all (by decide))
  | null => exact isTrimmed_path (by decide) (forall_of_all (by decide))
  | reference ref href =>
    exact isTrimmed_path ref.text_ne_nil href.isPathChar
  | quoted content => exact .between (by decide) _
  | list items => exact .between (by decide) _
  | object fields => exact .between (by decide) _

end TerraformTrace.Hcl
