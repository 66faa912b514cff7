import TerraformTrace.Proofs.JsonNumber

/-!
# TerraformTrace.Proofs.JsonStrings

JSON under the mask. The mask was made for configuration files, and it takes a JSON text for code:
numbers, words, brackets, colons and commas stay as they are, and JSON has no comments. Only in
its strings can the two languages differ, where the mask sees interpolations and JSON does not.

**A JSON value is closed if its strings are** (`Spells.isClosedByStrings`). Strings are found by a
scan of their own (`strings`), which knows nothing but quotes and backslashes.
-/

namespace TerraformTrace.Json

open Text Hcl

/-! ### The strings of a text -/

/-- The strings of a text from somewhere on. Inside a string, `read` is what has been read of it,
with its opening quote. -/
def stringsFrom : (read : Option Text) → Text → List Text
  | _, [] => []
  | none, c :: rest => stringsFrom (if c = '"' then some ['"'] else none) rest
  | some read, '\\' :: c :: rest => stringsFrom (some (read ++ ['\\', c])) rest
  | some read, c :: rest =>
    if c = '"' then (read ++ ['"']) :: stringsFrom none rest
    else stringsFrom (some (read ++ [c])) rest

/-- The strings of a JSON text, each with its quotes. -/
def strings (text : Text) : List Text := stringsFrom none text

theorem stringsFrom_char {c : Char} (hquote : c ≠ '"') (hescape : c ≠ '\\') (read rest : Text) :
    stringsFrom (some read) (c :: rest) = stringsFrom (some (read ++ [c])) rest := by
  rw [stringsFrom.eq_4 _ _ _ fun d more hc _ => hescape hc, if_neg hquote]

theorem stringsFrom_chars {chars : Text} (h : ∀ c ∈ chars, c ≠ '"' ∧ c ≠ '\\') (read rest : Text) :
    stringsFrom (some read) (chars ++ rest) = stringsFrom (some (read ++ chars)) rest := by
  induction chars generalizing read with
  | nil => simp
  | cons c chars ih =>
    obtain ⟨⟨hquote, hescape⟩, hchars⟩ := List.forall_mem_cons.mp h
    rw [List.cons_append, stringsFrom_char hquote hescape, ih hchars, List.append_assoc]
    rfl

theorem hexDigit_inside {c : Char} {value : Nat} (h : hexDigit? c = some value) :
    c ≠ '"' ∧ c ≠ '\\' := by
  constructor <;> rintro rfl <;> cases h

theorem unitValue_inside {digits : Text} {unit : Nat} (h : unitValue? digits = some unit) :
    ∀ c ∈ digits, c ≠ '"' ∧ c ≠ '\\' := by
  unfold unitValue? at h
  split at h
  next a b c d =>
    simp only [bind, Option.bind_eq_some_iff] at h
    obtain ⟨x, hx, y, hy, z, hz, w, hw, -⟩ := h
    simp only [List.forall_mem_cons]
    exact ⟨hexDigit_inside hx, hexDigit_inside hy, hexDigit_inside hz, hexDigit_inside hw, nofun⟩
  next => cases h

/-- No code point ends a string. -/
theorem SpellsRune.stringsFrom {code : Text} {rune : Rune} (h : SpellsRune code rune)
    (read rest : Text) :
    stringsFrom (some read) (code ++ rest) = Json.stringsFrom (some (read ++ code)) rest := by
  cases h with
  | plain _ hquote hescape => exact stringsFrom_char hquote hescape read rest
  | short hletter => rfl
  | unit hdigits =>
    have hchars := stringsFrom_chars (unitValue_inside hdigits) (read ++ ['\\', 'u']) rest
    simpa [Json.stringsFrom] using hchars
  | pair hhigh hlow =>
    rename_i digits digits' high low
    have hfirst := stringsFrom_chars (unitValue_inside hhigh) (read ++ ['\\', 'u'])
      ('\\' :: 'u' :: (digits' ++ rest))
    have hsecond := stringsFrom_chars (unitValue_inside hlow)
      (read ++ ['\\', 'u'] ++ digits ++ ['\\', 'u']) rest
    simpa [Json.stringsFrom, hfirst] using hsecond

/-- A string ends at its closing quote. -/
theorem SpellsRunes.stringsFrom {body : Text} {value : Runes} (h : SpellsRunes body value)
    (read rest : Text) :
    stringsFrom (some read) (body ++ '"' :: rest) =
      (read ++ (body ++ ['"'])) :: Json.stringsFrom none rest := by
  induction h generalizing read with
  | nil => rfl
  | cons hfirst _ ih =>
    rw [List.append_assoc, hfirst.stringsFrom, ih]
    simp

/-! ### Texts that do not end in a string -/

/-- What follows the text does not count for its strings. -/
def IsWhole (text : Text) : Prop := ∀ rest, strings (text ++ rest) = strings text ++ strings rest

/-- The text does not end in a string, and the mask closes it if it closes its strings. -/
structure IsClosedByStrings (P : Char → Prop) (text : Text) : Prop where
  isWhole : IsWhole text
  isClosed : (∀ string ∈ strings text, IsClosed (endsValue · = false) string) → IsClosed P text

theorem strings_of_not_mem {text : Text} (h : '"' ∉ text) (rest : Text) :
    strings (text ++ rest) = strings rest := by
  induction text with
  | nil => rfl
  | cons c text ih =>
    rw [List.mem_cons, not_or] at h
    have hskip : strings (c :: (text ++ rest)) = strings (text ++ rest) := by
      rw [strings, stringsFrom, if_neg (Ne.symm h.1)]
      rfl
    rw [List.cons_append, hskip, ih h.2]

theorem strings_of_isSpace {space : Text} (h : IsSpace space) (rest : Text) :
    strings (space ++ rest) = strings rest :=
  strings_of_not_mem (fun hmem => absurd (h _ hmem) (by decide)) rest

/-- Brackets do not count for the strings between them. -/
theorem IsWhole.strings_group {opening closing : Char} {text : Text} (h : IsWhole text)
    (hencloses : Encloses opening closing) :
    strings (opening :: (text ++ [closing])) = strings text := by
  have hopening : strings (opening :: (text ++ [closing])) = strings (text ++ [closing]) := by
    cases hencloses <;> rfl
  have hclosing : strings [closing] = [] := by
    cases hencloses <;> rfl
  rw [hopening, h, hclosing, List.append_nil]

namespace IsClosedByStrings

variable {P Q : Char → Prop} {text more : Text}

theorem mono (h : IsClosedByStrings P text) (hPQ : ∀ c, P c → Q c) : IsClosedByStrings Q text where
  isWhole := h.isWhole
  isClosed hstrings := (h.isClosed hstrings).mono hPQ

theorem of_forall (h : ∀ c ∈ text, IsClosed.IsPlain c ∧ P c) : IsClosedByStrings P text where
  isWhole rest := by
    have hquote : '"' ∉ text := fun hmem => (h _ hmem).1.1 (by decide)
    have hnone : strings text = [] := by
      simpa [strings, stringsFrom] using strings_of_not_mem hquote []
    rw [hnone, strings_of_not_mem hquote, List.nil_append]
  isClosed _ := .of_forall h

theorem append (h : IsClosedByStrings P text) (h' : IsClosedByStrings P more) :
    IsClosedByStrings P (text ++ more) where
  isWhole rest := by
    rw [List.append_assoc, h.isWhole, h'.isWhole, h.isWhole, List.append_assoc]
  isClosed hstrings := by
    rw [h.isWhole, List.forall_mem_append] at hstrings
    exact (h.isClosed hstrings.1).append (h'.isClosed hstrings.2)

theorem group {opening closing : Char} (hencloses : Encloses opening closing)
    (h : IsClosedByStrings (fun _ => True) text) :
    IsClosedByStrings P (opening :: (text ++ [closing])) := by
  refine ⟨fun rest => ?_, fun hstrings => ?_⟩
  · have hopening : strings (opening :: (text ++ closing :: rest)) =
        strings (text ++ closing :: rest) := by
      cases hencloses <;> rfl
    have hclosing : strings (closing :: rest) = strings rest := by
      cases hencloses <;> rfl
    have htext : opening :: (text ++ [closing]) ++ rest = opening :: (text ++ closing :: rest) := by
      simp
    rw [htext, hopening, h.isWhole, hclosing, h.isWhole.strings_group hencloses]
  · rw [h.isWhole.strings_group hencloses] at hstrings
    exact .group hencloses (h.isClosed hstrings)

theorem string {body : Text} {value : Runes} (h : SpellsRunes body value) :
    IsClosedByStrings (endsValue · = false) ('"' :: (body ++ ['"'])) := by
  have hread (rest : Text) : strings ('"' :: (body ++ '"' :: rest)) =
      ('"' :: (body ++ ['"'])) :: strings rest := h.stringsFrom ['"'] rest
  have hself : strings ('"' :: (body ++ ['"'])) = ['"' :: (body ++ ['"'])] := hread []
  refine ⟨fun rest => ?_, fun hstrings => ?_⟩
  · rw [hself]
    simpa using hread rest
  · rw [hself] at hstrings
    exact hstrings _ (List.mem_singleton.mpr rfl)

theorem space {space : Text} (h : IsSpace space) : IsClosedByStrings (fun _ => True) space :=
  .of_forall fun _ hc =>
    ⟨isPlain_of_class (p := isSpace) (forall_of_all (by decide)) (h _ hc), trivial⟩

/-- A single sign of JSON between values. -/
theorem sign {c : Char} (h : IsClosed.IsPlain c) : IsClosedByStrings (fun _ => True) [c] :=
  .of_forall (by simpa using h)

theorem join {pieces : List Text} (h : ∀ piece ∈ pieces, IsClosedByStrings (fun _ => True) piece) :
    IsClosedByStrings (fun _ => True) (Text.join [','] pieces) := by
  induction pieces with
  | nil => exact .of_forall nofun
  | cons piece pieces ih =>
    obtain ⟨hpiece, hpieces⟩ := List.forall_mem_cons.mp h
    rw [Text.join_cons]
    cases pieces with
    | nil => simpa [Text.joinRest] using hpiece
    | cons next pieces => exact hpiece.append ((sign (by decide)).append (ih hpieces))

end IsClosedByStrings

/-- The strings of pieces with commas between them. -/
theorem strings_join {pieces : List Text} (h : ∀ piece ∈ pieces, IsWhole piece) :
    strings (Text.join [','] pieces) = pieces.flatMap strings := by
  induction pieces with
  | nil => rfl
  | cons piece pieces ih =>
    obtain ⟨hpiece, hpieces⟩ := List.forall_mem_cons.mp h
    rw [Text.join_cons, hpiece, List.flatMap_cons]
    cases pieces with
    | nil => rfl
    | cons next pieces =>
      rw [← ih hpieces]
      rfl

/-! ### Values -/

variable {text : Text} {value : Json}

theorem SpellsNumber.isNumeralChar (h : SpellsNumber text value) :
    text ≠ [] ∧ ∀ c ∈ text, isNumeralChar c = true := by
  obtain ⟨hwhole, -, hpoint, hmark, -⟩ := h
  rename_i negative whole point decimals mark power
  have hdigits {digits : Text} (h : IsDigits digits) :
      ∀ c ∈ digits, Json.isNumeralChar c = true :=
    fun c hc => isNumeralChar_of_isDigit (h.isDigit c hc)
  have hsign : ∀ c ∈ signText negative, Json.isNumeralChar c = true := by
    cases negative <;> exact forall_of_all (by decide)
  have hfraction : ∀ c ∈ point, Json.isNumeralChar c = true := by
    cases hpoint with
    | none => exact nofun
    | some hdecimals => exact List.forall_mem_cons.mpr ⟨by decide, hdigits hdecimals⟩
  have he {e : Char} (h : e = 'e' ∨ e = 'E') : Json.isNumeralChar e = true := by
    rcases h with rfl | rfl <;> decide
  have hexponent : ∀ c ∈ mark, Json.isNumeralChar c = true := by
    cases hmark with
    | none => exact nofun
    | unsigned h hpower => exact List.forall_mem_cons.mpr ⟨he h, hdigits hpower⟩
    | plus h hpower =>
      exact List.forall_mem_cons.mpr ⟨he h, List.forall_mem_cons.mpr ⟨by decide, hdigits hpower⟩⟩
    | minus h hpower =>
      exact List.forall_mem_cons.mpr ⟨he h, List.forall_mem_cons.mpr ⟨by decide, hdigits hpower⟩⟩
  refine ⟨by simp [hwhole.ne_nil], ?_⟩
  simp only [List.forall_mem_append]
  exact ⟨hsign, hdigits hwhole, hfraction, hexponent⟩

theorem isNumeralChar_word (h : (text, value) ∈ words) :
    text ≠ [] ∧ ∀ c ∈ text, isNumeralChar c = true := by
  have hwords : ∀ word ∈ words.map (·.1), word ≠ [] ∧ word.all isNumeralChar = true := by decide
  obtain ⟨hne, hall⟩ := hwords text (List.mem_map_of_mem h)
  exact ⟨hne, List.all_eq_true.mp hall⟩

theorem IsClosedByStrings.numeral (h : ∀ c ∈ text, isNumeralChar c = true) :
    IsClosedByStrings (endsValue · = false) text :=
  .of_forall fun c hc =>
    ⟨isPlain_of_class (p := isNumeralChar) (forall_of_all (by decide)) (h c hc),
      endsValue_of_class (p := isNumeralChar) (forall_of_all (by decide)) (h c hc)⟩

theorem Item.isClosedByStrings {item : Item}
    (h : IsClosedByStrings (endsValue · = false) item.literal) :
    IsClosedByStrings (fun _ => True) item.text :=
  (IsClosedByStrings.space item.isSpace_before).append
    ((h.mono fun _ _ => trivial).append (.space item.isSpace_after))

/-- The key of a member, as it stands in the text. -/
def Member.quoted (member : Member) : Text := '"' :: (member.spelled ++ ['"'])

theorem Member.text_eq (member : Member) :
    member.text =
      member.before ++ (member.quoted ++ (member.gap ++ ([':'] ++ member.item.text))) := by
  simp [text, quoted]

theorem Member.isClosedByStrings {member : Member}
    (h : IsClosedByStrings (endsValue · = false) member.item.literal) :
    IsClosedByStrings (fun _ => True) member.text := by
  have hkey : IsClosedByStrings (fun _ => True) member.quoted :=
    (IsClosedByStrings.string member.spellsRunes).mono fun _ _ => trivial
  rw [member.text_eq]
  exact (IsClosedByStrings.space member.isSpace_before).append (hkey.append
    ((IsClosedByStrings.space member.isSpace_gap).append
      ((IsClosedByStrings.sign (by decide)).append (Item.isClosedByStrings h))))

theorem Member.strings_text {member : Member} (h : IsWhole member.item.literal) :
    strings member.text = strings member.quoted ++ strings member.item.literal := by
  have hkey : IsWhole member.quoted := (IsClosedByStrings.string member.spellsRunes).isWhole
  have hcolon (rest : Text) : strings ([':'] ++ rest) = strings rest := rfl
  have hafter : strings member.item.after = [] := by
    have hnone := strings_of_isSpace member.item.isSpace_after []
    rwa [List.append_nil] at hnone
  rw [member.text_eq, strings_of_isSpace member.isSpace_before, hkey,
    strings_of_isSpace member.isSpace_gap, hcolon, Item.text,
    strings_of_isSpace member.item.isSpace_before, h, hafter, List.append_nil]

/-- A value is closed if its strings are. -/
theorem Spells.isClosedByStrings (h : Spells text value) :
    IsClosedByStrings (endsValue · = false) text := by
  induction h with
  | word hword => exact .numeral (isNumeralChar_word hword).2
  | number hnumber => exact .numeral hnumber.isNumeralChar.2
  | string hbody _ => exact .string hbody
  | emptyArray hspace => exact .group .bracket (.space hspace)
  | array _ _ ih =>
    refine .group .bracket (.join fun piece hpiece => ?_)
    obtain ⟨item, hitem, rfl⟩ := List.mem_map.mp hpiece
    exact Item.isClosedByStrings (ih item hitem)
  | emptyObject hspace => exact .group .brace (.space hspace)
  | object _ _ ih =>
    refine .group .brace (.join fun piece hpiece => ?_)
    obtain ⟨member, hmember, rfl⟩ := List.mem_map.mp hpiece
    exact Member.isClosedByStrings (ih member hmember)

/-- A value neither begins nor ends with a blank. -/
theorem Spells.isTrimmed (h : Spells text value) : IsTrimmed text := by
  have hnumeral {text : Text} (h : text ≠ [] ∧ ∀ c ∈ text, isNumeralChar c = true) :
      IsTrimmed text := .of_class not_isBlank_of_isNumeralChar (by decide) h.1 h.2
  cases h with
  | word hword => exact hnumeral (isNumeralChar_word hword)
  | number hnumber => exact hnumeral hnumber.isNumeralChar
  | _ => exact .between (by decide) _

end TerraformTrace.Json
