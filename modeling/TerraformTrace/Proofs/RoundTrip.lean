import TerraformTrace.Proofs.ConfigurationFile
import TerraformTrace.Proofs.JsonScalar
import TerraformTrace.Proofs.LiteralText

/-!
# TerraformTrace.Proofs.RoundTrip

JSON values as configuration literals. **A value is read back from its JSON text**, on one
line or with one item per line, by a reader that knows nothing of JSON (`read_writeAt`), and
the text with one item per line is its own display form.

What the reader has to know of the text of a value is that it can be told from what stands
around it, whatever its strings hold (`isItem_writeAt`).
-/

namespace TerraformTrace

variable {depth : Nat} {c : Char} {text : Text} {string : Runes} {style : Style}
  {fields : List (Text × Json)} {value : Json}

/-! ### Values -/

namespace Json

open Text Hcl

variable {rest layout : Text}

/-- An identifier: a letter or an underscore, and then letters, digits, underscores and
hyphens, all in ASCII. -/
def isIdentifier : Text → Bool
  | c :: rest => (c.isAlpha || c = '_') && rest.all fun c => c.isAlphanum || c = '_' || c = '-'
  | [] => false

/-- The values that are written as literals: `null`, truth values, integers that are not too
long, strings without interpolations, and lists and objects of such values. The keys of an
object are identifiers, and no two are the same. -/
inductive IsLiteral : Json → Prop
  | null : IsLiteral .null
  | bool (value : Bool) : IsLiteral (.bool value)
  | int {value : Int} (hlength : (ofNat value.natAbs).length ≤ maxDigits) : IsLiteral (.int value)
  | string {value : Runes} (hplain : ¬[.char '$', .char '{'] <:+: value)
      (hjoined : value.IsJoined) : IsLiteral (.string value)
  | array {items : List Json} (hitems : ∀ item ∈ items, IsLiteral item) : IsLiteral (.array items)
  | object {fields : List (Text × Json)} (hkeys : (fields.map (·.1)).Nodup)
      (hnames : ∀ field ∈ fields, isIdentifier field.1 = true)
      (hvalues : ∀ field ∈ fields, IsLiteral field.2) :
      IsLiteral (.object (fields.map fun field => (Runes.ofText field.1, field.2)))

/-- A style that puts layout around items and a comma between them. -/
structure Style.IsLaidOut (style : Style) : Prop where
  opening : ∀ depth, ∀ c ∈ style.opening depth, isLayout c = true
  between : ∀ depth, ∃ layout, (∀ c ∈ layout, isLayout c = true) ∧
    style.between depth = ',' :: layout
  closing : ∀ depth, IsClosing (style.closing depth)

theorem isLaidOut_compact : compact.IsLaidOut where
  opening _ := nofun
  between _ := ⟨[' '], forall_of_all (by decide), rfl⟩
  closing _ := .none

theorem isLayout_of_mem_newLine : ∀ c ∈ newLine depth, isLayout c = true := by
  refine List.forall_mem_cons.mpr ⟨by decide, fun c hc => ?_⟩
  rw [List.eq_of_mem_replicate hc]
  decide

theorem isLaidOut_indented : indented.IsLaidOut where
  opening _ := isLayout_of_mem_newLine
  between depth := ⟨newLine (depth + 1), isLayout_of_mem_newLine, rfl⟩
  closing depth := by
    have hlayout : ∀ c ∈ newLine depth, isLayout c = true := isLayout_of_mem_newLine
    exact .line (List.forall_mem_cons.mp hlayout).2

/-! ### Written values -/

theorem toNat_of_isAlphanum (h : c.isAlphanum = true) : 0x20 ≤ c.toNat ∧ c.toNat < 0x7F := by
  delta Char.isAlphanum Char.isAlpha Char.isUpper Char.isLower Char.isDigit at h
  simp only [Bool.or_eq_true, Bool.and_eq_true, decide_eq_true_eq] at h
  rcases h with (h | h) | h
  all_goals exact ⟨Nat.le_trans (by decide) (UInt32.le_iff_toNat_le.mp h.1),
    Nat.lt_of_le_of_lt (UInt32.le_iff_toNat_le.mp h.2) (by decide)⟩

/-- The characters of an identifier continue names and are written as they are. -/
theorem isNameRest_and_writeRune (h : (c.isAlphanum || c = '_' || c = '-') = true) :
    isNameRest c = true ∧ writeRune (.char c) = [c] := by
  have hquote : c ≠ '"' := by
    rintro rfl
    exact absurd h (by decide)
  have hescape : c ≠ '\\' := by
    rintro rfl
    exact absurd h (by decide)
  obtain ⟨hlow, hhigh⟩ : 0x20 ≤ c.toNat ∧ c.toNat < 0x7F := by
    simp only [Bool.or_eq_true, decide_eq_true_eq] at h
    rcases h with (h | rfl) | rfl
    · exact toNat_of_isAlphanum h
    · decide
    · decide
  constructor
  · have hascii : c.toNat < 0x80 := by omega
    rwa [isNameRest, isWord, if_pos hascii]
  · simp [writeRune, shortEscape?_eq_none hquote hescape hlow, hlow, hhigh]

theorem isIdentifier_cons (h : isIdentifier (c :: rest) = true) :
    isNameStart c = true ∧
      ∀ d ∈ c :: rest, (d.isAlphanum || d = '_' || d = '-') = true := by
  simp only [isIdentifier, Bool.and_eq_true, List.all_eq_true] at h
  refine ⟨h.1, List.forall_mem_cons.mpr ⟨?_, h.2⟩⟩
  have hstart := h.1
  simp only [Bool.or_eq_true, decide_eq_true_eq] at hstart
  rcases hstart with hstart | hstart <;> simp [Char.isAlphanum, hstart]

theorem isName_of_isIdentifier {name : Text} (h : isIdentifier name = true) :
    isName name = true := by
  cases name with
  | nil => cases h
  | cons c rest =>
    obtain ⟨hstart, hchars⟩ := isIdentifier_cons h
    simp only [isName, hstart, Bool.true_and, List.all_eq_true]
    intro d hd
    exact (isNameRest_and_writeRune (hchars d (List.mem_cons_of_mem _ hd))).1

/-- An identifier is written between quotes as it is. -/
theorem writeString_ofText {name : Text} (h : isIdentifier name = true) :
    writeString (Runes.ofText name) = '"' :: (name ++ ['"']) := by
  have hchars : ∀ c ∈ name, writeRune (.char c) = [c] := by
    cases name with
    | nil => exact nofun
    | cons c rest =>
      intro d hd
      exact (isNameRest_and_writeRune ((isIdentifier_cons h).2 d hd)).2
  have hname : (Runes.ofText name).flatMap writeRune = name := by
    rw [Runes.ofText, List.flatMap_map]
    calc
      name.flatMap (fun c => writeRune (.char c)) = name.flatMap (fun c => [c]) :=
        List.flatMap_congr hchars
      _ = name := List.flatMap_singleton' name
  rw [writeString, hname]
  rfl

/-! ### Strings -/

theorem hexDigits_inside (width n : Nat) :
    ∀ c ∈ hexDigits width n, c ≠ '\\' ∧ c ≠ '$' ∧ c ≠ '"' ∧ c ≠ '\n' := by
  have hall : ∀ k : Fin 16, Nat.digitChar k.val ≠ '\\' ∧ Nat.digitChar k.val ≠ '$' ∧
      Nat.digitChar k.val ≠ '"' ∧ Nat.digitChar k.val ≠ '\n' := by decide
  intro c hc
  obtain ⟨place, -, rfl⟩ := List.mem_map.mp hc
  exact hall ⟨_, Nat.mod_lt _ (by decide)⟩

theorem closesString_unitEscape (unit : Nat) (h : ClosesString text) :
    ClosesString (unitEscape unit ++ text) := by
  have hescape : Mask.Shows [.string] ['\\', 'u'] [' ', ' '] [.string] :=
    Mask.shows_escape (by decide)
  have hdigits : ClosesString (hexDigits 4 unit ++ text) := h.chars _ (hexDigits_inside 4 unit)
  have hclose : ClosesString (['\\', 'u'] ++ (hexDigits 4 unit ++ text)) :=
    hdigits.append hescape (by simp)
  exact hclose

theorem Code.eq_of_head? {rune : Rune} {code : Text} (h : Code rune code) (hc : c ≠ '\\')
    (hhead : (code ++ rest).head? = some c) : rune = .char c := by
  cases h with
  | plain => simpa using hhead
  | short => exact absurd (by simpa using hhead.symm) hc
  | unit => exact absurd (by simpa [unitEscape] using hhead.symm) hc
  | pair => exact absurd (by simpa [unitEscape] using hhead.symm) hc
  | surrogate => exact absurd (by simpa [unitEscape] using hhead.symm) hc

/-- What a written string starts with, if it is no escape. -/
theorem head?_flatMap_writeRune (hescape : c ≠ '\\') (hquote : c ≠ '"')
    (h : (string.flatMap writeRune ++ ['"'] ++ rest).head? = some c) :
    ∃ more, string = .char c :: more := by
  cases string with
  | nil => exact absurd (by simpa using h.symm) hquote
  | cons first string =>
    rw [List.flatMap_cons, List.append_assoc, List.append_assoc] at h
    exact ⟨string, by rw [(code_writeRune first).eq_of_head? hescape h]⟩

/-- An interpolation in a written string was one before. -/
theorem isInfix_of_isPrefixOf
    (h : ['$', '{'].isPrefixOf (string.flatMap writeRune ++ ['"'] ++ rest) = true) :
    [.char '$', .char '{'] <:+: string := by
  obtain ⟨after, hafter⟩ := List.isPrefixOf_iff_prefix.mp h
  have hdollar : (string.flatMap writeRune ++ ['"'] ++ rest).head? = some '$' := by
    rw [← hafter]
    rfl
  obtain ⟨more, rfl⟩ := head?_flatMap_writeRune (by decide) (by decide) hdollar
  have hmore : '{' :: after = more.flatMap writeRune ++ ['"'] ++ rest := (List.cons.inj hafter).2
  have hbrace : (more.flatMap writeRune ++ ['"'] ++ rest).head? = some '{' := by
    rw [← hmore]
    rfl
  obtain ⟨more, rfl⟩ := head?_flatMap_writeRune (by decide) (by decide) hbrace
  exact ⟨[], more, rfl⟩

/-- A string without interpolations stays inside its quotes. -/
theorem closesString_flatMap (h : ¬[.char '$', .char '{'] <:+: string) :
    ClosesString (string.flatMap writeRune ++ ['"']) := by
  induction string with
  | nil => exact ⟨['"'], Mask.shows_closeQuote [], by simp⟩
  | cons first string ih =>
    have htail : ¬[.char '$', .char '{'] <:+: string :=
      fun hinside => h (hinside.trans (List.suffix_cons ..).isInfix)
    have hrest := ih htail
    rw [List.flatMap_cons, List.append_assoc]
    have hcode := code_writeRune first
    generalize writeRune first = code at hcode
    cases hcode with
    | @plain c hcode hquote hescape =>
      by_cases hdollar : c = '$'
      · subst hdollar
        rw [List.singleton_append]
        refine hrest.dollar (fun rest hhead => ?_) fun rest => ?_
        · obtain ⟨more, rfl⟩ := head?_flatMap_writeRune (by decide) (by decide) hhead
          exact h ⟨[], more, rfl⟩
        · -- two dollar signs and a brace would be an interpolation in what follows
          exact Bool.eq_false_iff.mpr fun hprefix => htail (isInfix_of_isPrefixOf hprefix)
      · have hline : c ≠ '\n' := by
          rintro rfl
          exact absurd hcode (by decide)
        exact hrest.chars [c] (by simp [hescape, hdollar, hquote, hline])
    | @short c letter _ hletter =>
      have hline : letter ≠ '\n' := by
        rintro rfl
        cases hletter
      exact hrest.append (Mask.shows_escape hline) (by simp)
    | @unit c _ => exact closesString_unitEscape _ hrest
    | @pair c _ =>
      rw [List.append_assoc]
      exact closesString_unitEscape _ (closesString_unitEscape _ hrest)
    | surrogate => exact closesString_unitEscape _ hrest

theorem isItem_writeString (h : ¬[.char '$', .char '{'] <:+: string) :
    IsItem (writeString string) where
  isTrimmed := .between (by decide) _
  isUncommented := (closesString_flatMap h).isUncommented

/-! ### Lists and objects -/

/-- The fields of an object as texts. -/
def fieldTexts (style : Style) (depth : Nat) (fields : List (Text × Json)) : List (Text × Text) :=
  fields.map fun field => (field.1, writeAt style (depth + 1) field.2)

theorem writeItems_eq (h : style.between depth = ',' :: layout) (items : List Json) :
    writeItems style depth items = followedBy layout (items.map (writeAt style (depth + 1))) := by
  induction items with
  | nil => rfl
  | cons item items ih =>
    rw [writeItems, h, ih]
    simp [followedBy]

theorem writeFields_eq (h : style.between depth = ',' :: layout)
    (hnames : ∀ field ∈ fields, isIdentifier field.1 = true) :
    writeFields style depth (fields.map fun field => (Runes.ofText field.1, field.2)) =
      followedBy layout ((fieldTexts style depth fields).map fieldText) := by
  induction fields with
  | nil => rfl
  | cons field fields ih =>
    obtain ⟨hname, hnames⟩ := List.forall_mem_cons.mp hnames
    rw [List.map_cons, writeFields, h, ih hnames, writeString_ofText hname]
    simp [followedBy, fieldTexts, fieldText]

/-- What stands between the brackets of a list or an object that is not empty. -/
def between (style : Style) (depth : Nat) (layout first : Text) (more : List Text) : Text :=
  style.opening depth ++ (first ++ (followedBy layout more ++ style.closing depth))

theorem writeAt_array (h : style.between depth = ',' :: layout) (item : Json) (items : List Json) :
    writeAt style depth (.array (item :: items)) =
      '[' :: (between style depth layout (writeAt style (depth + 1) item)
        (items.map (writeAt style (depth + 1))) ++ [']']) := by
  rw [writeAt, writeItems_eq h]
  simp [between]

theorem writeAt_object (h : style.between depth = ',' :: layout) {field : Text × Json}
    (hnames : ∀ other ∈ field :: fields, isIdentifier other.1 = true) :
    writeAt style depth
        (.object ((field :: fields).map fun field => (Runes.ofText field.1, field.2))) =
      '{' :: (between style depth layout (fieldText (field.1, writeAt style (depth + 1) field.2))
        ((fieldTexts style depth fields).map fieldText) ++ ['}']) := by
  obtain ⟨hname, hnames⟩ := List.forall_mem_cons.mp hnames
  rw [List.map_cons, writeAt, writeFields_eq h hnames, writeString_ofText hname]
  simp [between, fieldText]

theorem isField_fieldTexts (hnames : ∀ field ∈ fields, isIdentifier field.1 = true)
    (hitems : ∀ field ∈ fields, IsItem (writeAt style (depth + 1) field.2)) :
    ∀ field ∈ fieldTexts style depth fields, IsField field := by
  intro field hfield
  obtain ⟨field, hmem, rfl⟩ := List.mem_map.mp hfield
  exact ⟨isName_of_isIdentifier (hnames field hmem), hitems field hmem⟩

theorem isItem_bracketed (hstyle : style.IsLaidOut) (hlayout : ∀ c ∈ layout, isLayout c = true)
    {opening closing : Char} (hencloses : Encloses opening closing) {first : Text}
    {more : List Text} (hfirst : IsUncommented (fun _ => True) first)
    (hmore : ∀ text ∈ more, IsUncommented (fun _ => True) text) :
    IsItem (opening :: (between style depth layout first more ++ [closing])) where
  isTrimmed := .between (by cases hencloses <;> decide) _
  isUncommented := .group hencloses (isUncommented_between (hstyle.opening depth) hlayout
    (hstyle.closing depth).isLayout hfirst hmore)

theorem isItem_empty {opening closing : Char} (hencloses : Encloses opening closing) :
    IsItem [opening, closing] where
  isTrimmed := .between (by cases hencloses <;> decide) []
  isUncommented := .group hencloses .nil

/-- The text of a value can be told from what stands around it. -/
theorem isItem_writeAt (hstyle : style.IsLaidOut) (h : value.IsLiteral)
    (depth : Nat) : IsItem (writeAt style depth value) := by
  induction h generalizing depth with
  | null =>
    rw [writeAt]
    exact ⟨Term.null.isTrimmed, .of_forall (forall_of_all (by decide)) (by decide)⟩
  | bool value =>
    rw [writeAt]
    refine ⟨(Term.boolean value).isTrimmed, ?_⟩
    cases value <;> exact .of_forall (forall_of_all (by decide)) (by decide)
  | @int value _ =>
    have hnumber : (Literal.numeral? (ofInt value)).isSome = true := by
      rw [Literal.numeral?_ofInt]
      rfl
    rw [writeAt]
    refine ⟨(Term.number (ofInt value) hnumber).isTrimmed, ?_⟩
    exact isUncommented_of_wordClass (forall_of_all (by decide))
      (isNumberChar_of_numeral? hnumber).2
  | string hplain _ =>
    rw [writeAt]
    exact isItem_writeString hplain
  | @array items _ ih =>
    cases items with
    | nil =>
      rw [writeAt]
      exact isItem_empty .bracket
    | cons item items =>
      obtain ⟨layout, hlayout, hbetween⟩ := hstyle.between depth
      obtain ⟨hitem, hitems⟩ := List.forall_mem_cons.mp ih
      rw [writeAt_array hbetween]
      refine isItem_bracketed hstyle hlayout .bracket
        ((hitem _).isUncommented.mono fun _ _ => trivial) fun text htext => ?_
      obtain ⟨other, hother, rfl⟩ := List.mem_map.mp htext
      exact (hitems other hother _).isUncommented.mono fun _ _ => trivial
  | @object fields _ hnames _ ih =>
    cases fields with
    | nil =>
      rw [List.map_nil, writeAt]
      exact isItem_empty .brace
    | cons field fields =>
      obtain ⟨layout, hlayout, hbetween⟩ := hstyle.between depth
      have hfields := isField_fieldTexts hnames fun other hother => ih other hother (depth + 1)
      obtain ⟨hfield, hfields⟩ := List.forall_mem_cons.mp hfields
      rw [writeAt_object hbetween hnames]
      refine isItem_bracketed hstyle hlayout .brace (isUncommented_fieldText hfield)
        fun text htext => ?_
      obtain ⟨other, hother, rfl⟩ := List.mem_map.mp htext
      exact isUncommented_fieldText (hfields other hother)

theorem nodup_ofText (h : (fields.map (·.1)).Nodup) :
    ((fields.map fun field => (Runes.ofText field.1, field.2)).map (·.1)).Nodup := by
  rw [List.map_map]
  rw [List.Nodup, List.pairwise_map] at h ⊢
  exact h.imp fun hne heq => hne ((List.map_inj_right fun _ _ hchar => Rune.char.inj hchar).mp heq)

theorem put_of_not_mem {key : Runes} {fields : List (Runes × Json)}
    (h : key ∉ fields.map (·.1)) (value : Json) :
    put key value fields = fields ++ [(key, value)] := by
  induction fields with
  | nil => rfl
  | cons field fields ih =>
    obtain ⟨hne, hrest⟩ := not_or.mp (mt List.mem_cons.mpr h)
    rw [put, if_neg (Ne.symm hne), ih hrest, List.cons_append]

/-- Fields whose keys are all different are kept as they are. -/
theorem collect_of_nodup {fields : List (Runes × Json)} (h : (fields.map (·.1)).Nodup) :
    collect fields = fields := by
  suffices hfold : ∀ done : List (Runes × Json), ((done ++ fields).map (·.1)).Nodup →
      fields.foldl (fun fields pair => put pair.1 pair.2 fields) done = done ++ fields by
    exact hfold [] h
  clear h
  induction fields with
  | nil => simp
  | cons field fields ih =>
    intro done h
    have hnew : field.1 ∉ done.map (·.1) := by
      simp only [List.map_append, List.map_cons, List.nodup_append] at h
      exact fun hmem => h.2.2 _ hmem _ List.mem_cons_self rfl
    rw [List.foldl_cons, put_of_not_mem hnew, ih _ (by simpa using h), List.append_assoc,
      List.singleton_append]

end Json

/-! ### Reading -/

namespace Literal

open Text Hcl Json

theorem mapM_eq_ok {α β γ ε : Type} {write : γ → α} {read : α → Except ε β} {result : γ → β}
    {values : List γ} (h : ∀ value ∈ values, read (write value) = .ok (result value)) :
    (values.map write).mapM read = .ok (values.map result) := by
  induction values with
  | nil => rfl
  | cons value values ih =>
    obtain ⟨hvalue, hvalues⟩ := List.forall_mem_cons.mp h
    rw [List.map_cons, List.mapM_cons, hvalue, ih hvalues]
    rfl

theorem isBetween_of_head? {opening closing : Char} (h : text.head? ≠ some opening) :
    isBetween opening closing text = false := by
  simp [isBetween, h]

theorem isBetween_self (opening closing : Char) (body : Text) :
    isBetween opening closing (opening :: (body ++ [closing])) = true := by
  simp [isBetween, List.getLast?_cons]

theorem inner_between (opening closing : Char) (body : Text) :
    inner (opening :: (body ++ [closing])) = body := by
  simp [inner]

theorem read_scalar (h : IsTrimmed text) (hbrace : text.head? ≠ some '{')
    (hbracket : text.head? ≠ some '[') : read text = scalar text := by
  have hstrip : strip text = text := h.strip
  rw [read, dif_neg, dif_neg, hstrip]
  · simp [hstrip, isBetween_of_head? hbracket]
  · simp [hstrip, isBetween_of_head? hbrace]

/-- A list is read item by item. -/
theorem read_list {body : Text} {values : List Json} (h : (items body).mapM read = .ok values) :
    read ('[' :: (body ++ [']'])) = .ok (.array values) := by
  have htrimmed : IsTrimmed ('[' :: (body ++ [']'])) := .between (by decide) body
  have hstrip := htrimmed.strip
  rw [read, dif_neg, dif_pos]
  · simp only [List.mapM_subtype, hstrip, inner_between, List.unattach_attach, h]
    rfl
  · rw [hstrip]
    exact isBetween_self ..
  · simp [hstrip, isBetween]

/-- The key and the value of a field. -/
def readField (field : Text × Text) : Except LiteralError (Runes × Json) := do
  let value ← read field.2
  return (Runes.ofText field.1, value)

/-- An object is read field by field. -/
theorem read_object {body : Text} {texts : List (Text × Text)} {fields : List (Runes × Json)}
    (hpairs : pairs (assignments body true) = texts) (hbody : texts ≠ [] ∨ strip body = [])
    (hread : texts.mapM readField = .ok fields) (hkeys : (fields.map (·.1)).Nodup) :
    read ('{' :: (body ++ ['}'])) = .ok (.object fields) := by
  have htrimmed : IsTrimmed ('{' :: (body ++ ['}'])) := .between (by decide) body
  have hstrip := htrimmed.strip
  have hfields : (assignments body true).mapM (fun field => readField (field.name, field.value)) =
      .ok fields := by
    rw [← hread, ← hpairs, pairs, List.mapM_map]
    rfl
  have hempty : ((assignments body true).isEmpty && !(strip body).isEmpty) = false := by
    rcases hbody with hbody | hbody
    · have hne : assignments body true ≠ [] := by
        rintro hnil
        exact hbody (by rw [← hpairs, hnil]; rfl)
      simp [hne]
    · simp [hbody]
  rw [read, dif_pos]
  · simp only [List.mapM_subtype, hstrip, inner_between, List.unattach_attach, hempty]
    simp only [readField] at hfields
    rw [if_neg (by decide), hfields]
    exact congrArg (fun fields => Except.ok (Json.object fields)) (collect_of_nodup hkeys)
  · rw [hstrip]
    exact isBetween_self ..

theorem head?_ofInt (n : Int) (h : c ≠ '-' ∧ c.isDigit = false) : (ofInt n).head? ≠ some c := by
  intro hhead
  rcases eq_or_isDigit_of_mem_ofInt (List.mem_of_head? hhead) with heq | hdigit
  · exact h.1 heq
  · simp [h.2] at hdigit

theorem scalar_writeString (h : string.IsJoined) :
    scalar (writeString string) = .ok (.string string) := by
  have hbetween : isBetween '"' '"' (writeString string) = true := isBetween_self ..
  have hlength : 2 ≤ (writeString string).length := by simp [writeString]
  rw [scalar, if_pos (by simp [hbetween, hlength]), read_writeString h]

/-- A list is read back if its items are. -/
theorem read_writeAt_array (hstyle : style.IsLaidOut) {values : List Json}
    (hitems : ∀ value ∈ values, IsItem (writeAt style (depth + 1) value))
    (hvalues : ∀ value ∈ values, read (writeAt style (depth + 1) value) = .ok value) :
    read (writeAt style depth (.array values)) = .ok (.array values) := by
  cases values with
  | nil =>
    have hread : read ('[' :: ([] ++ [']'])) = .ok (.array []) := read_list rfl
    rw [writeAt]
    exact hread
  | cons value values =>
    obtain ⟨layout, hlayout, hbetween⟩ := hstyle.between depth
    obtain ⟨hfirst, hmore⟩ := List.forall_mem_cons.mp hitems
    have hbody : items (between style depth layout (writeAt style (depth + 1) value)
        (values.map (writeAt style (depth + 1)))) =
          (value :: values).map (writeAt style (depth + 1)) :=
      items_eq hlayout (hstyle.closing depth).isLayout (hstyle.opening depth) hfirst
        (List.forall_mem_map.mpr hmore)
    rw [writeAt_array hbetween]
    refine read_list ?_
    rw [hbody, mapM_eq_ok hvalues, List.map_id']

/-- An object is read back if the values of its fields are. -/
theorem read_writeAt_object (hstyle : style.IsLaidOut) (hkeys : (fields.map (·.1)).Nodup)
    (hnames : ∀ field ∈ fields, isIdentifier field.1 = true)
    (hitems : ∀ field ∈ fields, IsItem (writeAt style (depth + 1) field.2))
    (hvalues : ∀ field ∈ fields, read (writeAt style (depth + 1) field.2) = .ok field.2) :
    read (writeAt style depth (.object (fields.map fun field => (Runes.ofText field.1, field.2)))) =
      .ok (.object (fields.map fun field => (Runes.ofText field.1, field.2))) := by
  cases fields with
  | nil =>
    have hread : read ('{' :: ([] ++ ['}'])) = .ok (.object []) :=
      read_object rfl (.inr rfl) rfl .nil
    rw [List.map_nil, writeAt]
    exact hread
  | cons field fields =>
    obtain ⟨layout, hlayout, hbetween⟩ := hstyle.between depth
    obtain ⟨hfirst, hmore⟩ := List.forall_mem_cons.mp (isField_fieldTexts hnames hitems)
    have hbody : pairs (assignments (between style depth layout
        (fieldText (field.1, writeAt style (depth + 1) field.2))
          ((fieldTexts style depth fields).map fieldText)) true) =
            fieldTexts style depth (field :: fields) :=
      pairs_object hlayout (hstyle.closing depth) (hstyle.opening depth) hfirst hmore
    have hfields : ∀ other ∈ field :: fields,
        readField (other.1, writeAt style (depth + 1) other.2) =
          .ok (Runes.ofText other.1, other.2) := by
      intro other hother
      rw [readField, hvalues other hother]
      rfl
    rw [writeAt_object hbetween hnames]
    refine read_object hbody (.inl (by simp [fieldTexts])) (mapM_eq_ok hfields) ?_
    exact nodup_ofText hkeys

/-- A value is read back from its text. -/
theorem read_writeAt (hstyle : style.IsLaidOut) (h : value.IsLiteral)
    (depth : Nat) : read (writeAt style depth value) = .ok value := by
  have hitem {value : Json} (h : value.IsLiteral) (depth : Nat) :
      IsItem (writeAt style depth value) := isItem_writeAt hstyle h depth
  induction h generalizing depth with
  | null =>
    have htrimmed := (hitem .null depth).isTrimmed
    rw [writeAt] at htrimmed ⊢
    rw [read_scalar htrimmed (by decide) (by decide)]
    rfl
  | bool value =>
    have htrimmed := (hitem (.bool value) depth).isTrimmed
    rw [writeAt] at htrimmed ⊢
    rw [read_scalar htrimmed (by cases value <;> decide) (by cases value <;> decide)]
    cases value <;> rfl
  | @int value hlength =>
    have htrimmed := (hitem (.int hlength) depth).isTrimmed
    rw [writeAt] at htrimmed ⊢
    rw [read_scalar htrimmed (head?_ofInt value (by decide)) (head?_ofInt value (by decide))]
    exact scalar_ofInt hlength
  | @string value hplain hjoined =>
    have htrimmed := (hitem (.string hplain hjoined) depth).isTrimmed
    rw [writeAt] at htrimmed ⊢
    rw [read_scalar htrimmed (by simp [writeString]) (by simp [writeString])]
    exact scalar_writeString hjoined
  | array hvalues ih =>
    exact read_writeAt_array hstyle (fun value hvalue => hitem (hvalues value hvalue) _)
      fun value hvalue => ih value hvalue _
  | object hkeys hnames hvalues ih =>
    exact read_writeAt_object hstyle hkeys hnames
      (fun field hfield => hitem (hvalues field hfield) _) fun field hfield => ih field hfield _

/-! ### The display form -/

/-- A value without parts has the same text in every style. -/
theorem format_eq (value : Json) : format value = writeAt indented 0 value := by
  cases value <;> simp [format, write, writeIndented, writeAt]

/-- The text with one item per line is its own display form. -/
theorem display_format (h : value.IsLiteral) : display (format value) = .ok (format value) := by
  have htrimmed := (isItem_writeAt isLaidOut_indented h 0).isTrimmed
  have hread := read_writeAt isLaidOut_indented h 0
  rw [← format_eq] at htrimmed hread
  have hwrite : writeIndented value = format value := (format_eq value).symm
  rw [display, htrimmed.strip]
  split
  · simp only [hread, hwrite]
  · simp only [hread, hwrite]
  · rfl

/-- A value is read back both from its literal text and from its text on one line, and its
literal text is its own display form. -/
theorem format_roundTrip {value : Json} (h : value.IsLiteral) :
    read (format value) = .ok value ∧ read value.write = .ok value ∧
      display (format value) = .ok (format value) := by
  refine ⟨?_, read_writeAt isLaidOut_compact h 0, display_format h⟩
  rw [format_eq]
  exact read_writeAt isLaidOut_indented h 0

/-- The fields of a listener. Its rule has quotes, brackets, a comma, a comment mark, a line
break and a character beyond U+FFFF. -/
def listener : List (Text × Json) :=
  [("rule-1".toList, .ofString "\"]\x7d, # 😀\n"), ("_ports".toList, .array [.int (-443), .null]),
    ("tags".toList, .object []), ("open".toList, .bool false)]

/-- A list with a listener in it. -/
def listeners : Json :=
  .array [.object (listener.map fun field => (Runes.ofText field.1, field.2))]

theorem listeners_roundTrip :
    listeners.IsLiteral ∧ read (format listeners) = .ok listeners ∧
      read listeners.write = .ok listeners ∧
        display (format listeners) = .ok (format listeners) := by
  have hport : (Json.int (-443)).IsLiteral := .int (by decide)
  have hports : (Json.array [.int (-443), .null]).IsLiteral :=
    .array (List.forall_mem_cons.mpr ⟨hport, List.forall_mem_singleton.mpr .null⟩)
  have htags : (Json.object []).IsLiteral :=
    @IsLiteral.object [] .nil nofun nofun
  have hrule : (Json.ofString "\"]\x7d, # 😀\n").IsLiteral :=
    .string (fun h => absurd (h.subset List.mem_cons_self) (by decide)) (by decide)
  have hvalues : ∀ field ∈ listener, field.2.IsLiteral := by
    simp only [listener, List.forall_mem_cons]
    exact ⟨hrule, hports, htags, .bool false, nofun⟩
  have hnames : ∀ field ∈ listener, isIdentifier field.1 = true :=
    List.all_eq_true.mp (by decide)
  have hliteral : listeners.IsLiteral :=
    .array (List.forall_mem_singleton.mpr (.object (by decide) hnames hvalues))
  exact ⟨hliteral, format_roundTrip hliteral⟩

end Literal

end TerraformTrace
