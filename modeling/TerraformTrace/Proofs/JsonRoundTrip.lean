import TerraformTrace.Proofs.JsonNumber

/-!
# TerraformTrace.Proofs.JsonRoundTrip

JSON is read back as it was written. **Every value that was read from some text is read again
from the text it is written as**, on one line or with one item per line (`read_writeAt`): its
strings hold no halves of pairs, its integers are not too long, and the keys of its objects are
all different (`IsReadable`, `isReadable_of_spells`). Of a floating-point number it is assumed.
-/

namespace TerraformTrace.Json

open Text Hcl

variable {items : List Json} {fields : List (Runes × Json)} {value : Json} {c : Char}
  {text space : Text} {rounds : Nat}

/-! ### Values that are read -/

mutual

/-- The floating-point numbers in a value. -/
def floats : Json → List Binary64
  | .null | .bool _ | .int _ | .string _ => []
  | .float x => [x]
  | .array items => floatsOfItems items
  | .object fields => floatsOfFields fields

/-- The floating-point numbers in items. -/
def floatsOfItems : List Json → List Binary64
  | [] => []
  | item :: items => floats item ++ floatsOfItems items

/-- The floating-point numbers in fields. -/
def floatsOfFields : List (Runes × Json) → List Binary64
  | [] => []
  | (_, value) :: fields => floats value ++ floatsOfFields fields

end

theorem mem_floats_array {x : Binary64} :
    x ∈ (Json.array items).floats ↔ ∃ item ∈ items, x ∈ item.floats := by
  rw [floats]
  induction items with
  | nil => simp [floatsOfItems]
  | cons item items ih => simp [floatsOfItems, ih]

theorem mem_floats_object {x : Binary64} :
    x ∈ (Json.object fields).floats ↔ ∃ field ∈ fields, x ∈ field.2.floats := by
  rw [floats]
  induction fields with
  | nil => simp [floatsOfFields]
  | cons field fields ih => simp [floatsOfFields, ih]

/-- The values that are read from the texts they are written as. -/
inductive IsReadable : Json → Prop
  | null : IsReadable .null
  | bool (value : Bool) : IsReadable (.bool value)
  | int {value : Int} (hlength : (ofNat value.natAbs).length ≤ maxDigits) :
      IsReadable (.int value)
  | float {value : Binary64} (hread : read (write (.float value)) = .ok (.float value)) :
      IsReadable (.float value)
  | string {value : Runes} (hjoined : value.IsJoined) : IsReadable (.string value)
  | array {items : List Json} (hitems : ∀ item ∈ items, IsReadable item) :
      IsReadable (.array items)
  | object {fields : List (Runes × Json)} (hkeys : (fields.map (·.1)).Nodup)
      (hjoined : ∀ field ∈ fields, field.1.IsJoined)
      (hvalues : ∀ field ∈ fields, IsReadable field.2) : IsReadable (.object fields)

theorem mem_put {key : Runes} {field : Runes × Json}
    (h : field ∈ put key value fields) : field = (key, value) ∨ field ∈ fields := by
  induction fields with
  | nil => exact .inl (List.mem_singleton.mp h)
  | cons other fields ih =>
    rw [put] at h
    split at h
    next =>
      exact (List.mem_cons.mp h).imp_right (List.mem_cons_of_mem _)
    next =>
      rcases List.mem_cons.mp h with rfl | h
      · exact .inr List.mem_cons_self
      · exact (ih h).imp_right (List.mem_cons_of_mem _)

theorem mem_keys_put {key other : Runes} :
    other ∈ (put key value fields).map (·.1) ↔ other = key ∨ other ∈ fields.map (·.1) := by
  induction fields with
  | nil => simp [put]
  | cons field fields ih =>
    rw [put]
    split
    next heq => simp [heq]
    next =>
      rw [List.map_cons, List.mem_cons, ih, List.map_cons, List.mem_cons]
      exact or_left_comm

theorem nodup_keys_put (h : (fields.map (·.1)).Nodup) (key : Runes)
    (value : Json) : ((put key value fields).map (·.1)).Nodup := by
  induction fields with
  | nil => simp [put]
  | cons field fields ih =>
    obtain ⟨hnot, hrest⟩ := List.nodup_cons.mp h
    rw [put]
    split
    next heq => exact List.nodup_cons.mpr ⟨heq ▸ hnot, hrest⟩
    next hne =>
      refine List.nodup_cons.mpr ⟨fun hmem => ?_, ih hrest⟩
      exact (mem_keys_put.mp hmem).elim hne hnot

/-- What `put` preserves, `collect` preserves. -/
theorem collect_induction {motive : List (Runes × Json) → Prop} (hnil : motive [])
    {pairs : List (Runes × Json)}
    (hput : ∀ pair ∈ pairs, ∀ fields, motive fields → motive (put pair.1 pair.2 fields)) :
    motive (collect pairs) := by
  suffices hfold : ∀ fields, motive fields →
      motive (pairs.foldl (fun fields pair => put pair.1 pair.2 fields) fields) from hfold [] hnil
  induction pairs with
  | nil => exact fun _ h => h
  | cons pair pairs ih =>
    obtain ⟨hpair, hput⟩ := List.forall_mem_cons.mp hput
    exact fun fields h => ih hput _ (hpair fields h)

theorem nodup_keys_collect (pairs : List (Runes × Json)) : ((collect pairs).map (·.1)).Nodup :=
  collect_induction (motive := fun fields => (fields.map (·.1)).Nodup) List.nodup_nil
    fun pair _ _ h => nodup_keys_put h pair.1 pair.2

theorem mem_of_mem_collect {pairs : List (Runes × Json)} :
    ∀ field ∈ collect pairs, field ∈ pairs := by
  refine collect_induction (motive := fun fields => ∀ field ∈ fields, field ∈ pairs)
    (List.forall_mem_nil _) fun pair hpair fields h field hfield => ?_
  rcases mem_put hfield with rfl | hfield
  · exact hpair
  · exact h field hfield

theorem digit?_lt {digit : Nat} (h : digit? c = some digit) : digit < 10 := by
  rw [digit?] at h
  split at h
  next hdigit =>
    obtain rfl := Option.some.inj h
    simp only [Char.isDigit, Bool.and_eq_true, decide_eq_true_eq] at hdigit
    have hnine : c.val.toNat ≤ 57 := UInt32.le_iff_toNat_le.mp hdigit.2
    have hcode : c.toNat = c.val.toNat := rfl
    omega
  next =>
    obtain ⟨first, hfirst, rfl⟩ := Option.map_eq_some_iff.mp h
    have hrange := List.find?_some hfirst
    simp only [Bool.and_eq_true, decide_eq_true_eq] at hrange
    omega

theorem digitsValue_lt (digits : Text) : digitsValue digits < Nat.pow 10 digits.length := by
  have hfold : ∀ (digits : Text) (value : Nat),
      (digits.filterMap digit?).foldl (fun value digit => 10 * value + digit) value <
        (value + 1) * Nat.pow 10 digits.length := by
    intro digits
    induction digits with
    | nil => simp
    | cons c digits ih =>
      intro value
      have hpow : Nat.pow 10 (c :: digits).length = Nat.pow 10 digits.length * 10 := rfl
      rw [hpow]
      cases hc : digit? c with
      | none =>
        rw [List.filterMap_cons_none hc]
        have hmore : (value + 1) * Nat.pow 10 digits.length ≤
            (value + 1) * (Nat.pow 10 digits.length * 10) :=
          Nat.mul_le_mul_left _ (Nat.le_mul_of_pos_right _ (by decide))
        exact Nat.lt_of_lt_of_le (ih value) hmore
      | some digit =>
        have hdigit := digit?_lt hc
        rw [List.filterMap_cons_some hc, List.foldl_cons]
        calc
          _ < (10 * value + digit + 1) * Nat.pow 10 digits.length := ih _
          _ ≤ ((value + 1) * 10) * Nat.pow 10 digits.length :=
            Nat.mul_le_mul_right _ (by omega)
          _ = (value + 1) * (Nat.pow 10 digits.length * 10) := by
            rw [Nat.mul_assoc, Nat.mul_comm 10]
  simpa [digitsValue] using hfold digits 0

/-- A number has no more digits than a text it is read from. -/
theorem length_ofNat_digitsValue_le {digits : Text} (h : digits ≠ []) :
    (ofNat (digitsValue digits)).length ≤ digits.length :=
  (Nat.length_toDigits_le_iff (by decide) (List.length_pos_iff.mpr h)).mpr (digitsValue_lt digits)

theorem isReadable_of_number (h : SpellsNumber text value)
    (hfloats : ∀ x ∈ value.floats, read (write (.float x)) = .ok (.float x)) :
    value.IsReadable := by
  rcases h.cases with ⟨negative, whole, hwhole, hlength, rfl⟩ | ⟨_, _, _, rfl⟩
  · have hdigits := length_ofNat_digitsValue_le hwhole.ne_nil
    have hvalue : (if negative then -(digitsValue whole : Int) else digitsValue whole).natAbs =
        digitsValue whole := by
      cases negative <;> simp
    refine .int ?_
    rw [hvalue]
    omega
  · exact .float (hfloats _ (List.mem_singleton.mpr rfl))

/-- What is read is readable, if its floating-point numbers are. -/
theorem isReadable_of_spells (h : Spells text value)
    (hfloats : ∀ x ∈ value.floats, read (write (.float x)) = .ok (.float x)) :
    value.IsReadable := by
  induction h with
  | word hword =>
    simp only [words, List.mem_cons, List.not_mem_nil, or_false, Prod.mk.injEq] at hword
    rcases hword with ⟨rfl, rfl⟩ | ⟨rfl, rfl⟩ | ⟨rfl, rfl⟩ | ⟨rfl, rfl⟩ | ⟨rfl, rfl⟩ | ⟨rfl, rfl⟩
    · exact .null
    · exact .bool true
    · exact .bool false
    all_goals exact .float (hfloats _ (List.mem_singleton.mpr rfl))
  | number hnumber => exact isReadable_of_number hnumber hfloats
  | string _ hjoined => exact .string hjoined
  | emptyArray => exact .array (List.forall_mem_nil _)
  | @array items _ _ ih =>
    refine .array fun value hvalue => ?_
    obtain ⟨item, hitem, rfl⟩ := List.mem_map.mp hvalue
    exact ih item hitem fun x hx => hfloats x (mem_floats_array.mpr ⟨_, hvalue, hx⟩)
  | emptyObject => exact .object List.nodup_nil (List.forall_mem_nil _) (List.forall_mem_nil _)
  | @object members _ _ ih =>
    refine .object (nodup_keys_collect _) (fun field hfield => ?_) fun field hfield => ?_
    · obtain ⟨member, -, rfl⟩ := List.mem_map.mp (mem_of_mem_collect field hfield)
      exact member.isJoined
    · obtain ⟨member, hmember, rfl⟩ := List.mem_map.mp (mem_of_mem_collect field hfield)
      exact ih member hmember fun x hx => hfloats x (mem_floats_object.mpr ⟨_, hfield, hx⟩)

/-! ### Written values -/

theorem isSpace_of_isLayout (h : isLayout c = true) : isSpace c = true := by
  simp only [isLayout, isIndent, Bool.or_eq_true, decide_eq_true_eq] at h
  rcases h with ((rfl | rfl) | rfl) | rfl <;> decide

theorem skipSpace_append (h : IsSpace space)
    (htext : ∀ c ∈ text.head?, isSpace c = false) : skipSpace (space ++ text) = text := by
  rw [skipSpace, List.dropWhile_append_of_pos h]
  cases text with
  | nil => rfl
  | cons c text => exact List.dropWhile_cons_of_neg (by simp [htext c rfl])

theorem skipSpace_cons (h : isSpace c = false) (text : Text) : skipSpace (c :: text) = c :: text :=
  List.dropWhile_cons_of_neg (by simp [h])

/-- A text that begins with a value and from which the value is read, up to a delimiter. Each
level of nesting takes two rounds. -/
structure IsWritten (text : Text) (value : Json) : Prop where
  first : ∃ c more, text = c :: more ∧ isSpace c = false ∧ c ≠ ']' ∧ c ≠ '\uFEFF'
  read : ∀ {rounds : Nat}, 2 * text.length < rounds → ∀ {rest : Text}, IsDelimited rest →
    readValue rounds (text ++ rest) = .ok (value, rest)

theorem IsWritten.skipSpace (h : IsWritten text value) (hspace : IsSpace space) (rest : Text) :
    skipSpace (space ++ (text ++ rest)) = text ++ rest := by
  obtain ⟨c, more, rfl, hc, -, -⟩ := h.first
  refine skipSpace_append hspace fun d hd => ?_
  obtain rfl := Option.some.inj hd
  exact hc

theorem IsWritten.skipSpace_blank (h : IsWritten text value)
    (rest : Text) : Json.skipSpace (' ' :: (text ++ rest)) = text ++ rest :=
  h.skipSpace (List.forall_mem_singleton.mpr (by decide) : IsSpace [' ']) rest

theorem isWritten_scalar (hne : text ≠ []) (hchars : ∀ c ∈ text, isNumeralChar c = true)
    (hread : ∀ {rest : Text}, IsDelimited rest → readScalar (text ++ rest) = .ok (value, rest)) :
    IsWritten text value := by
  obtain ⟨c, more, rfl⟩ := List.exists_cons_of_ne_nil hne
  have hc := hchars c List.mem_cons_self
  have hother {d : Char} (hd : isNumeralChar d = false) : c ≠ d := by
    rintro rfl
    rw [hc] at hd
    cases hd
  refine ⟨⟨c, more, rfl, isSpace_of_isNumeralChar hc, hother (by decide), hother (by decide)⟩, ?_⟩
  intro rounds hrounds rest hrest
  obtain ⟨rounds, rfl⟩ := Nat.exists_eq_succ_of_ne_zero (Nat.ne_zero_of_lt hrounds)
  rw [← hread hrest, List.cons_append, readValue.eq_def]
  dsimp only
  split
  next heq => exact absurd (List.cons.inj heq).1 (hother (by decide))
  next heq => exact absurd (List.cons.inj heq).1 (hother (by decide))
  next heq => exact absurd (List.cons.inj heq).1 (hother (by decide))
  next => rfl

theorem readString_append {string : Runes} (h : string.IsJoined) (rest : Text) :
    readString (string.flatMap writeRune ++ '"' :: rest) = .ok (string, rest) := by
  refine runes_flatMap string h _ ?_ rest
  rw [List.length_append]
  exact Nat.le_trans (length_le_flatMap_writeRune string) (Nat.le_add_right ..)

theorem isWritten_string {string : Runes} (h : string.IsJoined) :
    IsWritten (writeString string) (.string string) := by
  refine ⟨⟨'"', _, rfl, by decide, by decide, by decide⟩, ?_⟩
  intro rounds hrounds rest hrest
  obtain ⟨rounds, rfl⟩ := Nat.exists_eq_succ_of_ne_zero (Nat.ne_zero_of_lt hrounds)
  have htext : writeString string ++ rest = '"' :: (string.flatMap writeRune ++ '"' :: rest) := by
    simp [writeString]
  rw [htext, readValue, readString_append h]
  rfl

theorem isDelimited_nil : IsDelimited [] := by
  intro c hc
  cases hc

theorem isDelimited_cons (hc : isDelimiter c = true) (rest : Text) : IsDelimited (c :: rest) := by
  intro d hd
  obtain rfl := Option.some.inj hd
  exact hc

theorem isDelimited_append (hspace : IsSpace space) (hc : isDelimiter c = true)
    (rest : Text) : IsDelimited (space ++ c :: rest) := by
  cases space with
  | nil => exact isDelimited_cons hc rest
  | cons e space =>
    exact isDelimited_cons (by simp [isDelimiter, hspace e List.mem_cons_self]) _

theorem skipSpace_closing (hspace : IsSpace space) (hc : isSpace c = false)
    (rest : Text) : skipSpace (space ++ c :: rest) = c :: rest :=
  skipSpace_append hspace fun d hd => by
    obtain rfl := Option.some.inj hd
    exact hc

theorem followedBy_cons_append (layout item : Text) (items : List Text) (rest : Text) :
    followedBy layout (item :: items) ++ rest =
      ',' :: (layout ++ (item ++ (followedBy layout items ++ rest))) := by
  simp [followedBy]

/-- A field of an object as it is written. -/
def memberText (write : Json → Text) (field : Runes × Json) : Text :=
  '"' :: (field.1.flatMap writeRune ++ '"' :: ':' :: ' ' :: write field.2)

theorem memberText_append (write : Json → Text) (field : Runes × Json) (rest : Text) :
    memberText write field ++ rest =
      '"' :: (field.1.flatMap writeRune ++ '"' :: ':' :: ' ' :: (write field.2 ++ rest)) := by
  simp [memberText]

theorem length_lt_memberText (write : Json → Text) (field : Runes × Json) :
    (write field.2).length < (memberText write field).length := by
  simp only [memberText, List.length_cons, List.length_append]
  omega

theorem skipSpace_memberText {layout : Text} (hlayout : IsSpace layout) (write : Json → Text)
    (field : Runes × Json) (rest : Text) :
    skipSpace (layout ++ (memberText write field ++ rest)) = memberText write field ++ rest := by
  rw [memberText_append]
  exact skipSpace_closing hlayout (by decide) _

section Separated

variable {layout closing : Text} (hlayout : IsSpace layout) (hclosing : IsSpace closing)

include hlayout hclosing

/-- The items of a list are read one after the other. -/
theorem readItems_followedBy {write : Json → Text} {item : Json}
    (h : ∀ other ∈ item :: items, IsWritten (write other) other)
    (hrounds : 2 * (write item ++ followedBy layout (items.map write)).length + 1 < rounds)
    (rest : Text) :
    readItems rounds
        (write item ++ (followedBy layout (items.map write) ++ (closing ++ ']' :: rest))) =
      .ok (item :: items, rest) := by
  induction items generalizing item rounds with
  | nil =>
    obtain ⟨rounds, rfl⟩ := Nat.exists_eq_succ_of_ne_zero (Nat.ne_zero_of_lt hrounds)
    rw [List.length_append] at hrounds
    have hitem : readValue rounds (write item ++ (closing ++ ']' :: rest)) =
        .ok (item, closing ++ ']' :: rest) :=
      (h item List.mem_cons_self).read (by omega)
        (isDelimited_append hclosing (by decide) rest)
    rw [List.map_nil, followedBy, List.flatMap_nil, List.nil_append, readItems, hitem]
    simp only [bind, Except.bind, skipSpace_closing hclosing (c := ']') (by decide)]
    rfl
  | cons next items ih =>
    obtain ⟨rounds, rfl⟩ := Nat.exists_eq_succ_of_ne_zero (Nat.ne_zero_of_lt hrounds)
    obtain ⟨hitem, hitems⟩ := List.forall_mem_cons.mp h
    simp only [followedBy, List.map_cons, List.flatMap_cons, List.length_append,
      List.length_cons] at hrounds
    have hnext := hitems next List.mem_cons_self
    have hmore : readItems rounds (write next ++
        (followedBy layout (items.map write) ++ (closing ++ ']' :: rest))) =
          .ok (next :: items, rest) := ih hitems (by
      rw [List.length_append, followedBy]
      omega)
    rw [List.map_cons, followedBy_cons_append, readItems,
      hitem.read (by omega) (isDelimited_cons (by decide) _)]
    simp only [bind, Except.bind, skipSpace_cons (c := ',') (by decide),
      hnext.skipSpace hlayout, hmore]
    rfl

/-- The fields of an object are read one after the other. -/
theorem readFields_followedBy {write : Json → Text} {field : Runes × Json}
    (hjoined : ∀ other ∈ field :: fields, other.1.IsJoined)
    (h : ∀ other ∈ field :: fields, IsWritten (write other.2) other.2)
    (hrounds : 2 * (memberText write field ++
      followedBy layout (fields.map (memberText write))).length + 1 < rounds) (rest : Text) :
    readFields rounds (memberText write field ++
        (followedBy layout (fields.map (memberText write)) ++ (closing ++ '}' :: rest))) =
      .ok (field :: fields, rest) := by
  induction fields generalizing field rounds with
  | nil =>
    obtain ⟨rounds, rfl⟩ := Nat.exists_eq_succ_of_ne_zero (Nat.ne_zero_of_lt hrounds)
    obtain ⟨hkey, -⟩ := List.forall_mem_cons.mp hjoined
    obtain ⟨hvalue, -⟩ := List.forall_mem_cons.mp h
    have hlength := length_lt_memberText write field
    rw [List.length_append] at hrounds
    have hread : readValue rounds (write field.2 ++ (closing ++ '}' :: rest)) =
        .ok (field.2, closing ++ '}' :: rest) :=
      hvalue.read (by omega) (isDelimited_append hclosing (by decide) rest)
    rw [List.map_nil, followedBy, List.flatMap_nil, List.nil_append, memberText_append, readFields,
      readString_append hkey]
    simp only [bind, Except.bind, skipSpace_cons (c := ':') (by decide), hvalue.skipSpace_blank,
      hread, skipSpace_closing hclosing (c := '}') (by decide)]
    rfl
  | cons next fields ih =>
    obtain ⟨rounds, rfl⟩ := Nat.exists_eq_succ_of_ne_zero (Nat.ne_zero_of_lt hrounds)
    obtain ⟨hkey, hjoined⟩ := List.forall_mem_cons.mp hjoined
    obtain ⟨hvalue, h⟩ := List.forall_mem_cons.mp h
    have hlength := length_lt_memberText write field
    simp only [followedBy, List.map_cons, List.flatMap_cons, List.length_append,
      List.length_cons] at hrounds
    have hread (behind : Text) : readValue rounds (write field.2 ++ ',' :: behind) =
        .ok (field.2, ',' :: behind) :=
      hvalue.read (by omega) (isDelimited_cons (by decide) behind)
    have hmore : readFields rounds (memberText write next ++
        (followedBy layout (fields.map (memberText write)) ++ (closing ++ '}' :: rest))) =
          .ok (next :: fields, rest) := ih hjoined h (by
      rw [List.length_append, followedBy]
      omega)
    rw [List.map_cons, followedBy_cons_append, memberText_append, readFields,
      readString_append hkey]
    simp only [bind, Except.bind, skipSpace_cons (c := ':') (by decide), hvalue.skipSpace_blank,
      hread, skipSpace_cons (c := ',') (by decide), skipSpace_memberText hlayout, hmore]
    rfl

end Separated

theorem writeFields_eq_followedBy {style : Style} {depth : Nat} {layout : Text}
    (h : style.between depth = ',' :: layout) (fields : List (Runes × Json)) :
    writeFields style depth fields =
      followedBy layout (fields.map (memberText (writeAt style (depth + 1)))) := by
  induction fields with
  | nil => rfl
  | cons field fields ih =>
    rw [writeFields, h, ih]
    simp [followedBy, memberText, writeString]

theorem writeAt_members {style : Style} {depth : Nat} {layout : Text}
    (h : style.between depth = ',' :: layout) (field : Runes × Json)
    (fields : List (Runes × Json)) :
    writeAt style depth (.object (field :: fields)) =
      '{' :: (between style depth layout (memberText (writeAt style (depth + 1)) field)
        (fields.map (memberText (writeAt style (depth + 1)))) ++ ['}']) := by
  rw [writeAt, writeFields_eq_followedBy h]
  simp [between, memberText, writeString]

theorem readValue_items {rest : Text} {values : List Json}
    (hhead : (skipSpace text).head? ≠ some ']')
    (h : readItems rounds (skipSpace text) = .ok (values, rest)) :
    readValue (rounds + 1) ('[' :: text) = .ok (.array values, rest) := by
  rw [readValue]
  split
  next heq =>
    rw [heq] at hhead
    exact absurd rfl hhead
  next =>
    rw [h]
    rfl

theorem readValue_fields {rest : Text} (hkeys : (fields.map (·.1)).Nodup)
    (hhead : (skipSpace text).head? ≠ some '}')
    (h : readFields rounds (skipSpace text) = .ok (fields, rest)) :
    readValue (rounds + 1) ('{' :: text) = .ok (.object fields, rest) := by
  rw [readValue]
  split
  next heq =>
    rw [heq] at hhead
    exact absurd rfl hhead
  next =>
    rw [h]
    show Except.ok (Json.object (collect fields), rest) = _
    rw [collect_of_nodup hkeys]

theorem between_append (style : Style) (depth : Nat) (layout first : Text) (more : List Text)
    (closing : Char) (rest : Text) :
    between style depth layout first more ++ [closing] ++ rest =
      style.opening depth ++
        (first ++ (followedBy layout more ++ (style.closing depth ++ closing :: rest))) := by
  simp [between]

section Brackets

variable {style : Style} (hstyle : style.IsLaidOut) {depth : Nat}

include hstyle

theorem isSpace_opening : IsSpace (style.opening depth) := fun c hc =>
  isSpace_of_isLayout (hstyle.opening depth c hc)

theorem isSpace_closing : IsSpace (style.closing depth) := fun c hc =>
  isSpace_of_isLayout ((hstyle.closing depth).isLayout c hc)

theorem isWritten_array (h : ∀ item ∈ items, IsWritten (writeAt style (depth + 1) item) item) :
    IsWritten (writeAt style depth (.array items)) (.array items) := by
  obtain ⟨layout, hlayout, hbetween⟩ := hstyle.between depth
  cases items with
  | nil =>
    refine ⟨⟨'[', [']'], rfl, by decide, by decide, by decide⟩, ?_⟩
    intro rounds hrounds rest _
    obtain ⟨rounds, rfl⟩ := Nat.exists_eq_succ_of_ne_zero (Nat.ne_zero_of_lt hrounds)
    rfl
  | cons item items =>
    rw [writeAt_array hbetween]
    refine ⟨⟨'[', _, rfl, by decide, by decide, by decide⟩, ?_⟩
    intro rounds hrounds rest _
    obtain ⟨rounds, rfl⟩ := Nat.exists_eq_succ_of_ne_zero (Nat.ne_zero_of_lt hrounds)
    have hitem := h item List.mem_cons_self
    rw [List.cons_append, between_append]
    refine readValue_items ?_ ?_ <;> rw [hitem.skipSpace (isSpace_opening hstyle)]
    · obtain ⟨c, more, hfirst, -, hbracket, -⟩ := hitem.first
      rw [hfirst]
      exact fun heq => hbracket (Option.some.inj heq)
    · refine readItems_followedBy (fun c hc => isSpace_of_isLayout (hlayout c hc))
        (isSpace_closing hstyle) h ?_ rest
      simp only [between, List.length_cons, List.length_append] at hrounds ⊢
      omega

theorem isWritten_object (hkeys : (fields.map (·.1)).Nodup)
    (hjoined : ∀ field ∈ fields, field.1.IsJoined)
    (h : ∀ field ∈ fields, IsWritten (writeAt style (depth + 1) field.2) field.2) :
    IsWritten (writeAt style depth (.object fields)) (.object fields) := by
  obtain ⟨layout, hlayout, hbetween⟩ := hstyle.between depth
  cases fields with
  | nil =>
    refine ⟨⟨'{', ['}'], rfl, by decide, by decide, by decide⟩, ?_⟩
    intro rounds hrounds rest _
    obtain ⟨rounds, rfl⟩ := Nat.exists_eq_succ_of_ne_zero (Nat.ne_zero_of_lt hrounds)
    rfl
  | cons field fields =>
    rw [writeAt_members hbetween]
    refine ⟨⟨'{', _, rfl, by decide, by decide, by decide⟩, ?_⟩
    intro rounds hrounds rest _
    obtain ⟨rounds, rfl⟩ := Nat.exists_eq_succ_of_ne_zero (Nat.ne_zero_of_lt hrounds)
    rw [List.cons_append, between_append]
    refine readValue_fields hkeys ?_ ?_ <;> rw [skipSpace_memberText (isSpace_opening hstyle)]
    · rw [memberText_append]
      exact fun heq => absurd (Option.some.inj heq) (by decide)
    · refine readFields_followedBy (fun c hc => isSpace_of_isLayout (hlayout c hc))
        (isSpace_closing hstyle) hjoined h ?_ rest
      simp only [between, List.length_cons, List.length_append] at hrounds ⊢
      omega

end Brackets

theorem isWritten_writeAt {style : Style} (hstyle : style.IsLaidOut) (h : value.IsReadable)
    (depth : Nat) : IsWritten (writeAt style depth value) value := by
  induction h generalizing depth with
  | null =>
    rw [writeAt]
    exact isWritten_scalar (by decide) (forall_of_all (by decide)) fun _ =>
      readScalar_word (by simp [words]) _
  | bool value =>
    rw [writeAt]
    cases value <;>
      exact isWritten_scalar (by decide) (forall_of_all (by decide)) fun _ =>
        readScalar_word (by simp [words]) _
  | @int value hlength =>
    rw [writeAt]
    have hnumber := spellsNumber_ofInt hlength
    exact isWritten_scalar hnumber.ne_nil (isNumeralChar_ofInt value) (readScalar_number hnumber)
  | @float value hread =>
    rw [writeAt]
    have hchars := isNumeralChar_write value
    rcases spells_float hread with hnumber | hword
    · exact isWritten_scalar hnumber.ne_nil hchars (readScalar_number hnumber)
    · exact isWritten_scalar (ne_nil_of_mem_words hword) hchars fun _ => readScalar_word hword _
  | string hjoined =>
    rw [writeAt]
    exact isWritten_string hjoined
  | array _ ih => exact isWritten_array hstyle fun item hitem => ih item hitem (depth + 1)
  | object hkeys hjoined _ ih =>
    exact isWritten_object hstyle hkeys hjoined fun field hfield => ih field hfield (depth + 1)

/-- A readable value is read from the text it is written as. -/
theorem read_writeAt {style : Style} (hstyle : style.IsLaidOut) (h : value.IsReadable)
    (depth : Nat) : read (writeAt style depth value) = .ok value := by
  have hwritten := isWritten_writeAt hstyle h depth
  have hread := hwritten.read (Nat.lt_succ_self _) isDelimited_nil
  have hspace := hwritten.skipSpace (List.forall_mem_nil _ : IsSpace []) []
  rw [List.append_nil] at hread hspace
  rw [List.nil_append] at hspace
  obtain ⟨c, more, hfirst, -, -, hmark⟩ := hwritten.first
  rw [read, if_neg (by simpa [hfirst] using hmark), hspace, hread]
  rfl

end TerraformTrace.Json
