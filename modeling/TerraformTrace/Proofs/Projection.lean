import TerraformTrace.Engine.Resolve
import TerraformTrace.Proofs.Cut
import TerraformTrace.Proofs.JsonRoundTrip

/-!
# TerraformTrace.Proofs.Projection

Taking properties of a value of a JSON document. The value is kept as text, so each property is
taken by reading the text and writing what is found, and a text that is no JSON object is searched
in another way. **None of this shows**: the properties of the text are the texts of the properties
(`project_jsonVariable`), because the text of a value is read as this very value, and because only
objects are written with a brace at the beginning.
-/

namespace TerraformTrace

open Text Hcl

/-! ### Paths into a value -/

namespace Json

/-- The value at the end of a path of keys. -/
def follow? (value : Json) : (path : List Text) → Option Json
  | [] => some value
  | key :: path => (value.get? key).bind (·.follow? path)

/-- Some step of the path meets a value that is no object, or an object without the key. -/
inductive Stops : Json → List Text → Prop
  | notObject {value : Json} (h : ∀ fields, value ≠ .object fields) (key : Text)
      (path : List Text) : Stops value (key :: path)
  | missing {fields : List (Runes × Json)} {key : Text}
      (h : Runes.ofText key ∉ fields.map (·.1)) (path : List Text) :
      Stops (.object fields) (key :: path)
  | later {fields : List (Runes × Json)} {key : Text} {value : Json} {path : List Text}
      (h : fields.lookup (Runes.ofText key) = some value) (hstops : Stops value path) :
      Stops (.object fields) (key :: path)

theorem follow?_eq_none_iff {value : Json} {path : List Text} :
    value.follow? path = none ↔ value.Stops path := by
  constructor
  · intro h
    induction path generalizing value with
    | nil => cases h
    | cons key path ih =>
      cases value with
      | object fields =>
        rw [follow?, get?] at h
        cases hlookup : fields.lookup (Runes.ofText key) with
        | none =>
          refine .missing (fun hmem => ?_) path
          obtain ⟨field, hfield, hkey⟩ := List.mem_map.mp hmem
          have hne := List.lookup_eq_none_iff.mp hlookup field hfield
          simp [hkey] at hne
        | some found =>
          rw [hlookup] at h
          exact .later hlookup (ih h)
      | _ => exact .notObject (fun _ heq => by cases heq) key path
  · intro h
    induction h with
    | @notObject value h key path =>
      cases value with
      | object fields => exact absurd rfl (h fields)
      | _ => rfl
    | @missing fields key h path =>
      have hlookup : fields.lookup (Runes.ofText key) = none := by
        refine List.lookup_eq_none_iff.mpr fun field hfield => ?_
        rw [bne_iff_ne]
        rintro heq
        exact h (heq ▸ List.mem_map_of_mem hfield)
      rw [follow?, get?, hlookup]
      rfl
    | later h _ ih =>
      rw [follow?, get?, h]
      exact ih

/-! ### Texts of values -/

/-- A value is written as a word or a number, or between quotes or brackets, and only objects
are written between braces. -/
theorem writeAt_shape {style : Style} (hstyle : style.IsLaidOut) (depth : Nat) {value : Json}
    (h : value.IsReadable) :
    (writeAt style depth value ≠ [] ∧ ∀ c ∈ writeAt style depth value, isNumeralChar c = true) ∨
    ∃ opening closing body, writeAt style depth value = opening :: (body ++ [closing]) ∧
      (isBlank opening = false ∧ opening ≠ '<' ∧ isBlank closing = false) ∧
      (opening = '{' → ∃ fields, value = .object fields) := by
  have hne : writeAt style depth value ≠ [] := by
    obtain ⟨c, more, hfirst, -⟩ := (isWritten_writeAt hstyle h depth).first
    rw [hfirst]
    exact List.cons_ne_nil _ _
  obtain ⟨layout, -, hbetween⟩ := hstyle.between depth
  cases value with
  | null => exact .inl ⟨hne, by rw [writeAt]; exact forall_of_all (by decide)⟩
  | bool value =>
    refine .inl ⟨hne, ?_⟩
    rw [writeAt]
    cases value <;> exact forall_of_all (by decide)
  | int value => exact .inl ⟨hne, by rw [writeAt]; exact isNumeralChar_ofInt value⟩
  | float value => exact .inl ⟨hne, by rw [writeAt]; exact isNumeralChar_write value⟩
  | string value =>
    exact .inr ⟨'"', '"', _, by rw [writeAt]; rfl, by decide, (absurd · (by decide))⟩
  | array items =>
    cases items with
    | nil => exact .inr ⟨'[', ']', [], by rw [writeAt]; rfl, by decide, (absurd · (by decide))⟩
    | cons item items =>
      exact .inr ⟨'[', ']', _, writeAt_array hbetween .., by decide, (absurd · (by decide))⟩
  | object fields =>
    cases fields with
    | nil => exact .inr ⟨'{', '}', [], by rw [writeAt]; rfl, by decide, fun _ => ⟨_, rfl⟩⟩
    | cons field fields =>
      exact .inr ⟨'{', '}', _, writeAt_members hbetween .., by decide, fun _ => ⟨_, rfl⟩⟩

end Json

/-! ### Taking properties -/

namespace Literal

open Json

variable {value : Json}

theorem isTrimmed_format (h : value.IsReadable) : IsTrimmed (format value) := by
  rw [format_eq]
  rcases writeAt_shape isLaidOut_indented 0 h with ⟨hne, hchars⟩ | ⟨_, _, _, htext, hends, -⟩
  · exact .of_class not_isBlank_of_isNumeralChar (by decide) hne hchars
  · rw [htext]
    exact .between hends _

/-- The text of a value is searched like an object only if the value is one. -/
theorem isBetween_format (h : value.IsReadable) (hvalue : ∀ fields, value ≠ .object fields) :
    isBetween '{' '}' (format value) = false := by
  refine isBetween_of_head? fun hhead => ?_
  rw [format_eq] at hhead
  rcases writeAt_shape isLaidOut_indented 0 h with ⟨-, hchars⟩ | ⟨_, _, _, htext, -, hobject⟩
  · exact absurd (hchars _ (List.mem_of_head? hhead)) (by decide)
  · rw [htext] at hhead
    obtain ⟨fields, hfields⟩ := hobject (Option.some.inj hhead)
    exact hvalue fields hfields

/-- One property of a text is the text of the property. -/
theorem property?_format (h : value.IsReadable) (key : Text) :
    property? (format value) key = .ok ((value.get? key).map format) := by
  have hread : Json.read (format value) = .ok value := by
    rw [format_eq]
    exact Json.read_writeAt isLaidOut_indented h 0
  rw [property?, (isTrimmed_format h).strip, hread]
  cases value with
  | object fields => rfl
  | _ =>
    dsimp only
    rw [isBetween_format h fun _ heq => by cases heq]
    rfl

end Literal

/-- The values in a readable value are readable. -/
theorem Json.IsReadable.get? {value found : Json} (h : value.IsReadable) {key : Text}
    (hfound : value.get? key = some found) : found.IsReadable := by
  cases h with
  | object hkeys hjoined hvalues =>
    obtain ⟨before, after, hfields, -⟩ := List.lookup_eq_some_iff.mp hfound
    exact hvalues (Runes.ofText key, found) (by rw [hfields]; simp)
  | _ => cases hfound

/-- Taking properties one after the other follows the path. -/
theorem project_format {value : Json} (h : value.IsReadable) (path : List Text) (s : Session) :
    project (some (Literal.format value)) path s =
      .ok ((value.follow? path).map Literal.format) s := by
  induction path generalizing value with
  | nil => rfl
  | cons key path ih =>
    rw [project, Literal.property?_format h, Json.follow?]
    cases hfound : value.get? key with
    | none => cases path <;> rfl
    | some found => exact ih (h.get? hfound)

/-- **Properties of a variable of a JSON document.** Starting from the text of the variable, the
properties on a path are taken one after the other by reading a text and writing what is found.
What comes out is the text of the value that the path leads to in the document, and nothing does
exactly if some step meets a value that is no object or an object without the key. Of the
floating-point numbers of the document it is assumed that they are read back as they are
written. -/
theorem project_jsonVariable {document name : Text} {fields : List (Runes × Json)} {value : Json}
    (hdocument : Json.read document = .ok (.object fields))
    (hvalue : fields.lookup (Runes.ofText name) = some value)
    (hfloats : ∀ x ∈ (Json.object fields).floats,
      Json.read (Json.write (.float x)) = .ok (.float x))
    (path : List Text) (s : Session) :
    ∃ text, Literal.jsonVariable? document name = .ok (some text) ∧
      project (some text) path s = .ok ((value.follow? path).map Literal.format) s ∧
      (project (some text) path s = .ok none s ↔ value.Stops path) := by
  obtain ⟨-, literal, -, -, -, -, hspells⟩ := Json.spells_of_read hdocument
  have hreadable : value.IsReadable :=
    (Json.isReadable_of_spells hspells hfloats).get? hvalue
  have hproject := project_format hreadable path s
  refine ⟨Literal.format value, ?_, hproject, ?_⟩
  · rw [Literal.jsonVariable?, hdocument]
    simp [hvalue]
  · rw [hproject, ← Json.follow?_eq_none_iff]
    simp

/-- A document with a list and a number below a variable. -/
def sizesDocument : Text :=
  "\x7b\"app\": \x7b\"sizes\": [1], \"a \\\"b\": \x7b\"x\": 2.5\x7d\x7d\x7d".toList

/-- The value of the variable. -/
def sizes : Json :=
  .object [(Runes.ofText "sizes".toList, .array [.int 1]),
    (Runes.ofText "a \"b".toList,
      .object [(Runes.ofText "x".toList, .float (.ofDecimal false 25 (-1)))])]

/-- The number that has been read, if it is one. -/
def number? : Except Json.Fault Json → Option Binary64
  | .ok (.float number) => some number
  | _ => none

theorem eq_of_number? {result : Except Json.Fault Json} {number : Binary64}
    (h : number? result = some number) : result = .ok (.float number) := by
  unfold number? at h
  split at h
  next =>
    cases h
    rfl
  next => cases h

theorem read_sizesNumber : Json.read (Json.write (.float (.ofDecimal false 25 (-1)))) =
    .ok (.float (.ofDecimal false 25 (-1))) := by
  exact eq_of_number? (by decide +kernel)

theorem read_sizesDocument :
    Json.read sizesDocument = .ok (.object [(Runes.ofText "app".toList, sizes)]) := by
  have htext : sizesDocument = Json.write (.object [(Runes.ofText "app".toList, sizes)]) := by
    decide +kernel
  rw [htext]
  refine Json.read_writeAt Json.isLaidOut_compact ?_ 0
  refine .object (by decide) (by decide) (List.forall_mem_singleton.mpr ?_)
  refine .object (by decide) (by decide) (List.forall_mem_cons.mpr
    ⟨.array (List.forall_mem_singleton.mpr (.int (by decide +kernel))),
      List.forall_mem_singleton.mpr ?_⟩)
  exact .object (by decide) (by decide) (List.forall_mem_singleton.mpr (.float read_sizesNumber))

/-- One path leads to a number, and one meets a list, which has no properties. -/
theorem project_sizes : ∃ text,
    Literal.jsonVariable? sizesDocument "app".toList = .ok (some text) ∧
      project (some text) ["a \"b".toList, "x".toList] Session.fresh =
        .ok (some "2.5".toList) Session.fresh ∧
      project (some text) ["sizes".toList, "0".toList] Session.fresh = .ok none Session.fresh := by
  have hvalue : [(Runes.ofText "app".toList, sizes)].lookup (Runes.ofText "app".toList) =
      some sizes := rfl
  have hfloats : ∀ x ∈ (Json.object [(Runes.ofText "app".toList, sizes)]).floats,
      Json.read (Json.write (.float x)) = .ok (.float x) :=
    List.forall_mem_singleton.mpr read_sizesNumber
  obtain ⟨text, htext, hfound, -⟩ := project_jsonVariable read_sizesDocument hvalue hfloats
    ["a \"b".toList, "x".toList] Session.fresh
  obtain ⟨text', htext', -, hmissing⟩ := project_jsonVariable read_sizesDocument hvalue hfloats
    ["sizes".toList, "0".toList] Session.fresh
  obtain rfl : text = text' := Option.some.inj (Except.ok.inj (htext.symm.trans htext'))
  have hnumber : (sizes.follow? ["a \"b".toList, "x".toList]).map Literal.format =
      some "2.5".toList := by decide +kernel
  refine ⟨text, htext, ?_, hmissing.mpr ?_⟩
  · rw [hfound, hnumber]
  · exact .later rfl (.notObject (fun _ heq => by cases heq) _ _)

end TerraformTrace
