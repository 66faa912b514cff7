import TerraformTrace.Proofs.ScanPosition

/-!
# TerraformTrace.Proofs.ReferenceSyntax

The syntax of references. The grammar is given on its own, as a relation between texts and the
kinds and segments they stand for: `Spells`. It knows two forms, a bare segment, which is an input,
and one of four words in front of a path of segments, each word with the number of segments that
it asks for.

**A text is read exactly if it is spelled like this** (`parse_eq_ok_iff`), blanks around it aside,
and then it is read as what it spells. Reading goes by names and by the longest path in front, so
what has to be seen is that a path which takes the whole text is the only path that does.
-/

namespace TerraformTrace

open Text

namespace Reference

variable {text : Text} {ref : Reference} {kind : ReferenceKind} {segments : List Text}

/-! ### The grammar -/

/-- A segment: an ASCII letter or an underscore, and then word characters and hyphens. -/
def IsSegment (text : Text) : Prop :=
  ∃ first rest, text = first :: rest ∧ (first.isAlpha = true ∨ first = '_') ∧
    ∀ c ∈ rest, isWord c = true ∨ c = '-'

/-- A path: one segment or more, with single dots between them. -/
inductive SpellsPath : Text → List Text → Prop
  | last {segment : Text} : IsSegment segment → SpellsPath segment [segment]
  | more {segment path : Text} {segments : List Text} : IsSegment segment →
      SpellsPath path segments → SpellsPath (segment ++ '.' :: path) (segment :: segments)

/-- The words that references start with, and how many segments each of them asks for. -/
def forms : List (Text × ReferenceKind × Nat) :=
  [("var".toList, .input, 1), ("local".toList, .localValue, 1),
    ("module".toList, .moduleOutput, 2), ("data".toList, .dataAttribute, 3)]

/-- How references are written. -/
inductive Spells : Text → ReferenceKind → List Text → Prop
  /-- A bare segment is the name of an input. -/
  | bare {name : Text} : IsSegment name → Spells name .input [name]
  /-- A word, a dot, and a path of at least as many segments as the word asks for. -/
  | dotted {word path : Text} {kind : ReferenceKind} {least : Nat} {segments : List Text} :
      (word, kind, least) ∈ forms → SpellsPath path segments → least ≤ segments.length →
      Spells (word ++ '.' :: path) kind segments

theorem isName_iff_isSegment : isName text = true ↔ IsSegment text := by
  cases text with
  | nil => simp [isName, IsSegment]
  | cons first rest => simp [isName, IsSegment, isNameStart, isNameRest, isLetter]

theorem isWellFormed_iff : ref.IsWellFormed ↔ ∀ segment ∈ ref.segments, IsSegment segment := by
  simp only [IsWellFormed, isName_iff_isSegment]

theorem mem_forms_iff {word : Text} {least : Nat} :
    (word, kind, least) ∈ forms ↔ word = kind.word ∧ least = kind.arity := by
  cases kind <;> simp [forms, ReferenceKind.word, ReferenceKind.arity]

theorem Spells.enough (h : Spells text kind segments) : kind.arity ≤ segments.length := by
  cases h with
  | bare => exact Nat.le_refl 1
  | dotted hform hpath hleast =>
    obtain ⟨-, rfl⟩ := mem_forms_iff.mp hform
    exact hleast

/-- A path is its segments joined by dots. -/
theorem spellsPath_iff {path : Text} :
    SpellsPath path segments ↔
      segments ≠ [] ∧ (∀ segment ∈ segments, IsSegment segment) ∧ path = join ['.'] segments := by
  constructor
  · intro h
    induction h with
    | last hsegment => simpa [join] using hsegment
    | more hsegment hpath ih =>
      obtain ⟨hne, hsegments, rfl⟩ := ih
      exact ⟨List.cons_ne_nil _ _, List.forall_mem_cons.mpr ⟨hsegment, hsegments⟩,
        (join_cons_of_ne_nil hne _).symm⟩
  · rintro ⟨hne, hsegments, rfl⟩
    induction segments with
    | nil => exact absurd rfl hne
    | cons segment segments ih =>
      obtain ⟨hsegment, hrest⟩ := List.forall_mem_cons.mp hsegments
      cases segments with
      | nil => exact .last hsegment
      | cons next segments =>
        rw [join_cons_of_ne_nil (List.cons_ne_nil _ _)]
        exact .more hsegment (ih (List.cons_ne_nil _ _) hrest)

/-! ### Reading -/

theorem make_eq_ok_iff :
    make kind segments = .ok ref ↔
      ref.kind = kind ∧ ref.segments = segments := by
  constructor
  · exact make_eq_ok
  · rintro ⟨rfl, rfl⟩
    exact dif_pos ref.enough

/-- A text that is a path and nothing more is read as that path. -/
theorem leadingReference?_eq_length_iff :
    leadingReference? text = some (kind, segments, text.length) ↔
      ∃ path, text = kind.word ++ '.' :: path ∧ SpellsPath path segments := by
  rw [leadingReference?_eq_some_iff]
  constructor
  · rintro ⟨hne, hnames, hlength, rest, htext, -⟩
    -- the path takes the whole text, so nothing is left behind it
    have hrest : rest = [] := by
      have hsum := congrArg List.length htext
      rw [List.length_append] at hsum
      exact List.length_eq_zero_iff.mp (by omega)
    rw [hrest, List.append_nil, Reference.dotted, join_cons_of_ne_nil hne] at htext
    refine ⟨_, htext, spellsPath_iff.mpr ⟨hne, fun segment hsegment => ?_, rfl⟩⟩
    exact isName_iff_isSegment.mp (hnames segment hsegment)
  · rintro ⟨path, rfl, hpath⟩
    obtain ⟨hne, hsegments, rfl⟩ := spellsPath_iff.mp hpath
    have hdotted : Reference.dotted kind segments = kind.word ++ '.' :: join ['.'] segments :=
      join_cons_of_ne_nil hne kind.word
    rw [hdotted]
    refine ⟨hne, fun segment hsegment => ?_, rfl, [], (List.append_nil _).symm, rfl⟩
    exact isName_iff_isSegment.mpr (hsegments segment hsegment)

/-- A name spells an input and nothing else. -/
theorem spells_iff_of_isName (h : isName text = true) :
    Spells text kind segments ↔ kind = .input ∧ segments = [text] := by
  constructor
  · intro hspells
    cases hspells with
    | bare => exact ⟨rfl, rfl⟩
    | dotted =>
      -- a name has no dot in it
      have hdot := not_mem_of_isName (c := '.') (by decide) (by decide) h
      exact absurd (by simp) hdot
  · rintro ⟨rfl, rfl⟩
    exact .bare (isName_iff_isSegment.mp h)

/-- A text that is no name spells the path that is read from the whole of it. -/
theorem spells_iff_of_not_isName (h : isName text ≠ true) :
    Spells text kind segments ↔
      leadingReference? text = some (kind, segments, text.length) ∧
        kind.arity ≤ segments.length := by
  rw [leadingReference?_eq_length_iff]
  constructor
  · intro hspells
    refine ⟨?_, hspells.enough⟩
    cases hspells with
    | bare hsegment => exact absurd (isName_iff_isSegment.mpr hsegment) h
    | dotted hform hpath hleast =>
      obtain ⟨rfl, -⟩ := mem_forms_iff.mp hform
      exact ⟨_, rfl, hpath⟩
  · rintro ⟨⟨path, rfl, hpath⟩, henough⟩
    have hform : (kind.word, kind, kind.arity) ∈ forms := mem_forms_iff.mpr ⟨rfl, rfl⟩
    exact .dotted hform hpath henough

/-- A text is read as what it spells, once the blanks around it are taken off. -/
theorem parse_eq_ok_iff :
    parse (some text) = .ok ref ↔
      Spells (strip text) ref.kind ref.segments := by
  rw [parse, Option.getD_some]
  by_cases hname : isName (strip text) = true
  · rw [if_pos hname, make_eq_ok_iff, spells_iff_of_isName hname]
  · rw [if_neg hname, spells_iff_of_not_isName hname]
    constructor
    · intro h
      split at h
      · rename_i kind segments read hleading
        split at h
        · rename_i hread
          obtain ⟨rfl, rfl⟩ := make_eq_ok h
          exact ⟨hread ▸ hleading, ref.enough⟩
        · cases h
      · cases h
    · rintro ⟨hleading, -⟩
      simp [hleading, make_eq_ok_iff]

/-- The symbol of a reference and its properties make the reference again. -/
theorem make_base_properties (ref : Reference) :
    make ref.base.kind (ref.base.segments ++ ref.properties) =
      .ok ref :=
  make_eq_ok_iff.mpr ⟨rfl, (List.take_append_drop _ _).symm⟩

end Reference

/-- **The syntax of references.** A text is read as a reference exactly if it spells one between
the blanks around it, and it is read as the kind and the segments that it spells. A reference made
of segments is read back from its canonical text, which no other such reference has. The symbol of
a reference has no properties, and with the properties of the reference it makes the reference
again. -/
theorem reference_spelling :
    (∀ (text : Text) (kind : ReferenceKind) (segments : List Text),
      (∃ ref, Reference.parse (some text) = .ok ref ∧ ref.kind = kind ∧
        ref.segments = segments) ↔ Reference.Spells (strip text) kind segments) ∧
    (∀ ref : Reference, (∀ segment ∈ ref.segments, Reference.IsSegment segment) →
      Reference.parse (some ref.text) = .ok ref ∧
      ∀ other : Reference, (∀ segment ∈ other.segments, Reference.IsSegment segment) →
        other.text = ref.text → other = ref) ∧
    ∀ ref : Reference, ref.base.properties = [] ∧
      Reference.make ref.base.kind (ref.base.segments ++ ref.properties) = .ok ref := by
  refine ⟨fun text kind segments => ?_, fun ref hsegments => ?_, fun ref => ?_⟩
  · constructor
    · rintro ⟨ref, hparse, rfl, rfl⟩
      exact Reference.parse_eq_ok_iff.mp hparse
    · intro hspells
      exact ⟨⟨kind, segments, hspells.enough⟩, Reference.parse_eq_ok_iff.mpr hspells, rfl, rfl⟩
  · have hformed := Reference.isWellFormed_iff.mpr hsegments
    refine ⟨hformed.parse_text, fun other hother htext => ?_⟩
    exact (Reference.isWellFormed_iff.mpr hother).text_inj hformed htext
  · exact ⟨ref.base_properties, ref.make_base_properties⟩

/-- A property of an attribute of a data source. -/
def imageSize : Reference :=
  { kind := .dataAttribute
    segments := ["aws_ami".toList, "ubuntu".toList, "disk".toList, "größe-2".toList]
    enough := by decide }

/-- The property is read from its text, and it has the text for itself. -/
theorem imageSize_spelling :
    (∀ segment ∈ imageSize.segments, Reference.IsSegment segment) ∧
    Reference.Spells (strip " data.aws_ami.ubuntu.disk.größe-2\n".toList) imageSize.kind
      imageSize.segments ∧
    Reference.parse (some "data.aws_ami.ubuntu.disk.größe-2".toList) = .ok imageSize ∧
    ∀ other : Reference, (∀ segment ∈ other.segments, Reference.IsSegment segment) →
      other.text = imageSize.text → other = imageSize := by
  have hsegments : ∀ segment ∈ imageSize.segments, Reference.IsSegment segment :=
    Reference.isWellFormed_iff.mp (by decide)
  have htext : imageSize.text = "data.aws_ami.ubuntu.disk.größe-2".toList := by decide
  obtain ⟨hparse, hown⟩ := reference_spelling.2.1 imageSize hsegments
  rw [htext] at hparse
  have hspells := (reference_spelling.1 " data.aws_ami.ubuntu.disk.größe-2\n".toList imageSize.kind
    imageSize.segments).mp ⟨imageSize, by decide, rfl, rfl⟩
  exact ⟨hsegments, hspells, hparse, hown⟩

end TerraformTrace
