import TerraformTrace.Report
import TerraformTrace.Text.Blank
import TerraformTrace.Text.Word

/-!
# TerraformTrace.Reference.Basic

References: dotted paths such as `var.region`, `local.tags.Name`, `module.vpc.id` or
`data.aws_ami.ubuntu.id`. The first word is the kind. The kind fixes how many of the
segments after it name the symbol; what remains is a path of properties into the
symbol's value.
-/

namespace TerraformTrace

open Text

/-- What a reference names. -/
inductive ReferenceKind
  | input
  | localValue
  | moduleOutput
  | dataAttribute
deriving DecidableEq, Repr

namespace ReferenceKind

/-- The word a kind is written with. -/
def word : ReferenceKind → Text
  | .input => "var".toList
  | .localValue => "local".toList
  | .moduleOutput => "module".toList
  | .dataAttribute => "data".toList

/-- The kinds, in order. -/
def all : List ReferenceKind := [.input, .localValue, .moduleOutput, .dataAttribute]

/-- The kind of a word. -/
def ofWord? (word : Text) : Option ReferenceKind := all.find? (·.word = word)

/-- Number of segments that name the symbol. -/
def arity : ReferenceKind → Nat
  | .input => 1
  | .localValue => 1
  | .moduleOutput => 2
  | .dataAttribute => 3

theorem arity_pos (kind : ReferenceKind) : 0 < kind.arity := by
  cases kind <;> decide

end ReferenceKind

/-- A reference: its kind and at least as many segments as name a symbol of the
kind. -/
structure Reference where
  kind : ReferenceKind
  segments : List Text
  enough : kind.arity ≤ segments.length
deriving DecidableEq, Repr

/-- Why a text is no reference. -/
inductive ReferenceError
  /-- Fewer segments than the kind needs. -/
  | tooShort (kind : ReferenceKind) (segments : List Text)
  /-- Not of the form of a reference at all. -/
  | notReference (text : Option Text)
deriving DecidableEq, Repr

namespace Reference

/-- A kind's word and segments with dots between them. -/
def dotted (kind : ReferenceKind) (segments : List Text) : Text :=
  Text.join ['.'] (kind.word :: segments)

/-- The report of an error. -/
def errorReport (error : ReferenceError) : Report Text :=
  match error with
  | .tooShort kind segments =>
    .referenceSyntax
      ('\'' :: kind.word ++ "' references need at least ".toList ++ Text.ofNat kind.arity ++
        " path segment(s)".toList)
      (some (dotted kind segments))
  | .notReference text => .referenceSyntax "Not a symbolic reference".toList text

/-- A reference, if it has segments enough. -/
def make (kind : ReferenceKind) (segments : List Text) : Except ReferenceError Reference :=
  if h : kind.arity ≤ segments.length then .ok ⟨kind, segments, h⟩
  else .error (.tooShort kind segments)

/-! ### Reading -/

/-- The names at the start of a text with single dots between them, and the number of
characters they take. Each round takes a character off the text, so its length bounds
the rounds. -/
def leadingPath : (rounds : Nat) → Text → List Text × Nat
  | 0, _ => ([], 0)
  | rounds + 1, text =>
    match leadingName? text with
    | none => ([], 0)
    | some name =>
      match text.drop name.length with
      | '.' :: rest =>
        match leadingPath rounds rest with
        | ([], _) => ([name], name.length)
        | (names, read) => (name :: names, name.length + 1 + read)
      | _ => ([name], name.length)

/-- The kind, path and length of what looks like a reference at the start of a text:
a kind's word, a dot and at least one name. -/
def leadingReference? (text : Text) : Option (ReferenceKind × List Text × Nat) :=
  ReferenceKind.all.findSome? fun kind =>
    let opening := kind.word ++ ['.']
    if opening.isPrefixOf text then
      let rest := text.drop opening.length
      match leadingPath rest.length rest with
      | ([], _) => none
      | (names, read) => some (kind, names, opening.length + read)
    else none

/-- Reads a reference from a whole text, blanks around it aside. A bare name is an
input variable. The absent text is no reference. -/
def parse (text : Option Text) : Except ReferenceError Reference :=
  let candidate := strip (text.getD [])
  if isName candidate then make .input [candidate]
  else
    match leadingReference? candidate with
    | some (kind, segments, read) =>
      if read = candidate.length then make kind segments else .error (.notReference text)
    | none => .error (.notReference text)

/-! ### Parts -/

/-- How a reference is written. -/
def text (ref : Reference) : Text := dotted ref.kind ref.segments

/-- The segments that name the symbol. -/
def symbol (ref : Reference) : List Text := ref.segments.take ref.kind.arity

/-- The properties to take of the symbol's value, one after the other. -/
def properties (ref : Reference) : List Text := ref.segments.drop ref.kind.arity

/-- The first segment: the name of a variable, local value or module, or the type of a
data source. -/
def name (ref : Reference) : Text :=
  ref.segments.head (by
    have := ref.enough
    have := ref.kind.arity_pos
    intro h
    simp [h] at *
    omega)

/-- The module and the output of a module reference. -/
def moduleAddress? (ref : Reference) : Option (Text × Text) :=
  match ref.kind, ref.segments with
  | .moduleOutput, call :: output :: _ => some (call, output)
  | _, _ => none

/-- The type, name and attribute of a data reference. -/
def dataAddress? (ref : Reference) : Option (Text × Text × Text) :=
  match ref.kind, ref.segments with
  | .dataAttribute, type :: name :: field :: _ => some (type, name, field)
  | _, _ => none

/-- The reference to the symbol itself, without properties. -/
def base (ref : Reference) : Reference :=
  { kind := ref.kind
    segments := ref.symbol
    enough := by
      have := ref.enough
      simp [symbol]
      omega }

end Reference

end TerraformTrace
