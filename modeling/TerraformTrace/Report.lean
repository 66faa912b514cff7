import TerraformTrace.Text.Basic

/-!
# TerraformTrace.Report

Error reports as the program prints them: a message, a code, and named details. Each
kind of failure has its own constructor, which fixes the code and the details; the
wording is put together in one place, `Report.render`.
-/

namespace TerraformTrace

/-- A failure in printable parts. `δ` is the type of the details' values. -/
structure Report (δ : Type) where
  message : Text
  code : Option Text := none
  details : List (Text × δ) := []
deriving DecidableEq, Repr

namespace Report

/-- `[code] message (Context: name=value, ...)`; a part with nothing in it is left
out. -/
def render {δ : Type} (show_ : δ → Text) (report : Report δ) : Text :=
  let head :=
    match report.code with
    | none | some [] => report.message
    | some code => '[' :: code ++ "] ".toList ++ report.message
  if report.details.isEmpty then head
  else
    head ++ " (Context: ".toList ++
      Text.join ", ".toList (report.details.map fun detail =>
        detail.1 ++ '=' :: show_ detail.2) ++ [')']

/-- A report of texts as one text. -/
def toText (report : Report Text) : Text := report.render id

/-- The detail `name`, if it has a value. -/
def detail (name : String) : Option Text → List (Text × Text)
  | none => []
  | some value => [(name.toList, value)]

/-- The detail `name`, if it has a value that is not empty. -/
def nonEmptyDetail (name : String) : Option Text → List (Text × Text)
  | none | some [] => []
  | some value => [(name.toList, value)]

/-- A file cannot be used. -/
def fileAccess (message : Text) (path operation : Option Text) : Report Text :=
  { message, code := some "FILE_ACCESS_ERROR".toList
    details := detail "path" path ++ nonEmptyDetail "operation" operation }

/-- A long fragment is cut to 60 characters, the last three of them dots. -/
def shortened (fragment : Text) : Text :=
  if fragment.length ≤ 60 then fragment else fragment.take 57 ++ "...".toList

/-- A text is not the literal it should be. -/
def malformedLiteral (message : Text) (fragment : Option Text) : Report Text :=
  { message, code := some "MALFORMED_LITERAL".toList
    details := detail "fragment" (fragment.map shortened) }

/-- A text is no reference. -/
def referenceSyntax (message : Text) (ref : Option Text) : Report Text :=
  { message, code := some "REFERENCE_SYNTAX_ERROR".toList
    details := detail "reference" ref }

/-- Settings cannot be used. -/
def configuration (message : Text) (path field : Option Text) : Report Text :=
  { message, code := some "CONFIGURATION_ERROR".toList
    details := detail "config_path" path ++ nonEmptyDetail "field_name" field }

/-- What to do about settings that cannot be loaded. -/
def recoveryHint (report : Report Text) : Text :=
  match report.details.lookup "field_name".toList with
  | some field => "Check the value of '".toList ++ field ++ "' in the resolver settings file".toList
  | none => "Ensure the settings file is a YAML or JSON mapping of resolver options".toList

end Report

end TerraformTrace
