import TerraformTrace.Json.Basic
import TerraformTrace.Settings.Basic
import TerraformTrace.Text.Blank
import TerraformTrace.Text.Digit

/-!
# TerraformTrace.Settings.Check

Settings from a document of keys and values. Values are taken leniently: a number may
be written as a string, an integer as a number without fraction, and a truth value
counts as one or zero. Fields are checked in a fixed order, then come keys that name no
field; the first fault found is the one reported.
-/

namespace TerraformTrace

/-! ### Documents -/

/-- A key of a document. -/
inductive DocumentKey
  | name (text : Text)
  /-- A key that is not a string, as it is shown. -/
  | other (shown : Text)
  /-- A string with a surrogate that stands alone. -/
  | unpaired
deriving DecidableEq, Repr

/-- The fields of a settings file. -/
abbrev SettingsDocument := List (DocumentKey × Json)

/-- What is wrong with a field. -/
inductive FieldFault
  | notInteger
  | unreadableInteger
  | fractional
  | oversizedInteger
  | notFinite
  | notNumber
  | unreadableNumber
  | notString
  | notList
  | notPositive
  | notAboveZero
  | noSuffix
  | undottedSuffix (suffix : Text)
  | unknownField
  | keyNotString
  /-- A string with a surrogate that stands alone is no text. -/
  | unpaired
deriving DecidableEq, Repr

/-- The wording of a fault. -/
def FieldFault.message : FieldFault → Text
  | .notInteger => "Input should be a valid integer".toList
  | .unreadableInteger =>
    "Input should be a valid integer, unable to parse string as an integer".toList
  | .fractional => "Input should be a valid integer, got a number with a fractional part".toList
  | .oversizedInteger =>
    "Unable to parse input string as an integer, exceeded maximum size".toList
  | .notFinite => "Input should be a finite number".toList
  | .notNumber => "Input should be a valid number".toList
  | .unreadableNumber =>
    "Input should be a valid number, unable to parse string as a number".toList
  | .notString => "Input should be a valid string".toList
  | .notList => "Input should be a valid list".toList
  | .notPositive => "Value error, must be a positive integer".toList
  | .notAboveZero => "Value error, must be greater than zero".toList
  | .noSuffix => "Value error, at least one suffix is required".toList
  | .undottedSuffix suffix =>
    "Value error, suffix '".toList ++ suffix ++ "' must start with '.'".toList
  | .unknownField => "Extra inputs are not permitted".toList
  | .keyNotString => "Keys should be strings".toList
  | .unpaired =>
    "Input should be a valid string, unable to parse raw data as a unicode string".toList

/-- A fault and the field it is in. -/
structure FieldError where
  field : Text
  fault : FieldFault
deriving DecidableEq, Repr

namespace Settings

/-! ### Numbers written as strings -/

/-- White space around a number written as a string. -/
def isPadding (c : Char) : Bool := Text.isBlank c && !(0x1C ≤ c.toNat && c.toNat < 0x20)

/-- A text without padding. -/
def trimmed (text : Text) : Text := Text.dropRightWhile isPadding (text.dropWhile isPadding)

/-- A numeral without its underscores, if each stands alone between other characters. -/
def withoutUnderscores? (text : Text) : Option Text :=
  if text.contains '_' && text.head? ≠ some '_' && text.getLast? ≠ some '_' &&
      !Text.occursIn "__".toList text then
    some (text.filter (· ≠ '_'))
  else none

/-- A numeral from its first significant digit or a minus on; `last` is the character
read before. One zero is kept before a point and at the end. -/
def dropZeros (last : Char) : Text → Option Text
  | [] => some [last]
  | c :: rest =>
    if c = '0' || c = '_' then dropZeros c rest
    else if c.isDigit || c = '-' then some (c :: rest)
    else if c = '.' then some (last :: c :: rest)
    else none

/-- A numeral without the zeros it starts with. -/
def withoutLeadingZeros? : Text → Option Text
  | [] => none
  | c :: rest =>
    if c = '0' then dropZeros c rest
    else if c.isDigit || c = '-' then some (c :: rest)
    else none

/-- A numeral without its fraction, if that is made of zeros. -/
def withoutZeroFraction (text : Text) : Text :=
  let whole := text.takeWhile (· ≠ '.')
  let fraction := text.drop (whole.length + 1)
  if !fraction.isEmpty && fraction.all (· = '0') then whole else text

/-- A numeral without the plus it may start with; no minus can follow a plus. -/
def withoutPlus? : Text → Option Text
  | '+' :: '-' :: _ => none
  | '+' :: rest => some rest
  | text => some text

/-- A plain integer: an optional minus and digits. -/
def plainInteger? (text : Text) : Option (Bool × Text) :=
  let (negative, digits) :=
    match text with
    | '-' :: rest => (true, rest)
    | _ => (false, text)
  if digits.isEmpty || !digits.all Char.isDigit then none else some (negative, digits)

/-- The plain integer that a string stands for: white space around it, a plus, zeros in
front, a fraction of zeros and single underscores are passed over. -/
def integerNumeral? (text : Text) : Option (Bool × Text) := do
  let unsigned ← withoutPlus? (trimmed text)
  let numeral ← withoutLeadingZeros? unsigned
  let whole := withoutZeroFraction numeral
  plainInteger? ((withoutUnderscores? whole).getD whole)

/-- An integer written as a string. -/
def integerOfText (text : Text) : Except FieldFault Int :=
  match integerNumeral? text with
  | none => .error .unreadableInteger
  | some (negative, digits) =>
    if 4300 < digits.length then .error .oversizedInteger
    else
      let value : Int := Text.digitsValue digits
      .ok (if negative then -value else value)

/-- The names of numbers that are not finite. -/
def namedNumber? (text : Text) : Option Binary64 :=
  let (negative, name) :=
    match text with
    | '-' :: rest => (true, rest)
    | '+' :: rest => (false, rest)
    | _ => (false, text)
  let name := name.map Char.toLower
  if name = "inf".toList || name = "infinity".toList then some (.infinity negative)
  else if name = "nan".toList then some .nan
  else none

/-- Reads an exponent that ends a numeral; none after it is written as zero. -/
def exponentOfText? : Text → Option Int
  | [] => some 0
  | e :: rest =>
    if e = 'e' || e = 'E' then
      let (negative, digits) :=
        match rest with
        | '-' :: r => (true, r)
        | '+' :: r => (false, r)
        | r => (false, r)
      if digits.isEmpty || !digits.all Char.isDigit then none
      else
        let value : Int := Text.digitsValue digits
        some (if negative then -value else value)
    else none

/-- A finite number: a sign, digits with at most one point among or beside them, and an
exponent. -/
def finiteNumber? (text : Text) : Option Binary64 :=
  let (negative, unsigned) :=
    match text with
    | '-' :: rest => (true, rest)
    | '+' :: rest => (false, rest)
    | _ => (false, text)
  let (whole, rest) := unsigned.span Char.isDigit
  let (decimals, rest) :=
    match rest with
    | '.' :: r => r.span Char.isDigit
    | r => ([], r)
  if whole.isEmpty && decimals.isEmpty then none
  else
    (exponentOfText? rest).map fun exponent =>
      Binary64.ofDecimal negative (Text.digitsValue (whole ++ decimals))
        (exponent - decimals.length)

/-- A number written as a string, with white space around it or underscores in it, but
not both. -/
def numberOfText (text : Text) : Except FieldFault Binary64 :=
  let read (text : Text) := (namedNumber? text).orElse fun _ => finiteNumber? text
  match (read (trimmed text)).orElse fun _ => (withoutUnderscores? text).bind read with
  | some value => .ok value
  | none => .error .unreadableNumber

/-! ### Values -/

/-- An integer from a floating-point number without fraction. -/
def integerOfNumber (x : Binary64) : Except FieldFault Int :=
  match x with
  | .finite .. =>
    if !x.isIntegral then .error .fractional
    else if x.toInt.natAbs < Nat.pow 2 63 then .ok x.toInt
    else .error .oversizedInteger
  | _ => .error .notFinite

/-- Any form of an integer. -/
def toInteger : Json → Except FieldFault Int
  | .int value => .ok value
  | .bool value => .ok (if value then 1 else 0)
  | .float value => integerOfNumber value
  | .string runes => ((runes.toText?).map integerOfText).getD (.error .unpaired)
  | _ => .error .notInteger

/-- Any form of a number. -/
def toNumber : Json → Except FieldFault Binary64
  | .int value =>
    match Binary64.ofInt value with
    | .infinity _ => .error .notNumber
    | number => .ok number
  | .bool value => .ok (.ofNat (if value then 1 else 0))
  | .float value => .ok value
  | .string runes => ((runes.toText?).map numberOfText).getD (.error .unpaired)
  | _ => .error .notNumber

/-- A string that is text. -/
def toText : Json → Except FieldFault Text
  | .string runes => ((runes.toText?).map .ok).getD (.error .notString)
  | _ => .error .notString

/-- An integer above zero. -/
def toPositive (value : Json) : Except FieldFault Nat := do
  let n ← toInteger value
  if n < 1 then .error .notPositive else .ok n.toNat

/-- A number that is not zero or below. -/
def toAboveZero (value : Json) : Except FieldFault Binary64 := do
  let x ← toNumber value
  if x < .zero || x = .finite false 0 Binary64.minExponent ||
      x = .finite true 0 Binary64.minExponent then .error .notAboveZero
  else .ok x

/-- The texts of a list; a fault names the place in the list. -/
def toTexts (field : Text) (pos : Nat) : List Json → Except FieldError (List Text)
  | [] => .ok []
  | item :: items =>
    match toText item with
    | .error fault => .error { field := field ++ '.' :: Text.ofNat pos, fault }
    | .ok text => do
      let texts ← toTexts field (pos + 1) items
      return text :: texts

/-- A list of strings. -/
def toTextList (field : Text) : Json → Except FieldError (List Text)
  | .array items => toTexts field 0 items
  | _ => .error { field, fault := .notList }

/-- A list of suffixes: at least one, each with a dot in front. -/
def toSuffixes (field : Text) (value : Json) : Except FieldError (List Text) := do
  let suffixes ← toTextList field value
  if suffixes.isEmpty then .error { field, fault := .noSuffix }
  else
    match suffixes.find? (·.head? ≠ some '.') with
    | some suffix => .error { field, fault := .undottedSuffix suffix }
    | none => .ok suffixes

/-! ### Fields -/

/-- The names of the fields, in the order in which they are checked. -/
def fieldNames : List String :=
  ["max_depth", "cache_ttl_seconds", "cache_max_entries", "sweep_interval_seconds", "encoding",
    "override_suffixes", "configuration_suffixes", "environment_directories",
    "remote_source_markers"]

/-- The value of a field: the default if the document does not have it. -/
def field {α : Type} (document : SettingsDocument) (name : String) (default : α)
    (read : Text → Json → Except FieldError α) : Except FieldError α :=
  match document.lookup (.name name.toList) with
  | none => .ok default
  | some value => read name.toList value

/-- Names the field of a fault. -/
def named {α : Type} (read : Json → Except FieldFault α) (field : Text) (value : Json) :
    Except FieldError α :=
  (read value).mapError fun fault => { field, fault }

/-- The fault of a key, if it names no field. -/
def keyError? : DocumentKey → Option FieldError
  | .name text =>
    if fieldNames.any (·.toList = text) then none else some ⟨text, .unknownField⟩
  | .other shown => some ⟨shown, .keyNotString⟩
  | .unpaired => some ⟨[], .unpaired⟩

/-- The settings of the fields of a document. -/
def ofFields (document : SettingsDocument) : Except FieldError Settings := do
  let defaults : Settings := {}
  let maxDepth ← field document "max_depth" defaults.maxDepth (named toPositive)
  let cacheTtl ← field document "cache_ttl_seconds" defaults.cacheTtl (named toAboveZero)
  let cacheMaxEntries ←
    field document "cache_max_entries" defaults.cacheMaxEntries (named toPositive)
  let sweepInterval ←
    field document "sweep_interval_seconds" defaults.sweepInterval (named toAboveZero)
  let encoding ← field document "encoding" defaults.encoding (named toText)
  let overrideSuffixes ←
    field document "override_suffixes" defaults.overrideSuffixes toSuffixes
  let configurationSuffixes ←
    field document "configuration_suffixes" defaults.configurationSuffixes toSuffixes
  let environmentDirectories ←
    field document "environment_directories" defaults.environmentDirectories toTextList
  let remoteSourceMarkers ←
    field document "remote_source_markers" defaults.remoteSourceMarkers toTextList
  match document.findSome? fun entry => keyError? entry.1 with
  | some error => .error error
  | none =>
    .ok { maxDepth, cacheTtl, cacheMaxEntries, sweepInterval, encoding, overrideSuffixes,
          configurationSuffixes, environmentDirectories, remoteSourceMarkers }

/-- The settings of a document. A key that is no text is a fault before all others, and
in no field. -/
def ofDocument (document : SettingsDocument) : Except FieldError Settings :=
  if document.any (·.1 = .unpaired) then .error ⟨[], .unpaired⟩ else ofFields document

end Settings

end TerraformTrace
