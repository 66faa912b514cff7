import TerraformTrace.Reference.Basic

/-!
# TerraformTrace.Reference.Substitution

Putting a value in the place of a reference. Every whole-word occurrence of the
reference's text is replaced: `var.a` is not found in `var.ab`, `var.a-b`, `x.var.a`
or `var.a.b`.

A value that is a quoted string loses its quotes where the reference makes up a whole
interpolation, so `"${var.env}-app"` becomes `"prod-app"`.
-/

namespace TerraformTrace

open Text

/-- Whether a text, blanks around it aside, is a single quoted string: no double quote
stands inside but escaped ones. -/
def isQuotedString (value : Text) : Bool :=
  let value := strip value
  2 ≤ value.length && value.head? = some '"' && value.getLast? = some '"' &&
    noBareQuote (inner value)
where
  /-- No double quote stands without a backslash right before it. -/
  noBareQuote : Text → Bool
    | '\\' :: '"' :: rest => noBareQuote rest
    | '"' :: _ => false
    | _ :: rest => noBareQuote rest
    | [] => true

namespace Substitution

/-- Replaces every match in a text from left to right. `length?` is given the character
before a position and the text from it on, and says how many characters match there.
Nothing inside a replaced match or its replacement is looked at again; an empty match
puts the replacement before the character at its position. -/
def replace (length? : Option Char → Text → Option Nat) (replacement : Text) :
    (skip : Nat) → (before : Option Char) → Text → Text
  | skip + 1, _, c :: rest => replace length? replacement skip (some c) rest
  | _ + 1, _, [] => []
  | 0, before, [] => if (length? before []).isSome then replacement else []
  | 0, before, c :: rest =>
    match length? before (c :: rest) with
    | none => c :: replace length? replacement 0 (some c) rest
    | some 0 => replacement ++ c :: replace length? replacement 0 (some c) rest
    | some (n + 1) => replacement ++ replace length? replacement n (some c) rest

/-- Length of the interpolation `${ reference }` at the start of a text, blanks allowed
on both sides. Where the reference's text itself starts with blanks, as many blanks as
possible are taken before it. -/
def interpolationLength? (ref : Text) : Option Char → Text → Option Nat
  | _, '$' :: '{' :: rest =>
    let blanks := (rest.takeWhile isBlank).length
    (List.range (blanks + 1)).reverse.findSome? fun before =>
      if ref.isPrefixOf (rest.drop before) then
        let after := rest.drop (before + ref.length)
        let gap := (after.takeWhile isBlank).length
        if (after.drop gap).head? = some '}' then
          some (2 + before + ref.length + gap + 1)
        else none
      else none
  | _, _ => none

/-- Whether a text continues the path before it: by a name character, or by a dot and
the start of a name. -/
def continuesPath : Text → Bool
  | '.' :: c :: _ => isNameStart c
  | c :: _ => isNameRest c
  | [] => false

/-- Length of the reference's text at a position, if it stands there as a whole. -/
def wholeWordLength? (ref : Text) (before : Option Char) (text : Text) : Option Nat :=
  if !(before.any fun c => isWord c || c = '.') && ref.isPrefixOf text &&
      !continuesPath (text.drop ref.length) then
    some ref.length
  else none

end Substitution

/-- The expression with every whole-word occurrence of the reference's text replaced by
the value. -/
def substitute (expression ref value : Text) : Text :=
  let expression :=
    if isQuotedString value then
      Substitution.replace (Substitution.interpolationLength? ref) (inner (strip value))
        0 none expression
    else expression
  Substitution.replace (Substitution.wholeWordLength? ref) value 0 none expression

end TerraformTrace
