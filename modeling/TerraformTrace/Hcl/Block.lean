import TerraformTrace.Hcl.Assignment

/-!
# TerraformTrace.Hcl.Block

Blocks `keyword "label" ... { body }` at brace depth zero of a text. Labels may be
quoted or bare. The body ends at the matching brace of the mask, so nesting is
unlimited; a block that is never closed takes the rest of the text as its body.
-/

namespace TerraformTrace.Hcl

open Text

/-- One block, with the positions of its first character and after its last. -/
structure Block where
  labels : List Text
  body : Text
  start : Nat
  stop : Nat
deriving DecidableEq, Repr

/-! ### Headers -/

/-- The quoted or bare label a text starts with, and the number of its characters. -/
def label? : Text → Option (Text × Nat)
  | '"' :: rest =>
    let label := rest.takeWhile fun c => c ≠ '"' && c ≠ '\n'
    if (rest.drop label.length).head? = some '"' then some (label, label.length + 2) else none
  | text => (leadingName? text).map fun name => (name, name.length)

/-- The labels a text starts with, each after at least one space or tab, and the
number of characters they take. Each round takes a character off the text, so its
length bounds the rounds. -/
def labels : (rounds : Nat) → Text → List Text × Nat
  | 0, _ => ([], 0)
  | rounds + 1, text =>
    let gap := (text.takeWhile isGap).length
    if gap = 0 then ([], 0)
    else
      match label? (text.drop gap) with
      | none => ([], 0)
      | some (label, length) =>
        let (more, read) := labels rounds (text.drop (gap + length))
        (label :: more, gap + length + read)

/-- The header of a block: its labels and the number of its characters, the opening
brace included. -/
structure BlockHeader where
  labels : List Text
  length : Nat
deriving DecidableEq, Repr

/-- The header of a `keyword` block a text starts with, if it starts with one. -/
def blockHeader? (keyword text : Text) : Option BlockHeader :=
  if keyword.isPrefixOf text then
    let rest := text.drop keyword.length
    let (labels, read) := labels rest.length rest
    let gap := ((rest.drop read).takeWhile isGap).length
    if (rest.drop (read + gap)).head? = some '{' then
      some { labels, length := keyword.length + read + gap + 1 }
    else none
  else none

/-- Whether the mask shows the start of a header and its brace as code. -/
def BlockHeader.isVisible (header : BlockHeader) (text mask : Text) : Bool :=
  mask.head? = text.head? && mask[header.length - 1]? = some '{'

/-! ### Bodies -/

/-- The number of mask characters before the brace that closes the innermost of
`depth + 1` open ones, if it is closed. Other brackets do not count. -/
def closingBrace? : (depth : Nat) → Text → Option Nat
  | _, [] => none
  | depth, c :: rest =>
    if c = '{' then (closingBrace? (depth + 1) rest).map (· + 1)
    else if c = '}' then
      match depth with
      | 0 => some 0
      | depth + 1 => (closingBrace? depth rest).map (· + 1)
    else (closingBrace? depth rest).map (· + 1)

/-- Reads the `keyword` block a text starts with, if it starts with one in code. The
number is the characters it takes. -/
def blockAt? (keyword : Text) (start : Nat) (text mask : Text) : Option (Block × Nat) :=
  (blockHeader? keyword text).bind fun header =>
    if header.isVisible text mask then
      let rest := text.drop header.length
      let (body, length) :=
        match closingBrace? 0 (mask.drop header.length) with
        | some n => (rest.take n, header.length + n + 1)
        | none => (rest, text.length)
      some ({ labels := header.labels, body, start, stop := start + length }, length)
    else none

/-! ### Scanning -/

/-- The `keyword` blocks of the rest of a text and its mask from position `pos`
on. The next `skip` characters belong to a block already read; `fresh` says that a
statement may start here. -/
def scanBlocks (keyword : Text) :
    (skip depth : Nat) → (fresh : Bool) → (pos : Nat) → Text → Text → List Block
  | _, _, _, _, [], _ => []
  | _, _, _, _, _ :: _, [] => []
  | skip + 1, depth, fresh, pos, _ :: text, _ :: mask =>
    scanBlocks keyword skip depth fresh (pos + 1) text mask
  | 0, depth, fresh, pos, c :: text, m :: mask =>
    if fresh && depth = 0 then
      if isIndent m then scanBlocks keyword 0 depth true (pos + 1) text mask
      else
        match blockAt? keyword pos (c :: text) (m :: mask) with
        | some (block, length) =>
          block :: scanBlocks keyword (length - 1) depth false (pos + 1) text mask
        | none =>
          scanBlocks keyword 0 (nextDepth depth m) (m = '\n') (pos + 1) text mask
    else
      scanBlocks keyword 0 (nextDepth depth m) (fresh || (depth = 0 && m = '\n'))
        (pos + 1) text mask

/-- Every `keyword` block at depth zero of a text, in order. -/
def blocks (text keyword : Text) : List Block :=
  scanBlocks keyword 0 0 true 0 text (mask text)

/-- The body of the first `keyword` block whose leading labels are `labels`. -/
def blockBody? (text keyword : Text) (labels : List Text) : Option Text :=
  ((blocks text keyword).find? fun block => labels.isPrefixOf block.labels).map (·.body)

end TerraformTrace.Hcl
