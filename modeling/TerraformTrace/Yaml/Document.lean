import TerraformTrace.Yaml.Atom
import TerraformTrace.Yaml.Node

/-!
# TerraformTrace.Yaml.Document

The value of a YAML document. A key is a scalar or a list of scalars, and may appear
only once in a mapping. A mapping can take over the entries of others under the key
`<<`; its own entries come last and win, and then a key may be repeated.
-/

namespace TerraformTrace.Yaml

/-- A key of a mapping. -/
inductive Key
  | atom (value : Atom)
  | list (items : List Atom)
deriving DecidableEq, Repr

namespace Key

/-- Whether two lists of values are the same one by one. -/
def sameItems : List Atom → List Atom → Bool
  | [], [] => true
  | a :: as, b :: bs => a.same b && sameItems as bs
  | _, _ => false

/-- Whether two keys are the same. -/
def same : Key → Key → Bool
  | .atom a, .atom b => a.same b
  | .list as, .list bs => sameItems as bs
  | _, _ => false

/-- A key as it is shown. -/
def shown : Key → Text
  | .atom value => value.shown
  | .list [item] => '(' :: item.shown ++ [',', ')']
  | .list items => '(' :: Text.join ", ".toList (items.map Atom.shown) ++ [')']

end Key

/-- The value of a document or a part of it. -/
inductive Value
  | atom (value : Atom)
  | list (items : List Value)
  | map (entries : List (Key × Value))
deriving Repr, Inhabited

/-- Gives a key a value: in place if the key is there, else at the end. -/
def putEntry (key : Key) (value : Value) : List (Key × Value) → List (Key × Value)
  | [] => [(key, value)]
  | entry :: entries =>
    if entry.1.same key then (entry.1, value) :: entries
    else entry :: putEntry key value entries

/-- Whether two entries have one key. -/
def repeatsKey : List (Key × Value) → Bool
  | [] => false
  | entry :: entries => entries.any (·.1.same entry.1) || repeatsKey entries

/-- The entries of a mapping: those taken over from other mappings, and its own. -/
structure Entries where
  inherited : List (Key × Value) := []
  own : List (Key × Value) := []
deriving Repr

namespace Entries

/-- All entries, those taken over first. -/
def all (entries : Entries) : List (Key × Value) := entries.inherited ++ entries.own

/-- The mapping that entries make. None if a key is repeated, unless entries are taken
over. -/
def map? (entries : Entries) : Option Value :=
  if entries.inherited.isEmpty then
    if repeatsKey entries.own then none else some (.map entries.own)
  else some (.map (entries.all.foldl (fun done entry => putEntry entry.1 entry.2 done) []))

/-- Adds an entry of a mapping's own in front. -/
def add (key : Key) (value : Value) (entries : Entries) : Entries :=
  { entries with own := (key, value) :: entries.own }

/-- Adds entries taken over in front. -/
def inherit (others : List (Key × Value)) (entries : Entries) : Entries :=
  { entries with inherited := others ++ entries.inherited }

end Entries

namespace Value

/-- The value of a scalar. -/
def atomOf? (text : Text) (plain : Bool) : Option Atom :=
  if plain then Atom.ofPlain? text else some (.text text)

/-- The value of a node that is a scalar. -/
def atomOfNode? : Node → Option Atom
  | .scalar text plain => atomOf? text plain
  | _ => none

/-- The key that a node makes. -/
def keyOf? : Node → Option Key
  | .scalar text plain =>
    if plain && text = Atom.defaultMark then some (.atom (.text text))
    else (atomOf? text plain).map .atom
  | .sequence items => (items.mapM atomOfNode?).map .list
  | .mapping _ => none

/-- Whether a node is the key under which entries are taken over. -/
def isMerge : Node → Bool
  | .scalar text plain => plain && text = Atom.mergeMark
  | _ => false

mutual

/-- The value of a node. -/
def ofNode? : Node → Option Value
  | .scalar text plain => (atomOf? text plain).map .atom
  | .sequence items => (ofNodes? items).map .list
  | .mapping entries => do (← entriesOf? entries).map?

/-- The values of nodes. -/
def ofNodes? : List Node → Option (List Value)
  | [] => some []
  | node :: nodes => do
    let value ← ofNode? node
    let values ← ofNodes? nodes
    return value :: values

/-- The entries of a mapping. Once some are taken over, no others can be. -/
def entriesOf? : List (Node × Node) → Option Entries
  | [] => some {}
  | (key, node) :: rest =>
    if isMerge key then do
      let others ← inheritedFrom? node
      let entries ← entriesOf? rest
      if !others.isEmpty && rest.any (fun entry => isMerge entry.1) then none
      else some (entries.inherit others)
    else do
      let key ← keyOf? key
      let value ← ofNode? node
      let entries ← entriesOf? rest
      return entries.add key value

/-- The entries that a mapping, or a list of mappings, gives to another; of several the
last gives first. -/
def inheritedFrom? : Node → Option (List (Key × Value))
  | .mapping entries => do return (← entriesOf? entries).all
  | .sequence items => inheritedFromAll? items
  | .scalar .. => none

/-- The entries that a list of mappings gives to another, those of the last first. -/
def inheritedFromAll? : List Node → Option (List (Key × Value))
  | [] => some []
  | .mapping entries :: rest => do
    let first ← entriesOf? entries
    let later ← inheritedFromAll? rest
    return later ++ first.all
  | _ :: _ => none

end

end Value

/-- What reads YAML: it gives the value of a document, or nothing. -/
abbrev Reader := Text → Option Value

/-- Reads a document. None if the text is not one; why is not told. -/
def read? : Reader := fun text => do
  let tokens ← tokens? text
  let node ← Node.ofTokens? tokens
  Value.ofNode? node

end TerraformTrace.Yaml
