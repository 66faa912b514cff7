import TerraformTrace.Yaml.Token

/-!
# TerraformTrace.Yaml.Node

The nodes of a YAML document: scalars as they are written, sequences and mappings. What
is left out, such as the value of a key without one, is the empty plain scalar.

Nodes are read from tokens by recursive descent. Every function gives the node and the
tokens after it.
-/

namespace TerraformTrace.Yaml

/-- A tree of scalars. -/
inductive Node
  | scalar (text : Text) (plain : Bool)
  | sequence (items : List Node)
  | mapping (entries : List (Node × Node))
deriving Repr, Inhabited

namespace Node

/-- The node that stands for what is left out. -/
def absent : Node := .scalar [] true

/-- Where a node stands. -/
inductive Place
  /-- Inside brackets. -/
  | flow
  | block
  /-- As the key or value of a block mapping, where the items of a sequence need not be
  indented. -/
  | field
deriving DecidableEq, Repr

mutual

/-- Reads a node. -/
def node? (place : Place) : (rounds : Nat) → List Token → Option (Node × List Token)
  | 0, _ => none
  | rounds + 1, tokens =>
    match place, tokens with
    | .field, .entry :: _ => do
      let (items, rest) ← compactItems? rounds tokens
      return (.sequence items, rest)
    | _, .scalar text plain :: rest => some (.scalar text plain, rest)
    | _, .listOpen :: rest => do
      let (items, rest) ← listItems? rounds true rest
      return (.sequence items, rest)
    | _, .mapOpen :: rest => do
      let (entries, rest) ← mapEntries? rounds true rest
      return (.mapping entries, rest)
    | .flow, _ => none
    | _, .sequenceStart :: rest => do
      let (items, rest) ← blockItems? rounds rest
      return (.sequence items, rest)
    | _, .mappingStart :: rest => do
      let (entries, rest) ← blockEntries? rounds rest
      return (.mapping entries, rest)
    | _, _ => none

/-- Reads a node unless one of some tokens shows that it is left out. -/
def nodeBefore? (place : Place) (stops : List Token) :
    (rounds : Nat) → List Token → Option (Node × List Token)
  | 0, _ => none
  | rounds + 1, tokens =>
    if tokens.head?.any stops.contains then some (absent, tokens) else node? place rounds tokens

/-- Reads the items of an indented sequence. -/
def blockItems? : (rounds : Nat) → List Token → Option (List Node × List Token)
  | 0, _ => none
  | rounds + 1, .entry :: rest => do
    let (item, rest) ← nodeBefore? .block [.entry, .blockEnd] rounds rest
    let (items, rest) ← blockItems? rounds rest
    return (item :: items, rest)
  | _ + 1, .blockEnd :: rest => some ([], rest)
  | _ + 1, _ => none

/-- Reads the items of a block sequence that is not indented. -/
def compactItems? : (rounds : Nat) → List Token → Option (List Node × List Token)
  | 0, _ => none
  | rounds + 1, .entry :: rest => do
    let (item, rest) ← nodeBefore? .block [.entry, .key, .value, .blockEnd] rounds rest
    let (items, rest) ← compactItems? rounds rest
    return (item :: items, rest)
  | _ + 1, tokens => some ([], tokens)

/-- Reads the entries of a mapping. -/
def blockEntries? : (rounds : Nat) → List Token → Option (List (Node × Node) × List Token)
  | 0, _ => none
  | rounds + 1, .key :: rest => do
    let (key, rest) ← nodeBefore? .field [.key, .value, .blockEnd] rounds rest
    blockValue? rounds key rest
  | rounds + 1, .value :: rest => blockValue? rounds absent (.value :: rest)
  | _ + 1, .blockEnd :: rest => some ([], rest)
  | _ + 1, _ => none

/-- Reads the value of a key of a block mapping, and the entries after it. -/
def blockValue? : (rounds : Nat) → Node → List Token → Option (List (Node × Node) × List Token)
  | 0, _, _ => none
  | rounds + 1, key, .value :: rest => do
    let (value, rest) ← nodeBefore? .field [.key, .value, .blockEnd] rounds rest
    let (entries, rest) ← blockEntries? rounds rest
    return ((key, value) :: entries, rest)
  | rounds + 1, key, tokens => do
    let (entries, rest) ← blockEntries? rounds tokens
    return ((key, absent) :: entries, rest)

/-- Reads the items between square brackets. A key among them makes a mapping of one
entry. -/
def listItems? : (rounds : Nat) → (first : Bool) → List Token → Option (List Node × List Token)
  | 0, _, _ => none
  | _ + 1, _, .listClose :: rest => some ([], rest)
  | rounds + 1, false, .comma :: rest =>
    match rest with
    | .listClose :: rest => some ([], rest)
    | tokens => listItem? rounds tokens
  | _ + 1, false, _ => none
  | rounds + 1, true, tokens => listItem? rounds tokens

/-- Reads an item between square brackets, and the items after it. -/
def listItem? : (rounds : Nat) → List Token → Option (List Node × List Token)
  | 0, _ => none
  | rounds + 1, .key :: rest => do
    let (key, rest) ← nodeBefore? .flow [.value, .comma, .listClose] rounds rest
    let (value, rest) ← flowValue? rounds .listClose rest
    let (items, rest) ← listItems? rounds false rest
    return (.mapping [(key, value)] :: items, rest)
  | rounds + 1, tokens => do
    let (item, rest) ← node? .flow rounds tokens
    let (items, rest) ← listItems? rounds false rest
    return (item :: items, rest)

/-- Reads the entries between curly brackets. -/
def mapEntries? : (rounds : Nat) → (first : Bool) → List Token →
    Option (List (Node × Node) × List Token)
  | 0, _, _ => none
  | _ + 1, _, .mapClose :: rest => some ([], rest)
  | rounds + 1, false, .comma :: rest =>
    match rest with
    | .mapClose :: rest => some ([], rest)
    | tokens => mapEntry? rounds tokens
  | _ + 1, false, _ => none
  | rounds + 1, true, tokens => mapEntry? rounds tokens

/-- Reads an entry between curly brackets, and the entries after it. -/
def mapEntry? : (rounds : Nat) → List Token → Option (List (Node × Node) × List Token)
  | 0, _ => none
  | rounds + 1, .key :: rest => do
    let (key, rest) ← nodeBefore? .flow [.value, .comma, .mapClose] rounds rest
    let (value, rest) ← flowValue? rounds .mapClose rest
    let (entries, rest) ← mapEntries? rounds false rest
    return ((key, value) :: entries, rest)
  | rounds + 1, .value :: rest => do
    let (value, rest) ← flowValue? rounds .mapClose (.value :: rest)
    let (entries, rest) ← mapEntries? rounds false rest
    return ((absent, value) :: entries, rest)
  | rounds + 1, tokens => do
    let (key, rest) ← node? .flow rounds tokens
    let (entries, rest) ← mapEntries? rounds false rest
    return ((key, absent) :: entries, rest)

/-- Reads the value of a key inside brackets. -/
def flowValue? : (rounds : Nat) → (close : Token) → List Token → Option (Node × List Token)
  | 0, _, _ => none
  | rounds + 1, close, .value :: rest => nodeBefore? .flow [.comma, close] rounds rest
  | _ + 1, _, tokens => some (absent, tokens)

end

/-- Reads the content of a document; it may be left out after the start of one. -/
def content? (started : Bool) (tokens : List Token) : Option (Node × List Token) :=
  match tokens with
  | [] | .documentStart :: _ | .documentEnd :: _ =>
    if started then some (absent, tokens) else none
  | _ => node? .block (4 * tokens.length + 4) tokens

/-- The node of the one document that tokens make. Without any there is an empty one. -/
def ofTokens? : List Token → Option Node
  | [] => some absent
  | tokens => do
    let (node, rest) ←
      match tokens with
      | .documentStart :: rest => content? true rest
      | _ => content? false tokens
    if rest = [] || rest = [.documentEnd] then some node else none

end Node

end TerraformTrace.Yaml
