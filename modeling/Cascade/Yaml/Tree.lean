import Cascade.Yaml.Token

/-!
# YAML trees

The tokens of a text make a list of documents, each of which is a tree of scalars, sequences,
mappings and aliases. A missing node is an empty plain scalar. Every function takes its tokens from
the front of a list and returns the rest; `fuel` bounds the number of calls, and a small multiple of
the number of tokens is enough.

## Main definitions

* `Yaml.Tree`.
* `Yaml.trees?`: the documents of a text.
-/

namespace Cascade.Yaml

/-- The anchor and the full tag of a node. -/
structure Properties where
  anchor : Option String := none
  tag : Option String := none
deriving Repr, DecidableEq

/-- A node as written. -/
inductive Tree where
  | alias (name : String)
  | scalar (properties : Properties) (text : String) (plain : Bool)
  | sequence (properties : Properties) (items : List Tree)
  | mapping (properties : Properties) (entries : List (Tree × Tree))

instance : Inhabited Tree := ⟨.alias ""⟩

/-- The node in a place where none is written. -/
def Tree.empty : Tree := .scalar {} "" true

/-- The tag handles of a document. -/
abbrev Handles := List (String × String)

/-- The handles every document knows. -/
def standardHandles : Handles := [("!", "!"), ("!!", "tag:yaml.org,2002:")]

/-- The full tag of a handle and a suffix. -/
def fullTag? (handles : Handles) (handle suffix : String) : Option String :=
  if handle = "" then some suffix else (handles.lookup handle).map fun start => start ++ suffix

/-- The anchor and the tag in front of a node, in either order. -/
def properties? (handles : Handles) : List Token → Option (Properties × List Token)
  | .anchor name :: .tag handle suffix :: rest
  | .tag handle suffix :: .anchor name :: rest => do
    return (⟨some name, some (← fullTag? handles handle suffix)⟩, rest)
  | .anchor name :: rest => some (⟨some name, none⟩, rest)
  | .tag handle suffix :: rest => do return (⟨none, some (← fullTag? handles handle suffix)⟩, rest)
  | rest => some ({}, rest)

/-- A scalar. The tag that stands for no tag is left out. -/
def scalarOf (p : Properties) (text : String) (plain : Bool) : Tree :=
  .scalar (if p.tag = some "!" then { p with tag := none } else p) text plain

/-- The node is missing where a key or a value of a block mapping should stand. -/
def endsBlockPart : List Token → Bool
  | .key :: _ | .value :: _ | .blockEnd :: _ => true
  | _ => false

/-- The node is missing where an entry of a block sequence should stand. -/
def endsBlockEntry : List Token → Bool
  | .blockEntry :: _ | .blockEnd :: _ => true
  | _ => false

/-- The node is missing where the value of a flow mapping should stand. -/
def endsFlowValue : List Token → Bool
  | .flowEntry :: _ | .flowMappingEnd :: _ => true
  | _ => false

/-- The node is missing where the value of a pair in a flow sequence should stand. -/
def endsPairValue : List Token → Bool
  | .flowEntry :: _ | .flowSequenceEnd :: _ => true
  | _ => false

/-- The tokens behind a comma, which the first entry of a flow collection does not have. -/
def behindComma? (first : Bool) : List Token → Option (List Token)
  | .flowEntry :: ts => if first then some (.flowEntry :: ts) else some ts
  | ts => if first then some ts else none

section

variable (handles : Handles)

mutual

/-- A node. Block collections are only expected in blocks; a sequence that is not indented only as
the value of a block mapping. -/
def node (block unindented : Bool) : (fuel : Nat) → List Token → Option (Tree × List Token)
  | 0, _ => none
  | _, .alias name :: rest => some (.alias name, rest)
  | fuel + 1, ts => do
    let (p, ts) ← properties? handles ts
    match ts with
    | .scalar text plain :: rest => return (scalarOf p text plain, rest)
    | .flowSequenceStart :: rest => do
      let (items, rest) ← flowItems true fuel rest
      return (.sequence p items, rest)
    | .flowMappingStart :: rest => do
      let (entries, rest) ← flowEntries true fuel rest
      return (.mapping p entries, rest)
    | .blockEntry :: _ =>
      if unindented then do
        let (items, rest) ← unindentedItems fuel ts
        return (.sequence p items, rest)
      else if p = {} then none
      else return (.scalar p "" true, ts)
    | .blockSequenceStart :: rest =>
      if block then do
        let (items, rest) ← blockItems fuel rest
        return (.sequence p items, rest)
      else if p = {} then none
      else return (.scalar p "" true, ts)
    | .blockMappingStart :: rest =>
      if block then do
        let (entries, rest) ← blockEntries fuel rest
        return (.mapping p entries, rest)
      else if p = {} then none
      else return (.scalar p "" true, ts)
    | _ => if p = {} then none else return (.scalar p "" true, ts)

/-- The items of a block sequence. -/
def blockItems : (fuel : Nat) → List Token → Option (List Tree × List Token)
  | 0, _ => none
  | fuel + 1, .blockEntry :: ts => do
    let (item, ts) ←
      if endsBlockEntry ts then some (Tree.empty, ts) else node true false fuel ts
    let (items, ts) ← blockItems fuel ts
    return (item :: items, ts)
  | _, .blockEnd :: ts => some ([], ts)
  | _, _ => none

/-- The items of a block sequence that is not indented. -/
def unindentedItems : (fuel : Nat) → List Token → Option (List Tree × List Token)
  | 0, _ => none
  | fuel + 1, .blockEntry :: ts => do
    let (item, ts) ←
      if endsBlockEntry ts || endsBlockPart ts then some (Tree.empty, ts)
      else node true false fuel ts
    let (items, ts) ← unindentedItems fuel ts
    return (item :: items, ts)
  | _, ts => some ([], ts)

/-- A key or a value of a block mapping. -/
def blockPart : (fuel : Nat) → List Token → Option (Tree × List Token)
  | 0, _ => none
  | fuel + 1, ts => if endsBlockPart ts then some (.empty, ts) else node true true fuel ts

/-- The entries of a block mapping. -/
def blockEntries : (fuel : Nat) → List Token → Option (List (Tree × Tree) × List Token)
  | 0, _ => none
  | fuel + 1, .key :: ts => do
    let (key, ts) ← blockPart fuel ts
    match ts with
    | .value :: ts => do
      let (value, ts) ← blockPart fuel ts
      let (entries, ts) ← blockEntries fuel ts
      return ((key, value) :: entries, ts)
    | ts => do
      let (entries, ts) ← blockEntries fuel ts
      return ((key, .empty) :: entries, ts)
  | _, .blockEnd :: ts => some ([], ts)
  | _, _ => none

/-- The items of a flow sequence. All but the first one stand behind a comma. -/
def flowItems (first : Bool) : (fuel : Nat) → List Token → Option (List Tree × List Token)
  | 0, _ => none
  | _, .flowSequenceEnd :: ts => some ([], ts)
  | fuel + 1, ts => do
    match ← behindComma? first ts with
    | .flowSequenceEnd :: ts => return ([], ts)
    | .key :: ts => do
      let (pair, ts) ← flowPair fuel ts
      let (items, ts) ← flowItems false fuel ts
      return (.mapping {} [pair] :: items, ts)
    | ts => do
      let (item, ts) ← node false false fuel ts
      let (items, ts) ← flowItems false fuel ts
      return (item :: items, ts)

/-- A single pair in a flow sequence, behind the token of its key. The token in the place of a
missing key is passed over. -/
def flowPair : (fuel : Nat) → List Token → Option ((Tree × Tree) × List Token)
  | 0, _ => none
  | fuel + 1, ts => do
    let (key, ts) ← match ts with
      | .value :: rest => some (Tree.empty, rest)
      | .flowEntry :: rest => some (Tree.empty, rest)
      | .flowSequenceEnd :: rest => some (Tree.empty, rest)
      | ts => node false false fuel ts
    match ts with
    | .value :: ts =>
      if endsPairValue ts then return ((key, .empty), ts)
      else do
        let (value, ts) ← node false false fuel ts
        return ((key, value), ts)
    | ts => return ((key, .empty), ts)

/-- The value of a flow mapping behind a key, if there is one. -/
def flowValue : (fuel : Nat) → List Token → Option (Tree × List Token)
  | 0, _ => none
  | fuel + 1, .value :: ts =>
    if endsFlowValue ts then some (.empty, ts) else node false false fuel ts
  | _, ts => some (.empty, ts)

/-- The entries of a flow mapping. All but the first one stand behind a comma. -/
def flowEntries (first : Bool) :
    (fuel : Nat) → List Token → Option (List (Tree × Tree) × List Token)
  | 0, _ => none
  | _, .flowMappingEnd :: ts => some ([], ts)
  | fuel + 1, ts => do
    match ← behindComma? first ts with
    | .flowMappingEnd :: ts => return ([], ts)
    | .key :: ts => do
      let (key, ts) ← match ts with
        | .value :: _ => some (Tree.empty, ts)
        | .flowEntry :: _ => some (Tree.empty, ts)
        | .flowMappingEnd :: _ => some (Tree.empty, ts)
        | ts => node false false fuel ts
      let (value, ts) ← flowValue fuel ts
      let (entries, ts) ← flowEntries false fuel ts
      return ((key, value) :: entries, ts)
    | ts => do
      -- Without the token of a key, the node is a key without a value.
      let (key, ts) ← node false false fuel ts
      let (entries, ts) ← flowEntries false fuel ts
      return ((key, .empty) :: entries, ts)

end

end

/-! ### Documents -/

/-- The directives in front of a document. A version must be known and is given at most once, as is
every handle. -/
def directives? (versioned : Bool) (own : Handles) : List Token → Option (Handles × List Token)
  | .version major minor :: rest =>
    if versioned || major != 1 || (minor != 1 && minor != 2) then none
    else directives? true own rest
  | .tagDirective handle start :: rest =>
    if (own.lookup handle).isSome then none else directives? versioned ((handle, start) :: own) rest
  | rest => some (own ++ standardHandles, rest)

/-- A document behind its start, which may be empty. -/
def content? (fuel : Nat) (handles : Handles) (ts : List Token) : Option (Tree × List Token) :=
  match ts with
  | [] | .version .. :: _ | .tagDirective .. :: _ | .documentStart :: _ | .documentEnd :: _ =>
    some (.empty, ts)
  | ts => node handles true false fuel ts

/-- The tokens behind the marks that end a document. -/
def dropEnds (ts : List Token) : List Token := ts.dropWhile (· == .documentEnd)

/-- The documents that follow the first one, each with a mark at its start. -/
def markedDocuments? (size : Nat) : (fuel : Nat) → List Token → Option (List Tree)
  | 0, _ => none
  | fuel + 1, ts =>
    match dropEnds ts with
    | [] => some []
    | ts => do
      match ← directives? false [] ts with
      | (handles, .documentStart :: rest) => do
        let (tree, rest) ← content? size handles rest
        let trees ← markedDocuments? size fuel rest
        return tree :: trees
      | _ => none

/-- The documents of tokens. Only the first one may start without a mark. -/
def documentTrees? (size : Nat) (ts : List Token) : Option (List Tree) :=
  match ts with
  | [] => some []
  | .version .. :: _ | .tagDirective .. :: _ | .documentStart :: _ => markedDocuments? size size ts
  | ts => do
    let (tree, rest) ← node standardHandles true false size ts
    let trees ← markedDocuments? size size rest
    return tree :: trees

/-- The documents of a text. -/
def trees? (text : String) : Option (List Tree) := do
  let ts ← tokens? text
  documentTrees? (4 * ts.length + 4) ts

end Cascade.Yaml
