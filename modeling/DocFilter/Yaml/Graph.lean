import DocFilter.Json.Basic
import DocFilter.Yaml.Error
import DocFilter.Yaml.Tag
import DocFilter.Yaml.Token

/-!
# The node graph of a YAML text

Tokens make up nodes: scalars, sequences and mappings. An alias stands for a node that was named before,
so nodes refer to each other through their numbers and a collection may even hold itself.
`Graph.ofTokens` reads the one document of a token sequence.
-/

namespace DocFilter.Yaml

/-- The number of a node. -/
structure Ref where
  index : Nat
deriving DecidableEq, Repr, Inhabited

/-- A node. -/
inductive Node where
  | scalar (tag : Tag) (text : String)
  | sequence (tag : Tag) (items : List Ref)
  | mapping (tag : Tag) (pairs : List (Ref × Ref))
deriving Repr, Inhabited

/-- The tag of a node. -/
def Node.tag : Node → Tag
  | scalar tag _ | sequence tag _ | mapping tag _ => tag

/-- What a node is made of. -/
def Node.shape : Node → Shape
  | scalar .. => .scalar
  | sequence .. => .sequence
  | mapping .. => .mapping

/-- A node with another tag. -/
def Node.withTag (tag : Tag) : Node → Node
  | scalar _ text => scalar tag text
  | sequence _ items => sequence tag items
  | mapping _ pairs => mapping tag pairs

/-- The nodes of a text. -/
structure Graph where
  nodes : Array Node := #[]
deriving Inhabited

namespace Graph

/-- A node by its number. -/
def node (g : Graph) (r : Ref) : Node := g.nodes[r.index]?.getD default

/-- Adds a node. -/
def add (g : Graph) (n : Node) : Ref × Graph := (⟨g.nodes.size⟩, ⟨g.nodes.push n⟩)

/-- Puts a node in the place of another. -/
def set (g : Graph) (r : Ref) (n : Node) : Graph := ⟨g.nodes.setIfInBounds r.index n⟩

end Graph

/-! ## Reading tokens -/

/-- The tokens still to come and why they end early, the tag handles, the named nodes, and the nodes so
far. -/
structure Composer where
  tokens : List Token
  ending : Error
  handles : Entries String := []
  anchors : Entries Ref := []
  graph : Graph := {}

/-- A step that reads tokens. -/
abbrev Compose := StateT Composer (Except Error)

namespace Compose

/-- The next token. -/
def peek : Compose Token := do
  let s ← get
  match s.tokens with
  | token :: _ => pure token
  | [] => throw s.ending

/-- Passes a token. -/
def advance : Compose Unit := modify fun s => { s with tokens := s.tokens.drop 1 }

/-- Passes the next token if it is a certain one. -/
def accept (token : Token) : Compose Bool := do
  if (← peek) == token then
    advance
    pure true
  else pure false

/-- Refuses the tokens for a broken rule. -/
def fail {α : Type} (reason : Reason) : Compose α := throw (.malformed reason)

/-- Gives up on tokens that have no end. -/
def giveUp {α : Type} : Compose α := throw (.fault .endless)

/-- Passes a token that must come next in some piece. -/
def expect (token : Token) (piece : Piece) : Compose Unit := do
  if !(← accept token) then fail (.parsing piece)

/-- Whether the next token is one of some. -/
def at? (tokens : List Token) : Compose Bool := do pure (tokens.contains (← peek))

/-- Adds a node. -/
def add (node : Node) : Compose Ref := modifyGet fun s =>
  let (r, graph) := s.graph.add node
  (r, { s with graph := graph })

/-- A node that is not written out. -/
def addNothing : Compose Ref := add (.scalar .null "")

/-- How many steps can each pass a token. -/
def bound : Compose Nat := do pure ((← get).tokens.length + 1)

/-- Repeats a step that may find nothing more to read; the fuel bounds how often. -/
def collectWithin {α : Type} (step : Compose (Option α)) : (fuel : Nat) → Compose (List α)
  | 0 => giveUp
  | fuel + 1 => do
    match ← step with
    | none => pure []
    | some x => do
      let xs ← collectWithin step fuel
      pure (x :: xs)

/-- Repeats a step that passes a token each time until it finds nothing more to read. -/
def collect {α : Type} (step : Compose (Option α)) : Compose (List α) := do collectWithin step (← bound)

/-- Reads a node unless one of some tokens shows that it is not written out. -/
def nodeUnless (node : Compose Ref) (stops : List Token) : Compose Ref := do
  if ← at? stops then addNothing else node

/-- Reads a value after its mark; without the mark it is not written out. -/
def valueUnless (node : Compose Ref) (stops : List Token) : Compose Ref := do
  if ← accept .value then nodeUnless node stops else addNothing

/-! ## Collections -/

/-- Reads the next item of a block sequence. -/
def blockItem (node : Compose Ref) : Compose (Option Ref) := do
  if ← accept .blockEntry then some <$> nodeUnless node [.blockEntry, .blockEnd]
  else
    expect .blockEnd .blockCollection
    pure none

/-- Reads the next item of a sequence that is a value of a block mapping and not indented further. -/
def indentlessItem (node : Compose Ref) : Compose (Option Ref) := do
  if ← accept .blockEntry then some <$> nodeUnless node [.blockEntry, .key, .value, .blockEnd]
  else pure none

/-- Reads the next entry of a block mapping. -/
def blockPair (node : Compose Ref) : Compose (Option (Ref × Ref)) := do
  let stops : List Token := [.key, .value, .blockEnd]
  if ← accept .key then
    let key ← nodeUnless node stops
    let value ← valueUnless node stops
    pure (some (key, value))
  else
    expect .blockEnd .blockMapping
    pure none

/-- Passes the comma that separates the items of a flow collection; whether its end comes instead. -/
def flowEnds (piece : Piece) (first : Bool) (close : Token) : Compose Bool := do
  if ← accept close then pure true
  else if first then pure false
  else
    expect .flowEntry piece
    accept close

/-- Reads the items of a flow collection, given how to read one. -/
def flowItems {α : Type} (piece : Piece) (item : Compose α) (close : Token) : Compose (List α) := do
  if ← flowEnds piece true close then pure []
  else
    let first ← item
    let next : Compose (Option α) := do
      if ← flowEnds piece false close then pure none else some <$> item
    let more ← collect next
    pure (first :: more)

/-- Reads an item of a flow sequence: a node, or an entry that makes up a mapping of its own. -/
def flowItem (node : Compose Ref) : Compose Ref := do
  if ← accept .key then
    let key ← nodeUnless node [.value, .flowEntry, .flowSequenceEnd]
    let value ← valueUnless node [.flowEntry, .flowSequenceEnd]
    add (.mapping .map [(key, value)])
  else node

/-- Reads an entry of a flow mapping. -/
def flowPair (node : Compose Ref) : Compose (Ref × Ref) := do
  if ← accept .key then
    let key ← nodeUnless node [.value, .flowEntry, .flowMappingEnd]
    let value ← valueUnless node [.flowEntry, .flowMappingEnd]
    pure (key, value)
  else
    let key ← node
    let value ← addNothing
    pure (key, value)

/-! ## Nodes -/

/-- The full name of a tag. -/
def tagName (handle : Option String) (content : String) : Compose String := do
  match handle with
  | none => pure content
  | some handle => match Entries.find? handle (← get).handles with
    | some start => pure (start ++ content)
    | none => fail (.parsing .node)

/-- Reads the anchor and the tag of a node, in either order. -/
def properties : Compose (Option String × Option String) := do
  match ← peek with
  | .anchor name => do
    advance
    match ← peek with
    | .tag handle content => do
      advance
      pure (some name, some (← tagName handle content))
    | _ => pure (some name, none)
  | .tag handle content => do
    advance
    match ← peek with
    | .anchor name => do
      advance
      pure (some name, some (← tagName handle content))
    | _ => pure (none, some (← tagName handle content))
  | _ => pure (none, none)

/-- Names a node. -/
def name (anchor : Option String) (r : Ref) : Compose Ref := do
  match anchor with
  | none => pure ()
  | some anchor => modify fun s => { s with anchors := Entries.put anchor r s.anchors }
  pure r

/-- Adds a node under a name, which no other node may have. -/
def addNamed (anchor : Option String) (node : Node) : Compose Ref := do
  match anchor with
  | none => pure ()
  | some anchor => if Entries.has anchor (← get).anchors then fail (.secondAnchor anchor) else pure ()
  add node >>= name anchor

/-- Adds a node whose contents are read once it can be referred to. -/
def fill {α : Type} (anchor : Option String) (node : List α → Node) (contents : Compose (List α)) :
    Compose Ref := do
  let r ← addNamed anchor (node [])
  let contents ← contents
  modify fun s => { s with graph := s.graph.set r (node contents) }
  pure r

/-- The tag of a collection; one that is not named gets the default. -/
def collectionTag (default : Tag) : Option String → Tag
  | none | some "!" => default
  | some name => .ofName name

/-- The tag of a scalar: a plain one without a tag, and any whose tag is a lone mark, is told by its
text. -/
def scalarTag (plain : Bool) (text : String) : Option String → Tag
  | none => if plain then .ofPlain text else .str
  | some "!" => .ofPlain text
  | some name => .ofName name

/-- Reads what comes after the properties of a node, given how to read the nodes inside. Only what has a
property may be left out. -/
def content (inner : (block indentless : Bool) → Compose Ref) (block indentless : Bool)
    (anchor tag : Option String) : Compose Ref := do
  let nothing : Compose Ref :=
    if anchor.isSome || tag.isSome then addNamed anchor (.scalar (scalarTag true "" tag) "")
    else fail (.parsing (if block then .blockNode else .flowNode))
  let sequence := fill anchor (.sequence (collectionTag .seq tag))
  let mapping := fill anchor (.mapping (collectionTag .map tag))
  match ← peek with
  | .blockEntry =>
    if indentless then sequence (collect (indentlessItem (inner true false))) else nothing
  | .scalar plain text => do
    advance
    addNamed anchor (.scalar (scalarTag plain text tag) text)
  | .flowSequenceStart => do
    advance
    sequence (flowItems .flowSequence (flowItem (inner false false)) .flowSequenceEnd)
  | .flowMappingStart => do
    advance
    mapping (flowItems .flowMapping (flowPair (inner false false)) .flowMappingEnd)
  | .blockSequenceStart =>
    if block then do
      advance
      sequence (collect (blockItem (inner true false)))
    else nothing
  | .blockMappingStart =>
    if block then do
      advance
      mapping (collect (blockPair (inner true true)))
    else nothing
  | _ => nothing

/-- Reads a node. Block collections may only stand outside of flow collections, and a sequence without
indentation only inside a block mapping; the fuel bounds how deep nodes nest. -/
def node : (fuel : Nat) → (block indentless : Bool) → Compose Ref
  | 0, _, _ => giveUp
  | fuel + 1, block, indentless => do
    match ← peek with
    | .reference anchor => do
      advance
      match Entries.find? anchor (← get).anchors with
      | some r => pure r
      | none => fail (.unknownAlias anchor)
    | _ => do
      let (anchor, tag) ← properties
      content (node fuel) block indentless anchor tag

/-! ## Documents -/

/-- The handles that need no directive. -/
def defaultHandles : Entries String := [("!", "!"), ("!!", Tag.space)]

/-- Reads the directives before a document; each may be given once. -/
def directives : (fuel : Nat) → (versioned : Bool) → Compose Unit
  | 0, _ => giveUp
  | fuel + 1, versioned => do
    match ← peek with
    | .version major => do
      advance
      if versioned then fail .secondVersion
      else if major != 1 then fail .otherVersion
      else directives fuel true
    | .tagHandle handle content => do
      advance
      if Entries.has handle (← get).handles then fail (.secondHandle handle)
      else
        modify fun s => { s with handles := Entries.put handle content s.handles }
        directives fuel versioned
    | .directive => do
      advance
      directives fuel versioned
    | _ => pure ()

/-- Whether a token is a directive. -/
def isDirective : Token → Bool
  | .version _ | .tagHandle .. | .directive => true
  | _ => false

/-- Completes the handles by those that need no directive. -/
def completeHandles : Compose Unit :=
  modify fun s =>
    let missing := defaultHandles.filter fun entry => !Entries.has entry.1 s.handles
    { s with handles := s.handles ++ missing }

/-- Reads the start of a document with its directives. -/
def start : Compose Unit := do
  modify fun s => { s with handles := [] }
  directives (← bound) false
  completeHandles
  let next ← peek
  if !(← accept .documentStart) then fail (.noStart next.name)

/-- Passes the marks at the end of a document. -/
def finish : Compose Unit := do
  let _ ← collect (do if ← accept .documentEnd then pure (some ()) else pure none)

/-- Reads the one document of a text, if there is any. -/
def document : Compose (Option Ref) := do
  let node := node (← bound) true false
  let next ← peek
  if next == .streamEnd then pure none
  else
    let root ←
      if isDirective next || next == .documentStart then do
        start
        let next ← peek
        if isDirective next then addNothing
        else nodeUnless node [.documentStart, .documentEnd, .streamEnd]
      else do
        completeHandles
        node
    finish
    if (← peek) == .streamEnd then pure (some root)
    else do
      start
      fail .secondDocument

end Compose

/-- The nodes of a token sequence, which may end early for a reason, and the root if there is one. -/
def Graph.ofTokens (tokens : List Token) (ending : Option Error) :
    Except Error (Option Ref × Graph) := do
  let (root, s) ← Compose.document.run { tokens := tokens, ending := ending.getD (.fault .endless) }
  .ok (root, s.graph)

end DocFilter.Yaml
