import DocFilter.Yaml.Graph
import DocFilter.Yaml.Scan
import DocFilter.Yaml.Simple

/-!
# Values of YAML texts

What a node graph denotes. Merge keys are resolved first: a mapping takes over the entries of the
mappings that it names, and its own entries win. `Graph.check` then looks at every node that the root
reaches, nearest first, so that the first refusal is the one that counts, and `Graph.value` reads the
value of a graph without refusals.
-/

namespace DocFilter.Yaml

namespace Graph

/-! ## Merge keys -/

/-- The entries of a mapping. -/
def pairs (g : Graph) (r : Ref) : List (Ref × Ref) := match g.node r with
  | .mapping _ pairs => pairs
  | _ => []

/-- Gives a mapping new entries. -/
def setPairs (g : Graph) (r : Ref) (pairs : List (Ref × Ref)) : Graph :=
  g.set r (.mapping (g.node r).tag pairs)

/-- Whether a node is a mapping. -/
def isMapping (g : Graph) (r : Ref) : Bool := match g.node r with
  | .mapping .. => true
  | _ => false

/-- Resolves the merge keys of some mappings in turn, given how to do so for one; their entries follow
in reverse order of the mappings. -/
def mergeAll (resolve : Ref → Graph → Except Error Graph) :
    List Ref → Graph → Except Error (List (Ref × Ref) × Graph)
  | [], g => .ok ([], g)
  | r :: rs, g =>
    if g.isMapping r then do
      let g ← resolve r g
      let own := g.pairs r
      let (more, g) ← mergeAll resolve rs g
      .ok (more ++ own, g)
    else refuse (.building .mapping)

/-- Takes the merge keys out of a mapping from an index on and collects the entries they stand for. A
key that holds the text of a map becomes a text itself. -/
def collectMerged (resolve : Ref → Graph → Except Error Graph) (r : Ref) :
    (fuel index : Nat) → (merged : List (Ref × Ref)) → Graph → Except Error (List (Ref × Ref) × Graph)
  | 0, _, merged, g => .ok (merged, g)
  | fuel + 1, index, merged, g => match (g.pairs r)[index]? with
    | none => .ok (merged, g)
    | some (key, value) => match (g.node key).tag with
      | .merge =>
        let g := g.setPairs r ((g.pairs r).eraseIdx index)
        match g.node value with
        | .mapping .. => do
          let g ← resolve value g
          collectMerged resolve r fuel index (merged ++ g.pairs value) g
        | .sequence _ items => do
          let (more, g) ← mergeAll resolve items g
          collectMerged resolve r fuel index (merged ++ more) g
        | .scalar .. => refuse (.building .mapping)
      | .value =>
        collectMerged resolve r fuel (index + 1) merged (g.set key ((g.node key).withTag .str))
      | _ => collectMerged resolve r fuel (index + 1) merged g

/-- Resolves the merge keys of a mapping. Each one that leads to another mapping is taken out first, so
the depth is bounded by how many entries there are. -/
def resolveMerges : (fuel : Nat) → Ref → Graph → Except Error Graph
  | 0, _, _ => noValue .endless
  | fuel + 1, r, g => do
    let (merged, g) ← collectMerged (resolveMerges fuel) r ((g.pairs r).length + 1) 0 [] g
    .ok (if merged.isEmpty then g else g.setPairs r (merged ++ g.pairs r))

/-- How many entries all mappings have. -/
def entryCount (g : Graph) : Nat := ((List.range g.nodes.size).flatMap fun i => g.pairs ⟨i⟩).length

/-! ## Simple values -/

/-- The text of a scalar, or of the scalar that a mapping holds as its text; the fuel bounds how many
mappings lie around it. -/
def textOf (g : Graph) : (fuel : Nat) → Ref → Except Error String
  | 0, _ => noValue .endless
  | fuel + 1, r => match g.node r with
    | .scalar _ text => .ok text
    | .mapping _ pairs => match pairs.find? fun pair => (g.node pair.1).tag == .value with
      | some (_, value) => g.textOf fuel value
      | none => refuse (.shape .scalar .mapping)
    | .sequence .. => refuse (.shape .scalar .sequence)

/-! ## Checking -/

/-- What is left to check: the graph, the texts of the mappings that were read as simple values, the
collections found so far, and those whose contents were not looked at yet. -/
structure Checking where
  graph : Graph
  texts : List (Ref × String) := []
  found : List Ref := []
  waiting : List Ref := []

/-- The text of a node; that of a mapping is what it was when it was first asked for, since the key that
holds it may become a text itself later. -/
def Checking.text (s : Checking) (r : Ref) : Except Error String := match s.texts.lookup r with
  | some text => .ok text
  | none => s.graph.textOf (s.graph.nodes.size + 1) r

/-- Remembers the text of a node, if it is a mapping. -/
def Checking.remember (s : Checking) (r : Ref) (text : String) : Checking :=
  if s.graph.isMapping r then { s with texts := (r, text) :: s.texts } else s

/-- The value of a node whose tag denotes simple values. -/
def Checking.simple (s : Checking) (r : Ref) : Except Error Plain := do
  let text ← s.text r
  match s.graph.node r, (s.graph.node r).tag with
  | .mapping .., .timestamp => noValue .type
  | _, tag => readSimple tag text

/-- Looks at one node: a simple value must be denoted, a collection is put in line. -/
def checkNode (s : Checking) (r : Ref) : Except Error Checking :=
  let tag := (s.graph.node r).tag
  if tag.isSimple then do
    let _ ← s.simple r
    .ok (s.remember r (← s.text r))
  else if tag.isCollection then
    .ok (if s.found.contains r then s
      else { s with found := r :: s.found, waiting := s.waiting ++ [r] })
  else refuse (.unknownTag tag.name)

/-- Looks at the entries of a mapping, whose keys must be simple. -/
def checkPairs : List (Ref × Ref) → Checking → Except Error Checking
  | [], s => .ok s
  | (key, value) :: pairs, s => do
    let s ← checkNode s key
    if !(s.graph.node key).tag.isSimple then refuse (.building .mapping)
    else checkPairs pairs (← checkNode s value)

/-- Looks at the items of a list of pairs, each a mapping with one entry. -/
def checkSingles (piece : Piece) : List Ref → Checking → Except Error Checking
  | [], s => .ok s
  | r :: rs, s => match s.graph.node r with
    | .mapping _ [(key, value)] => do
      let s ← checkNode s key
      checkSingles piece rs (← checkNode s value)
    | _ => refuse (.building piece)

/-- Looks at the contents of a collection. -/
def checkContents (s : Checking) (r : Ref) : Except Error Checking :=
  let node := s.graph.node r
  match node.tag, node with
  | .seq, .sequence _ items => items.foldlM checkNode s
  | .seq, _ => refuse (.shape .sequence node.shape)
  | .omap, .sequence _ items => checkSingles .orderedMap items s
  | .omap, _ => refuse (.building .orderedMap)
  | .pairs, .sequence _ items => checkSingles .pairs items s
  | .pairs, _ => refuse (.building .pairs)
  | _, .mapping .. => do
    let g ← resolveMerges (s.graph.entryCount + 1) r s.graph
    checkPairs (g.pairs r) { s with graph := g }
  | _, _ => refuse (.shape .mapping node.shape)

/-- Looks at the collections in line until there are none; each is put in line once. -/
def checkAll : (fuel : Nat) → Checking → Except Error Checking
  | 0, s => .ok s
  | fuel + 1, s => match s.waiting with
    | [] => .ok s
    | r :: waiting => do checkAll fuel (← checkContents { s with waiting := waiting } r)

/-- Looks at every node that a node reaches, and resolves the merge keys. -/
def check (g : Graph) (root : Ref) : Except Error Checking := do
  let s ← checkNode { graph := g } root
  checkAll (g.nodes.size + 1) s

/-! ## Reading -/

/-- Whether a node is written as the sign for no number. -/
def Checking.isNanSign (s : Checking) (r : Ref) : Bool := match s.text r with
  | .ok text => Yaml.isNanSign text.toList
  | .error _ => false

/-- Whether two keys, given with their nodes, are equal. What is no number is equal to nothing but what comes
from the same node, except that all signs for it are one key. -/
def Checking.sameKey (s : Checking) (a b : Ref × Plain) : Bool :=
  a.2.sameKey b.2 && (!a.2.isNan || a.1 == b.1 || (s.isNanSign a.1 && s.isNanSign b.1))

/-- Writes an entry of a mapping, whose keys come with their nodes: an equal key keeps its place and its form,
a new one goes last. -/
def Checking.putEntry (s : Checking) (key : Ref × Plain) (value : Plain) :
    List ((Ref × Plain) × Plain) → List ((Ref × Plain) × Plain)
  | [] => [(key, value)]
  | (k, v) :: rest =>
    if s.sameKey k key then (k, value) :: rest else (k, v) :: s.putEntry key value rest

/-- The values of a key and of what stands behind it, given how to read a node. -/
def readPair (read : Ref → Except Error Plain) (pair : Ref × Ref) : Except Error (Plain × Plain) := do
  let key ← read pair.1
  let value ← read pair.2
  .ok (key, value)

/-- The entries of a mapping, given how to read a node. -/
def Checking.readEntries (s : Checking) (read : Ref → Except Error Plain) (pairs : List (Ref × Ref)) :
    Except Error (List (Plain × Plain)) := do
  let written ← pairs.foldlM (fun written pair => do
    let (key, value) ← readPair read pair
    .ok (s.putEntry (pair.1, key) value written)) []
  .ok (written.map fun entry => (entry.1.2, entry.2))

/-- The value of a node inside some others, which it may hold again; the fuel bounds how deep it nests. -/
def Checking.valueWithin (s : Checking) : (fuel : Nat) → (around : List Ref) → Ref → Except Error Plain
  | 0, _, _ => noValue .endless
  | fuel + 1, around, r =>
    let inner := s.valueWithin fuel (r :: around)
    let node := s.graph.node r
    if around.contains r then .ok (.again (node.tag == .map))
    else match node.tag, node with
    | .seq, .sequence _ items => do
      let items ← items.mapM inner
      .ok (.list items)
    | .omap, .sequence _ items | .pairs, .sequence _ items => do
      let items ← (items.flatMap s.graph.pairs).mapM (readPair inner)
      .ok (.list (items.map fun item => .tuple [item.1, item.2]))
    | .map, .mapping _ pairs => do
      let entries ← s.readEntries inner pairs
      .ok (.map entries)
    | .set, .mapping _ pairs => do
      let entries ← s.readEntries inner pairs
      .ok (.ofMembers (entries.map (·.1)))
    | _, _ => s.simple r

/-- The value of a node. In a chain of nodes, each inside the one before, only the last can repeat another,
so the chain is at most one longer than there are nodes. -/
def value (g : Graph) (root : Ref) : Except Error Plain := do
  let s ← g.check root
  s.valueWithin (g.nodes.size + 2) [] root

end Graph

/-- The nodes of a text, and the root if it has a document. -/
def Graph.ofText (supply : Supply) (text : String) : Except Error (Option Ref × Graph) :=
  let (tokens, ending) := scan supply text.toList
  Graph.ofTokens tokens ending

/-- The value of a YAML text; a text without a document has the value null. -/
def read (supply : Supply) (text : String) : Except Error Plain := do
  let (root, g) ← Graph.ofText supply text
  match root with
  | some root => g.value root
  | none => .ok .null

end DocFilter.Yaml
