import DocFilter.Codec.Document
import DocFilter.Metadata.Store
import DocFilter.Node.Make
import DocFilter.Node.Markup

/-!
# The forest

Nodes under edit. A node has an identity, and its cell records the kind, the payload, the children by
identity, the node that is taken to hold it, and the node that was put in its place, if any. The holder
of a node is a record of its own: it is set where an edit adopts the node and may lag behind the lists
of children, so edits look into both.

* `Forest.plant` brings a tree into the forest and `Forest.tree?` takes one out;
* `Forest.fold` computes a result for a node from those of the nodes below it;
* `Forest.append`, `Forest.insert`, `Forest.remove`, `Forest.replace` and `Forest.replaceWith` edit;
* `Forest.parent` and `Forest.ancestors` look through parts.
-/

namespace DocFilter

/-- The identity of a node. -/
structure NodeId where
  index : Nat
deriving DecidableEq, Repr, Inhabited

/-- What a document root carries besides its blocks. -/
structure DocumentData where
  metadata : Store
  version : List Int
  schema : Schema
deriving Inhabited

/-- The record of a node. `extras` are values written under names that the payload did not have; they
hide what the payload has under the same name. -/
structure Cell where
  kind : Kind
  children : List NodeId := []
  payload : Payload NodeId := []
  /-- The node that is taken to hold this one. No node is ever let go, so the link stays until an edit changes it. -/
  holder : Option NodeId := none
  replacement : Option NodeId := none
  extras : Entries (Value NodeId) := []
  document : Option DocumentData := none
deriving Inhabited

/-- Nodes under edit. -/
structure Forest where
  cells : Array Cell := #[]
deriving Inhabited

/-- Why an edit is refused. -/
inductive EditError where
  /-- The node is not among the children. -/
  | notAChild (child parent : Kind)
  /-- The new node already holds the place it was to take. -/
  | wouldCycle (old new : Kind)
  /-- The node stands in no children. -/
  | noParent (kind : Kind)
  /-- The nodes above the place hold each other in a circle, which is climbed for ever. -/
  | endless
deriving DecidableEq, Repr, Inhabited

/-- The wording of a refusal; an edit that never ends has none. -/
def EditError.message? : EditError → Option String
  | notAChild child parent => some s!"{child.name} node is not a child of this {parent.name} node"
  | wouldCycle old new => some s!"Replacing {old.name} with {new.name} would create a cycle"
  | noParent kind => some s!"Cannot replace a {kind.name} node that has no parent"
  | endless => none

namespace Forest

/-! ## Views -/

/-- The record of a node. -/
def cell (f : Forest) (n : NodeId) : Cell := f.cells[n.index]?.getD default

/-- The kind of a node. -/
def kind (f : Forest) (n : NodeId) : Kind := (f.cell n).kind

/-- The children of a node. -/
def children (f : Forest) (n : NodeId) : List NodeId := (f.cell n).children

/-- The payload of a node. -/
def payload (f : Forest) (n : NodeId) : Payload NodeId := (f.cell n).payload

/-- The node taken to hold a node. -/
def holder? (f : Forest) (n : NodeId) : Option NodeId := (f.cell n).holder

/-- The node put in the place of a node. -/
def replacement? (f : Forest) (n : NodeId) : Option NodeId := (f.cell n).replacement

/-- How many nodes there are. -/
def size (f : Forest) : Nat := f.cells.size

/-- The holder of a node, that one's holder, and so on up to a node without one; none if those are more than
the fuel. -/
def holders (f : Forest) : (fuel : Nat) → NodeId → Option (List NodeId)
  | 0, _ => none
  | fuel + 1, n => match f.holder? n with
    | none => some []
    | some p => (f.holders fuel p).map (p :: ·)

/-- The nodes above a node, parts included, nearest first; none if climbing never ends. A climb that ends
comes to no node twice, so it is no longer than there are nodes. -/
def above? (f : Forest) (n : NodeId) : Option (List NodeId) := f.holders (f.size + 1) n

/-- The nodes above a node, nearest first, parts left out. Where climbing never ends, neither does this. -/
def ancestors (f : Forest) (n : NodeId) : Except Fault (List NodeId) := match f.above? n with
  | some above => .ok (above.filter fun p => !(f.kind p).isPart)
  | none => .error .endless

/-- Climbs through parts to the nearest node that is none; the fuel bounds the steps. -/
def parentWithin (f : Forest) : (fuel : Nat) → NodeId → Except Fault (Option NodeId)
  | 0, _ => .error .endless
  | fuel + 1, n => match f.holder? n with
    | none => .ok none
    | some p => if (f.kind p).isPart then f.parentWithin fuel p else .ok (some p)

/-- The nearest node above a node that is not a part, if there is one. Parts that hold each other in a circle
are climbed for ever. -/
def parent (f : Forest) (n : NodeId) : Except Fault (Option NodeId) := f.parentWithin (f.size + 1) n

/-- Climbs until a node is met, or to the top; the fuel bounds the steps. -/
def meetsWithin (f : Forest) (target : NodeId) : (fuel : Nat) → NodeId → Except Fault Bool
  | 0, _ => .error .endless
  | fuel + 1, n =>
    if n = target then .ok true
    else match f.holder? n with
      | none => .ok false
      | some p => f.meetsWithin target fuel p

/-- Whether climbing from a node comes to a target, the node itself being the first that is looked at. A climb
that neither comes there nor to the top never ends. -/
def meets (f : Forest) (n target : NodeId) : Except Fault Bool := f.meetsWithin target (f.size + 1) n

/-- The position of a node among the children of another. -/
def indexOf? (f : Forest) (parent child : NodeId) : Option Nat :=
  (f.children parent).findIdx? (· == child)

/-- Follows replacements for a number of steps. -/
def follow (f : Forest) : (fuel : Nat) → NodeId → NodeId
  | 0, n => n
  | fuel + 1, n => match f.replacement? n with
    | none => n
    | some r => f.follow fuel r

/-- The node that stands where a node was, after every replacement. A chain without repetition is no
longer than there are nodes. -/
def finalReplacement (f : Forest) (n : NodeId) : NodeId := f.follow f.size n

/-- Whether following replacements from a node comes to an end. -/
def settles (f : Forest) (n : NodeId) : Bool := (f.replacement? (f.finalReplacement n)).isNone

/-! ## Cells -/

/-- Changes the record of a node. -/
def update (f : Forest) (n : NodeId) (change : Cell → Cell) : Forest :=
  { f with cells := f.cells.modify n.index change }

/-- Gives a node new children. -/
def setChildren (f : Forest) (n : NodeId) (children : List NodeId) : Forest :=
  f.update n fun c => { c with children := children }

/-- Gives a node a new holder. -/
def setHolder (f : Forest) (n : NodeId) (holder : Option NodeId) : Forest :=
  f.update n fun c => { c with holder := holder }

/-- Gives a node a new replacement. -/
def setReplacement (f : Forest) (n : NodeId) (replacement : Option NodeId) : Forest :=
  f.update n fun c => { c with replacement := replacement }

/-- Gives a node a new payload. -/
def setPayload (f : Forest) (n : NodeId) (payload : Payload NodeId) : Forest :=
  f.update n fun c => { c with payload := payload }

/-- Adds a node. -/
def add (f : Forest) (c : Cell) : NodeId × Forest := (⟨f.size⟩, { f with cells := f.cells.push c })

/-- Makes a node the holder of another. -/
def adopt (f : Forest) (parent child : NodeId) : Forest := f.setHolder child (some parent)

/-- Makes a node the holder of some nodes. -/
def adoptAll (f : Forest) (parent : NodeId) (children : List NodeId) : Forest :=
  children.foldl (fun f child => f.adopt parent child) f

/-- Makes a node the holder of its children. -/
def adoptChildren (f : Forest) (parent : NodeId) : Forest := f.adoptAll parent (f.children parent)

/-! ## Trees in and out -/

end Forest

namespace Citation

/-- Runs the effects that stand for the nodes of a citation, in order. -/
def sequence {m : Type → Type} [Monad m] {ν : Type} (c : Citation (m ν)) : m (Citation ν) := do
  let before ← c.before.mapM fun node => node
  let after ← c.after.mapM fun node => node
  pure { c with before := before, after := after }

end Citation

namespace Value

/-- Runs the effects that stand for the nodes of a payload value, in order. -/
def sequence {m : Type → Type} [Monad m] {ν : Type} : Value (m ν) → m (Value ν)
  | data v => pure (.data v)
  | attr a => pure (.attr a)
  | target t => pure (.target t)
  | listAttributes l => pure (.listAttributes l)
  | citations cs => do
    let cs ← cs.mapM Citation.sequence
    pure (.citations cs)

end Value

namespace Payload

/-- Runs the effects that stand for the nodes of a payload, in order. -/
def sequence {m : Type → Type} [Monad m] {ν : Type} (payload : Payload (m ν)) : m (Payload ν) :=
  List.mapM (fun entry => do
    let value ← entry.2.sequence
    pure (entry.1, value)) payload

end Payload

namespace Forest

/-- Adds a node whose parts are added by the given effects. With `linked` it becomes the holder of its
children. -/
def plantNode (linked : Bool) (kind : Kind) (payload : Payload (StateM Forest NodeId))
    (children : List (StateM Forest NodeId)) : StateM Forest NodeId := do
  let payload ← payload.sequence
  let children ← children.mapM id
  let n ← modifyGet fun f : Forest =>
    f.add { kind := kind, children := children, payload := payload }
  if linked then modify fun f : Forest => f.adoptAll n children
  pure n

/-- Brings a tree into the forest, each node as the holder of its children. -/
def plant (f : Forest) (t : Tree) : NodeId × Forest := t.fold (plantNode true) f

/-- Brings trees into the forest without holders. -/
def plantLoose (f : Forest) (ts : List Tree) : List NodeId × Forest :=
  (ts.mapM (Tree.fold (plantNode false))) f

/-- The tree below a node; none if following children takes more steps than the fuel allows. -/
def treeWithin (f : Forest) : (fuel : Nat) → NodeId → Option Tree
  | 0, _ => none
  | fuel + 1, n => do
    let payload ← ((f.payload n).map (f.treeWithin fuel)).sequence
    let children ← (f.children n).mapM (f.treeWithin fuel)
    some (.node (f.kind n) payload children)

/-- The tree below a node; none if the node lies below itself. Otherwise it is at most as deep as
there are nodes. -/
def tree? (f : Forest) (n : NodeId) : Option Tree := f.treeWithin (f.size + 1) n

/-- Computes a result for a node from those of the nodes directly below it. Where a node is met again
below itself it gets the result of `again`; `path` are the nodes above. -/
def foldWithin {β : Type} (f : Forest) (step : NodeId → Payload β → List β → β)
    (again : NodeId → β) : (fuel : Nat) → (path : List NodeId) → NodeId → β
  | 0, _, n => again n
  | fuel + 1, path, n =>
    if path.contains n then again n
    else
      let below := f.foldWithin step again fuel (n :: path)
      step n ((f.payload n).map below) ((f.children n).map below)

/-- Computes a result for a node from those of the nodes directly below it, where a node that lies below
itself gets the result of `again` there. A path without repetition is no longer than there are nodes. -/
def fold {β : Type} (f : Forest) (step : NodeId → Payload β → List β → β) (again : NodeId → β)
    (n : NodeId) : β := f.foldWithin step again (f.size + 1) [] n

/-- The names of the links from a node to others. -/
def linkNames : List String := ["_parent", "_replacement"]

/-- Adds a node that holds nothing yet. It begins without links, and if its payload has the name of one
then the payload has nothing under it. -/
def addLoose (f : Forest) (kind : Kind) (payload : Payload NodeId) (children : List NodeId) :
    NodeId × Forest :=
  f.add { kind := kind
          children := children
          payload := List.map (fun e =>
            if linkNames.contains e.1 then (e.1, .data .null) else e) payload }

/-- Adds the root of a document over nodes that it becomes the holder of. -/
def addDocument (f : Forest) (children : List NodeId) (data : DocumentData) : NodeId × Forest :=
  let (n, f) := f.add { kind := .document, children := children, document := some data }
  (n, f.adoptAll n children)

/-- Brings a document into the forest. -/
def plantDocument (f : Forest) (d : Document) : NodeId × Forest :=
  let (children, f) := (d.blocks.mapM (Tree.fold (plantNode true))) f
  f.addDocument children ⟨.ofEntries d.metadata, d.version, d.schema⟩

/-! ## Edits -/

/-- Takes a node out of the children of its holder, if it is there, and gives it a new holder. -/
def take (f : Forest) (parent n : NodeId) : Forest :=
  let f := match f.holder? n with
    | none => f
    | some previous => match f.indexOf? previous n with
      | none => f
      | some i => f.setChildren previous ((f.children previous).eraseIdx i)
  f.adopt parent n

/-- Adds a node as the last child. -/
def append (f : Forest) (parent n : NodeId) : Forest :=
  let f := f.take parent n
  f.setChildren parent (f.children parent ++ [n])

/-- Where an index points in a list: counted from the end if negative, and within the ends. -/
def insertionPoint (index : Int) (length : Nat) : Nat :=
  if index < 0 then (index + length).toNat else min index.toNat length

/-- Puts a node among the children at an index. -/
def place (f : Forest) (parent : NodeId) (index : Int) (n : NodeId) : Forest :=
  let children := f.children parent
  f.setChildren parent (children.insertIdx (insertionPoint index children.length) n)

/-- Adds a node as a child at an index, which is applied once the node has left its old place. -/
def insert (f : Forest) (parent : NodeId) (index : Int) (n : NodeId) : Forest :=
  (f.take parent n).place parent index n

/-- Adds a node as the first child. -/
def prepend (f : Forest) (parent n : NodeId) : Forest := f.insert parent 0 n

/-- Takes a child out. -/
def remove (f : Forest) (parent child : NodeId) : Except EditError Forest :=
  match f.indexOf? parent child with
  | none => .error (.notAChild (f.kind child) (f.kind parent))
  | some i =>
    .ok ((f.setChildren parent ((f.children parent).eraseIdx i)).setHolder child none)

/-- Puts a node where a child is and records it as the replacement of the child. A node that is taken
to hold the place, at any distance, cannot take it. -/
def replace (f : Forest) (parent child new : NodeId) : Except EditError Forest :=
  match f.indexOf? parent child with
  | none => .error (.notAChild (f.kind child) (f.kind parent))
  | some _ =>
    if new = child then .ok f
    else match f.meets parent new with
      | .error _ => .error .endless
      | .ok true => .error (.wouldCycle (f.kind child) (f.kind new))
      | .ok false =>
        let f := f.take parent new
        match f.indexOf? parent child with
        | none => .ok f
        | some i =>
          .ok ((f.setChildren parent ((f.children parent).set i new)).setReplacement child (some new))

/-- Puts a node where another one is. -/
def replaceWith (f : Forest) (n new : NodeId) : Except EditError Forest :=
  match f.holder? n with
  | none => .error (.noParent (f.kind n))
  | some parent => match f.indexOf? parent n with
    | none => .error (.noParent (f.kind n))
    | some _ => f.replace parent n new

end Forest

end DocFilter
