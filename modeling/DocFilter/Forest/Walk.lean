import DocFilter.Forest.Basic

/-!
# Walking a forest under edit

A walk hands out the nodes below a root one by one, a node before those below it, and passes through
parts without handing them out. Between two steps the forest may be edited: the walker keeps a stack of
frames, each a node whose children are being walked and the index of the next child, and looks at the
children of a node only after that node was handed out and the next one is asked for.

* A node that was replaced is not walked into; its replacement's children are walked instead.
* A node that was removed is not walked into, and the sibling that took its index is not skipped.
* Each node handed out has the frame's node as its holder, and an old mark of replacement is dropped.
-/

namespace DocFilter

/-- A node whose children are being walked, and the index of the next child. -/
structure Frame where
  node : NodeId
  index : Nat
deriving DecidableEq, Repr, Inhabited

/-- Where a walk stands; the innermost frame comes first. `pending` is the node handed out last, until
its children are scheduled. -/
structure Walker where
  root : NodeId
  frames : List Frame := []
  pending : Option NodeId := none
  started : Bool := false
deriving DecidableEq, Repr, Inhabited

/-- What asking for the next node gives. -/
inductive Visit where
  /-- A node was handed out. -/
  | node (n : NodeId) (walker : Walker) (forest : Forest)
  /-- There is no further node. -/
  | finished (walker : Walker) (forest : Forest)
  /-- The fuel ran out, or the replacements of the node handed out last have no end. -/
  | exhausted

namespace Walker

/-- A walk from a root. -/
def of (root : NodeId) : Walker := { root := root }

/-- Schedules the children of the node handed out last. -/
def descend (w : Walker) (f : Forest) (n : NodeId) : Walker :=
  if n = w.root then { w with frames := ⟨n, 0⟩ :: w.frames }
  else match w.frames with
    | [] => w
    | frame :: frames =>
      let current := f.finalReplacement n
      match f.indexOf? frame.node current with
      | none => { w with frames := ⟨frame.node, frame.index - 1⟩ :: frames }
      | some i =>
        let frames := ⟨frame.node, i + 1⟩ :: frames
        { w with frames := if (f.children current).isEmpty then frames else ⟨current, 0⟩ :: frames }

/-- Marks a child as reached through its holder. -/
def reach (f : Forest) (parent child : NodeId) : Forest :=
  (f.adopt parent child).setReplacement child none

/-- Goes on to the next node: leaves frames that are done, enters parts, and stops at any other node.
-/
def advance (w : Walker) : (fuel : Nat) → List Frame → Forest → Visit
  | 0, _, _ => .exhausted
  | fuel + 1, frames, f => match frames with
    | [] => .finished { w with frames := [] } f
    | frame :: rest => match (f.children frame.node)[frame.index]? with
      | none => w.advance fuel rest f
      | some child =>
        let f := reach f frame.node child
        let frames := ⟨frame.node, frame.index + 1⟩ :: rest
        if (f.kind child).isPart then w.advance fuel (⟨child, 0⟩ :: frames) f
        else .node child { w with frames := frames, pending := some child } f

/-- Asks for the next node. -/
def next (w : Walker) (fuel : Nat) (f : Forest) : Visit :=
  if !w.started then .node w.root { w with started := true, pending := some w.root } f
  else match w.pending with
    | none => w.advance fuel w.frames f
    | some n =>
      if n = w.root ∨ f.settles n then
        let w := { w.descend f n with pending := none }
        w.advance fuel w.frames f
      else .exhausted

/-- The nodes of a walk without edits, and the forest it leaves; the fuel bounds the nodes and the
steps to each. -/
def run (step : Nat) : (fuel : Nat) → Walker → Forest → List NodeId × Forest
  | 0, _, f => ([], f)
  | fuel + 1, w, f => match w.next step f with
    | .node n w f =>
      let (ns, f) := run step fuel w f
      (n :: ns, f)
    | .finished _ f => ([], f)
    | .exhausted => ([], f)

end Walker

end DocFilter
