import DocFilter.Forest.Value
import DocFilter.Node.Same

/-!
# Equality of nodes under edit

Two nodes are the same when they agree in kind, children and payload, and as document roots in their
metadata as well. What was written beside the payload does not count. The comparison stops at the first
difference, looks at the children before the payload, and takes a node to equal itself; it is without
end if it comes back to the two nodes it started from.

* `Forest.sameWithin` compares two nodes under fuel;
* `Forest.same` gives it enough fuel for all pairs of nodes.
-/

namespace DocFilter.Forest

/-- Whether two lists agree item by item, which lists of different lengths do not. -/
def agree {α β : Type} (test : α → β → Except Fault Bool) (xs : List α) (ys : List β) :
    Except Fault Bool :=
  if xs.length = ys.length then (xs.zip ys).allM fun pair => test pair.1 pair.2 else .ok false

/-- Whether two citations agree, given how to compare nodes. -/
def agreeCitation (test : NodeId → NodeId → Except Fault Bool) (c d : Citation NodeId) :
    Except Fault Bool :=
  if !c.id.same d.id then .ok false
  else do
    if !(← agree test c.before d.before) then .ok false
    else if !(← agree test c.after d.after) then .ok false
    else .ok (c.mode == d.mode && c.noteNum.same d.noteNum && c.hash.same d.hash)

/-- Whether two payload values agree, given how to compare nodes. -/
def agreeValue (test : NodeId → NodeId → Except Fault Bool) :
    Value NodeId → Value NodeId → Except Fault Bool
  | .data v, .data w => .ok (v.same w)
  | .attr a, .attr b => .ok (a == b)
  | .target a, .target b => .ok (a == b)
  | .listAttributes a, .listAttributes b => .ok (a == b)
  | .citations cs, .citations ds => agree (agreeCitation test) cs ds
  | .citations [], .data (.arr []) | .data (.arr []), .citations [] => .ok true
  | _, _ => .ok false

/-- Whether two payloads agree under every name. -/
def agreePayload (test : NodeId → NodeId → Except Fault Bool) (p q : Payload NodeId) :
    Except Fault Bool :=
  if p.length = q.length then p.allM fun entry => match Entries.find? entry.1 q with
    | some value => agreeValue test entry.2 value
    | none => .ok false
  else .ok false

variable (f : Forest)

/-- Whether two nodes agree in their metadata, as far as they have any. -/
def sameMetadata (n m : NodeId) : Except Fault Bool :=
  if (f.cell n).document.isNone then .ok true
  else match f.metadata? n, f.metadata? m with
    | some s, some t => match s.read? s.root, t.read? t.root with
      | some x, some y => .ok (x.same y)
      | _, _ => .error .endless
    | none, none =>
      let written (k : NodeId) : Value NodeId :=
        (Entries.find? "meta" (f.cell k).extras).getD (.data .null)
      agreeValue (fun _ _ => .ok false) (written n) (written m)
    | _, _ => .ok false

/-- Whether two nodes agree; `path` are the pairs whose comparison waits for this one. -/
def sameWithin : (fuel : Nat) → (path : List (NodeId × NodeId)) → NodeId → NodeId → Except Fault Bool
  | 0, _, _, _ => .error .endless
  | fuel + 1, path, n, m =>
    if n = m then .ok true
    else if (f.cell n).document.isSome != (f.cell m).document.isSome then .ok false
    else if f.kind n != f.kind m then .ok false
    else if path.contains (n, m) then .error .endless
    else do
      let test := sameWithin fuel ((n, m) :: path)
      if !(← agree test (f.children n) (f.children m)) then .ok false
      else if !(← agreePayload test (f.payload n) (f.payload m)) then .ok false
      else f.sameMetadata n m

/-- Whether two nodes agree. A path without repetition is no longer than there are pairs of nodes. -/
def same (n m : NodeId) : Except Failure Bool :=
  (f.sameWithin (f.size * f.size + 1) [] n m).mapError .fault

end DocFilter.Forest
