import DocFilter.Json.Shown
import DocFilter.Node.Tree

/-!
# Equality of trees by value

Two trees are the same when they agree in kind, children and payload, where payload entries are
compared without their order and numbers by value.
-/

namespace DocFilter

/-- Two lists agree item by item under a test for each item of the first. -/
def allMatch {α : Type} : List (α → Bool) → List α → Bool
  | [], [] => true
  | test :: tests, x :: xs => test x && allMatch tests xs
  | _, _ => false

/-- Whether a citation agrees with tests for its nodes and with the plain values of another. -/
def Citation.matches (c : Citation (Tree → Bool)) (d : Citation Tree) : Bool :=
  c.id.same d.id && allMatch c.before d.before && allMatch c.after d.after && c.mode == d.mode &&
    c.noteNum.same d.noteNum && c.hash.same d.hash

/-- Whether a payload value agrees with another one. -/
def Value.matches : Value (Tree → Bool) → Value Tree → Bool
  | .data v, .data w => v.same w
  | .attr a, .attr b => a == b
  | .target a, .target b => a == b
  | .listAttributes a, .listAttributes b => a == b
  | .citations cs, .citations ds => allMatch (cs.map Citation.matches) ds
  | _, _ => false

/-- Whether a payload agrees with another one under every name. -/
def Payload.matches (p : Payload (Tree → Bool)) (q : Payload Tree) : Bool :=
  p.length == q.length && p.all fun entry => match Entries.find? entry.1 q with
    | some value => entry.2.matches value
    | none => false

namespace Tree

/-- Equality by value. -/
def same : Tree → Tree → Bool :=
  fold fun kind payload children other =>
    kind == other.kind && allMatch children other.children && payload.matches other.payload

/-- Equality of lists of trees by value. -/
def sameList (ts us : List Tree) : Bool := allMatch (ts.map same) us

end Tree

end DocFilter
