import DocFilter.Node.Layout
import DocFilter.Node.Tree

/-!
# Making nodes

A node is made from a kind, children and some of its payload values; the layout of the kind supplies
the others.
-/

namespace DocFilter

/-- Why a node cannot be made. -/
inductive MakeError where
  /-- The kind is not one that nodes are made of. -/
  | unknownKind (found : Json)
  /-- What is given cannot be looked at as a kind and values at all. -/
  | unfit
  /-- Values were given that the kind has no slot for. -/
  | unknownPayload (kind : Kind) (names : List String)
deriving Inhabited

/-- The kind that a value names. -/
def Kind.ofJson (found : Json) : Except MakeError Kind := match found with
  | .arr _ | .obj _ => .error .unfit
  | found => match found.str?.bind Kind.ofName? with
    | some kind => .ok kind
    | none => .error (.unknownKind found)

/-- The kind that a value names, if nodes can be made of it. A document is made otherwise. -/
def Kind.makeable (found : Json) : Except MakeError Kind := do
  let kind ← Kind.ofJson found
  if kind = .document then .error (.unknownKind found) else .ok kind

/-- The full payload of a node that is made with some values. -/
def Kind.makePayload {ν : Type} (kind : Kind) (given : Payload ν) : Except MakeError (Payload ν) :=
  match kind.unknownNames given with
  | [] => .ok (kind.fillPayload given)
  | names => .error (.unknownPayload kind names)

namespace Tree

/-- A node with defaults for its whole payload. -/
def make (kind : Kind) (children : List Tree) : Tree := .node kind (kind.fillPayload []) children

/-- A word. -/
def word (text : String) : Tree := .node .str [("text", .data (.str text))] []

end Tree

end DocFilter
