import DocFilter.Json.Basic
import DocFilter.Node.Kind

/-!
# Payloads

Besides its children a node carries named values. `Value` is their sum: attributes, targets, list
attributes, citations, and plain data for everything else. A citation holds nodes of its own, so values
are parameterised by how nodes are represented: as trees in a decoded document, as identities in a
forest under edit.
-/

namespace DocFilter

/-- Identifier, classes and ordered key-value pairs. -/
structure Attr where
  identifier : String := ""
  classes : List String := []
  attributes : List (String × String) := []
deriving DecidableEq, Repr, Inhabited

namespace Attr

/-- Whether a class is present. -/
def hasClass (attr : Attr) (name : String) : Bool := attr.classes.contains name

/-- The value of the first pair with a key. -/
def get? (attr : Attr) (key : String) : Option String := attr.attributes.lookup key

/-- Writes a value under a key: the first pair with the key keeps its place, a new pair goes last. -/
def set (attr : Attr) (key value : String) : Attr :=
  { attr with attributes := Entries.put key value attr.attributes }

end Attr

/-- Where a link or an image points, and its title. -/
structure Target where
  url : String := ""
  title : String := ""
deriving DecidableEq, Repr, Inhabited

/-- Start number, numbering style and delimiter of an ordered list. -/
structure ListAttributes where
  start : Int := 1
  style : String := "DefaultStyle"
  delimiter : String := "DefaultDelim"
deriving DecidableEq, Repr, Inhabited

/-- One citation: its key, the inlines before and after it, its mode and two numbers that are kept as
they were read. -/
structure Citation (ν : Type) where
  id : Json
  before : List ν
  after : List ν
  mode : String
  noteNum : Json
  hash : Json
deriving Repr, Inhabited

/-- The citation with every node replaced by its image. -/
def Citation.map {ν μ : Type} (f : ν → μ) (c : Citation ν) : Citation μ :=
  { c with before := c.before.map f, after := c.after.map f }

/-- A payload value. -/
inductive Value (ν : Type) where
  | data (v : Json)
  | attr (a : Attr)
  | target (t : Target)
  | listAttributes (l : ListAttributes)
  | citations (cs : List (Citation ν))
deriving Repr, Inhabited

namespace Value

variable {ν μ : Type}

/-- The value with every node replaced by its image. -/
def map (f : ν → μ) : Value ν → Value μ
  | data v => .data v
  | attr a => .attr a
  | target t => .target t
  | listAttributes l => .listAttributes l
  | citations cs => .citations (cs.map (·.map f))

/-- The nodes that a value holds, in order. -/
def nodes : Value ν → List ν
  | citations cs => cs.flatMap fun c => c.before ++ c.after
  | _ => []

end Value

/-- The named values of a node, in order. -/
abbrev Payload (ν : Type) := Entries (Value ν)

namespace Payload

variable {ν μ : Type}

/-- The payload with every node replaced by its image. -/
def map (f : ν → μ) (payload : Payload ν) : Payload μ :=
  List.map (fun entry => (entry.1, entry.2.map f)) payload

/-- The nodes that the values hold, in order. -/
def nodes (payload : Payload ν) : List ν := List.flatMap (·.2.nodes) payload

/-- The plain data under a name. -/
def data? (name : String) (payload : Payload ν) : Option Json :=
  match Entries.find? name payload with
  | some (.data v) => some v
  | _ => none

end Payload

end DocFilter
