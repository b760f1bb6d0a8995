import DocFilter.Failure
import DocFilter.Text.Case

/-!
# Values of nodes under edit

The named values of a node are its payload, whatever was written to it under other names, and a few facts
about its kind and its place. Reading a name that a node does not have is a failure; any name can be
written but those of the facts. A name with a leading underscore is not looked for in the payload.

* `Forest.value` reads and `Forest.setValue` writes a value;
* `Forest.calling` refuses an operation whose name was written over, `Forest.callAdoptChildren` is one;
* `Forest.attrOf`, `Forest.setAttr` reach into the keyed attributes;
* `Forest.upperText` and `Forest.addLevel` change the text of a leaf and the level of a header.
-/

namespace DocFilter.Forest

variable (f : Forest) (n : NodeId)

/-- What can be said of a node without reading its payload. -/
def facts : List (String × Bool) :=
  [("is_block", (f.kind n).isBlock), ("is_inline", (f.kind n).isInline), ("is_part", (f.kind n).isPart),
   ("is_document", f.kind n == .document), ("is_leaf", (f.children n).isEmpty),
   ("has_been_replaced", (f.replacement? n).isSome)]

/-- The nodes around a node, where there is one. -/
def neighbours : List (String × Except Fault (Option NodeId)) :=
  [("parent", f.parent n), ("structural_parent", .ok (f.holder? n)), ("replacement", .ok (f.replacement? n))]

/-- The links of a node to others. -/
def links : List (String × Except Fault (Option NodeId)) :=
  linkNames.zip [.ok (f.holder? n), .ok (f.replacement? n)]

/-- A forest without a link of a node; none if there is no link with the name. -/
def unlink? (name : String) : Option Forest := match name with
  | "_parent" => some (f.setHolder n none)
  | "_replacement" => some (f.setReplacement n none)
  | _ => none

/-- The names that hold a fact, and so cannot be written. -/
def factNames : List String :=
  (f.facts n).map (·.1) ++ (f.neighbours n).map (·.1) ++
    (if (f.cell n).document.isSome then ["blocks"] else [])

/-- What a node has under a name beside its payload: nothing in the place of a node that is not
there, and the lists and the payload as plain data as far as they are such. -/
def builtIn? (name : String) : Option (Value NodeId) :=
  let plain (value : Value NodeId) : Json := match value with
    | .data v => v
    | _ => .null
  match Entries.find? name (f.facts n), name with
  | some b, _ => some (.data (.bool b))
  | none, "kind" => some (.data (.str (f.kind n).name))
  | none, "children" => some (.data (.arr []))
  | none, "payload" => some (.data (.obj (List.map (fun e => (e.1, plain e.2)) (f.payload n))))
  | none, _ => match (f.neighbours n ++ f.links n).lookup name with
    | some (.ok none) => some (.data .null)
    | _ => none

/-- What a document root has under a name beside its metadata. -/
def rootValue? (name : String) : Option (Value NodeId) := match (f.cell n).document, name with
  | some d, "schema" => some (.data (.str d.schema.name))
  | some d, "api_version" => some (.data (.arr (d.version.map .int)))
  | some _, "blocks" => some (.data (.arr []))
  | _, _ => none

/-- The value of a node under a name, if it has one. -/
def value? (name : String) : Option (Value NodeId) :=
  f.builtIn? n name <|> Entries.find? name (f.cell n).extras <|> f.rootValue? n name <|>
    (if name.startsWith "_" then none else Entries.find? name (f.payload n))

/-- The value of a node under a name. Looking for a parent that is climbed to for ever has no end. -/
def value (name : String) : Except Failure (Value NodeId) :=
  match (f.neighbours n).lookup name, f.value? n name with
  | some (.error fault), _ => .error (.fault fault)
  | _, some v => .ok v
  | _, none => .error (.noAttribute (f.kind n) name)

/-- Writes a value under a name: into the payload if that has the name, else beside it. Nothing under the
name of a link takes the link away. -/
def setValue (name : String) (value : Value NodeId) : Except Failure Forest :=
  if Entries.has name (f.payload n) then .ok (f.setPayload n (Entries.put name value (f.payload n)))
  else if (f.factNames n).contains name then .error (.fault .attribute)
  else match value, f.unlink? n name with
    | .data .null, some f => .ok f
    | _, _ => .ok (f.update n fun c => { c with extras := Entries.put name value c.extras })

/-- Writes a value under a name, where the kind, the children and the payload as a whole are a node's
own: a kind is given by its name or what reads as one, children are only taken away, and a payload is plain data. -/
def assign (name : String) (value : Value NodeId) : Except Failure Forest := match name, value with
  | "kind", .data kind => .ok (f.update n fun c => { c with kind := .named kind.plainText })
  | "children", _ => .ok (f.setChildren n [])
  | "payload", .data (.obj entries) => .ok (f.setPayload n (entries.map fun e => (e.1, .data e.2)))
  | "kind", _ | "payload", _ => .ok f
  | _, _ => f.setValue n name value

/-- The names under which a node finds what an operation is made of; the first is its own. -/
def stepNames (operation : String) : List String := operation :: match operation with
  | "append" | "prepend" | "insert" => ["_take", "_adopt"]
  | "remove" | "replace" => ["index_of"]
  | _ => []

/-- The result of an operation of a node. What was written under the name of the operation, or of a step
of it, stands in its place and cannot be called. -/
def calling {α : Type} (operation : String) (result : Except Failure α) : Except Failure α :=
  if (stepNames operation).any (Entries.has · (f.cell n).extras) then .error (.fault .type) else result

/-- Makes a node the holder of its children, if the operation and, where there are children, its step for
each of them can be called. -/
def callAdoptChildren : Except Failure Forest :=
  f.calling n "adopt_children" (if (f.children n).isEmpty then .ok f
    else f.calling n "_adopt" (.ok (f.adoptChildren n)))

/-- The metadata that a document root was made with, under edit. -/
def store? : Option Store := (f.cell n).document.map (·.metadata)

/-- The metadata of a document root, unless something else was written in its place. -/
def metadata? : Option Store :=
  if Entries.has "meta" (f.cell n).extras then none else f.store? n

/-- Whether a node has a class. -/
def hasClass (name : String) : Except Fault Bool :=
  match Entries.find? "attr" (f.payload n) with
  | none | some (.data .null) => .ok false
  | some (.attr a) => .ok (a.hasClass name)
  | some _ => .error .attribute

/-- The identifier, classes and keyed attributes of a node. -/
def attrOf : Except Failure Attr := do
  match ← f.value n "attr" with
  | .attr a => .ok a
  | _ => .error (.fault .attribute)

/-- Writes a keyed attribute of a node. -/
def setAttr (key value : String) : Except Failure Forest := do
  let a ← f.attrOf n
  let new : Value NodeId := .attr (a.set key value)
  .ok (if Entries.has "attr" (f.cell n).extras
    then f.update n fun c => { c with extras := Entries.put "attr" new c.extras }
    else f.setPayload n (Entries.put "attr" new (f.payload n)))

/-- Puts the text of a leaf into upper case; gives the text. -/
def upperText : Except Failure (Json × Forest) := do
  match ← f.value n "text" with
  | .data (.str s) =>
    let f ← f.setValue n "text" (.data (.str (Text.upper s)))
    match ← f.value n "text" with
    | .data v => .ok (v, f)
    | _ => .error (.fault .attribute)
  | _ => .error (.fault .attribute)

/-- The sum of two values: of numbers, the constants counting as one and zero, of two texts, or of a list
and anything that has items. -/
def plus (a b : Json) : Except Fault Json := match a, b with
  | .str s, .str t => .ok (.str (s ++ t))
  | .arr xs, b => match iterate? b with
    | some ys => .ok (.arr (xs ++ ys))
    | none => .error .type
  | .float x, .float y => .ok (.float (x.add y))
  | .float x, b => match b.asInt? with
    | some n => match Double.ofInt? n with
      | some y => .ok (.float (x.add y))
      | none => .error .overflow
    | none => .error .type
  | a, .float y => match a.asInt? with
    | some n => match Double.ofInt? n with
      | some x => .ok (.float (x.add y))
      | none => .error .overflow
    | none => .error .type
  | a, b => match a.asInt?, b.asInt? with
    | some m, some n => .ok (.int (m + n))
    | _, _ => .error .type

/-- Adds to the level of a header; gives the level. -/
def addLevel (amount : Json) : Except Failure (Json × Forest) := do
  match ← f.value n "level" with
  | .data v =>
    let level ← (plus v amount).mapError .fault
    let f ← f.setValue n "level" (.data level)
    match ← f.value n "level" with
    | .data v => .ok (v, f)
    | _ => .error (.fault .type)
  | _ => .error (.fault .type)

end DocFilter.Forest
