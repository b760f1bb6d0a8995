import DocFilter.Codec.Error
import DocFilter.Node.Layout
import DocFilter.Node.Tree
import DocFilter.Number.Reading

/-!
# Trees as JSON

A node is written as an object with its name under `t` and its contents under `c`; `Kind.layout` says
what the contents are. Reading goes down the data: `readSlots` reads one node's contents given how to
read those of the nodes below. Writing is a fold: `writeContents` lays out one node given the written
forms of the nodes below.
-/

namespace DocFilter

/-! ## Values -/

/-- Reads the name of a constructor. -/
def readEnum (context : String) (choices : List String) (json : Json) : Except CodecError String :=
  showing json (match json.get? "t" with
    | none => malformed (.constructorExpected context json)
    | some (.str name) =>
      if choices.contains name then .ok name
      else malformed (.unknownConstructor context (.str name))
    | some found => malformed (.unknownConstructor context found))

/-- Writes the name of a constructor. -/
def writeEnum (name : Json) : Json := .obj [("t", name)]

/-- The texts of a list of strings. -/
def strings? (items : List Json) : Option (List String) := items.mapM (·.str?)

/-- One key-value pair; values of any sort are taken as text. -/
def attrPair? : Json → Option (String × String)
  | .arr [key, value] => some (key.plainText, value.plainText)
  | _ => none

/-- Reads attributes. -/
def readAttr (context : String) (json : Json) : Except CodecError Attr :=
  showing json (match json with
    | .arr [identifier, classes, attributes] => match identifier with
      | .str identifier => match classes with
        | .arr classes => match strings? classes with
          | some classes => match attributes with
            | .arr pairs => match pairs.mapM attrPair? with
              | some pairs => .ok ⟨identifier, classes, pairs⟩
              | none => malformed (.component context "malformed key-value attributes")
            | _ => malformed (.component context "malformed key-value attributes")
          | none => malformed (.component context "malformed classes")
        | _ => malformed (.component context "malformed classes")
      | _ => malformed (.component context "Attr identifier must be a string")
    | _ => malformed (.form context "Attr" json))

/-- Writes attributes. -/
def writeAttr (attr : Attr) : Json :=
  .arr [.str attr.identifier, .arr (attr.classes.map .str),
    .arr (attr.attributes.map fun pair => .arr [.str pair.1, .str pair.2])]

/-- Reads a target. -/
def readTarget (context : String) (json : Json) : Except CodecError Target :=
  showing json (match json with
    | .arr [.str url, .str title] => .ok ⟨url, title⟩
    | _ => malformed (.form context "Target" json))

/-- Writes a target. -/
def writeTarget (target : Target) : Json := .arr [.str target.url, .str target.title]

/-- Reads list attributes. -/
def readListAttributes (context : String) (json : Json) : Except CodecError ListAttributes :=
  showing json (match json with
    | .arr [start, style, delimiter] => match start with
      | .int start => do
        let style ← readEnum context listStyles style
        let delimiter ← readEnum context listDelimiters delimiter
        .ok ⟨start, style, delimiter⟩
      | _ => malformed (.component context "list start must be an integer")
    | _ => malformed (.form context "ListAttributes" json))

/-- Writes list attributes. -/
def writeListAttributes (l : ListAttributes) : Json :=
  .arr [.int l.start, writeEnum (.str l.style), writeEnum (.str l.delimiter)]

/-- Reads one number of a list of numbers as a fractional one; none if it is no number. -/
def readWidth? : Json → Option (Except CodecError Json)
  | .float d => some (.ok (.float d))
  | .int n => some (match Double.ofInt? n with
    | some d => .ok (.float d)
    | none => .error (.fault .overflow))
  | _ => none

/-- Writes one number of a list of numbers as a fractional one. -/
def writeWidth : Json → Except CodecError Json
  | .str s => match readFraction s.toList with
    | .ok d => .ok (.float d)
    | .error reason => .error (.fault (.value reason))
  | .bool b => .ok (.float ((Double.ofInt? (if b then 1 else 0)).getD .nan))
  | json => (readWidth? json).getD (.error (.fault .type))

/-! ## Reading nodes -/

section Read

variable (readContents : Kind → Json → Except CodecError Tree)

/-- Reads a named node. -/
def readNode (json : Json) : Except CodecError Tree :=
  showing json (match json with
    | .obj entries => match Entries.find? "t" entries with
      | none => malformed (.nodeExpected json)
      | some tag => match (tag.str?.bind Kind.ofName?).filter (·.isTagged) with
        | none => .error (.unknownKind tag.plainText)
        | some kind => match Entries.find? "c" entries with
          | some contents => readContents kind contents
          | none =>
            if kind.layout.isEmpty then readContents kind .null
            else malformed (.contentsMissing kind)
    | _ => malformed (.nodeExpected json))

/-- The name of what a run holds. -/
def Slot.runName : Slot → String
  | .inlines => "inlines"
  | .blocks => "blocks"
  | .parts kind | .part kind => kind.name
  | .value name _ => name

/-- The name of the category that a run of named nodes holds. -/
def Slot.categoryName : Slot → String
  | .inlines => "inline"
  | _ => "block"

/-- Reads a named node that must fit a run. -/
def readMember (context : String) (run : Slot) (json : Json) : Except CodecError Tree := do
  let t ← readNode readContents json
  if run.admits t.kind then .ok t
  else malformed (.misplaced context t.kind run.categoryName)

/-- Reads a run of parts or of named nodes. -/
def readRun (context : String) (run : Slot) (json : Json) : Except CodecError (List Tree) :=
  match json with
  | .arr items => match run with
    | .parts kind => items.mapM (readContents kind)
    | run => items.mapM (readMember readContents context run)
  | json => malformed (.listExpected context run.runName json)

/-- Reads one citation; all but its key may be missing. -/
def readCitation (context : String) (json : Json) : Except CodecError (Citation Tree) :=
  showing json (match json.get? "citationId" with
    | none => malformed (.form context "Citation" json)
    | some id => do
      let before ← readRun readContents context .inlines ((json.get? "citationPrefix").getD (.arr []))
      let after ← readRun readContents context .inlines ((json.get? "citationSuffix").getD (.arr []))
      let mode ← match json.get? "citationMode" with
        | none => .ok "NormalCitation"
        | some mode => readEnum context citationModes mode
      .ok ⟨id, before, after, mode, (json.get? "citationNoteNum").getD (.int 0),
        (json.get? "citationHash").getD (.int 0)⟩)

/-- Reads a payload value. -/
def readValue (context name : String) (codec : Codec) (json : Json) :
    Except CodecError (Value Tree) :=
  match codec with
  | .int => match json with
    | .int n => .ok (.data (.int n))
    | _ => malformed (.payloadType context name "an integer")
  | .text => match json with
    | .str s => .ok (.data (.str s))
    | _ => malformed (.payloadType context name "a string")
  | .attr => (readAttr context json).map .attr
  | .target => (readTarget context json).map .target
  | .listAttributes => (readListAttributes context json).map .listAttributes
  | .enum choices => (readEnum context choices json).map (.data ∘ .str)
  | .enumList choices => match json with
    | .arr items => do
      let names ← items.mapM (readEnum context choices)
      .ok (.data (.arr (names.map .str)))
    | _ => malformed (.payloadType context name "a list")
  | .floatList => match json with
    | .arr items => match items.mapM readWidth? with
      | some widths => do
        let widths ← widths.mapM id
        .ok (.data (.arr widths))
      | none => malformed (.payloadType context name "a list of numbers")
    | _ => malformed (.payloadType context name "a list of numbers")
  | .citations => match json with
    | .arr items => do
      let cs ← items.mapM (readCitation readContents context)
      .ok (.citations cs)
    | _ => malformed (.payloadType context name "a list")

/-- Reads the slots of a node from the fields of its contents: payload and children. -/
def readSlots (kind : Kind) : List (Slot × Json) → Except CodecError (Payload Tree × List Tree)
  | [] => .ok ([], [])
  | (slot, json) :: rest => match slot with
    | .value name codec => do
      let value ← readValue readContents kind.name name codec json
      let (payload, children) ← readSlots kind rest
      .ok ((name, value) :: payload, children)
    | .part part => do
      let child ← readContents part json
      let (payload, children) ← readSlots kind rest
      .ok (payload, child :: children)
    | run => do
      let members ← readRun readContents kind.name run json
      let (payload, children) ← readSlots kind rest
      .ok (payload, members ++ children)

end Read

/-- The fields that contents have for each slot of a kind. -/
def contentFields (kind : Kind) (json : Json) : Except CodecError (List Json) :=
  match kind.layout with
  | [] => .ok []
  | [_] => .ok [json]
  | slots => showing json (match json with
    | .arr items =>
      if items.length = slots.length then .ok items
      else malformed (.fieldCount kind slots.length json)
    | json => malformed (.fieldCount kind slots.length json))

/-- Reads the contents of a node or part of a known kind; the fuel bounds how deep the nodes below it
may nest. -/
def readContents : (fuel : Nat) → Kind → Json → Except CodecError Tree
  | 0, _, _ => .error (.fault .endless)
  | fuel + 1, kind, json => do
    let fields ← contentFields kind json
    let (payload, children) ← readSlots (readContents fuel) kind (kind.layout.zip fields)
    .ok (.node kind payload children)

namespace Json

mutual

/-- How deep a value nests. -/
def depth : Json → Nat
  | .arr items => depthItems items + 1
  | .obj entries => depthEntries entries + 1
  | _ => 1

/-- How deep the deepest item nests. -/
def depthItems : List Json → Nat
  | [] => 0
  | item :: items => max (depth item) (depthItems items)

/-- How deep the deepest entry nests. -/
def depthEntries : List (String × Json) → Nat
  | [] => 0
  | (_, value) :: entries => max (depth value) (depthEntries entries)

end

end Json

namespace Tree

/-- Reads a node from its written form. Each node on the way down takes at least one level of the
data, so its depth bounds the nodes. -/
def ofJson (json : Json) : Except CodecError Tree := readNode (readContents json.depth) json

/-- Reads a run of nodes from their written forms. -/
def listOfJson (context : String) (run : Slot) (json : Json) : Except CodecError (List Tree) :=
  readRun (readContents json.depth) context run json

end Tree

/-! ## Writing nodes -/

/-- The written form of a node: its kind and its contents. -/
structure Written where
  kind : Kind
  contents : Except CodecError Json

namespace Written

/-- The object of a named node. -/
def node (w : Written) : Except CodecError Json :=
  if !w.kind.isTagged then malformed (.standalone w.kind)
  else if w.kind.layout.isEmpty then .ok (.obj [("t", .str w.kind.name)])
  else do
    let contents ← w.contents
    .ok (.obj [("t", .str w.kind.name), ("c", contents)])

end Written

/-- Writes a citation. -/
def writeCitation (c : Citation Written) : Except CodecError Json := do
  let before ← c.before.mapM Written.node
  let after ← c.after.mapM Written.node
  .ok (.obj [("citationId", c.id), ("citationPrefix", .arr before), ("citationSuffix", .arr after),
    ("citationMode", writeEnum (.str c.mode)), ("citationNoteNum", c.noteNum),
    ("citationHash", c.hash)])

/-- The values that iterating over plain data gives; none if it cannot be iterated. -/
def iterate? : Json → Option (List Json)
  | .arr items => some items
  | .str s => some (s.toList.map fun c => .str (String.singleton c))
  | .obj entries => some (entries.map fun entry => .str entry.1)
  | _ => none

/-- Writes a payload value; a value of the wrong sort is a fault. -/
def writeValue (codec : Codec) (value : Value Written) : Except CodecError Json :=
  match codec, value with
  | .int, .data v | .text, .data v => .ok v
  | .attr, .attr a => .ok (writeAttr a)
  | .target, .target t => .ok (writeTarget t)
  | .listAttributes, .listAttributes l => .ok (writeListAttributes l)
  | .enum _, .data v => .ok (writeEnum v)
  | .enumList _, .data v => match iterate? v with
    | some items => .ok (.arr (items.map writeEnum))
    | none => .error (.fault .type)
  | .floatList, .data v => match iterate? v with
    | some items => (items.mapM writeWidth).map .arr
    | none => .error (.fault .type)
  | .citations, .citations cs => (cs.mapM writeCitation).map .arr
  | .citations, .data v => match iterate? v with
    | some [] => .ok (.arr [])
    | some _ => .error (.fault .attribute)
    | none => .error (.fault .type)
  | .attr, _ | .target, _ | .listAttributes, _ => .error (.fault .attribute)
  | _, _ => .error (.fault .type)

/-- The first child that a run does not admit, as a refusal. -/
def checkRun (kind : Kind) (run : Slot) (children : List Written) : Except CodecError Unit :=
  match children.find? fun child => !run.admits child.kind with
  | none => .ok ()
  | some child => match run with
    | .parts part => malformed (.partsExpected kind part child.kind)
    | run => malformed (.cannotHold kind child.kind run.categoryName)

/-- Writes a run: parts by their contents, named nodes as objects. -/
def writeRun (kind : Kind) (run : Slot) (children : List Written) : Except CodecError Json := do
  checkRun kind run children
  match run with
  | .parts _ => (children.mapM Written.contents).map .arr
  | _ => (children.mapM Written.node).map .arr

/-- Writes the slots of a node in order, taking children from the front; the run takes `runSize`. -/
def writeSlots (kind : Kind) (payload : Payload Written) (runSize : Nat) :
    List Slot → List Written → Except CodecError (List Json)
  | [], _ => .ok []
  | .value name codec :: slots, children => match Entries.find? name payload with
    | none => malformed (.payloadMissing kind name)
    | some value => do
      let field ← writeValue codec value
      let fields ← writeSlots kind payload runSize slots children
      .ok (field :: fields)
  | .part part :: slots, children => match children with
    | [] => malformed (.childCount kind 0)
    | child :: rest =>
      if child.kind = part then do
        let field ← child.contents
        let fields ← writeSlots kind payload runSize slots rest
        .ok (field :: fields)
      else malformed (.partExpected kind part child.kind)
  | run :: slots, children => do
    let field ← writeRun kind run (children.take runSize)
    let fields ← writeSlots kind payload runSize slots (children.drop runSize)
    .ok (field :: fields)

/-- Lays out the contents of a node. A kind without slots has none, whatever its children. -/
def writeContents (kind : Kind) (payload : Payload Written) (children : List Written) :
    Except CodecError Json :=
  let slots := kind.layout
  let single := slots.countP (·.isPart)
  if slots.isEmpty then .ok .null
  else if children.length < single ∨ (single < children.length ∧ kind.run?.isNone) then
    malformed (.childCount kind children.length)
  else do
    let fields ← writeSlots kind payload (children.length - single) slots children
    match fields with
    | [field] => .ok field
    | fields => .ok (.arr fields)

/-- The written form of a node, given those of the nodes below it. -/
def Written.of (kind : Kind) (payload : Payload Written) (children : List Written) : Written :=
  ⟨kind, writeContents kind payload children⟩

namespace Tree

/-- The written form of a tree. -/
def written : Tree → Written := fold Written.of

/-- Writes a named node as an object. -/
def toJson (t : Tree) : Except CodecError Json := t.written.node

end Tree

end DocFilter
