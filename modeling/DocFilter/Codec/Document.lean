import DocFilter.Codec.Metadata
import DocFilter.Json.Print
import DocFilter.Text.Encoding

/-!
# Documents as JSON

A document is read from either of two layouts: an object with a version, the metadata and the blocks,
or a pair of the metadata and the blocks. It remembers which of the two it came from and is written in
that one unless another is asked for. Blocks are read and written before the metadata, which decides
the refusal where both are at fault.
-/

namespace DocFilter

/-- The two document layouts. -/
inductive Schema where
  | v1
  | v2
deriving DecidableEq, Repr, Inhabited

namespace Schema

/-- The name of a layout. -/
def name : Schema → String
  | v1 => "v1"
  | v2 => "v2"

/-- The layout with a name. -/
def ofJson? : Json → Option Schema
  | .str "v1" => some v1
  | .str "v2" => some v2
  | _ => none

end Schema

/-- The version written for documents that came without one. -/
def defaultVersion : List Int := [1, 17, 5, 4]

/-- A document as a value. -/
structure Document where
  blocks : List Tree := []
  metadata : List (String × MetaValue) := []
  version : List Int := defaultVersion
  schema : Schema := .v2
deriving Inhabited

/-- The layout keys. -/
def versionKey : String := "pandoc-api-version"

namespace Document

/-- Reads a version: a list of whole numbers that is not empty. -/
def readVersion (json : Json) : Except CodecError (List Int) :=
  let whole : Json → Option Int
    | .int n => some n
    | _ => none
  showing json (match json with
    | .arr (item :: items) => match (item :: items).mapM whole with
      | some version => .ok version
      | none => malformed (.version json)
    | _ => malformed (.version json))

/-- Reads the two parts that both layouts have. -/
def readParts (schema : Schema) (version : List Int) (metadata blocks : Json) :
    Except CodecError Document := do
  let blocks ← Tree.listOfJson "Document" .blocks blocks
  let metadata ← MetaValue.mapOfJson metadata
  .ok ⟨blocks, metadata, version, schema⟩

/-- Reads a document from parsed data. -/
def ofJson (json : Json) : Except CodecError Document := match json with
  | .obj entries => match Entries.find? "meta" entries, Entries.find? "blocks" entries with
    | none, _ => malformed (.missingKey "meta")
    | _, none => malformed (.missingKey "blocks")
    | some metadata, some blocks => do
      let version ← match Entries.find? versionKey entries with
        | some version => readVersion version
        | none => .ok defaultVersion
      readParts .v2 version metadata blocks
  | .arr [head, blocks] => match head.get? "unMeta" with
    | some metadata => readParts .v1 defaultVersion metadata blocks
    | none => malformed .documentLayout
  | _ => malformed .documentLayout

/-- Reads a document from data if there is any. -/
def ofParsed : Except (ReadError Json.SyntaxError) Json → Except CodecError Document
  | .ok json => ofJson json
  | .error (.rule e) => malformed (.syntaxError e)
  | .error (.unfit reason) => .error (.fault (.value reason))

/-- Reads a document from text. -/
def parse (text : String) : Except CodecError Document := ofParsed (Json.parse text)

/-- Reads a document from bytes. -/
def parseBytes (bytes : List UInt8) : Except CodecError Document :=
  match Text.decodeBytes bytes with
  | some cs => ofParsed (Json.parseDecoded cs)
  | none => malformed .encoding

/-- Writes the top-level nodes, which must be blocks; `root` is the kind of the node that holds them. -/
def writeBlocks (root : Kind) (blocks : List Written) : Except CodecError Json := do
  checkRun root .blocks blocks
  let items ← blocks.mapM Written.node
  .ok (.arr items)

/-- Puts the written parts into the layout that is asked for; only one of the two shows the version,
which must be something that has items. -/
def layOut (schema version metadata blocks : Json) : Except CodecError Json :=
  match Schema.ofJson? schema with
  | some .v1 => .ok (.arr [.obj [("unMeta", metadata)], blocks])
  | some .v2 => match iterate? version with
    | some items => .ok (.obj [(versionKey, .arr items), ("meta", metadata), ("blocks", blocks)])
    | none => .error (.fault .type)
  | none => .error (.unsupportedSchema schema)

/-- Writes a document in a layout. -/
def toJson (d : Document) (schema : Json) : Except CodecError Json := do
  let blocks ← writeBlocks .document (d.blocks.map Tree.written)
  let metadata ← MetaValue.entriesToJson d.metadata
  layOut schema (.arr (d.version.map .int)) (.obj metadata) blocks

/-- Whether a value asks for nothing, so that a default applies. -/
def isUnset : Json → Bool
  | .null | .bool false | .str "" | .arr [] | .obj [] => true
  | .int n => n == 0
  | .float d => d.isZero
  | _ => false

/-- Writes a document as text; an unset schema keeps the document's own. The document must be writable
before its layout matters. -/
def render (d : Document) (schema : Json) (style : Except Fault Json.Style) :
    Except CodecError String := do
  let json ← d.toJson (if isUnset schema then .str d.schema.name else schema)
  let style ← style.mapError .fault
  (json.render style).mapError .fault

/-- Equality by content: version and layout do not count. -/
def same (d e : Document) : Bool :=
  Tree.sameList d.blocks e.blocks && (MetaValue.map d.metadata).same (.map e.metadata)

end Document

end DocFilter
