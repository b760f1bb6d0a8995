import DocFilter.Fault
import DocFilter.Json.Parse
import DocFilter.Json.Shown
import DocFilter.Node.Kind

/-!
# Refusals of the codec

Why data is no document, and why a tree cannot be written as one. `Malformed` lists the causes and
`Malformed.message` words them. A check words its refusal before it looks at the data, so that `showing` comes
first where the message shows them.
-/

namespace DocFilter

/-- Why data does not describe a document, or a tree has no written form. -/
inductive Malformed where
  /-- The text is not JSON. -/
  | syntaxError (error : Json.SyntaxError)
  /-- The bytes are not text. -/
  | encoding
  /-- The text is not a YAML block. -/
  | yaml
  /-- A document lacks a key. -/
  | missingKey (key : String)
  /-- The version of a document is not a list of whole numbers. -/
  | version (found : Json)
  /-- The data has neither of the two document layouts. -/
  | documentLayout
  /-- A node was expected. -/
  | nodeExpected (found : Json)
  /-- A node of a kind with contents has none. -/
  | contentsMissing (kind : Kind)
  /-- The contents of a node have a wrong number of fields. -/
  | fieldCount (kind : Kind) (expected : Nat) (found : Json)
  /-- A list of nodes or parts was expected. -/
  | listExpected (context of : String) (found : Json)
  /-- A node stands where nodes of the other category belong. -/
  | misplaced (context : String) (kind : Kind) (category : String)
  /-- An object that names a constructor was expected. -/
  | constructorExpected (context : String) (found : Json)
  /-- A constructor name is not one of the choices. -/
  | unknownConstructor (context : String) (found : Json)
  /-- A structured value has the wrong form. -/
  | form (context what : String) (found : Json)
  /-- A component of a structured value has the wrong form. -/
  | component (context detail : String)
  /-- A payload value has the wrong type. -/
  | payloadType (context name expected : String)
  /-- Metadata contents have the wrong type. -/
  | metaContents (tag expected : String)
  /-- Metadata is not an object. -/
  | metaObject (found : Json)
  /-- A metadata block is not a map. -/
  | metaBlock (tag : String)
  /-- A node without a written name was to be written on its own. -/
  | standalone (kind : Kind)
  /-- A node has more or fewer children than its layout has places. -/
  | childCount (kind : Kind) (count : Nat)
  /-- A single part is of the wrong kind. -/
  | partExpected (kind expected found : Kind)
  /-- One of a run of parts is of the wrong kind. -/
  | partsExpected (kind expected found : Kind)
  /-- A child is of the wrong category. -/
  | cannotHold (kind child : Kind) (category : String)
  /-- A payload value is missing. -/
  | payloadMissing (kind : Kind) (name : String)
deriving Repr, Inhabited

namespace Malformed

/-- A value as far as a message shows it. -/
def excerpt (value : Json) : String := Text.cut 80 value.shown

/-- The wording of a cause. -/
def message : Malformed → String
  | syntaxError error => s!"Invalid JSON input: {error.message}"
  | encoding => "Invalid JSON input"
  | yaml => "Invalid YAML metadata block"
  | missingKey key => s!"Document is missing the required {Text.quoted key} key"
  | version found => s!"Malformed pandoc-api-version: {found.shown}"
  | documentLayout =>
    "Unsupported document layout: expected a v2 object or a v1 [unMeta, blocks] pair"
  | nodeExpected found => s!"Expected a node object, got {excerpt found}"
  | contentsMissing kind => s!"{kind.name} node is missing its contents"
  | fieldCount kind expected found =>
    s!"{kind.name}: expected {expected} content fields, got {excerpt found}"
  | listExpected context of found => s!"{context}: expected a list of {of}, got {found.typeName}"
  | misplaced context kind category =>
    s!"{context}: {kind.name} cannot appear where {category} nodes are expected"
  | constructorExpected context found =>
    s!"{context}: expected a constructor object, got {found.shown}"
  | unknownConstructor context found => s!"{context}: unknown constructor {found.shown}"
  | form context what found => s!"{context}: malformed {what} {found.shown}"
  | component context detail => s!"{context}: {detail}"
  | payloadType context name expected => s!"{context}: {name} must be {expected}"
  | metaContents tag expected => s!"{tag} contents must be {expected}"
  | metaObject found => s!"Metadata must be an object, got {found.typeName}"
  | metaBlock tag => s!"Metadata block must be a map, got {tag}"
  | standalone kind => s!"{kind.name} cannot be encoded as a standalone node"
  | childCount kind count =>
    s!"{kind.name} has {count} children, which does not fit its shape"
  | partExpected kind expected found =>
    s!"{kind.name} expects a {expected.name} part, found {found.name}"
  | partsExpected kind expected found =>
    s!"{kind.name} expects {expected.name} parts, found {found.name}"
  | cannotHold kind child category =>
    s!"{kind.name} cannot hold {child.name}: {category} nodes expected"
  | payloadMissing kind name =>
    s!"{kind.name} node is missing payload field {Text.quoted name}"

end Malformed

/-- Why reading or writing a document stopped. -/
inductive CodecError where
  | malformed (cause : Malformed)
  | unknownKind (name : String)
  | unsupportedSchema (found : Json)
  | fault (fault : Fault)
deriving Repr, Inhabited

/-- Goes on with a value that a message is made of first, whether or not the message is needed: one that holds a
number with too many digits cannot be shown. -/
def showing {α : Type} (json : Json) (result : Except CodecError α) : Except CodecError α :=
  if json.holdsLong then .error (.fault (.value .longNumber)) else result

/-- Stops with a cause. -/
def malformed {α : Type} (cause : Malformed) : Except CodecError α := .error (.malformed cause)

end DocFilter
