import DocFilter.Fault
import DocFilter.Text.Quoted

/-!
# YAML errors

Why a text is no YAML: it breaks the rules of the notation, or something in it denotes nothing at all.
For a broken rule the error tells what was being read, or what was found in the wrong place.
-/

namespace DocFilter.Yaml

/-- A piece of a YAML text. -/
inductive Piece where
  | simpleKey
  | nextToken
  | directive
  | anchor
  | reference
  | tag
  | blockScalar
  | doubleQuoted
  | quoted
  | node
  | blockNode
  | flowNode
  | blockCollection
  | blockMapping
  | flowSequence
  | flowMapping
  | mapping
  | orderedMap
  | pairs
deriving DecidableEq, Repr, Inhabited

/-- What a piece is called. -/
def Piece.name : Piece → String
  | simpleKey => "a simple key"
  | nextToken => "for the next token"
  | directive => "a directive"
  | anchor => "an anchor"
  | reference => "an alias"
  | tag => "a tag"
  | blockScalar => "a block scalar"
  | doubleQuoted => "a double-quoted scalar"
  | quoted => "a quoted scalar"
  | node => "a node"
  | blockNode => "a block node"
  | flowNode => "a flow node"
  | blockCollection => "a block collection"
  | blockMapping => "a block mapping"
  | flowSequence => "a flow sequence"
  | flowMapping => "a flow mapping"
  | mapping => "a mapping"
  | orderedMap => "an ordered map"
  | pairs => "pairs"

/-- What a node is made of. -/
inductive Shape where
  | scalar
  | sequence
  | mapping
deriving DecidableEq, Repr, Inhabited

/-- The name of a shape. -/
def Shape.name : Shape → String
  | scalar => "scalar"
  | sequence => "sequence"
  | mapping => "mapping"

/-- Which rule of the notation a text breaks. -/
inductive Reason where
  /-- A character that no text may hold. -/
  | character (c : Char)
  | scanning (piece : Piece)
  | parsing (piece : Piece)
  | building (piece : Piece)
  | misplacedEntry
  | misplacedKey
  | misplacedValue
  | secondVersion
  | otherVersion
  | secondHandle (handle : String)
  /-- No document starts after directives or another document; the token there has a name. -/
  | noStart (found : String)
  | secondDocument
  | unknownAlias (name : String)
  | secondAnchor (name : String)
  | unknownTag (name : String)
  | shape (expected found : Shape)
  /-- Characters that are none of base sixty-four, between two places. -/
  | notAscii (first : Char) (start stop : Nat)
  /-- A group of base sixty-four that has but one digit, after so many digits. -/
  | loneSextet (before : Nat)
  | unpadded
deriving DecidableEq, Repr, Inhabited

/-- Which rule is broken, in words. -/
def Reason.message : Reason → String
  | character c =>
    "unacceptable character #x" ++ String.ofList (Text.hexDigits 4 c.toNat) ++
      ": special characters are not allowed"
  | scanning piece => "while scanning " ++ piece.name
  | parsing piece => "while parsing " ++ piece.name
  | building piece => "while constructing " ++ piece.name
  | misplacedEntry => "sequence entries are not allowed here"
  | misplacedKey => "mapping keys are not allowed here"
  | misplacedValue => "mapping values are not allowed here"
  | secondVersion => "found duplicate YAML directive"
  | otherVersion => "found incompatible YAML document (version 1.* is required)"
  | secondHandle handle => "duplicate tag handle " ++ Text.quoted handle
  | noStart found => "expected '<document start>', but found " ++ Text.quoted found
  | secondDocument => "expected a single document in the stream"
  | unknownAlias name => "found undefined alias " ++ Text.quoted name
  | secondAnchor name => "found duplicate anchor " ++ Text.quoted name ++ "; first occurrence"
  | unknownTag name => "could not determine a constructor for the tag " ++ Text.quoted name
  | shape expected found => s!"expected a {expected.name} node, but found {found.name}"
  | notAscii first start stop =>
    "failed to convert base64 data into ascii: 'ascii' codec can't encode " ++
      (if start + 1 = stop then
        "character '" ++ String.ofList (Text.escapeCode first) ++ s!"' in position {start}"
      else s!"characters in position {start}-{stop - 1}") ++ ": ordinal not in range(128)"
  | loneSextet before =>
    "failed to decode base64 data: Invalid base64-encoded string: " ++
      s!"number of data characters ({before + 1}) cannot be 1 more than a multiple of 4"
  | unpadded => "failed to decode base64 data: Incorrect padding"

/-- Why a text is no YAML. -/
inductive Error where
  | malformed (reason : Reason)
  /-- An escape or a value in it denotes nothing. -/
  | fault (fault : Fault)
deriving DecidableEq, Repr, Inhabited

/-- Refuses a text that breaks a rule. -/
def refuse {α : Type} (reason : Reason) : Except Error α := .error (.malformed reason)

/-- Refuses something that denotes nothing. -/
def noValue {α : Type} (fault : Fault) : Except Error α := .error (.fault fault)

end DocFilter.Yaml
