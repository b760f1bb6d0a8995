import DocFilter.Codec.Error
import DocFilter.Metadata.Value
import DocFilter.Plain.Basic
import DocFilter.Yaml.Value

/-!
# Metadata from plain values and text

Metadata may be given as plain values or as the text of a metadata block, which is YAML and may stand
between fences as it does at the top of a document. Plain values become lists, maps and truth values;
every other value becomes a string.
-/

namespace DocFilter

namespace MetaValue

mutual

/-- A plain value as metadata. -/
def ofPlain : Plain → MetaValue
  | .map entries => map (ofPlainEntries entries [])
  | .list items | .tuple items => list (ofPlainItems items)
  | .bool b => bool b
  | .null => string ""
  | .date d => string d.text
  | .moment m => string (m.text "T")
  | value => string value.text

/-- Plain values as metadata, in order. -/
def ofPlainItems : List Plain → List MetaValue
  | [] => []
  | item :: items => ofPlain item :: ofPlainItems items

/-- Entries as metadata, written one after the other over those before. -/
def ofPlainEntries : List (Plain × Plain) → Entries MetaValue → Entries MetaValue
  | [], written => written
  | (key, value) :: entries, written =>
    ofPlainEntries entries (Entries.put key.text (ofPlain value) written)

end

/-- A plain value as metadata. All that it holds must have a text. -/
def convert (value : Plain) : Except Fault MetaValue := match value.obstacles with
  | [] => .ok (ofPlain value)
  | fault :: _ => .error fault

/-! ## Blocks -/

/-- A text without the fence that opens a block, if there is one. -/
def withoutOpening (cs : List Char) : List Char :=
  match Text.trimStart cs with
  | '-' :: '-' :: '-' :: rest => match rest.dropWhile fun c => c == ' ' || c == '\t' with
    | '\n' :: rest => rest
    | _ => cs
  | _ => cs

/-- Whether a text is a fence that closes a block, with blanks after it at most. -/
def isClosing : List Char → Bool
  | '-' :: '-' :: '-' :: rest | '.' :: '.' :: '.' :: rest => rest.all Text.isBlank
  | _ => false

/-- A text without the fence that closes a block, if there is one. -/
def withoutClosing : List Char → List Char
  | [] => []
  | '\n' :: rest => if isClosing rest then ['\n'] else '\n' :: withoutClosing rest
  | c :: rest => c :: withoutClosing rest

/-- The YAML of a metadata block. -/
def unfenced (text : String) : String := String.ofList (withoutClosing (withoutOpening text.toList))

/-- Reads a metadata block; an empty one is an empty map. -/
def ofBlock (text : String) : Except CodecError MetaValue := match Yaml.read .whole (unfenced text) with
  | .ok .null => .ok (map [])
  | .ok value => (convert value).mapError .fault
  | .error (.malformed _) => malformed .yaml
  | .error (.fault fault) => .error (.fault fault)

/-- Metadata from a plain value, where a text is a block. -/
def ofValue : Plain → Except CodecError MetaValue
  | .str text => ofBlock text
  | value => (convert value).mapError .fault

/-- Reads a metadata block that must be a map. -/
def mapOfBlock (text : String) : Except CodecError MetaValue := do
  match ← ofBlock text with
  | map entries => .ok (map entries)
  | value => malformed (.metaBlock value.tag)

end MetaValue

end DocFilter
