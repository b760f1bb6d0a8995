/-!
# YAML tokens

The tokens of a YAML text. Beside what stands in the text there are tokens for the structure that
indentation shows: where a block collection starts and ends, and that a value is a key.
-/

namespace DocFilter.Yaml

/-- A token. -/
inductive Token where
  | version (major : Nat)
  | tagHandle (handle content : String)
  | directive
  | documentStart
  | documentEnd
  | blockSequenceStart
  | blockMappingStart
  | blockEnd
  | flowSequenceStart
  | flowSequenceEnd
  | flowMappingStart
  | flowMappingEnd
  | blockEntry
  | flowEntry
  | key
  | value
  | reference (name : String)
  | anchor (name : String)
  | tag (handle : Option String) (content : String)
  | scalar (plain : Bool) (text : String)
  | streamEnd
deriving DecidableEq, Repr, Inhabited

/-- What a token is called. -/
def Token.name : Token → String
  | version _ | tagHandle .. | directive => "<directive>"
  | documentStart => "<document start>"
  | documentEnd => "<document end>"
  | blockSequenceStart => "<block sequence start>"
  | blockMappingStart => "<block mapping start>"
  | blockEnd => "<block end>"
  | flowSequenceStart => "["
  | flowSequenceEnd => "]"
  | flowMappingStart => "\x7b"
  | flowMappingEnd => "\x7d"
  | blockEntry => "-"
  | flowEntry => ","
  | key => "?"
  | value => ":"
  | reference _ => "<alias>"
  | anchor _ => "<anchor>"
  | tag .. => "<tag>"
  | scalar .. => "<scalar>"
  | streamEnd => "<stream end>"

end DocFilter.Yaml
