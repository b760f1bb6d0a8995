import DocFilter.Node.Payload

/-!
# Layouts

How the contents of each kind are laid out when it is written: a list of slots, each a payload value
or children. A kind without slots is written without contents, one slot is written as it is, and
several slots are written side by side. Reading, writing and making nodes all follow `Kind.layout`,
so the three cannot disagree about a kind.
-/

namespace DocFilter

/-- How a payload value is written. -/
inductive Codec where
  | int
  | text
  | attr
  | target
  | listAttributes
  | enum (choices : List String)
  | enumList (choices : List String)
  | floatList
  | citations
deriving DecidableEq, Repr

/-- One element of the contents of a kind. -/
inductive Slot where
  | value (name : String) (codec : Codec)
  | inlines
  | blocks
  | parts (kind : Kind)
  | part (kind : Kind)
deriving DecidableEq, Repr

/-- The quotation marks of a quoted inline. -/
def quoteTypes : List String := ["SingleQuote", "DoubleQuote"]

/-- The two ways to set mathematics. -/
def mathTypes : List String := ["DisplayMath", "InlineMath"]

/-- The modes of a citation. -/
def citationModes : List String := ["AuthorInText", "SuppressAuthor", "NormalCitation"]

/-- The alignments of a table column. -/
def alignments : List String := ["AlignLeft", "AlignRight", "AlignCenter", "AlignDefault"]

/-- The numbering styles of an ordered list. -/
def listStyles : List String :=
  ["DefaultStyle", "Example", "Decimal", "LowerRoman", "UpperRoman", "LowerAlpha", "UpperAlpha"]

/-- The number delimiters of an ordered list. -/
def listDelimiters : List String := ["DefaultDelim", "Period", "OneParen", "TwoParens"]

namespace Slot

/-- The payload name of a value slot. -/
def name? : Slot → Option String
  | value name _ => some name
  | _ => none

/-- Whether a slot holds children. -/
def isChild : Slot → Bool
  | value .. => false
  | _ => true

/-- Whether a slot holds any number of children. -/
def isRun : Slot → Bool
  | inlines | blocks | parts _ => true
  | _ => false

/-- Whether a slot holds exactly one part. -/
def isPart : Slot → Bool
  | part _ => true
  | _ => false

/-- Whether a run admits a child of a kind. -/
def admits : Slot → Kind → Bool
  | inlines, kind => kind.isInline
  | blocks, kind => kind.isBlock
  | parts p, kind => kind == p
  | part p, kind => kind == p
  | value .., _ => false

end Slot

/-- The slot of attributes. -/
def attrSlot : Slot := .value "attr" .attr

/-- The slot of a text. -/
def textSlot : Slot := .value "text" .text

/-- The slot of the format of raw content. -/
def formatSlot : Slot := .value "format" .text

namespace Kind

/-- The slots of a kind, in the order in which they are written. -/
def layout : Kind → List Slot
  | document => [.blocks]
  | plain | para => [.inlines]
  | lineBlock => [.parts line]
  | codeBlock | code => [attrSlot, textSlot]
  | rawBlock | rawInline => [formatSlot, textSlot]
  | blockQuote | note => [.blocks]
  | orderedList => [.value "list_attributes" .listAttributes, .parts listItem]
  | bulletList => [.parts listItem]
  | definitionList => [.parts definitionItem]
  | header => [.value "level" .int, attrSlot, .inlines]
  | horizontalRule | null | space | softBreak | lineBreak | other _ => []
  | table =>
    [.part tableCaption, .value "alignments" (.enumList alignments), .value "widths" .floatList,
     .part tableHeader, .parts tableRow]
  | div => [attrSlot, .blocks]
  | str => [textSlot]
  | emph | strong | strikeout | superscript | subscript | smallCaps => [.inlines]
  | quoted => [.value "quote_type" (.enum quoteTypes), .inlines]
  | cite => [.value "citations" .citations, .inlines]
  | math => [.value "math_type" (.enum mathTypes), textSlot]
  | link | image => [attrSlot, .inlines, .value "target" .target]
  | span => [attrSlot, .inlines]
  | listItem | definition | tableCell => [.blocks]
  | line | definitionTerm | tableCaption => [.inlines]
  | definitionItem => [.part definitionTerm, .parts definition]
  | tableHeader | tableRow => [.parts tableCell]

/-- The run among the slots of a kind, if it has one. -/
def run? (kind : Kind) : Option Slot := kind.layout.find? (·.isRun)

/-- The payload names of a kind, in the order in which they are written. -/
def payloadNames (kind : Kind) : List String := kind.layout.filterMap (·.name?)

end Kind

namespace Codec

variable {ν : Type}

/-- The value a slot gets when a node is made without one. -/
def default (name : String) : Codec → Value ν
  | int => .data (.int 1)
  | text => .data (.str (if name == "format" then "html" else ""))
  | attr => .attr {}
  | target => .target {}
  | listAttributes => .listAttributes {}
  | enum choices => .data (.str (choices.getLastD ""))
  | enumList _ => .data (.arr [])
  | floatList => .data (.arr [])
  | citations => .citations []

end Codec

/-- The payload of a node made with the given values, in written order: a slot without a value gets
its default. -/
def Kind.fillPayload {ν : Type} (kind : Kind) (given : Payload ν) : Payload ν :=
  kind.layout.filterMap fun
    | .value name codec => some (name, (Entries.find? name given).getD (codec.default name))
    | _ => none

/-- The given names that a kind has no slot for, sorted. -/
def Kind.unknownNames {ν : Type} (kind : Kind) (given : Payload ν) : List String :=
  ((Entries.keys given).filter fun name => !kind.payloadNames.contains name).mergeSort

end DocFilter
