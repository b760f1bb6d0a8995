/-!
# Node kinds

The vocabulary of document nodes. Blocks and inlines are written with their name; parts group the
children of nodes that hold nested lists, such as the items of a list or the cells of a table, and have
no name of their own in a written document. `Kind.category` tells the sorts apart. A node under edit may
be renamed at will, so a name outside of the vocabulary is a kind too, of no use but to be shown.
-/

namespace DocFilter

/-- What a node is. -/
inductive Kind where
  | document
  | plain | para | lineBlock | codeBlock | rawBlock | blockQuote | orderedList | bulletList
  | definitionList | header | horizontalRule | table | div | null
  | str | emph | strong | strikeout | superscript | subscript | smallCaps | quoted | cite | code
  | space | softBreak | lineBreak | math | rawInline | link | image | note | span
  | listItem | line | definitionItem | definitionTerm | definition | tableCaption | tableHeader
  | tableRow | tableCell
  /-- A name outside of the vocabulary. -/
  | other (name : String)
deriving DecidableEq, Repr, Inhabited

/-- The sorts of kinds. -/
inductive Category where
  | document
  | block
  | inline
  | part
  | none
deriving DecidableEq, Repr, Inhabited

namespace Kind

/-- The block kinds. -/
def blocks : List Kind :=
  [plain, para, lineBlock, codeBlock, rawBlock, blockQuote, orderedList, bulletList, definitionList,
   header, horizontalRule, table, div, null]

/-- The inline kinds. -/
def inlines : List Kind :=
  [str, emph, strong, strikeout, superscript, subscript, smallCaps, quoted, cite, code, space,
   softBreak, lineBreak, math, rawInline, link, image, note, span]

/-- The kinds of parts. -/
def parts : List Kind :=
  [listItem, line, definitionItem, definitionTerm, definition, tableCaption, tableHeader, tableRow,
   tableCell]

/-- Every kind of the vocabulary. -/
def all : List Kind := document :: blocks ++ inlines ++ parts

/-- The sort of a kind. -/
def category : Kind → Category
  | document => .document
  | plain | para | lineBlock | codeBlock | rawBlock | blockQuote | orderedList | bulletList
  | definitionList | header | horizontalRule | table | div | null => .block
  | str | emph | strong | strikeout | superscript | subscript | smallCaps | quoted | cite | code
  | space | softBreak | lineBreak | math | rawInline | link | image | note | span => .inline
  | listItem | line | definitionItem | definitionTerm | definition | tableCaption | tableHeader
  | tableRow | tableCell => .part
  | other _ => .none

/-- The name of a kind. -/
def name : Kind → String
  | document => "Document"
  | plain => "Plain"
  | para => "Para"
  | lineBlock => "LineBlock"
  | codeBlock => "CodeBlock"
  | rawBlock => "RawBlock"
  | blockQuote => "BlockQuote"
  | orderedList => "OrderedList"
  | bulletList => "BulletList"
  | definitionList => "DefinitionList"
  | header => "Header"
  | horizontalRule => "HorizontalRule"
  | table => "Table"
  | div => "Div"
  | null => "Null"
  | str => "Str"
  | emph => "Emph"
  | strong => "Strong"
  | strikeout => "Strikeout"
  | superscript => "Superscript"
  | subscript => "Subscript"
  | smallCaps => "SmallCaps"
  | quoted => "Quoted"
  | cite => "Cite"
  | code => "Code"
  | space => "Space"
  | softBreak => "SoftBreak"
  | lineBreak => "LineBreak"
  | math => "Math"
  | rawInline => "RawInline"
  | link => "Link"
  | image => "Image"
  | note => "Note"
  | span => "Span"
  | listItem => "ListItem"
  | line => "Line"
  | definitionItem => "DefinitionItem"
  | definitionTerm => "DefinitionTerm"
  | definition => "Definition"
  | tableCaption => "TableCaption"
  | tableHeader => "TableHeader"
  | tableRow => "TableRow"
  | tableCell => "TableCell"
  | other name => name

/-- The kind of the vocabulary with a name. -/
def ofName? (name : String) : Option Kind := all.find? (·.name == name)

/-- The kind with a name. -/
def named (name : String) : Kind := (ofName? name).getD (other name)

/-- Whether a kind is a block. -/
def isBlock (kind : Kind) : Bool := kind.category == .block

/-- Whether a kind is an inline. -/
def isInline (kind : Kind) : Bool := kind.category == .inline

/-- Whether a kind is a part. -/
def isPart (kind : Kind) : Bool := kind.category == .part

/-- Whether a kind is written with its name: a block or an inline. -/
def isTagged (kind : Kind) : Bool := kind.isBlock || kind.isInline

end Kind

end DocFilter
