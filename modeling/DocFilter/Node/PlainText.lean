import DocFilter.Codec.Error
import DocFilter.Node.Tree

/-!
# Plain text of nodes

The text a reader sees in a node: formatting is dropped, spaces and breaks are single spaces, quoted
inlines keep their quotation marks, raw content and notes are left out, and sibling blocks are
separated by a line break. The text of a node is asked for only where its kind shows one, so a node
without it is refused and any other is not.
-/

namespace DocFilter

/-- Why a node has no plain text. -/
inductive PlainTextError where
  /-- A node lacks a value that its text is made of. -/
  | noAttribute (kind : Kind) (name : String)
  | fault (fault : Fault)
deriving Repr, Inhabited

/-- What a node contributes to the text around it. -/
structure Fragment where
  isInline : Bool
  pieces : Except PlainTextError (List Json)

/-- The pieces of a list of fragments, with a line break between adjacent ones that are not inline;
`afterBlock` says whether such a one came just before. -/
def joinFragments : (afterBlock : Bool) → List Fragment → Except PlainTextError (List Json)
  | _, [] => .ok []
  | afterBlock, fragment :: rest => do
    let pieces ← fragment.pieces
    let more ← joinFragments (!fragment.isInline) rest
    .ok ((if afterBlock && !fragment.isInline then [.str "\n"] else []) ++ pieces ++ more)

/-- The plain data of a payload under a name. -/
def requireData {ν : Type} (kind : Kind) (payload : Payload ν) (name : String) :
    Except PlainTextError Json :=
  match Entries.find? name payload with
  | none => .error (.noAttribute kind name)
  | some (.data v) => .ok v
  | some _ => .error (.fault .type)

/-- The quotation marks of a quoted inline. -/
def quotationMarks : Json → Except PlainTextError (String × String)
  | .str "SingleQuote" => .ok ("‘", "’")
  | .str "DoubleQuote" => .ok ("“", "”")
  | .arr _ | .obj _ => .error (.fault .type)
  | _ => .error (.fault .key)

/-- The pieces of one node, given what its children contribute. -/
def nodePieces (kind : Kind) (payload : Payload Fragment) (children : List Fragment) :
    Except PlainTextError (List Json) :=
  match kind with
  | .str | .code | .math | .codeBlock => do
    let text ← requireData kind payload "text"
    .ok [text]
  | .space | .softBreak | .lineBreak => .ok [.str " "]
  | .rawInline | .rawBlock | .note | .null | .horizontalRule => .ok []
  | .quoted => do
    let marks ← requireData kind payload "quote_type"
    let (opening, closing) ← quotationMarks marks
    let pieces ← joinFragments false children
    .ok (.str opening :: pieces ++ [.str closing])
  | _ => joinFragments false children

/-- The text of a list of pieces, all of which must be texts. -/
def textOfPieces (pieces : List Json) : Except PlainTextError String :=
  match pieces.mapM (·.str?) with
  | some texts => .ok (String.join texts)
  | none => .error (.fault .type)

namespace Fragment

/-- What a node contributes, given what the nodes below it contribute. -/
def of (kind : Kind) (payload : Payload Fragment) (children : List Fragment) : Fragment :=
  ⟨kind.isInline, nodePieces kind payload children⟩

/-- The text of one fragment. -/
def text (fragment : Fragment) : Except PlainTextError String := fragment.pieces >>= textOfPieces

/-- The text of adjacent fragments. -/
def textOfList (fragments : List Fragment) : Except PlainTextError String :=
  joinFragments false fragments >>= textOfPieces

end Fragment

namespace Tree

/-- What a tree contributes to the text around it. -/
def fragment : Tree → Fragment := fold Fragment.of

/-- The plain text of a node. -/
def plainText (t : Tree) : Except PlainTextError String := t.fragment.text

/-- The plain text of a list of siblings. -/
def plainTextOfList (ts : List Tree) : Except PlainTextError String :=
  Fragment.textOfList (ts.map fragment)

end Tree

end DocFilter
