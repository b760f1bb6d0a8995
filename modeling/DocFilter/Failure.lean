import DocFilter.Forest.Basic
import DocFilter.Selector.Basic

/-!
# Failures

Everything that can stop an operation on a document, as one type: each constructor holds the error of
one part of the library. `Failure.message?` words a failure; a value that merely does not fit has no
wording. `Failure.isReported` tells the failures that name their own cause, which a filter run passes on
unchanged, from those it wraps.
-/

namespace DocFilter

/-- What can stop an operation. -/
inductive Failure where
  | codec (error : CodecError)
  | plainText (error : PlainTextError)
  | make (error : MakeError)
  | content (error : Markup.ContentError)
  | row (error : Markup.RowError)
  | selector (error : SelectorError)
  | store (error : StoreError)
  | edit (error : EditError)
  /-- A node lacks a value. -/
  | noAttribute (kind : Kind) (name : String)
  /-- No node is being visited. -/
  | noTarget
  /-- A rule has no action. -/
  | noAction (selector : Json)
  /-- An action reports a failure in words of its own. -/
  | raised (reported : Bool) (name message : String)
  /-- An action failed for a cause that the library does not report. -/
  | action (selector : String) (kind : Kind) (cause : Failure)
  | fault (fault : Fault)
deriving Inhabited

/-- That a kind is none of the vocabulary, in words. -/
def unknownKindMessage (name : String) : String := s!"Unknown node kind: {Text.quoted name}"

/-- The wording of a codec error; a fault has none. -/
def CodecError.message? : CodecError → Option String
  | malformed cause => some cause.message
  | unknownKind name => some (unknownKindMessage name)
  | unsupportedSchema found => some s!"Unsupported schema: {found.shown}"
  | fault _ => none

/-- The wording of an error in making a node. -/
def MakeError.message? : MakeError → Option String
  | unknownKind found => some s!"Unknown node kind: {found.shown}"
  | unknownPayload kind names =>
    some (s!"{kind.name} has no payload field(s): " ++ String.intercalate ", " names)
  | unfit => none

/-- That a node lacks a value, in words. -/
def missingAttribute (kind : Kind) (name : String) : String :=
  s!"{kind.name} node has no attribute {Text.quoted name}"

/-- The wording of an error in finding a plain text. -/
def PlainTextError.message? : PlainTextError → Option String
  | noAttribute kind name => some (missingAttribute kind name)
  | fault _ => none

/-- The wording of an error in setting markup. -/
def Markup.ContentError.message : Markup.ContentError → String
  | unknownKind name => unknownKindMessage name
  | noContent kind => s!"{kind.name} node has no markup content to set"
  | notOneParagraph kind =>
    s!"Markup for a {kind.name} node must be a single paragraph of inline content"

/-- The wording of an error in reading a row. -/
def Markup.RowError.message? : Markup.RowError → Option String
  | notRow kind => some s!"Expected a TableRow or TableHeader node, got {kind.name}"
  | plainText error => error.message?

namespace Failure

/-- What an error in compiling a selector comes to. -/
def ofSelector : ReadError SelectorError → Failure
  | .rule error => selector error
  | .unfit reason => fault (.value reason)

/-- The wording of a failure; none for a value that merely does not fit. -/
def message? : Failure → Option String
  | codec error => error.message?
  | plainText error => error.message?
  | make error => error.message?
  | content error => some error.message
  | row error => error.message?
  | selector error => some error.message
  | store error => some error.message
  | edit error => error.message?
  | noAttribute kind name => some (missingAttribute kind name)
  | noTarget => some "No node is being visited"
  | noAction given => some s!"Action for selector {given.shown} is not callable"
  | raised _ _ message => some message
  | action text kind cause =>
    let head := s!"Action for selector {Text.quoted text} failed on {kind.name} node"
    match cause.message? with
    | some message => some (head ++ ": " ++ message)
    | none => some head
  | fault _ => none

/-- Whether a failure is one of those that the library reports as such. -/
def isReported : Failure → Bool
  | codec (.malformed _) | codec (.unknownKind _) => true
  | codec _ => false
  | plainText _ => false
  | make (.unknownKind _) => true
  | make _ => false
  | content _ => true
  | row (.notRow _) => true
  | row _ => false
  | selector _ => true
  | store (.missing ..) | store (.notMap ..) => true
  | store _ => false
  | edit (.noParent _) => true
  | edit _ => false
  | noAttribute .. => false
  | noTarget => true
  | noAction _ => false
  | raised reported _ _ => reported
  | action .. => true
  | fault _ => false

end Failure

end DocFilter
