import DocFilter.Node.Kind
import DocFilter.Text.Quoted

/-!
# Selectors

A selector chooses nodes by their kind and by what came before them. It is a chain of tests: the last
one is for the node itself, and each combinator says where the node for the test on its left is found:
as the parent, somewhere earlier in the visit order, or at an exact distance before.
-/

namespace DocFilter

/-- A test of one node. -/
inductive NodeTest where
  | block
  | inline
  | kind (k : Kind)
deriving DecidableEq, Repr, Inhabited

namespace NodeTest

/-- Whether a kind passes. -/
def accepts : NodeTest → Kind → Bool
  | block, k => k.isBlock
  | inline, k => k.isInline
  | kind expected, k => k == expected

/-- The name of a test. -/
def name : NodeTest → String
  | block => "Block"
  | inline => "Inline"
  | kind k => k.name

/-- The test with a name: a category, or a kind that is written with its name. -/
def ofName? (name : String) : Option NodeTest :=
  if name == "Block" then some block
  else if name == "Inline" then some inline
  else ((Kind.ofName? name).filter (·.isTagged)).map kind

end NodeTest

/-- How a test is joined to the one on its left. -/
inductive Combinator where
  /-- The left node is the parent. -/
  | childOf
  /-- The left node came earlier; with a distance, that many nodes lie between. -/
  | follows (distance : Option Nat)
deriving DecidableEq, Repr, Inhabited

/-- The text of a combinator. -/
def Combinator.text : Combinator → String
  | childOf => ">"
  | follows none => "+"
  | follows (some n) => "+" ++ toString n

/-- A test with the combinator before it. -/
structure Link where
  combinator : Combinator
  test : NodeTest
deriving DecidableEq, Repr, Inhabited

/-- The text of a link. -/
def Link.text (link : Link) : String := link.combinator.text ++ " " ++ link.test.name

/-- A selector: its source text, the leftmost test and the links to its right. -/
structure Selector where
  text : String
  first : NodeTest
  links : List Link
deriving DecidableEq, Repr, Inhabited

/-- What is wrong with a selector text. -/
inductive SelectorFlaw where
  | empty
  | unknownKind (name : String)
  | missingCombinator (name : String)
  | emptyBefore
  | malformedDistance (raw : String)
  | emptyAfter
deriving DecidableEq, Repr, Inhabited

/-- The wording of a flaw. -/
def SelectorFlaw.message : SelectorFlaw → String
  | empty => "Empty selector"
  | unknownKind name => s!"Unknown node kind {Text.quoted name}"
  | missingCombinator name => s!"Missing combinator before {Text.quoted name}"
  | emptyBefore => "Empty term before combinator"
  | malformedDistance raw => s!"Malformed distance {Text.quoted raw}"
  | emptyAfter => "Empty term after combinator"

/-- A refused selector; there is no text if what was given is none. -/
structure SelectorError where
  flaw : SelectorFlaw
  text : Option String
deriving DecidableEq, Repr, Inhabited

/-- The wording of a refusal. -/
def SelectorError.message (e : SelectorError) : String := match e.text with
  | some text => s!"{e.flaw.message} in selector {Text.quoted text}"
  | none => e.flaw.message

end DocFilter
