import DocFilter.Forest.Content
import DocFilter.Forest.Reading
import DocFilter.Log

/-!
# The context of a filter run

What an action works on: the forest with the document under edit, the format the document is converted
to, the nodes visited so far with the present one last, and a value of any type that actions share. The
metadata of the document is edited through `Context.metadata` and `Context.setMetadata`.

An action may put anything in the place of what it is given. The run itself goes on with the document that
it began with and with its own list of visits: where an action puts another list in the place of that one,
rules look at the other list, and the visits go on to be added to the first.
-/

namespace DocFilter

/-- What an action wants to happen next. -/
inductive Signal where
  | proceed
  | halt
  /-- A value that asks for nothing known, as messages show it. -/
  | other (shown : String)
deriving DecidableEq, Repr, Inhabited

/-- The state of a filter run. -/
structure Context (σ : Type) where
  forest : Forest
  document : NodeId
  /-- The document root whose metadata are under edit. -/
  metadataOf : NodeId
  targetFormat : String
  shared : σ
  current : Option NodeId := none
  /-- The list of visits that the run adds to. -/
  history : Array NodeId := #[]
  /-- A list that was put in the place of that one. -/
  standIn : Option (Array NodeId) := none
  stopRequested : Bool := false
  log : List Log.Record := []

/-- A computation on the state of a run that may fail; what it did before stays done. -/
abbrev Run (σ : Type) := ExceptT Failure (StateM (Context σ))

/-- What a rule does to a node. -/
abbrev Action (σ : Type) := NodeId → Run σ Signal

namespace Context

variable {σ : Type}

/-- The visits that rules look at. -/
def visits (c : Context σ) : Array NodeId := c.standIn.getD c.history

/-- The metadata under edit. -/
def metadata (c : Context σ) : Store := (c.forest.store? c.metadataOf).getD .empty

/-- Edits the metadata. -/
def setMetadata (store : Store) (c : Context σ) : Context σ :=
  { c with forest := c.forest.setMetadata c.metadataOf store }

/-- Gives a document root the metadata under edit, whatever was written in their place. -/
def settleMetadata (root : NodeId) (c : Context σ) : Context σ :=
  { c with forest := (c.forest.setMetadata root c.metadata).restoreMetadata root }

/-- A node, or the present one if none is given. -/
def target (c : Context σ) (n : Option NodeId) : Except Failure NodeId :=
  match n <|> c.current with
  | some n => .ok n
  | none => .error .noTarget

/-- The markup of a node, or of the present one. -/
def innerMarkup (c : Context σ) (n : Option NodeId) : Except Failure String := do
  c.forest.markup (← c.target n)

/-- Gives a node, or the present one, new children made from markup. -/
def setInnerMarkup (n : Option NodeId) (text : String) : Run σ Unit := do
  let c ← get
  let (result, forest) := c.forest.setContent (← ofExcept (c.target n)) text
  set { c with forest := forest }
  ofExcept result

/-- Asks for the end of the run. -/
def stop (c : Context σ) : Signal × Context σ := (.halt, { c with stopRequested := true })

/-- Adds a report. -/
def report (record : Log.Record) (c : Context σ) : Context σ := { c with log := c.log ++ [record] }

end Context

end DocFilter
