import DocFilter.Filter.Context
import DocFilter.Forest.Walk
import DocFilter.Options
import DocFilter.Selector.Compile
import DocFilter.Selector.Match

/-!
# Filter runs

A filter is a list of rules, each a selector with an action. A run visits the nodes of a document one by
one, the document itself first, and tries every rule on each, in order.

* A node that an action replaced is followed by its replacement, which takes over its place in the
  history.
* A run ends early when an action asks for it.
* A failure of an action ends the run. One that the library does not report as such is wrapped so that
  it names the rule and the node.
-/

namespace DocFilter

/-- What should be a selector, and what is done to the nodes it selects. The selector is compiled when a
run begins, so before that it may be any value. -/
structure Rule (σ : Type) where
  selector : Json
  action : Action σ

/-- A rule, which must have an action. That it is registered is reported, so its selector must be one that can be
shown. -/
def Rule.of {σ : Type} (selector : Json) (action : Option (Action σ)) : Except Failure (Rule σ) :=
  if selector.holdsLong then .error (.fault (.value .longNumber))
  else match action with
    | some action => .ok ⟨selector, action⟩
    | none => .error (.noAction selector)

/-- A filter. -/
structure Filter (σ : Type) where
  rules : List (Rule σ)
  options : Options := {}

/-- How a run ended, and how many visits it took. -/
structure Outcome where
  halted : Bool
  visited : Nat
deriving DecidableEq, Repr, Inhabited

namespace Filter

variable {σ : Type}

/-- The part of the program that reports here. -/
def source : String := "panfilter.filter"

/-- Tries an action on a node. -/
def attempt (text : String) (action : Action σ) (n : NodeId) : Run σ Signal :=
  ExceptT.mk fun c => match (action n).run c with
    | (.error cause, c) =>
      if cause.isReported then (.error cause, c)
      else
        let kind := c.forest.kind n
        let detail := cause.message?.getD ""
        let record : Log.Record :=
          ⟨.error, source, s!"Action for '{text}' failed on {kind.name} node: {detail}"⟩
        (.error (.action text kind cause), c.report record)
    | result => result

/-- Tries rules on a node in order; whether one of them ends the run. -/
def dispatch (n : NodeId) : List (Selector × Rule σ) → Run σ Bool
  | [] => pure false
  | (selector, rule) :: rules => do
    let c ← get
    if ← ofExcept ((selector.selects c.forest c.visits n).mapError .fault) then
      let signal ← attempt selector.text rule.action n
      if signal = .halt || (← get).stopRequested then pure true
      else
        match signal with
        | .other shown =>
          modify (Context.report ⟨.warning, source,
            s!"Ignoring unexpected return value {shown} from action for '{selector.text}'"⟩)
        | _ => pure ()
        dispatch n rules
    else dispatch n rules

/-- Makes a node the present one. -/
def enter (n : NodeId) (history : Array NodeId) : Run σ Unit :=
  modify fun c => { c with current := some n, history := history }

/-- Goes on from a node, if there was one, to the next one, if there is one: the replacement of the present
one, which takes the last place in the list of visits, or what the walk gives. -/
def next (fuel : Nat) (w : Walker) (current : Option NodeId) : Run σ (Option NodeId × Walker) := do
  let c ← get
  match current.filter fun n => (c.forest.replacement? n).isSome with
  | some n =>
    if !c.forest.settles n then throw (.fault .endless)
    else if c.history.isEmpty then throw (.fault .index)
    else do
      let n := c.forest.finalReplacement n
      enter n (c.history.pop.push n)
      pure (some n, w)
  | none => match w.next fuel c.forest with
    | .node n w forest => do
      modify fun c => { c with forest := forest }
      enter n (c.history.push n)
      pure (some n, w)
    | .finished w forest => do
      modify fun c => { c with forest := forest }
      pure (none, w)
    | .exhausted => throw (.fault .endless)

/-- Visits nodes until there are none or a rule ends the run. Actions may add nodes without end, so the
visits are bounded by fuel, as are the steps of the walk between them. -/
def visitAll (rules : List (Selector × Rule σ)) (steps : Nat) :
    (fuel visited : Nat) → Walker → (current : Option NodeId) → Run σ Outcome
  | 0, _, _, _ => throw (.fault .endless)
  | fuel + 1, visited, w, current => do
    match ← next steps w current with
    | (none, _) => pure ⟨false, visited⟩
    | (some n, w) => do
      if ← dispatch n rules then pure ⟨true, visited + 1⟩
      else visitAll rules steps fuel (visited + 1) w (some n)

/-- Compiles the selectors of rules in order, with those in a cache compiled already. -/
def compileWith : Selector.Cache → List (Rule σ) → Except Failure (List (Selector × Rule σ))
  | _, [] => .ok []
  | cache, rule :: rules => do
    let _ ← (cache.contains rule.selector).mapError .fault
    let (selector, cache) ← (cache.get rule.selector).mapError .ofSelector
    let compiled ← compileWith cache rules
    .ok ((selector, rule) :: compiled)

/-- Compiles the selectors of rules in order. -/
def compile (rules : List (Rule σ)) : Except Failure (List (Selector × Rule σ)) :=
  compileWith [] rules

/-- Runs a filter over the document of a context. In the end that document has the metadata under edit. -/
def apply (filter : Filter σ) (fuel : Nat) : Run σ Outcome := do
  match compile filter.rules with
  | .error e => throw e
  | .ok rules => do
    let root := (← get).document
    let outcome ← visitAll rules fuel fuel 0 (.of root) none
    modify (Context.settleMetadata root)
    pure outcome

/-- Writes a document. -/
def write (filter : Filter σ) (root : NodeId) (c : Context σ) : Except Failure String :=
  c.forest.render root filter.options.schemaJson filter.options.style

/-- Runs a filter over the document of a context and writes that document. -/
def transform (filter : Filter σ) (fuel : Nat) : Run σ (Outcome × String) := do
  let root := (← get).document
  let outcome ← filter.apply fuel
  match filter.write root (← get) with
  | .ok text => pure (outcome, text)
  | .error e => throw e

/-- The context in which a document is filtered. -/
def begin (d : Document) (targetFormat : String) (shared : σ) : Context σ :=
  let (root, forest) := Forest.plantDocument {} d
  { forest := forest, document := root, metadataOf := root, targetFormat := targetFormat, shared := shared }

end Filter

end DocFilter
