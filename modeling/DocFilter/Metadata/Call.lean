import DocFilter.Failure
import DocFilter.Metadata.Block
import DocFilter.Metadata.Store

/-!
# Calls on metadata

A call edits the metadata of a store step by step. Where a step stops, the call stops with it, and the
store is as the steps before left it.

* `Given` is what a call is given to put into the metadata: a value that is held already, or plain data,
  of which a text is the text of a metadata block. `Editing.coerce` makes a value of it.
* `Editing.replace`, `Editing.merge`, `Editing.delete`, `Editing.remove` and `Editing.mergeText` are the
  calls, one by one; `MetaCall` is any of them.
-/

namespace DocFilter

/-- What a call is given to put into the metadata. -/
inductive Given where
  /-- A value of the store. -/
  | metadata (id : MetaId)
  /-- Plain data, of which a text is a metadata block. -/
  | plain (value : Plain)
deriving Repr

/-- Steps on a store that may stop. -/
abbrev Editing := ExceptT Failure (StateM Store)

namespace Editing

/-- A result in between, which may be a failure. -/
def ofResult {ε α : Type} (wrap : ε → Failure) (x : Except ε α) : Editing α := ExceptT.mk (pure (x.mapError wrap))

/-- Brings a value into the store. -/
def add (value : MetaValue) : Editing MetaId := modifyGet fun store => store.add value

/-- Changes the entries of a map. -/
def change (id : MetaId) (f : Keyed MetaId → Keyed MetaId) : Editing Unit :=
  modify fun store => store.setMap id (f ((store.map? id).getD []))

/-- The value that is meant. -/
def coerce : Given → Editing MetaId
  | .metadata id => pure id
  | .plain value => do add (← ofResult .codec (MetaValue.ofValue value))

/-- Puts a value at a path, over whatever is there. The root takes over the entries of a map. -/
def replace (path : String) (given : Given) : Editing Unit := do
  let value ← coerce given
  let store ← get
  match ← ofResult .store (store.parent path) with
  | none => match store.map? value with
    | some entries => change store.root fun _ => entries
    | none => throw (.store (.rootNotMap (store.tag value)))
  | some (parent, key) => change parent (Keyed.put (.text key) value)

/-- Puts a value at a path, where a map goes into a map that is there. -/
def merge (path : String) (given : Given) : Editing Unit := do
  let value ← coerce given
  let store ← get
  match (store.get? path).bind fun id => (store.map? id).map (id, ·), store.map? value with
  | some (id, _), some new => change id (Keyed.update · new)
  | _, _ => replace path (.metadata value)

/-- Takes out the value at a path, if there is one. -/
def delete (path : String) : Editing (Option MetaId) := do
  let store ← get
  if path.isEmpty || !store.has path then return none
  match ← ofResult .store (store.parent path) with
  | none => return none
  | some (parent, key) => match (store.map? parent).bind (Keyed.find? (.text key)) with
    | some value => do
      change parent (Keyed.erase (.text key))
      return some value
    | none => throw (.fault .key)

/-- Takes out the value at a path, which must be there. -/
def remove (path : String) : Editing Unit := do
  if (← delete path).isNone then throw (.store (.noKey path))

/-- Writes the entries of a metadata block over those of the root. -/
def mergeText (text : String) : Editing Unit := do
  let value ← add (← ofResult .codec (MetaValue.mapOfBlock text))
  let store ← get
  change store.root (Keyed.update · ((store.map? value).getD []))

end Editing

/-- A call that edits metadata. -/
inductive MetaCall where
  | replace (path : String) (given : Given)
  | merge (path : String) (given : Given)
  | delete (path : String)
  | remove (path : String)
  | mergeText (text : String)
deriving Repr

namespace MetaCall

/-- The steps of a call; the answer of one that takes out a value is the value. -/
def steps : MetaCall → Editing (Option MetaId)
  | replace path given => do
    Editing.replace path given
    return none
  | merge path given => do
    Editing.merge path given
    return none
  | delete path => Editing.delete path
  | remove path => do
    Editing.remove path
    return none
  | mergeText text => do
    Editing.mergeText text
    return none

/-- The answer of a call, and the store that it leaves. -/
def run (call : MetaCall) (store : Store) : Except Failure (Option MetaId) × Store := call.steps.run store

end MetaCall

end DocFilter
