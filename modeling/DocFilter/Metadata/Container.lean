import DocFilter.Metadata.Store

/-!
# Metadata containers

A value taken from a store behaves as the container it is: maps by key, lists by position counted from
either end. What a value cannot do is a fault.
-/

namespace DocFilter.Store

variable (store : Store)

/-- A position in a list of some length, counted from the end if negative. -/
def position? (length : Nat) (index : Int) : Option Nat :=
  let i := if index < 0 then index + length else index
  if 0 ≤ i ∧ i < length then some i.toNat else none

/-- How many entries or items a container has. -/
def size (id : MetaId) : Except Fault Nat := match store.cells[id.index]? with
  | some (.map entries) => .ok entries.length
  | some (.list items) => .ok items.length
  | _ => .error .type

/-- What iterating over a container gives: the keys of a map or the items of a list. -/
def iterate (id : MetaId) : Except Fault (List (MetaKey ⊕ MetaId)) :=
  match store.cells[id.index]? with
  | some (.map entries) => .ok (entries.map (.inl ·.1))
  | some (.list items) => .ok (items.map .inr)
  | _ => .error .type

/-- The entries of a map. -/
def mapEntries (id : MetaId) : Except Fault (Keyed MetaId) := match store.map? id with
  | some entries => .ok entries
  | none => .error .attribute

/-- The key that a value is. -/
def keyOf (value : Json) : Except Fault MetaKey := match MetaKey.ofJson? value with
  | some key => .ok key
  | none => .error .type

/-- The value under a key of a map. -/
def lookup (entries : Keyed MetaId) (key : Json) : Except Fault (Option MetaId) :=
  (keyOf key).map (Keyed.find? · entries)

/-- The entry under a key or the item at a position. -/
def item (id : MetaId) (key : Json) : Except Fault MetaId := match store.cells[id.index]? with
  | some (.map entries) => do
    match ← lookup entries key with
    | some value => .ok value
    | none => .error .key
  | some (.list items) => match key.asInt? with
    | some index => match (position? items.length index).bind (items[·]?) with
      | some value => .ok value
      | none => .error .index
    | none => .error .type
  | _ => .error .type

/-- The entry under a key of a map, if there is one. -/
def entry? (id : MetaId) (key : Json) : Except Fault (Option MetaId) := do
  lookup (← store.mapEntries id) key

/-- Whether a container holds a key; a list holds values only. -/
def contains (id : MetaId) (key : Json) : Except Fault Bool := match store.cells[id.index]? with
  | some (.map entries) => (lookup entries key).map (·.isSome)
  | some (.list _) => .ok false
  | _ => .error .type

/-- Writes an entry of a map. -/
def setItem (id : MetaId) (key : Json) (value : MetaId) : Except Fault Store :=
  match store.map? id with
  | some entries => (keyOf key).map fun key => store.setMap id (Keyed.put key value entries)
  | none => .error .type

/-- Removes an entry of a map. -/
def deleteItem (id : MetaId) (key : Json) : Except Fault Store := match store.map? id with
  | some entries => do
    let key ← keyOf key
    if (Keyed.find? key entries).isSome then .ok (store.setMap id (Keyed.erase key entries))
    else .error .key
  | none => .error .type

end DocFilter.Store
