import DocFilter.Plain.Basic
import DocFilter.Toml.Text

/-!
# TOML tables while they are read

The tables of a document grow statement by statement, and not every statement may touch every table. A
`Draft` holds the entries so far and what has been said about paths into them:

* a *declared* table has had its header, or was passed through by a dotted key under an earlier header,
  and cannot be declared again or be passed through by a dotted key;
* a *frozen* value, an array or an inline table, is finished, and so is all that it holds;
* a *pending* path was passed through by a dotted key and counts as declared from the next header on.
-/

namespace DocFilter.Toml

/-- The entries of a table, in the order of their first mention. -/
abbrev Table := List (Plain × Plain)

namespace Table

/-- Changes the table at a path, making the tables that are missing on the way. A list stands for its
last table if lists may be passed through; any other value blocks the way. -/
def alter (throughLists : Bool) (change : Table → Except Reason Table) :
    Path → Table → Except Reason Table
  | [], table => change table
  | name :: path, table => do
    let write (value : Plain) : Table := Plain.put (.str name) value table
    match Plain.find? name table with
    | none => (alter throughLists change path []).map fun t => write (.map t)
    | some (.map t) => (alter throughLists change path t).map fun t => write (.map t)
    | some (.list items) =>
      match throughLists, items.getLast? with
      | true, some (.map t) =>
        (alter throughLists change path t).map fun t => write (.list (items.dropLast ++ [.map t]))
      | _, _ => .error .overwritten
    | some _ => .error .overwritten

/-- Adds an entry with a new name. -/
def add (name : String) (value : Plain) (ifTaken : Reason) (table : Table) : Except Reason Table :=
  if (Plain.find? name table).isSome then .error ifTaken
  else .ok (table ++ [(.str name, value)])

/-- Adds an empty table to the list with a name, which is made if it is missing. -/
def addItem (name : String) (table : Table) : Except Reason Table :=
  match Plain.find? name table with
  | none => .ok (table ++ [(.str name, .list [.map []])])
  | some (.list items) => .ok (Plain.put (.str name) (.list (items ++ [.map []])) table)
  | some _ => .error .overwritten

end Table

/-- Whether a value is an array or an inline table. -/
def isContainer : Plain → Bool
  | .map _ | .list _ => true
  | _ => false

/-- Whether one of some paths leads to a path or to a value that holds it. -/
def covers (paths : List Path) (path : Path) : Bool := paths.any (·.isPrefixOf path)

/-- A document while it is read. -/
structure Draft where
  entries : Table := []
  declared : List Path := []
  frozen : List Path := []
  pending : List Path := []
deriving Inhabited

namespace Draft

/-- Makes the pending paths count as declared. -/
def settle (d : Draft) : Draft := { d with declared := d.pending ++ d.declared, pending := [] }

/-- Declares a table. -/
def declare (d : Draft) (key : Key) : Except Reason Draft :=
  if d.declared.contains key.path || covers d.frozen key.path then .error (.declaredTwice key.path)
  else (Table.alter true .ok key.path d.entries).map fun entries =>
    { d with entries := entries, declared := key.path :: d.declared }

/-- Adds a table to a list of tables. What was said about paths into the list was about the table
before, and is forgotten. -/
def declareItem (d : Draft) (key : Key) : Except Reason Draft :=
  if covers d.frozen key.path then .error (.immutable key.path)
  else
    let kept (paths : List Path) : List Path := paths.filter fun p => !key.path.isPrefixOf p
    (Table.alter true (Table.addItem key.name) key.parents d.entries).map fun entries =>
      { d with
        entries := entries
        declared := key.path :: kept d.declared
        frozen := kept d.frozen }

/-- The tables that a dotted key passes through. -/
def passed (header : Path) (key : Key) : List Path :=
  (List.range key.parents.length).map fun i => header ++ key.parents.take (i + 1)

/-- Writes a value under a key below a header. -/
def assign (d : Draft) (header : Path) (key : Key) (value : Plain) : Except Reason Draft :=
  match (passed header key).find? d.declared.contains with
  | some path => .error (.redefined path)
  | none =>
    let parent := header ++ key.parents
    if covers d.frozen parent then .error (.immutable parent)
    else
      (Table.alter true (Table.add key.name value .overwritten) parent d.entries).map fun entries =>
        { d with
          entries := entries
          frozen := if isContainer value then (header ++ key.path) :: d.frozen else d.frozen
          pending := passed header key ++ d.pending }

end Draft

/-- An inline table while it is read. -/
structure InlineDraft where
  entries : Table := []
  frozen : List Path := []
deriving Inhabited

/-- Writes a value under a key of an inline table. -/
def InlineDraft.assign (d : InlineDraft) (key : Key) (value : Plain) : Except Reason InlineDraft :=
  if covers d.frozen key.path then .error (.immutable key.path)
  else
    let add := Table.add key.name value (.duplicateKey key.name)
    (Table.alter false add key.parents d.entries).map fun entries =>
      ⟨entries, if isContainer value then key.path :: d.frozen else d.frozen⟩

end DocFilter.Toml
