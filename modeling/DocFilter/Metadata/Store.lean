import DocFilter.Metadata.Key
import DocFilter.Metadata.Value
import DocFilter.Text.Blank
import DocFilter.Text.Quoted

/-!
# The metadata store

Metadata under edit. Values live in cells and containers refer to them, so one value may stand in
several places and an edit of it shows in all of them. A path addresses a value by the texts that lead
to it from the root map, joined by dots; the empty path is the root itself.

* `Store.get?`, `Store.has` resolve a path;
* `Store.replace`, `Store.merge`, `Store.delete` edit at a path and never create maps on the way to it;
* `Store.add` brings a value into the store, `Store.read?` takes one out.
-/

namespace DocFilter

/-- The place of a metadata value in a store. -/
structure MetaId where
  index : Nat
deriving DecidableEq, Repr, Inhabited

/-- A metadata value whose parts are referred to. -/
inductive MetaCell where
  | map (entries : Keyed MetaId)
  | list (items : List MetaId)
  | bool (b : Bool)
  | string (s : String)
  | inlines (nodes : List Tree)
  | blocks (nodes : List Tree)
deriving Inhabited

/-- The tag of a value. -/
def MetaCell.tag : MetaCell → String
  | map _ => "MetaMap"
  | list _ => "MetaList"
  | bool _ => "MetaBool"
  | string _ => "MetaString"
  | inlines _ => "MetaInlines"
  | blocks _ => "MetaBlocks"

/-- Metadata under edit: the cells, and the one that holds the root map. -/
structure Store where
  cells : Array MetaCell
  root : MetaId
deriving Inhabited

/-- Why a path cannot be edited or read. -/
inductive StoreError where
  /-- A part of the path leads nowhere. -/
  | missing (part path : String)
  /-- The value before the last key is not a map. -/
  | notMap (parent path : String)
  /-- The root was to become something other than a map. -/
  | rootNotMap (tag : String)
  /-- There is no value to take. -/
  | noKey (key : String)
deriving DecidableEq, Repr, Inhabited

/-- The wording of a store error. -/
def StoreError.message : StoreError → String
  | missing part _ => s!"Metadata path {Text.quoted part} does not exist"
  | notMap parent _ => s!"Metadata value at {Text.quoted parent} is not a map"
  | rootNotMap tag => s!"The metadata root must be a map, got {tag}"
  | noKey key => Text.quoted key

/-- The keys of a path. -/
def pathKeys (path : String) : List String :=
  if path.isEmpty then [] else (Text.splitAt '.' path.toList).map String.ofList

/-- The path through some keys. -/
def pathOf (keys : List String) : String := String.intercalate "." keys

/-! ## Values in and out -/

namespace MetaValue

mutual

/-- Brings a value into the cells. -/
def plant : MetaValue → Array MetaCell → MetaId × Array MetaCell
  | map entries, cells =>
    let (entries, cells) := plantEntries entries cells
    (⟨cells.size⟩, cells.push (.map entries))
  | list items, cells =>
    let (items, cells) := plantItems items cells
    (⟨cells.size⟩, cells.push (.list items))
  | bool b, cells => (⟨cells.size⟩, cells.push (.bool b))
  | string s, cells => (⟨cells.size⟩, cells.push (.string s))
  | inlines nodes, cells => (⟨cells.size⟩, cells.push (.inlines nodes))
  | blocks nodes, cells => (⟨cells.size⟩, cells.push (.blocks nodes))

/-- Brings the items of a list into the cells. -/
def plantItems : List MetaValue → Array MetaCell → List MetaId × Array MetaCell
  | [], cells => ([], cells)
  | item :: items, cells =>
    let (id, cells) := plant item cells
    let (ids, cells) := plantItems items cells
    (id :: ids, cells)

/-- Brings the entries of a map into the cells. -/
def plantEntries : List (String × MetaValue) → Array MetaCell → Keyed MetaId × Array MetaCell
  | [], cells => ([], cells)
  | (key, value) :: entries, cells =>
    let (id, cells) := plant value cells
    let (ids, cells) := plantEntries entries cells
    ((.text key, id) :: ids, cells)

end

end MetaValue

/-- The value in a cell, its keys as they are written; none if following its parts takes more steps than
the fuel allows. -/
def readCell (cells : Array MetaCell) : (fuel : Nat) → MetaId → Option MetaValue
  | 0, _ => none
  | fuel + 1, id => match cells[id.index]? with
    | none => none
    | some (.map entries) => do
      let entries ← entries.mapM fun entry => (readCell cells fuel entry.2).map (entry.1.written, ·)
      some (.map entries)
    | some (.list items) => do
      let items ← items.mapM (readCell cells fuel)
      some (.list items)
    | some (.bool b) => some (.bool b)
    | some (.string s) => some (.string s)
    | some (.inlines nodes) => some (.inlines nodes)
    | some (.blocks nodes) => some (.blocks nodes)

namespace Store

/-- A store over the entries of a map. -/
def ofEntries (entries : List (String × MetaValue)) : Store :=
  let (root, cells) := (MetaValue.map entries).plant #[]
  ⟨cells, root⟩

/-- A store without entries. -/
def empty : Store := ofEntries []

/-- Brings a value into the store, not yet under any path. -/
def add (store : Store) (value : MetaValue) : MetaId × Store :=
  let (id, cells) := value.plant store.cells
  (id, { store with cells := cells })

/-- The value of a cell; none if it is part of itself. A value that is not is at most as deep as there
are cells. -/
def read? (store : Store) (id : MetaId) : Option MetaValue :=
  readCell store.cells (store.cells.size + 1) id

/-- The entries of a cell that holds a map. -/
def map? (store : Store) (id : MetaId) : Option (Keyed MetaId) :=
  match store.cells[id.index]? with
  | some (.map entries) => some entries
  | _ => none

/-- The entries of the root map. -/
def entries (store : Store) : Keyed MetaId := (store.map? store.root).getD []

/-- The tag of a cell. -/
def tag (store : Store) (id : MetaId) : String :=
  (store.cells[id.index]?.map MetaCell.tag).getD ""

/-- Gives a cell that holds a map new entries. -/
def setMap (store : Store) (id : MetaId) (entries : Keyed MetaId) : Store :=
  { store with cells := store.cells.setIfInBounds id.index (.map entries) }

/-! ## Paths -/

/-- Follows keys through maps. -/
def follow (store : Store) : MetaId → List String → Option MetaId
  | id, [] => some id
  | id, key :: keys => do
    let entries ← store.map? id
    let next ← Keyed.find? (.text key) entries
    store.follow next keys

/-- The value at a path. -/
def get? (store : Store) (path : String) : Option MetaId := store.follow store.root (pathKeys path)

/-- Whether there is a value at a path. -/
def has (store : Store) (path : String) : Bool := (store.get? path).isSome

/-- The map that holds the last of some keys; `before` are the keys already followed. -/
def parentFrom (store : Store) (path : String) (before : List String) (id : MetaId) :
    (key : String) → (keys : List String) → Except StoreError (MetaId × String)
  | key, [] =>
    if (store.map? id).isSome then .ok (id, key) else .error (.notMap (pathOf before) path)
  | key, next :: keys =>
    match (store.map? id).bind (Keyed.find? (.text key)) with
    | some child => store.parentFrom path (before ++ [key]) child next keys
    | none => .error (.missing (pathOf (before ++ [key])) path)

/-- The map that holds the last key of a path, and that key; none for the path of the root. -/
def parent (store : Store) (path : String) : Except StoreError (Option (MetaId × String)) :=
  match pathKeys path with
  | [] => .ok none
  | key :: keys => (store.parentFrom path [] store.root key keys).map some

/-! ## Edits -/

/-- Puts a value at a path, over whatever is there. The root takes over the entries of a map. -/
def replace (store : Store) (path : String) (value : MetaId) : Except StoreError Store := do
  match ← store.parent path with
  | none => match store.map? value with
    | some entries => .ok (store.setMap store.root entries)
    | none => .error (.rootNotMap (store.tag value))
  | some (parent, key) =>
    .ok (store.setMap parent (Keyed.put (.text key) value ((store.map? parent).getD [])))

/-- Puts a value at a path, where a map goes into a map that is there: its entries are written over
the present ones, one level deep. -/
def merge (store : Store) (path : String) (value : MetaId) : Except StoreError Store :=
  match (store.get? path).bind fun id => (store.map? id).map (id, ·), store.map? value with
  | some (id, entries), some new => .ok (store.setMap id (Keyed.update entries new))
  | _, _ => store.replace path value

/-- Writes the entries of a map over those of the root. -/
def mergeRoot (store : Store) (value : MetaId) : Store :=
  store.setMap store.root (Keyed.update store.entries ((store.map? value).getD []))

/-- Takes out the value at a path; nothing happens at the root or where there is none. -/
def delete (store : Store) (path : String) : Option MetaId × Store :=
  match store.get? path, store.parent path with
  | some id, .ok (some (parent, key)) =>
    (some id, store.setMap parent (Keyed.erase (.text key) ((store.map? parent).getD [])))
  | _, _ => (none, store)

/-- The value at a path, which must be there. -/
def require (store : Store) (path : String) : Except StoreError MetaId :=
  match store.get? path with
  | some id => .ok id
  | none => .error (.noKey path)

/-- Takes out the value at a path, which must be there. -/
def remove (store : Store) (path : String) : Except StoreError Store :=
  match store.delete path with
  | (some _, store) => .ok store
  | (none, _) => .error (.noKey path)

end Store

end DocFilter
