import DocFilter.Node.PlainText
import DocFilter.Node.Same

/-!
# Metadata values

The metadata of a document is a map from names to values: texts and truth values, lists and maps, and
formatted content as nodes. `MetaValue.toPlain` reads a value as plain data, in which formatted content
is its plain text.
-/

namespace DocFilter

/-- A metadata value. -/
inductive MetaValue where
  | map (entries : List (String × MetaValue))
  | list (items : List MetaValue)
  | bool (b : Bool)
  | string (s : String)
  | inlines (nodes : List Tree)
  | blocks (nodes : List Tree)
deriving Inhabited

namespace MetaValue

/-- The tag a value is written with. -/
def tag : MetaValue → String
  | map _ => "MetaMap"
  | list _ => "MetaList"
  | bool _ => "MetaBool"
  | string _ => "MetaString"
  | inlines _ => "MetaInlines"
  | blocks _ => "MetaBlocks"

/-- The entries of a map. -/
def entries : MetaValue → Entries MetaValue
  | map entries => entries
  | _ => []

mutual

/-- A value as plain data. -/
def toPlain : MetaValue → Except PlainTextError Json
  | map entries => do
    let entries ← entriesToPlain entries
    .ok (.obj entries)
  | list items => do
    let items ← itemsToPlain items
    .ok (.arr items)
  | bool b => .ok (.bool b)
  | string s => .ok (.str s)
  | inlines nodes | blocks nodes => (Tree.plainTextOfList nodes).map .str

/-- The items of a list as plain data. -/
def itemsToPlain : List MetaValue → Except PlainTextError (List Json)
  | [] => .ok []
  | item :: items => do
    let item ← toPlain item
    let items ← itemsToPlain items
    .ok (item :: items)

/-- The entries of a map as plain data. -/
def entriesToPlain : List (String × MetaValue) → Except PlainTextError (List (String × Json))
  | [] => .ok []
  | (key, value) :: entries => do
    let value ← toPlain value
    let entries ← entriesToPlain entries
    .ok ((key, value) :: entries)

end

mutual

/-- Equality by value; entries compare without their order. -/
def same : MetaValue → MetaValue → Bool
  | map xs, map ys => xs.length == ys.length && sameEntries xs ys
  | list xs, list ys => sameItems xs ys
  | bool a, bool b => a == b
  | string a, string b => a == b
  | inlines a, inlines b => Tree.sameList a b
  | blocks a, blocks b => Tree.sameList a b
  | _, _ => false

/-- Equality of lists, item by item. -/
def sameItems : List MetaValue → List MetaValue → Bool
  | [], [] => true
  | x :: xs, y :: ys => same x y && sameItems xs ys
  | _, _ => false

/-- Whether each entry has an equal one under its key. -/
def sameEntries : List (String × MetaValue) → List (String × MetaValue) → Bool
  | [], _ => true
  | (key, x) :: rest, ys => (match ys.lookup key with
    | some y => same x y
    | none => false) && sameEntries rest ys

end

end MetaValue

end DocFilter
