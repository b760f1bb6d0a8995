import DocFilter.Codec.Tree
import DocFilter.Metadata.Value

/-!
# Metadata as JSON

A metadata value is written as an object with its tag and its contents. Reading drops every value whose
tag is none of the metadata tags, at any depth of maps and lists, and looks at no more of it than the tag, which is
reported.
-/

namespace DocFilter.MetaValue

/-- Reads metadata entries, given how to read one value. -/
def readEntries (read : Json → Except CodecError (Option MetaValue)) :
    List (String × Json) → Except CodecError (List (String × MetaValue))
  | [] => .ok []
  | (key, json) :: rest => do
    let value ← read json
    let entries ← readEntries read rest
    .ok (match value with
      | some value => (key, value) :: entries
      | none => entries)

/-- Reads a metadata map, given how to read one value. -/
def readMap (read : Json → Except CodecError (Option MetaValue)) (json : Json) :
    Except CodecError (List (String × MetaValue)) :=
  match json with
  | .obj entries => readEntries read entries
  | json => malformed (.metaObject json)

/-- Reads metadata items, given how to read one value. -/
def readItems (read : Json → Except CodecError (Option MetaValue)) :
    List Json → Except CodecError (List MetaValue)
  | [] => .ok []
  | json :: rest => do
    let item ← read json
    let items ← readItems read rest
    .ok (item.toList ++ items)

/-- Reads one metadata value, none if its tag is not a metadata tag; the fuel bounds how deep it
nests. -/
def read : (fuel : Nat) → Json → Except CodecError (Option MetaValue)
  | 0, _ => .error (.fault .endless)
  | fuel + 1, json =>
    let contents := (json.get? "c").getD .null
    match json.get? "t" with
    | some (.str "MetaMap") => do
      let entries ← readMap (read fuel) contents
      .ok (some (.map entries))
    | some (.str "MetaList") => match contents with
      | .arr items => do
        let items ← readItems (read fuel) items
        .ok (some (.list items))
      | _ => malformed (.metaContents "MetaList" "a list")
    | some (.str "MetaBool") => match contents with
      | .bool b => .ok (some (.bool b))
      | _ => malformed (.metaContents "MetaBool" "a boolean")
    | some (.str "MetaString") => match contents with
      | .str s => .ok (some (.string s))
      | _ => malformed (.metaContents "MetaString" "a string")
    | some (.str "MetaInlines") => do
      let nodes ← Tree.listOfJson "MetaInlines" .inlines contents
      .ok (some (.inlines nodes))
    | some (.str "MetaBlocks") => do
      let nodes ← Tree.listOfJson "MetaBlocks" .blocks contents
      .ok (some (.blocks nodes))
    | tag => showing (tag.getD .null) (.ok none)

/-- Reads one metadata value from its written form. -/
def ofJson (json : Json) : Except CodecError (Option MetaValue) := read json.depth json

/-- Reads a metadata map from its written form. -/
def mapOfJson (json : Json) : Except CodecError (List (String × MetaValue)) :=
  readMap (read json.depth) json

/-- An object with a tag and contents. -/
def tagged (tag : String) (contents : Json) : Json := .obj [("t", .str tag), ("c", contents)]

/-- Writes a list of named nodes. -/
def writeNodes (nodes : List Tree) : Except CodecError Json := do
  let items ← nodes.mapM Tree.toJson
  .ok (.arr items)

mutual

/-- Writes a metadata value. -/
def toJson : MetaValue → Except CodecError Json
  | map entries => do
    let entries ← entriesToJson entries
    .ok (tagged "MetaMap" (.obj entries))
  | list items => do
    let items ← itemsToJson items
    .ok (tagged "MetaList" (.arr items))
  | bool b => .ok (tagged "MetaBool" (.bool b))
  | string s => .ok (tagged "MetaString" (.str s))
  | inlines nodes => (writeNodes nodes).map (tagged "MetaInlines")
  | blocks nodes => (writeNodes nodes).map (tagged "MetaBlocks")

/-- Writes the items of a list. -/
def itemsToJson : List MetaValue → Except CodecError (List Json)
  | [] => .ok []
  | item :: items => do
    let item ← toJson item
    let items ← itemsToJson items
    .ok (item :: items)

/-- Writes the entries of a map. -/
def entriesToJson : List (String × MetaValue) → Except CodecError (List (String × Json))
  | [] => .ok []
  | (key, value) :: entries => do
    let value ← toJson value
    let entries ← entriesToJson entries
    .ok ((key, value) :: entries)

end

end DocFilter.MetaValue
