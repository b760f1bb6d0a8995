import DocFilter.Json.Shown
import DocFilter.Metadata.Store
import DocFilter.Node.Layout

/-!
# Metadata inside messages

The notation in which nodes and metadata values are shown: the name of the type with its fields in
parentheses, lists in brackets and maps in braces. A store may hold a value inside itself, which is cut
short with dots.
-/

namespace DocFilter

/-- A name with fields. -/
def shownRecord (name : String) (fields : List (String × String)) : String :=
  name ++ "(" ++ String.intercalate ", " (fields.map fun f => f.1 ++ "=" ++ f.2) ++ ")"

/-- Texts in brackets. -/
def shownList (items : List String) : String := "[" ++ String.intercalate ", " items ++ "]"

/-- Texts under keys that are already shown, in braces. -/
def shownMap (entries : List (String × String)) : String :=
  "\x7b" ++ String.intercalate ", " (entries.map fun e => e.1 ++ ": " ++ e.2) ++ "\x7d"

/-- A citation whose nodes are already shown. -/
def Citation.shown (c : Citation String) : String :=
  shownRecord "Citation"
    [("id", c.id.shown), ("prefix", shownList c.before), ("suffix", shownList c.after),
     ("mode", Text.quoted c.mode), ("note_num", c.noteNum.shown), ("hash", c.hash.shown)]

/-- A payload value whose nodes are already shown. -/
def Value.shown : Value String → String
  | .data v => v.shown
  | .attr a =>
    let pairs := a.attributes.map fun p => "(" ++ Text.quoted p.1 ++ ", " ++ Text.quoted p.2 ++ ")"
    shownRecord "Attr" [("identifier", Text.quoted a.identifier),
      ("classes", shownList (a.classes.map Text.quoted)), ("attributes", shownList pairs)]
  | .target t => shownRecord "Target" [("url", Text.quoted t.url), ("title", Text.quoted t.title)]
  | .listAttributes l =>
    shownRecord "ListAttributes" [("start", toString l.start), ("style", Text.quoted l.style),
      ("delimiter", Text.quoted l.delimiter)]
  | .citations cs => shownList (cs.map Citation.shown)

/-- A tree as messages show it. -/
def Tree.shown : Tree → String :=
  fold fun kind payload children =>
    shownRecord "Node" [("kind", Text.quoted kind.name), ("children", shownList children),
      ("payload", shownMap (List.map (fun e => (Text.quoted e.1, e.2.shown)) payload))]

namespace Store

/-- A metadata value as messages show it; `path` are the values around it, and the map of the root is
always one of them. -/
def shownWithin (store : Store) : (fuel : Nat) → (path : List MetaId) → MetaId → String
  | 0, _, _ => "..."
  | fuel + 1, path, id =>
    if path.contains id then "..."
    else
      let below := store.shownWithin fuel (id :: path)
      match store.cells[id.index]? with
      | some (.map entries) =>
        let inside :=
          if id = store.root then "\x7b...\x7d"
          else shownMap (entries.map fun e => (e.1.toJson.shown, below e.2))
        shownRecord "MetaMap" [("entries", inside)]
      | some (.list items) => shownRecord "MetaList" [("items", shownList (items.map below))]
      | some (.bool b) => shownRecord "MetaBool" [("value", (Json.bool b).shown)]
      | some (.string s) => shownRecord "MetaString" [("value", Text.quoted s)]
      | some (.inlines nodes) =>
        shownRecord "MetaInlines" [("children", shownList (nodes.map Tree.shown))]
      | some (.blocks nodes) =>
        shownRecord "MetaBlocks" [("children", shownList (nodes.map Tree.shown))]
      | none => ""

/-- A store as messages show it. A path without repetition is no longer than there are cells. -/
def shown (store : Store) : String :=
  let below := store.shownWithin (store.cells.size + 1) []
  "MetadataStore(" ++ shownMap (store.entries.map fun e => (e.1.toJson.shown, below e.2)) ++ ")"

end Store

end DocFilter
