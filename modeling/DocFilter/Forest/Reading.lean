import DocFilter.Forest.Value

/-!
# Reading nodes under edit

What a node of a forest is as a value: the tree below it, its plain text and markup, its written form,
and for the root of a document the whole document. Each reading looks only at what it needs, so a node
that lies below itself is refused only where the reading gets to it again; as a tree it is no value.
-/

namespace DocFilter.Forest

variable (f : Forest) (n : NodeId)

/-- The tree below a node. -/
def tree : Except Failure Tree := match f.tree? n with
  | some t => .ok t
  | none => .error (.fault .endless)

/-- What a node contributes to the text around it. A value written beside the payload comes before one
of the same name in it. -/
def fragment : Fragment :=
  let again (m : NodeId) : Fragment := ⟨(f.kind m).isInline, .error (.fault .endless)⟩
  f.fold (fun m payload children =>
    .of (f.kind m) (Entries.update payload (Payload.map again (f.cell m).extras)) children) again n

/-- What the children of a node contribute to the text around them. -/
def childFragments : List Fragment := (f.children n).map f.fragment

/-- The plain text of a node. -/
def plainText : Except Failure String := (f.fragment n).text.mapError .plainText

/-- The plain text of the children of a node. -/
def childText : Except Failure String :=
  (Fragment.textOfList (f.childFragments n)).mapError .plainText

/-- The markup of the children of a node. -/
def markup : Except Failure String := (Markup.join (f.childFragments n)).mapError .plainText

/-- The texts of the cells of a row. -/
def rowTexts : Except Failure (List String) :=
  (Markup.rowTexts (f.kind n) ((f.children n).map f.childFragments)).mapError .row

/-- The written form of a node. -/
def written : Written :=
  f.fold (fun m => .of (f.kind m)) (fun m => ⟨f.kind m, .error (.fault .endless)⟩) n

/-- A node as an object. -/
def toJson : Except Failure Json := (f.written n).node.mapError .codec

/-- Gives a document root other metadata. -/
def setMetadata (store : Store) : Forest :=
  f.update n fun c => { c with document := c.document.map fun d => { d with metadata := store } }

/-- Takes away what was written in the place of the metadata. -/
def restoreMetadata : Forest :=
  f.update n fun c => { c with extras := Entries.erase "meta" c.extras }

/-- The metadata of a document root. -/
def requireMetadata : Except Failure Store := match f.metadata? n, f.value n "meta" with
  | some store, _ => .ok store
  | none, .ok _ => .error (.fault .attribute)
  | none, .error e => .error e

/-- A value of a node as plain data; null for one that is none, which is as unfit as any. -/
def data (name : String) : Except Failure Json := do
  match ← f.value n name with
  | .data v => .ok v
  | _ => .ok .null

/-- A document as an object or a pair; an unset schema keeps the document's own. -/
def documentJson (schema : Json) : Except Failure Json := do
  let schema ← if Document.isUnset schema then f.data n "schema" else .ok schema
  let blocks ← (Document.writeBlocks (f.kind n) ((f.children n).map f.written)).mapError .codec
  let store ← f.requireMetadata n
  match store.read? store.root with
  | none => .error (.fault .endless)
  | some metadata => do
    let metadata ← (MetaValue.entriesToJson metadata.entries).mapError .codec
    let version := if Schema.ofJson? schema = some .v2 then f.data n "api_version" else .ok .null
    (Document.layOut schema (← version) (.obj metadata) blocks).mapError .codec

/-- Writes a document as text. The document must be writable before its layout matters. -/
def render (schema : Json) (style : Except Fault Json.Style) : Except Failure String := do
  let json ← f.documentJson n schema
  let style ← style.mapError .fault
  (json.render style).mapError .fault

end DocFilter.Forest
