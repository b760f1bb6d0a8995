import DocFilter.Proofs.Codec.Shaped
import DocFilter.Proofs.Forest.Content
import DocFilter.Proofs.Forest.Enclosing
import DocFilter.Proofs.Metadata.Planting

/-!
# Documents that were just read

Reading a document brings all its nodes into a forest: the root over the blocks, the nodes at the sides of
citations, and those in the metadata.  What holds of them then is what every edit starts from.

* `Forest.Fresh.render` says that a document that was just read is written as what it was read from.
* `Forest.Shaped` says that each node of a forest fits its layout.  `Forest.shaped_fold` carries it over from
  the trees that are brought in, `Forest.shaped_plantDocument` from a document.
* `Forest.Sound` is the invariant of the nodes under a root: each stands in one place and names its holder,
  its parent is the node around it, and it fits its layout.
* `Document.forest` is a document with all its nodes, and `Document.sound_of_ofJson` is the main result:
  whatever data a document is read from, its nodes are sound and it can be written in either layout.
-/

namespace DocFilter

/-! ## Writing what was just read -/

namespace Forest

variable {f : Forest} {root : NodeId} {d : Document}

theorem Fresh.data_schema (h : f.Fresh root d) : f.data root "schema" = .ok (.str d.schema.name) := by
  have hneighbours : (f.neighbours root).lookup "schema" = none := rfl
  have hlinks : (f.neighbours root ++ f.links root).lookup "schema" = none := rfl
  have hvalue : f.value? root "schema" = some (.data (.str d.schema.name)) := by
    simp [value?, builtIn?, facts, Entries.find?, List.lookup_cons, hlinks, rootValue?, h.document, h.extras]
  simp [data, value, hneighbours, hvalue, bind, Except.bind]

theorem Fresh.data_version (h : f.Fresh root d) :
    f.data root "api_version" = .ok (.arr (d.version.map .int)) := by
  have hneighbours : (f.neighbours root).lookup "api_version" = none := rfl
  have hlinks : (f.neighbours root ++ f.links root).lookup "api_version" = none := rfl
  have hvalue : f.value? root "api_version" = some (.data (.arr (d.version.map .int))) := by
    simp [value?, builtIn?, facts, Entries.find?, List.lookup_cons, hlinks, rootValue?, h.document, h.extras]
  simp [data, value, hneighbours, hvalue, bind, Except.bind]

theorem Fresh.documentJson_of_set (h : f.Fresh root d) {schema : Json}
    (hset : Document.isUnset schema = false) :
    f.documentJson root schema = (d.toJson schema).mapError .codec := by
  have hstore : f.requireMetadata root = .ok (.ofEntries d.metadata) := by
    have hmetadata : f.metadata? root = some (.ofEntries d.metadata) := by
      simp [metadata?, store?, Entries.has, h.extras, h.document]
    rw [requireMetadata, hmetadata]
  rw [Forest.documentJson, hset, h.kind, h.written, hstore, Document.toJson]
  cases hblocks : Document.writeBlocks .document (d.blocks.map Tree.written) with
  | error e => rfl
  | ok blocks =>
    cases hentries : MetaValue.entriesToJson d.metadata with
    | error e =>
      simp [bind, Except.bind, Except.mapError, Store.read?_ofEntries, MetaValue.entries, hentries]
    | ok entries =>
      simp only [bind, Except.bind, Except.mapError, Store.read?_ofEntries, MetaValue.entries, hentries]
      by_cases hlayout : Schema.ofJson? schema = some .v2
      · rw [if_pos hlayout, h.data_version]
        rfl
      · have hversion : ∀ version, Document.layOut schema version (.obj entries) blocks =
            Document.layOut schema .null (.obj entries) blocks := by
          intro version
          unfold Document.layOut
          split
          · rfl
          · exact absurd ‹_› hlayout
          · rfl
        rw [if_neg hlayout, hversion (.arr (d.version.map .int))]
        rfl

theorem restoreMetadata_eq_self {n : NodeId} (h : (f.cell n).extras = []) : f.restoreMetadata n = f := by
  apply update_eq_self
  generalize f.cell n = cell at h ⊢
  cases cell
  cases h
  rfl

/-- A document that was just read is laid out as what it was read from. -/
theorem Fresh.documentJson (h : f.Fresh root d) (schema : Json) :
    f.documentJson root schema =
      (d.toJson (if Document.isUnset schema then .str d.schema.name else schema)).mapError .codec := by
  cases hunset : Document.isUnset schema with
  | false => exact h.documentJson_of_set hunset
  | true =>
    have hown : Document.isUnset (.str d.schema.name) = false := by cases d.schema <;> rfl
    have hsame : f.documentJson root schema = f.documentJson root (.str d.schema.name) := by
      unfold Forest.documentJson
      rw [hunset, hown, h.data_schema]
      rfl
    exact hsame.trans (h.documentJson_of_set hown)

theorem Fresh.render (h : f.Fresh root d) {schema : Json} {style : Except Fault Json.Style} {text : String}
    (hrender : d.render schema style = .ok text) : f.render root schema style = .ok text := by
  obtain ⟨json, hjson, hstyle⟩ := bind_eq_ok_iff.mp hrender
  rw [Forest.render, h.documentJson schema, hjson]
  cases style with
  | error e => cases hstyle
  | ok style =>
    have htext : (json.render style).mapError CodecError.fault = .ok text := hstyle
    show (json.render style).mapError Failure.fault = .ok text
    cases hrendered : json.render style with
    | error e =>
      rw [hrendered] at htext
      cases htext
    | ok written =>
      rw [hrendered] at htext
      cases htext
      rfl

/-- A document that could be written is not, where the layout of the text fails. -/
theorem Fresh.render_of_style (h : f.Fresh root d) {schema json : Json} {style : Except Fault Json.Style}
    {fault : Fault} (hjson : d.toJson (if Document.isUnset schema then .str d.schema.name else schema) = .ok json)
    (hstyle : style = .error fault) : f.render root schema style = .error (.fault fault) := by
  rw [Forest.render, h.documentJson schema, hjson, hstyle]
  rfl

end Forest

/-! ## Nodes that fit their layouts -/

namespace Forest

variable {f f' : Forest} {root n m p : NodeId} {t : Tree} {d : Document}

/-- Each node fits its layout: the children are laid out as its kind asks for, and the payload has the names
of its kind. -/
def Shaped (f : Forest) : Prop := ∀ n, f.Has n →
  LaidOut (f.kind n).layout ((f.children n).map f.kind) ∧
    Entries.keys (f.payload n) = (f.kind n).payloadNames

theorem shaped_empty : ({} : Forest).Shaped := fun _ hn => absurd hn (Nat.not_lt_zero _)

/-- A node that fits its layout can be put on top. -/
theorem Shaped.gather {made : Cell} (h : f.Shaped) (hdescending : f.Descending)
    (hhas : ∀ c ∈ made.children, f.Has c) (layout : LaidOut made.kind.layout (made.children.map f.kind))
    (names : Entries.keys made.payload = made.kind.payloadNames) :
    ((f.add made).2.adoptAll ⟨f.size⟩ made.children).Shaped := by
  have hkind : ∀ {m}, f.Has m →
      ((f.add made).2.adoptAll ⟨f.size⟩ made.children).kind m = f.kind m := fun hm => by
    rw [kind_gather, if_neg (Nat.ne_of_lt hm)]
  intro n hn
  rw [has_adoptAll, has_add] at hn
  rw [kind_gather, payload_gather, children_gather]
  split
  · rw [List.map_congr_left fun c hc => hkind (hhas c hc)]
    exact ⟨layout, names⟩
  · rename_i hnew
    have hold : f.Has n := hn.resolve_right hnew
    rw [List.map_congr_left fun c hc => hkind (((hdescending n).2 c hc).trans hold)]
    exact h n hold

/-- A node is put on top of what was brought in, and fits its layout if the tree that it is read from does. -/
theorem Brought.shaped {made : Cell} {payload : Payload Tree} {children : List Tree}
    (h : f.Brought f' (View.entry.list.pair View.node.list) (made.payload, made.children)
      (Payload.map Tree.written payload, children.map Tree.written))
    (hshaped : f'.Shaped) (layout : LaidOut made.kind.layout (children.map Tree.kind))
    (names : Entries.keys payload = made.kind.payloadNames) :
    ((f'.add made).2.adoptAll ⟨f'.size⟩ made.children).Shaped := by
  obtain ⟨hpayload, hchildren⟩ := Prod.mk.inj h.shows
  have hhas : ∀ c ∈ made.children, f'.Has c := fun c hc =>
    h.has c (List.mem_append_right _ (List.mem_flatMap.mpr ⟨c, hc, List.mem_cons_self⟩))
  refine hshaped.gather h.descending hhas ?_ ?_
  · have hkinds := congrArg (List.map Written.kind) hchildren
    rw [View.list, List.map_map, List.map_map] at hkinds
    have hshown : made.children.map f'.kind = made.children.map (Written.kind ∘ f'.written) :=
      List.map_congr_left fun c hc => (h.descending.kind_written (hhas c hc)).symm
    have hread : children.map (Written.kind ∘ Tree.written) = children.map Tree.kind :=
      List.map_congr_left fun t _ => t.kind_written
    rw [hshown.trans (hkinds.trans hread)]
    exact layout
  · have hkeys := congrArg (List.map Prod.fst) hpayload
    rw [View.list, Payload.map, List.map_map, List.map_map] at hkeys
    exact hkeys.trans names

/-- Nodes that are brought in leave the others before them, and all fit their layouts if all did. -/
theorem lasting_shaped : Lasting fun f f' => f.Descending ∧ f.Shaped → f'.Descending ∧ f'.Shaped where
  refl _ := id
  trans h h' := h' ∘ h

/-- Reading a tree that fits its layouts brings in nodes that do. -/
theorem shaped_fold (h : t.Shaped) :
    Along (fun f f' => f.Descending ∧ f.Shaped → f'.Descending ∧ f'.Shaped) (t.fold (plantNode true)) := by
  induction h with
  | @node kind payload children layout names values inline inside below ihInside ihBelow =>
    rw [Tree.fold_node]
    intro f hf
    have hbrings := (brings_payload fun t (_ : t ∈ Payload.nodes payload) => brings_fold t).both
      (brings_list fun t (_ : t ∈ children) => brings_fold t)
    have hbrought := hbrings f hf.1
    have hshaped := lasting_shaped.bind (lasting_shaped.payload ihInside)
      (fun payload => lasting_shaped.bind (lasting_shaped.list ihBelow)
        fun children => lasting_shaped.pure (payload, children)) f hf
    exact ⟨hbrought.gather.descending, hbrought.shaped hshaped.2 layout names⟩

/-- Reading a document whose trees fit their layouts brings in nodes that do. -/
theorem shaped_plantDocument (h : d.Shaped) :
    (({} : Forest).plantDocument d).2.Descending ∧ (({} : Forest).plantDocument d).2.Shaped := by
  have hblocks := lasting_shaped.mapM (fun t ht => shaped_fold (h.blocks t ht)) {}
    ⟨descending_empty, shaped_empty⟩
  obtain ⟨f, ns, hread, hplant, hbelow⟩ := plantDocument_eq d
  rw [hread] at hblocks
  rw [hplant]
  have layout : LaidOut Kind.document.layout (d.blocks.map Tree.kind) :=
    .run_only rfl (List.forall_mem_map.mpr h.block)
  exact ⟨hbelow.gather.descending, hbelow.shaped hblocks.2 layout rfl⟩

/-- A document that was just read stays as it is when a tree is brought in beside it. -/
theorem Fresh.plant (h : f.Fresh root d) (hf : f.Descending) : (f.plant t).2.Fresh root d := by
  have hplanted := planted_plant (f := f) t
  have hbrought := brings_fold t f hf
  have hlinked := hplanted.linked h.linked
  obtain ⟨hhas, hcell⟩ := hplanted.kept root h.has
  have hchildren : (f.plant t).2.children root = f.children root := hplanted.children_of_has h.has
  refine ⟨hlinked, hlinked.strict hbrought.descending.acyclic hhas,
    fun n => (replacement?_plant t).trans (h.unmarked n), hhas, ?_, ?_, ?_, ?_⟩
  · rw [Forest.kind, hcell]
    exact h.kind
  · rw [hcell]
    exact h.document
  · rw [hcell]
    exact h.extras
  · rw [hchildren, ← h.written]
    exact List.map_congr_left fun n hn => hbrought.keeps.written hf hbrought.descending (h.linked.has hn)

/-! ## Sound documents -/

/-- The invariant of nodes under the root of a document.  Each node below another one stands at one position
of one list and names the node whose list that is.  Each node below the root has as its parent the node around
it, which is a block, an inline or a document.  All nodes fit their layouts. -/
structure Sound (f : Forest) (root : NodeId) : Prop where
  document : f.kind root = .document
  placed : ∀ r n, f.Below r n → n ≠ r → ∃ (p : NodeId) (i : Nat), f.holder? n = some p ∧
    ∀ (q : NodeId) (j : Nat), (f.children q)[j]? = some n ↔ q = p ∧ j = i
  parent : ∀ n, f.Below root n → n ≠ root → ∃ p, f.parent n = .ok (some p) ∧ f.Encloses p n ∧
    ((f.kind p).isBlock ∨ (f.kind p).isInline ∨ f.kind p = .document)
  shaped : f.Shaped

/-- Where links agree with the lists, a node in a list stands at one position. -/
theorem Linked.placed (h : f.Linked) (hn : n ∈ f.children p) : ∃ i : Nat, f.holder? n = some p ∧
    ∀ (q : NodeId) (j : Nat), (f.children q)[j]? = some n ↔ q = p ∧ j = i := by
  obtain ⟨i, hi, hget⟩ := List.getElem_of_mem hn
  refine ⟨i, h.held p n hn, fun q j => ⟨fun hj => ?_, ?_⟩⟩
  · obtain rfl : q = p := h.unique (List.mem_of_getElem? hj) hn
    obtain ⟨hlt, hat⟩ := List.getElem?_eq_some_iff.mp hj
    exact ⟨rfl, ((h.nodup q).getElem_inj_iff).mp (hat.trans hget.symm)⟩
  · rintro ⟨rfl, rfl⟩
    exact List.getElem?_eq_some_iff.mpr ⟨hi, hget⟩

/-- In a linked forest of nodes that fit their layouts, the nodes under the root of a document are sound. -/
theorem Shaped.sound (h : f.Shaped) (hlinked : f.Linked) (hstrict : f.Strict root)
    (hroot : f.kind root = .document) : f.Sound root where
  document := hroot
  placed r n hn hne := by
    obtain ⟨p, -, hp⟩ := hn.eq_or_held.resolve_left hne
    exact ⟨p, hlinked.placed hp⟩
  parent n hn hne := by
    have hrecords : f.Records root fun _ => True := fun q m _ hm _ => ⟨hlinked.held q m hm, trivial⟩
    have hnot : ¬ (f.kind root).isPart := by rw [hroot]; decide
    obtain ⟨p, hp, hencloses⟩ := exists_encloses hnot hn hne
    refine ⟨p, hencloses.parent_eq hstrict hp hrecords trivial, hencloses, ?_⟩
    rcases hp.eq_or_held with rfl | ⟨q, hq, hheld⟩
    · exact .inr (.inr hroot)
    · have hsort := (h q (hstrict.has hq)).1.sorts (f.kind p) (List.mem_map_of_mem hheld)
      rcases hsort with hblock | hinline | hpart
      · exact .inl hblock
      · exact .inr (.inl hinline)
      · exact absurd hpart hencloses.not_part
  shaped := h

end Forest

namespace MetaValue

mutual

/-- The trees in a metadata value, from left to right. -/
def trees : MetaValue → List Tree
  | map entries => entriesTrees entries
  | list items => itemsTrees items
  | bool _ | string _ => []
  | inlines nodes | blocks nodes => nodes

/-- The trees in the items of a list. -/
def itemsTrees : List MetaValue → List Tree
  | [] => []
  | item :: items => trees item ++ itemsTrees items

/-- The trees in the entries of a map. -/
def entriesTrees : List (String × MetaValue) → List Tree
  | [] => []
  | (_, value) :: entries => trees value ++ entriesTrees entries

end

theorem itemsTrees_eq (items : List MetaValue) : itemsTrees items = items.flatMap trees := by
  induction items with
  | nil => rfl
  | cons item items ih => rw [itemsTrees, ih, List.flatMap_cons]

theorem entriesTrees_eq (entries : List (String × MetaValue)) :
    entriesTrees entries = entries.flatMap fun entry => entry.2.trees := by
  induction entries with
  | nil => rfl
  | cons entry entries ih => rw [entriesTrees, ih, List.flatMap_cons]

/-- What holds of the nodes in inline and in block values holds of all trees. -/
theorem Over.forall_trees {good : Tree → Prop} {m : MetaValue} (h : m.Over good good) :
    ∀ t ∈ m.trees, good t := by
  induction h with
  | map _ ih =>
    rw [trees, entriesTrees_eq]
    exact List.forall_mem_flatMap.mpr ih
  | list _ ih =>
    rw [trees, itemsTrees_eq]
    exact List.forall_mem_flatMap.mpr ih
  | bool b | string s => exact nofun
  | inlines each | blocks each => exact each

end MetaValue

namespace Document

open Forest

variable {d : Document}

/-- A document as nodes: its root over the blocks, and beside it the nodes of its metadata. -/
def forest (d : Document) : NodeId × Forest :=
  let (root, f) := ({} : Forest).plantDocument d
  (root, (MetaValue.map d.metadata).trees.foldl (fun f t => (f.plant t).2) f)

/-- The nodes of a document whose trees fit their layouts do so as well. -/
theorem Shaped.forest (h : d.Shaped) : d.forest.2.Fresh d.forest.1 d ∧ d.forest.2.Shaped := by
  have hall : ∀ {ts : List Tree} {f : Forest} {root}, (∀ t ∈ ts, t.Shaped) → f.Fresh root d →
      f.Descending ∧ f.Shaped → (ts.foldl (fun f t => (f.plant t).2) f).Fresh root d ∧
        (ts.foldl (fun f t => (f.plant t).2) f).Shaped := by
    intro ts
    induction ts with
    | nil => exact fun _ hfresh hf => ⟨hfresh, hf.2⟩
    | cons t ts ih =>
      intro f root hts hfresh hf
      obtain ⟨hfirst, hrest⟩ := List.forall_mem_cons.mp hts
      exact ih hrest (hfresh.plant hf.1) (shaped_fold hfirst f hf)
  have htrees : ∀ t ∈ (MetaValue.map d.metadata).trees, t.Shaped :=
    (h.metadata.mono (fun _ => And.right) fun _ => And.right).forall_trees
  exact hall htrees (fresh_plantDocument d) (shaped_plantDocument h)

/-- **Reading is sound.**  Whatever data a document is read from, its nodes are sound, those in its metadata
included, and it can be written in either layout. -/
theorem sound_of_ofJson {json : Json} (h : ofJson json = .ok d) : d.forest.2.Sound d.forest.1 ∧
    ∀ schema : Schema, ∃ data, d.toJson (.str schema.name) = .ok data ∧
      d.forest.2.documentJson d.forest.1 (.str schema.name) = .ok data := by
  have hshaped := shaped_of_ofJson h
  obtain ⟨hfresh, hforest⟩ := hshaped.forest
  refine ⟨hforest.sound hfresh.linked hfresh.strict hfresh.kind, fun schema => ?_⟩
  obtain ⟨data, hdata⟩ := hshaped.toJson schema
  refine ⟨data, hdata, ?_⟩
  have hset : isUnset (.str schema.name) = false := by cases schema <;> rfl
  rw [hfresh.documentJson_of_set hset, hdata]
  rfl

/-- A list of one paragraph with a citation, whose prefix and whose own text are emphasised, and a title. -/
def citedItem : Json :=
  let word (text : String) : Json := .obj [("t", .str "Str"), ("c", .str text)]
  let emphasised (text : String) : Json := .obj [("t", .str "Emph"), ("c", .arr [word text])]
  let citation : Json := .obj [("citationId", .str "key"), ("citationPrefix", .arr [emphasised "see"])]
  let cite : Json := .obj [("t", .str "Cite"), ("c", .arr [.arr [citation], .arr [emphasised "there"]])]
  let para : Json := .obj [("t", .str "Para"), ("c", .arr [cite])]
  .obj [("meta", .obj [("title", .obj [("t", .str "MetaInlines"), ("c", .arr [emphasised "title"])])]),
    ("blocks", .arr [.obj [("t", .str "BulletList"), ("c", .arr [.arr [para]])]])]

/-- The document is read, and its nodes are sound: among others the parent of the paragraph is the list, which
holds it through an item. -/
theorem sound_citedItem : ∃ d, ofJson citedItem = .ok d ∧ d.forest.2.Sound d.forest.1 ∧
    (∀ schema : Schema, ∃ data, d.toJson (.str schema.name) = .ok data ∧
      d.forest.2.documentJson d.forest.1 (.str schema.name) = .ok data) ∧
    d.forest.2.holder? ⟨5⟩ = some ⟨6⟩ ∧ d.forest.2.parent ⟨5⟩ = .ok (some ⟨7⟩) := by
  obtain ⟨d, hread⟩ : ∃ d, ofJson citedItem = .ok d := ⟨_, rfl⟩
  obtain ⟨hsound, hwritten⟩ := sound_of_ofJson hread
  refine ⟨d, hread, hsound, hwritten, ?_⟩
  cases hread
  exact ⟨by decide, rfl⟩

end Document

end DocFilter
