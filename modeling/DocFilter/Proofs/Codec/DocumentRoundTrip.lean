import DocFilter.Node.Make
import DocFilter.Proofs.Codec.InOrder
import DocFilter.Proofs.Codec.TreeRoundTrip

/-!
# Reading written documents

A well-formed document can be written in either layout, and reading it gives the same document.  The
layout is the one it was written in.  The version survives in the layout that shows it, the other one
gives the default.  The only thing that reading refuses is a number with too many digits to be shown in a message,
though no message is needed.

* `MetaValue.Over.restored` carries over to metadata what holds of the trees in it.
* `Document.ofJson_toJson` puts the parts together and says exactly what is read.
* `Document.WellFormed.roundTrip` is the main result.
-/

namespace DocFilter

/-! ## Metadata -/

/-- A list of named nodes reads back into the run that it was written from. -/
theorem restored_list {nodes : List Tree} (run : Slot) (context : String)
    (hmembers : ∀ read items, readRun read context run (.arr items) =
      items.mapM (readMember read context run))
    (htag : ∀ t ∈ nodes, t.kind.isTagged) (hrun : ∀ t ∈ nodes, run.admits t.kind)
    (hnodes : ∀ t ∈ nodes, t.Restored) :
    ∃ items, (nodes.map Tree.written).mapM Written.node = .ok items ∧
      Tree.listOfJson context run (.arr items) = showing (.arr items) (.ok (nodes.map Tree.inOrder)) := by
  obtain ⟨items, hwrite, hread⟩ := restored_members hnodes htag
  refine ⟨items, hwrite, ?_⟩
  rw [Tree.listOfJson, hmembers]
  refine hread _ context run ?_ hrun
  rw [Json.depth]
  omega

theorem writeNodes_of_written {nodes : List Tree} {items : List Json}
    (h : (nodes.map Tree.written).mapM Written.node = .ok items) : MetaValue.writeNodes nodes = .ok (.arr items) := by
  have hjson : nodes.mapM Tree.toJson = .ok items := by
    rw [mapM_eq_ok_iff, List.forall₂_map_left_iff] at h
    rw [mapM_eq_ok_iff]
    exact h
  simp [MetaValue.writeNodes, hjson, bind, Except.bind]

namespace MetaValue

/-- Metadata of any nesting over nodes of which something holds: one thing in inline values, another one in
block values. -/
inductive Over (inline block : Tree → Prop) : MetaValue → Prop
  | map {entries : List (String × MetaValue)} (below : ∀ entry ∈ entries, Over inline block entry.2) :
      Over inline block (.map entries)
  | list {items} (below : ∀ item ∈ items, Over inline block item) : Over inline block (.list items)
  | bool (b) : Over inline block (.bool b)
  | string (s) : Over inline block (.string s)
  | inlines {nodes : List Tree} (each : ∀ t ∈ nodes, inline t) : Over inline block (.inlines nodes)
  | blocks {nodes : List Tree} (each : ∀ t ∈ nodes, block t) : Over inline block (.blocks nodes)

section Over

variable {inline block : Tree → Prop}

theorem over_map_iff {entries : List (String × MetaValue)} :
    (map entries).Over inline block ↔ ∀ entry ∈ entries, entry.2.Over inline block :=
  ⟨fun h => by cases h with | map below => exact below, .map⟩

theorem over_list_iff {items : List MetaValue} :
    (list items).Over inline block ↔ ∀ item ∈ items, item.Over inline block :=
  ⟨fun h => by cases h with | list below => exact below, .list⟩

theorem over_inlines_iff {nodes : List Tree} : (inlines nodes).Over inline block ↔ ∀ t ∈ nodes, inline t :=
  ⟨fun h => by cases h with | inlines each => exact each, .inlines⟩

theorem over_blocks_iff {nodes : List Tree} : (blocks nodes).Over inline block ↔ ∀ t ∈ nodes, block t :=
  ⟨fun h => by cases h with | blocks each => exact each, .blocks⟩

theorem Over.mono {inline' block' : Tree → Prop} {m : MetaValue} (h : m.Over inline block)
    (hinline : ∀ t, inline t → inline' t) (hblock : ∀ t, block t → block' t) : m.Over inline' block' := by
  induction h with
  | map _ ih => exact .map ih
  | list _ ih => exact .list ih
  | bool b => exact .bool b
  | string s => exact .string s
  | inlines each => exact .inlines fun t ht => hinline t (each t ht)
  | blocks each => exact .blocks fun t ht => hblock t (each t ht)

end Over

/-- Metadata of any nesting over good trees, with distinct names in each map, inlines in inline values and
blocks in block values. -/
inductive Holds (good : Tree → Prop) : MetaValue → Prop
  | map {entries : List (String × MetaValue)} (keys : (entries.map (·.1)).Nodup)
      (below : ∀ entry ∈ entries, Holds good entry.2) : Holds good (.map entries)
  | list {items} (below : ∀ item ∈ items, Holds good item) : Holds good (.list items)
  | bool (b) : Holds good (.bool b)
  | string (s) : Holds good (.string s)
  | inlines {nodes : List Tree} (inline : ∀ t ∈ nodes, t.kind.isInline) (each : ∀ t ∈ nodes, good t) :
      Holds good (.inlines nodes)
  | blocks {nodes : List Tree} (block : ∀ t ∈ nodes, t.kind.isBlock) (each : ∀ t ∈ nodes, good t) :
      Holds good (.blocks nodes)

theorem Holds.mono {good good' : Tree → Prop} {m : MetaValue} (h : m.Holds good)
    (himp : ∀ t, good t → good' t) : m.Holds good' := by
  induction h with
  | map keys _ ih => exact .map keys ih
  | list _ ih => exact .list ih
  | bool b => exact .bool b
  | string s => exact .string s
  | inlines inline each => exact .inlines inline fun t ht => himp t (each t ht)
  | blocks block each => exact .blocks block fun t ht => himp t (each t ht)

theorem Holds.over {good : Tree → Prop} {m : MetaValue} (h : m.Holds good) :
    m.Over (fun t => t.kind.isInline ∧ good t) fun t => t.kind.isBlock ∧ good t := by
  induction h with
  | map _ _ ih => exact .map ih
  | list _ ih => exact .list ih
  | bool b => exact .bool b
  | string s => exact .string s
  | inlines inline each => exact .inlines fun t ht => ⟨inline t ht, each t ht⟩
  | blocks block each => exact .blocks fun t ht => ⟨block t ht, each t ht⟩

theorem WellFormed.holds {m : MetaValue} (h : m.WellFormed) : m.Holds Tree.WellFormed := by
  induction h with
  | map keys _ ih => exact .map keys ih
  | list _ ih => exact .list ih
  | bool b => exact .bool b
  | string s => exact .string s
  | inlines inline below => exact .inlines inline below
  | blocks block below => exact .blocks block below

/-- A metadata value can be written, and reading it with enough fuel gives it back, exactly if it can be shown. -/
def Restored (m : MetaValue) : Prop :=
  ∃ json, m.toJson = .ok json ∧
    ∀ fuel, json.depth ≤ fuel → read fuel json = showing json (.ok (some m.inOrder))

theorem restored_items {items : List MetaValue} (h : ∀ item ∈ items, item.Restored) :
    ∃ jsons, itemsToJson items = .ok jsons ∧ ∀ fuel, Json.depthItems jsons ≤ fuel →
      readItems (read fuel) jsons = showing (.arr jsons) (.ok (itemsInOrder items)) := by
  induction items with
  | nil => exact ⟨[], rfl, fun _ _ => rfl⟩
  | cons item items ih =>
    obtain ⟨json, hwrite, hread⟩ := h item (by simp)
    obtain ⟨jsons, hwrites, hreads⟩ := ih fun m hm => h m (by simp [hm])
    refine ⟨json :: jsons, by simp [itemsToJson, hwrite, hwrites, bind, Except.bind], ?_⟩
    intro fuel hfuel
    rw [Json.depthItems] at hfuel
    rw [readItems, hread fuel (by omega), hreads fuel (by omega), showing_bind]
    exact (congrArg (showing json) showing_bind).trans (showing_both rfl)

theorem restored_entries {entries : List (String × MetaValue)}
    (h : ∀ entry ∈ entries, entry.2.Restored) :
    ∃ jsons, entriesToJson entries = .ok jsons ∧ ∀ fuel, Json.depthEntries jsons ≤ fuel →
      readEntries (read fuel) jsons = showing (.obj jsons) (.ok (entriesInOrder entries)) := by
  induction entries with
  | nil => exact ⟨[], rfl, fun _ _ => rfl⟩
  | cons entry entries ih =>
    obtain ⟨json, hwrite, hread⟩ := h entry (by simp)
    obtain ⟨jsons, hwrites, hreads⟩ := ih fun m hm => h m (by simp [hm])
    refine ⟨(entry.1, json) :: jsons, ?_, fun fuel hfuel => ?_⟩
    · simp [entriesToJson, hwrite, hwrites, bind, Except.bind]
    · rw [Json.depthEntries] at hfuel
      rw [readEntries, hread fuel (by omega), hreads fuel (by omega), showing_bind]
      exact (congrArg (showing json) showing_bind).trans (showing_both rfl)

@[simp] theorem get?_tag_tagged (tag : String) (contents : Json) :
    (tagged tag contents).get? "t" = some (.str tag) := rfl

@[simp] theorem get?_contents_tagged (tag : String) (contents : Json) :
    (tagged tag contents).get? "c" = some contents := rfl

@[simp] theorem holdsLong_tagged (tag : String) (contents : Json) :
    (tagged tag contents).holdsLong = contents.holdsLong := by
  simp [tagged, Json.holdsLong, Json.entriesHoldLong]

theorem showing_tagged {α : Type} (tag : String) (contents : Json) (result : Except CodecError α) :
    showing (tagged tag contents) result = showing contents result := by
  rw [showing, showing, holdsLong_tagged]

/-- A tagged value is one level deeper than its contents, at least. -/
theorem depth_tagged (tag : String) (contents : Json) :
    contents.depth + 1 ≤ (tagged tag contents).depth := by
  simp only [tagged, Json.depth, Json.depthEntries]
  omega

/-- A tagged value is read with fuel for its contents and one step more. -/
theorem read_tagged {tag : String} {contents : Json} {m : MetaValue}
    (h : ∀ fuel, contents.depth ≤ fuel →
      read (fuel + 1) (tagged tag contents) = showing contents (.ok (some m)))
    (fuel : Nat) (hfuel : (tagged tag contents).depth ≤ fuel) :
    read fuel (tagged tag contents) = showing (tagged tag contents) (.ok (some m)) := by
  have hdepth := depth_tagged tag contents
  obtain ⟨fuel, rfl⟩ : ∃ k, fuel = k + 1 := ⟨fuel - 1, by omega⟩
  rw [showing_tagged]
  exact h fuel (by omega)

/-- Metadata over trees that read back, inlines in inline values and blocks in block values, can be written
and reads back. -/
theorem Over.restored {m : MetaValue}
    (h : m.Over (fun t => t.kind.isInline ∧ t.Restored) fun t => t.kind.isBlock ∧ t.Restored) :
    m.Restored := by
  induction h with
  | map _ ih =>
    obtain ⟨jsons, hwrite, hread⟩ := restored_entries ih
    refine ⟨tagged "MetaMap" (.obj jsons), by simp [toJson, hwrite, bind, Except.bind],
      read_tagged fun fuel hfuel => ?_⟩
    rw [Json.depth] at hfuel
    simp only [read, get?_tag_tagged, get?_contents_tagged, Option.getD_some, readMap, hread fuel (by omega),
      showing_bind]
    rfl
  | list _ ih =>
    obtain ⟨jsons, hwrite, hread⟩ := restored_items ih
    refine ⟨tagged "MetaList" (.arr jsons), by simp [toJson, hwrite, bind, Except.bind],
      read_tagged fun fuel hfuel => ?_⟩
    rw [Json.depth] at hfuel
    simp only [read, get?_tag_tagged, get?_contents_tagged, Option.getD_some, hread fuel (by omega), showing_bind]
    rfl
  | bool b => exact ⟨tagged "MetaBool" (.bool b), rfl, read_tagged fun _ _ => rfl⟩
  | string s => exact ⟨tagged "MetaString" (.str s), rfl, read_tagged fun _ _ => rfl⟩
  | inlines each =>
    obtain ⟨items, hwrite, hread⟩ := restored_list .inlines "MetaInlines" (fun _ _ => rfl)
      (fun t ht => Kind.isTagged_of_isInline (each t ht).1) (fun t ht => (each t ht).1)
      fun t ht => (each t ht).2
    refine ⟨tagged "MetaInlines" (.arr items), by simp [toJson, writeNodes_of_written hwrite, Except.map],
      read_tagged fun fuel _ => ?_⟩
    simp only [read, get?_tag_tagged, get?_contents_tagged, Option.getD_some, hread, showing_bind]
    rfl
  | blocks each =>
    obtain ⟨items, hwrite, hread⟩ := restored_list .blocks "MetaBlocks" (fun _ _ => rfl)
      (fun t ht => Kind.isTagged_of_isBlock (each t ht).1) (fun t ht => (each t ht).1)
      fun t ht => (each t ht).2
    refine ⟨tagged "MetaBlocks" (.arr items), by simp [toJson, writeNodes_of_written hwrite, Except.map],
      read_tagged fun fuel _ => ?_⟩
    simp only [read, get?_tag_tagged, get?_contents_tagged, Option.getD_some, hread, showing_bind]
    rfl

/-- Metadata over trees that read back can be written and reads back. -/
theorem Holds.restored {m : MetaValue} (h : m.Holds Tree.Restored) : m.Restored := h.over.restored

end MetaValue

/-! ## Documents -/

namespace Document

theorem readVersion_ints {version : List Int} (h : version ≠ []) :
    readVersion (.arr (version.map .int)) = showing (.arr (version.map .int)) (.ok version) := by
  cases version with
  | nil => exact absurd rfl h
  | cons n ns =>
    rw [List.map_cons, readVersion, ← List.map_cons, mapM_map_of_inverse]
    exact fun m => rfl

/-- The blocks of a document are written as a run. -/
theorem writeBlocks_eq_writeRun (root : Kind) (blocks : List Written) :
    writeBlocks root blocks = writeRun root .blocks blocks := by
  unfold writeBlocks writeRun
  cases checkRun root .blocks blocks with
  | error e => rfl
  | ok u => cases blocks.mapM Written.node <;> rfl

/-- The parts of a document read back under any version. -/
theorem restored_parts {d : Document} (hblock : ∀ t ∈ d.blocks, t.kind.isBlock)
    (hblocks : ∀ t ∈ d.blocks, t.Restored) (hmetadata : ∀ entry ∈ d.metadata, entry.2.Restored) :
    ∃ blocks entries, writeBlocks .document (d.blocks.map Tree.written) = .ok blocks ∧
      MetaValue.entriesToJson d.metadata = .ok entries ∧ ∀ s version,
        readParts s version (.obj entries) blocks = showing blocks (showing (.obj entries)
          (.ok ⟨d.blocks.map Tree.inOrder, MetaValue.entriesInOrder d.metadata, version, s⟩)) := by
  obtain ⟨items, hwrite, hread⟩ := restored_list .blocks "Document" (fun _ _ => rfl)
    (fun t ht => Kind.isTagged_of_isBlock (hblock t ht)) hblock hblocks
  obtain ⟨entries, hentries, hreadEntries⟩ := MetaValue.restored_entries hmetadata
  refine ⟨.arr items, entries, ?_, hentries, fun s version => ?_⟩
  · have hcheck : checkRun .document .blocks (d.blocks.map Tree.written) = .ok () := checkRun_of_admits hblock
    simp [writeBlocks, hcheck, hwrite, bind, Except.bind]
  · have hmap : MetaValue.mapOfJson (.obj entries) =
        showing (.obj entries) (.ok (MetaValue.entriesInOrder d.metadata)) :=
      hreadEntries _ (by rw [Json.depth]; omega)
    rw [readParts, hread, hmap, showing_bind]
    exact congrArg (showing (.arr items)) showing_bind

/-- A document whose parts read back can be written in either layout, and this is what reading it gives. -/
theorem ofJson_toJson {d : Document} (hblock : ∀ t ∈ d.blocks, t.kind.isBlock)
    (hblocks : ∀ t ∈ d.blocks, t.Restored) (hmetadata : ∀ entry ∈ d.metadata, entry.2.Restored)
    (hversion : d.version ≠ []) (schema : Schema) :
    ∃ json, d.toJson (.str schema.name) = .ok json ∧ ofJson json = showing json (.ok (d.asRead schema)) := by
  obtain ⟨blocks, entries, hwriteBlocks, hentries, hparts⟩ := restored_parts hblock hblocks hmetadata
  have hwrite : d.toJson (.str schema.name) =
      layOut (.str schema.name) (.arr (d.version.map .int)) (.obj entries) blocks := by
    simp only [toJson, hwriteBlocks, hentries, bind, Except.bind]
  cases schema with
  | v1 =>
    refine ⟨.arr [.obj [("unMeta", .obj entries)], blocks], hwrite, (hparts .v1 defaultVersion).trans ?_⟩
    refine showing_both ?_
    simp [Json.holdsLong, Json.itemsHoldLong, Json.entriesHoldLong, Bool.or_comm]
  | v2 =>
    refine ⟨.obj [(versionKey, .arr (d.version.map .int)), ("meta", .obj entries),
      ("blocks", blocks)], hwrite, ?_⟩
    have hbody : (Json.arr [blocks, .obj entries]).holdsLong = (blocks.holdsLong || (Json.obj entries).holdsLong) := by
      simp [Json.holdsLong, Json.itemsHoldLong]
    simp only [ofJson, Entries.find?, List.lookup_cons, versionKey, String.reduceBEq, readVersion_ints hversion,
      showing_bind]
    refine (congrArg _ ((hparts .v2 d.version).trans (showing_both hbody))).trans (showing_both ?_)
    simp [Json.holdsLong, Json.itemsHoldLong, Json.entriesHoldLong, Bool.or_comm]

/-- **Round trip.**  A well-formed document can be written in either layout.  Reading what was written gives the
same document in that layout, with its version if the layout shows it, unless a whole number in it has too many
digits for a message. -/
theorem WellFormed.roundTrip {d : Document} (h : d.WellFormed) (schema : Schema) :
    ∃ json e, d.toJson (.str schema.name) = .ok json ∧
      ofJson json = (if json.holdsLong then .error (.fault (.value .longNumber)) else .ok e) ∧ e.same d ∧
      e.schema = schema ∧ e.version = match schema with
        | .v1 => defaultVersion
        | .v2 => d.version := by
  have hmetadata : ∀ entry ∈ d.metadata, entry.2.Restored := by
    cases h.metadata with
    | map _ below =>
      exact fun entry hentry =>
        ((below entry hentry).holds.mono fun _ => Tree.WellFormed.restored).restored
  obtain ⟨json, hwrite, hread⟩ :=
    ofJson_toJson h.block (fun t ht => (h.blocks t ht).restored) hmetadata h.version schema
  exact ⟨json, d.asRead schema, hwrite, hread, h.same_asRead schema, rfl, rfl⟩

/-- A header with its payload out of order and a citation in it, a table, and nested metadata. -/
def sample : Document where
  blocks :=
    [.node .header [("attr", .attr ⟨"id", ["c"], []⟩), ("level", .data (.int 2))]
      [.word "a", .node .cite
        [("citations", .citations
          [⟨.str "key", [.word "see"], [], "AuthorInText", .int 0, .int 1⟩])] [.word "b"]],
     .node .table
      [("widths", .data (.arr [.float (.zero false)])),
       ("alignments", .data (.arr [.str "AlignLeft"]))]
      [.node .tableCaption [] [.word "d"], .node .tableHeader [] [],
       .node .tableRow [] [.node .tableCell [] []]]]
  metadata := [("m", .list [.inlines [.word "t"], .map [("k", .bool true)]])]
  version := [1, 20]
  schema := .v1

theorem wellFormed_word (text : String) : (Tree.word text).WellFormed := by
  refine .node (.value .nil) ⟨.refl _, ?_⟩ (fun _ h => by cases h) (fun _ h => by cases h)
  intro name codec hslot
  obtain ⟨rfl, rfl⟩ : name = "text" ∧ codec = .text := by
    simpa [Kind.layout, textSlot] using hslot
  exact ⟨_, rfl, .text text⟩

/-- A node of a kind without values, over well-formed children that it admits. -/
theorem wellFormed_bare {kind : Kind} {children : List Tree} (hnames : kind.payloadNames = [])
    (layout : LaidOut kind.layout (children.map Tree.kind))
    (below : ∀ t ∈ children, t.WellFormed) : (Tree.node kind [] children).WellFormed := by
  refine .node layout ⟨by rw [hnames]; exact .nil, ?_⟩ (fun _ h => by cases h) below
  intro name codec hslot
  have hname : name ∈ kind.payloadNames := List.mem_filterMap.mpr ⟨_, hslot, rfl⟩
  rw [hnames] at hname
  cases hname

theorem wellFormed_sample : sample.WellFormed where
  block := by decide
  version := by decide
  metadata := by
    refine .map (by decide) ?_
    simp only [sample, List.forall_mem_cons, List.not_mem_nil, false_implies, implies_true,
      and_true]
    refine .list ?_
    simp only [List.forall_mem_cons, List.not_mem_nil, false_implies, implies_true, and_true]
    refine ⟨.inlines (by decide) ?_, .map (by decide) ?_⟩
    · simpa using wellFormed_word "t"
    · simpa using MetaValue.WellFormed.bool true
  blocks := by
    have hcite : (Tree.node .cite
        [("citations", .citations
          [⟨.str "key", [.word "see"], [], "AuthorInText", .int 0, .int 1⟩])]
        [.word "b"]).WellFormed := by
      refine .node (.value (.run_only rfl (by decide))) ⟨by decide, ?_⟩ ?_ ?_
      · intro name codec hslot
        obtain ⟨rfl, rfl⟩ : name = "citations" ∧ codec = .citations := by
          simpa [Kind.layout] using hslot
        refine ⟨_, rfl, .citations ?_⟩
        simp only [List.forall_mem_cons, List.not_mem_nil, false_implies, implies_true, and_true]
        exact ⟨.str _, by decide, by decide, by decide, .int _, .int _⟩
      · simpa [Payload.nodes, Value.nodes] using wellFormed_word "see"
      · simpa using wellFormed_word "b"
    simp only [sample, List.forall_mem_cons, List.not_mem_nil, false_implies, implies_true,
      and_true]
    refine ⟨.node (.value (.value (.run_only rfl (by decide)))) ⟨by decide, ?_⟩ ?_ ?_,
      .node (.part (.value (.value (.part (.run_only rfl (by decide)))))) ⟨by decide, ?_⟩ ?_ ?_⟩
    · intro name codec hslot
      obtain ⟨rfl, rfl⟩ | ⟨rfl, rfl⟩ :
          name = "level" ∧ codec = .int ∨ name = "attr" ∧ codec = .attr := by
        simpa [Kind.layout, attrSlot] using hslot
      · exact ⟨_, rfl, .int 2⟩
      · exact ⟨_, rfl, .attr _⟩
    · simp [Payload.nodes, Value.nodes]
    · simpa using ⟨wellFormed_word "a", hcite⟩
    · intro name codec hslot
      obtain ⟨rfl, rfl⟩ | ⟨rfl, rfl⟩ : name = "alignments" ∧ codec = .enumList alignments ∨
          name = "widths" ∧ codec = .floatList := by
        simpa [Kind.layout] using hslot
      · exact ⟨_, rfl, @Codec.Yields.enumList _ ["AlignLeft"] (by decide)⟩
      · exact ⟨_, rfl, @Codec.Yields.floatList [.zero false] (by decide)⟩
    · simp [Payload.nodes, Value.nodes]
    · simp only [List.forall_mem_cons, List.not_mem_nil, false_implies, implies_true, and_true]
      refine ⟨wellFormed_bare rfl (.run_only rfl (by decide)) ?_,
        wellFormed_bare rfl (.run_only rfl (by decide)) ?_,
        wellFormed_bare rfl (.run_only rfl (by decide)) ?_⟩
      · simpa using wellFormed_word "d"
      · simp
      · have hcell : (Tree.node .tableCell [] []).WellFormed :=
          wellFormed_bare rfl (.run_only rfl (by decide)) (by simp)
        simpa using hcell

/-- An empty document whose version has a number with more digits than a message takes. -/
def overlong : Document where
  version := [10 ^ 4300]

theorem wellFormed_overlong : overlong.WellFormed where
  block := nofun
  blocks := nofun
  metadata := .map .nil nofun
  version := nofun

theorem roundTrip_sample :
    (sample.WellFormed ∧ ∃ json e, sample.toJson (.str "v2") = .ok json ∧ ofJson json = .ok e ∧ e.same sample ∧
      e.schema = .v2 ∧ e.version = [1, 20]) ∧
    overlong.WellFormed ∧ ∃ json, overlong.toJson (.str "v2") = .ok json ∧
      ofJson json = .error (.fault (.value .longNumber)) := by
  refine ⟨⟨wellFormed_sample, ?_⟩, wellFormed_overlong, ?_⟩
  · obtain ⟨json, e, hwrite, hread, hsame, hschema, hversion⟩ := wellFormed_sample.roundTrip .v2
    have hshort : (sample.toJson (.str "v2")).toOption.any (·.holdsLong) = false := by decide +kernel
    rw [show Schema.name .v2 = "v2" from rfl] at hwrite
    rw [hwrite] at hshort
    exact ⟨json, e, hwrite, hread.trans (if_neg (Bool.eq_false_iff.mp hshort)), hsame, hschema, hversion⟩
  · obtain ⟨json, e, hwrite, hread, -⟩ := wellFormed_overlong.roundTrip .v2
    have hlong : (overlong.toJson (.str "v2")).toOption.any (·.holdsLong) = true := by decide +kernel
    rw [show Schema.name .v2 = "v2" from rfl] at hwrite
    rw [hwrite] at hlong
    exact ⟨json, hwrite, hread.trans (if_pos hlong)⟩

end Document

end DocFilter
