import DocFilter.Proofs.Codec.DocumentRoundTrip
import DocFilter.Proofs.Codec.Sources

/-!
# What is read fits its layout

Reading follows the layouts slot by slot, so whatever data it accepts, it gives nodes that have what their
layouts ask for.  Such nodes can always be written: the writer counts and checks where the reader went step by
step, and finds nothing to refuse.

* `Json.Hereditary` are the properties of data that reading hands on to the data of the nodes below, and
  `Reads` says that a reader gives good trees of the kind that is asked for from data with such a property.
* `Reads.slots` goes through the slots of one node.  What is to hold of their values is left open, so that it
  serves any data here and data that a text can denote elsewhere.
* `Tree.Shaped` are the trees that fit the layouts at every node, and `reads_shaped` is the induction on the
  fuel.
* `Document.shaped_of_ofJson` says that any document that is read is made of such trees,
  `Document.Shaped.toJson` that it can be written in either layout.
-/

namespace DocFilter

/-! ## Data -/

/-- A property that data hands on to its parts, and that the data has which stands in for missing parts. -/
structure Json.Hereditary (legal : Json → Prop) : Prop where
  get? : ∀ {j value : Json} {key : String}, legal j → j.get? key = some value → legal value
  mem : ∀ {items : List Json}, legal (.arr items) → ∀ item ∈ items, legal item
  null : legal .null
  nil : legal (.arr [])

theorem Json.hereditary_true : Json.Hereditary fun _ => True :=
  ⟨fun _ _ => trivial, fun _ _ _ => trivial, trivial, trivial⟩

theorem Json.Hereditary.getD_get? {legal : Json → Prop} (h : Json.Hereditary legal) {j default : Json}
    (hj : legal j) (hdefault : legal default) (key : String) : legal ((j.get? key).getD default) := by
  cases hget : j.get? key with
  | none => exact hdefault
  | some value => exact h.get? hj hget

/-- A reader of contents that gives good trees of the kind that is asked for. -/
structure Reads (legal : Json → Prop) (read : Kind → Json → Except CodecError Tree)
    (good : Tree → Prop) : Prop where
  parts : Json.Hereditary legal
  contents : ∀ {kind json t}, legal json → read kind json = .ok t → t.kind = kind ∧ good t

/-- What reading the slots of a node gives: children that fit the slots, and under the names of the slots, in
their order, values that fit them. -/
structure Kind.Gives (fits : Codec → Value Tree → Prop) (inside below : Tree → Prop) (slots : List Slot)
    (payload : Payload Tree) (children : List Tree) : Prop where
  layout : LaidOut slots (children.map Tree.kind)
  names : Entries.keys payload = slots.filterMap (·.name?)
  values : ∀ name codec, .value name codec ∈ slots →
    ∃ v, Entries.find? name payload = some v ∧ fits codec v
  inside : ∀ t ∈ Payload.nodes payload, inside t
  below : ∀ t ∈ children, below t

section Read

variable {legal : Json → Prop} {read : Kind → Json → Except CodecError Tree} {good inside : Tree → Prop}
  {fits : Codec → Value Tree → Prop} {context name : String} {choices : List String} {json : Json}
  {slot : Slot} {codec : Codec} {v : Value Tree} {t : Tree} {ts : List Tree} {c : Citation Tree}

/-! ## Runs and citations -/

theorem Reads.node (h : Reads legal read good) (hjson : legal json) (hread : readNode read json = .ok t) :
    good t := by
  obtain ⟨-, hread⟩ := showing_eq_ok_iff.mp hread
  split at hread
  · split at hread
    · cases hread
    · split at hread
      · cases hread
      · split at hread
        · rename_i contents hcontents
          exact (h.contents (h.parts.get? hjson hcontents) hread).2
        · split at hread
          · exact (h.contents h.parts.null hread).2
          · cases hread
  · cases hread

theorem Reads.member {run : Slot} (h : Reads legal read good) (hjson : legal json)
    (hread : readMember read context run json = .ok t) : run.admits t.kind ∧ good t := by
  obtain ⟨hnode, hadmits⟩ := readMember_eq_ok_iff.mp hread
  exact ⟨hadmits, h.node hjson hnode⟩

/-- A run gives good trees that it admits. -/
theorem Reads.run (h : Reads legal read good) (hrun : slot.isRun) (hjson : legal json)
    (hread : readRun read context slot json = .ok ts) :
    (∀ t ∈ ts, slot.admits t.kind) ∧ ∀ t ∈ ts, good t := by
  rw [readRun.eq_def] at hread
  split at hread
  · rename_i items
    have hitems := h.parts.mem hjson
    have hall : ∀ t ∈ ts, slot.admits t.kind ∧ good t := by
      split at hread
      · rename_i part
        intro t ht
        obtain ⟨item, hitem, hone⟩ := exists_of_mem_mapM hread t ht
        obtain ⟨hkind, hgood⟩ := h.contents (hitems item hitem) hone
        exact ⟨by simp [Slot.admits, hkind], hgood⟩
      · intro t ht
        obtain ⟨item, hitem, hone⟩ := exists_of_mem_mapM hread t ht
        exact h.member (hitems item hitem) hone
    exact ⟨fun t ht => (hall t ht).1, fun t ht => (hall t ht).2⟩
  · cases hread

/-- The nodes on the two sides of a citation are good inlines. -/
theorem Reads.sides (h : Reads legal read good) (hjson : legal json)
    (hread : readCitation read context json = .ok c) :
    ∀ t ∈ c.before ++ c.after, t.kind.isInline ∧ good t := by
  obtain ⟨-, hbefore, hafter, -, -, -⟩ := readCitation_eq_ok hread
  have hside : ∀ {key ts}, readRun read context .inlines ((json.get? key).getD (.arr [])) = .ok ts →
      ∀ t ∈ ts, t.kind.isInline ∧ good t := fun {key ts} hrun t ht =>
    have hgives := h.run rfl (h.parts.getD_get? hjson h.parts.nil key) hrun
    ⟨hgives.1 t ht, hgives.2 t ht⟩
  exact List.forall_mem_append.mpr ⟨hside hbefore, hside hafter⟩

/-! ## Values -/

/-- The nodes inside a value are good inlines. -/
theorem Reads.value (h : Reads legal read good) (hjson : legal json) (hread : ReadsAs read context codec json v) :
    ∀ t ∈ v.nodes, t.kind.isInline ∧ good t := by
  cases hread with
  | citations each =>
    intro t ht
    obtain ⟨c, hc, ht⟩ := List.mem_flatMap.mp ht
    obtain ⟨item, hitem, hone⟩ := exists_of_mem_right each c hc
    exact h.sides (h.parts.mem hjson item hitem) hone t ht
  | _ => exact nofun

/-! ## Slots -/

theorem Kind.Gives.value {slots : List Slot} {payload : Payload Tree} {children : List Tree}
    (h : Kind.Gives fits inside good slots payload children) (hv : fits codec v)
    (hinside : ∀ t ∈ v.nodes, inside t) (hnew : name ∉ slots.filterMap (·.name?)) :
    Kind.Gives fits inside good (.value name codec :: slots) ((name, v) :: payload) children where
  layout := .value h.layout
  names := by
    rw [Entries.keys, List.map_cons, List.filterMap_cons]
    exact congrArg (name :: ·) h.names
  values := by
    intro other codec' hslot
    rcases List.mem_cons.mp hslot with heq | hslot
    · cases heq
      exact ⟨v, List.lookup_cons_self, hv⟩
    · have hother : other ∈ slots.filterMap (·.name?) := List.mem_filterMap.mpr ⟨_, hslot, rfl⟩
      have hne : (other == name) = false := by
        rw [beq_eq_false_iff_ne]
        rintro rfl
        exact hnew hother
      obtain ⟨w, hfind, hw⟩ := h.values other codec' hslot
      exact ⟨w, by rw [Entries.find?, List.lookup_cons, hne]; exact hfind, hw⟩
  inside := by
    intro t ht
    rw [Payload.nodes, List.flatMap_cons] at ht
    exact (List.mem_append.mp ht).elim (hinside t) (h.inside t)
  below := h.below

/-- The slots of a node are read as what its kind gives. -/
theorem Reads.slots {kind : Kind} {slots : List Slot} {fields : List Json} {payload : Payload Tree}
    {children : List Tree} (h : Reads legal read good)
    (hvalue : ∀ {codec json v}, legal json → ReadsAs read kind.name codec json v →
      fits codec v ∧ ∀ t ∈ v.nodes, inside t)
    (hnames : (slots.filterMap (·.name?)).Nodup) (hfields : ∀ field ∈ fields, legal field)
    (hread : ReadsOff read kind slots fields payload children) :
    Kind.Gives fits inside good slots payload children := by
  induction hread with
  | nil => exact ⟨.nil, rfl, nofun, nofun, nofun⟩
  | value here _ ih =>
    obtain ⟨hfield, hrest⟩ := List.forall_mem_cons.mp hfields
    obtain ⟨hnew, hnames⟩ := List.nodup_cons.mp hnames
    obtain ⟨hfits, hinside⟩ := hvalue hfield here
    exact (ih hnames hrest).value hfits hinside hnew
  | part here _ ih =>
    obtain ⟨hfield, hrest⟩ := List.forall_mem_cons.mp hfields
    obtain ⟨rfl, hgood⟩ := h.contents hfield here
    have hgives := ih hnames hrest
    refine ⟨.part hgives.layout, hgives.names, fun name codec hslot => ?_, hgives.inside,
      List.forall_mem_cons.mpr ⟨hgood, hgives.below⟩⟩
    exact hgives.values name codec ((List.mem_cons.mp hslot).resolve_left nofun)
  | run hrun here _ ih =>
    obtain ⟨hfield, hrest⟩ := List.forall_mem_cons.mp hfields
    have hname := Slot.name?_of_isRun hrun
    rw [List.filterMap_cons_none hname] at hnames
    obtain ⟨hadmits, hgood⟩ := h.run hrun hfield here
    have hgives := ih hnames hrest
    refine ⟨?_, by rw [hgives.names, List.filterMap_cons_none hname], fun name codec hslot => ?_,
      hgives.inside, List.forall_mem_append.mpr ⟨hgood, hgives.below⟩⟩
    · rw [List.map_append]
      exact .run hrun (List.forall_mem_map.mpr hadmits) hgives.layout
    · refine hgives.values name codec ((List.mem_cons.mp hslot).resolve_left ?_)
      rintro rfl
      cases hrun

theorem contentFields_legal {kind : Kind} {fields : List Json} (hlegal : Json.Hereditary legal)
    (hjson : legal json) (h : contentFields kind json = .ok fields) : ∀ field ∈ fields, legal field := by
  rw [contentFields] at h
  split at h
  · cases h
    exact List.forall_mem_nil _
  · cases h
    exact List.forall_mem_singleton.mpr hjson
  · obtain ⟨-, h⟩ := showing_eq_ok_iff.mp h
    split at h
    · split at h
      · cases h
        exact hlegal.mem hjson
      · cases h
    · cases h

/-- A reader of contents is good for one level more if what the slots of a node give makes a good tree. -/
theorem Reads.succ {fuel : Nat} (h : Reads legal (readContents fuel) good)
    (hvalue : ∀ {context codec json v}, legal json → ReadsAs (readContents fuel) context codec json v →
      fits codec v ∧ ∀ t ∈ v.nodes, inside t)
    (hnode : ∀ {kind payload children}, Kind.Gives fits inside good kind.layout payload children →
      good (.node kind payload children)) : Reads legal (readContents (fuel + 1)) good where
  parts := h.parts
  contents := by
    intro kind json t hjson hread
    obtain ⟨fields, payload, children, rfl, hfields, hslots⟩ := readContents_eq_ok hread
    have hlegal := contentFields_legal h.parts hjson hfields
    exact ⟨rfl, hnode (h.slots hvalue kind.nodup_payloadNames hlegal hslots)⟩

end Read

/-! ## Trees -/

/-- A tree that fits its layouts: at every node, those inside citations included, the children are laid out as
the kind asks for, and the payload has its names, in their order, with values of the right sort and inlines
inside. -/
inductive Tree.Shaped : Tree → Prop
  | node {kind payload children} (layout : LaidOut kind.layout (children.map Tree.kind))
      (names : Entries.keys payload = kind.payloadNames)
      (values : ∀ name codec, .value name codec ∈ kind.layout →
        ∃ v, Entries.find? name payload = some v ∧ codec.Takes v)
      (inline : ∀ t ∈ Payload.nodes payload, t.kind.isInline)
      (inside : ∀ t ∈ Payload.nodes payload, Shaped t) (below : ∀ t ∈ children, Shaped t) :
      Shaped (.node kind payload children)

/-- Whatever contents are read, they give a tree that fits its layouts. -/
theorem reads_shaped (fuel : Nat) : Reads (fun _ => True) (readContents fuel) Tree.Shaped := by
  induction fuel with
  | zero => exact ⟨Json.hereditary_true, fun _ hread => by cases hread⟩
  | succ fuel ih =>
    refine ih.succ (fun hjson hread => ⟨hread.takes, ih.value hjson hread⟩) fun hgives => ?_
    exact .node hgives.layout hgives.names hgives.values (fun t ht => (hgives.inside t ht).1)
      (fun t ht => (hgives.inside t ht).2) hgives.below

theorem Tree.Shaped.restored {t : Tree} (h : t.Shaped) : t.Restored := by
  induction h with
  | node layout names values inline inside below ihInside ihBelow =>
    refine .of_laidOut layout (fun name codec hslot => ?_) ihBelow
    obtain ⟨v, hfind, htakes⟩ := values name codec hslot
    have hnodes := nodes_of_find? hfind
    exact ⟨v, hfind, htakes.restored (fun t ht => inline t (hnodes t ht))
      fun t ht => ihInside t (hnodes t ht)⟩

/-! ## Metadata -/

namespace MetaValue

section Read

variable {legal : Json → Prop} {good : Tree → Prop} {read : Json → Except CodecError (Option MetaValue)}

/-- Each entry that is kept was read under its name. -/
theorem exists_of_mem_readEntries {jsons : List (String × Json)} {entries : List (String × MetaValue)}
    (hread : readEntries read jsons = .ok entries) :
    ∀ entry ∈ entries, ∃ json, (entry.1, json) ∈ jsons ∧ read json = .ok (some entry.2) := by
  induction jsons generalizing entries with
  | nil =>
    cases hread
    exact nofun
  | cons first jsons ih =>
    obtain ⟨key, json⟩ := first
    obtain ⟨value, hvalue, hread⟩ := bind_eq_ok_iff.mp hread
    obtain ⟨rest, hrest, heq⟩ := bind_eq_ok_iff.mp hread
    have hlater : ∀ entry ∈ rest, ∃ json', (entry.1, json') ∈ (key, json) :: jsons ∧
        read json' = .ok (some entry.2) := fun entry hentry =>
      let ⟨json', hmem, hjson⟩ := ih hrest entry hentry
      ⟨json', List.mem_cons_of_mem _ hmem, hjson⟩
    cases value with
    | none =>
      cases heq
      exact hlater
    | some m =>
      cases heq
      exact List.forall_mem_cons.mpr ⟨⟨json, List.mem_cons_self, hvalue⟩, hlater⟩

/-- Each item that is kept was read. -/
theorem exists_of_mem_readItems {jsons : List Json} {items : List MetaValue}
    (hread : readItems read jsons = .ok items) :
    ∀ item ∈ items, ∃ json ∈ jsons, read json = .ok (some item) := by
  induction jsons generalizing items with
  | nil =>
    cases hread
    exact nofun
  | cons json jsons ih =>
    obtain ⟨value, hvalue, hread⟩ := bind_eq_ok_iff.mp hread
    obtain ⟨rest, hrest, heq⟩ := bind_eq_ok_iff.mp hread
    cases heq
    have hlater : ∀ item ∈ rest, ∃ json' ∈ json :: jsons, read json' = .ok (some item) := fun item hitem =>
      let ⟨json', hmem, hjson⟩ := ih hrest item hitem
      ⟨json', List.mem_cons_of_mem _ hmem, hjson⟩
    cases value with
    | none => exact hlater
    | some m => exact List.forall_mem_cons.mpr ⟨⟨json, List.mem_cons_self, hvalue⟩, hlater⟩

end Read

/-- Metadata with inlines in inline values and blocks in block values, which fit their layouts. -/
def Shaped (m : MetaValue) : Prop :=
  m.Over (fun t => t.kind.isInline ∧ t.Shaped) fun t => t.kind.isBlock ∧ t.Shaped

theorem Shaped.restored {m : MetaValue} (h : m.Shaped) : m.Restored :=
  (h.mono (fun _ => And.imp_right Tree.Shaped.restored) fun _ => And.imp_right Tree.Shaped.restored).restored

theorem shaped_readMap {read : Json → Except CodecError (Option MetaValue)} {json : Json}
    {entries : List (String × MetaValue)} (h : ∀ json m, read json = .ok (some m) → m.Shaped)
    (hread : readMap read json = .ok entries) : (map entries).Shaped := by
  cases json with
  | obj jsons =>
    refine .map fun entry hentry => ?_
    obtain ⟨json, -, hjson⟩ := exists_of_mem_readEntries hread entry hentry
    exact h json entry.2 hjson
  | _ => cases hread

/-- What holds of the nodes that are read as runs holds of the nodes in the metadata that is read. -/
theorem over_read {good : Tree → Prop} (hnodes : ∀ {run context items nodes}, run = .inlines ∨ run = .blocks →
      Tree.listOfJson context run (.arr items) = .ok nodes → ∀ t ∈ nodes, run.admits t.kind ∧ good t)
    (fuel : Nat) {json : Json} {m : MetaValue} (hread : read fuel json = .ok (some m)) :
    m.Over (fun t => t.kind.isInline ∧ good t) fun t => t.kind.isBlock ∧ good t := by
  induction fuel generalizing json m with
  | zero => cases hread
  | succ fuel ih =>
    cases sourceOf_of_read hread with
    | map _ _ below =>
      refine .map fun entry hentry => ?_
      obtain ⟨json, -, hjson⟩ := exists_of_mem_readEntries below entry hentry
      exact ih hjson
    | list _ _ below =>
      refine .list fun item hitem => ?_
      obtain ⟨json, -, hjson⟩ := exists_of_mem_readItems below item hitem
      exact ih hjson
    | bool _ _ => exact .bool _
    | string _ _ => exact .string _
    | inlines _ _ below => exact .inlines (hnodes (.inl rfl) below)
    | blocks _ _ below => exact .blocks (hnodes (.inr rfl) below)

/-- Whatever metadata is read, its trees fit their layouts. -/
theorem shaped_read (fuel : Nat) {json : Json} {m : MetaValue} (hread : read fuel json = .ok (some m)) :
    m.Shaped := by
  refine over_read (fun hrun hnodes t ht => ?_) fuel hread
  obtain ⟨hadmits, hshaped⟩ := (reads_shaped _).run (by rcases hrun with rfl | rfl <;> rfl) trivial hnodes
  exact ⟨hadmits t ht, hshaped t ht⟩

end MetaValue

/-! ## Documents -/

namespace Document

variable {d : Document} {json : Json}

/-- A document of blocks that fit their layouts, with metadata over trees that do. -/
structure Shaped (d : Document) : Prop where
  block : ∀ t ∈ d.blocks, t.kind.isBlock
  blocks : ∀ t ∈ d.blocks, t.Shaped
  metadata : (MetaValue.map d.metadata).Shaped
  version : d.version ≠ []

theorem ne_nil_of_readVersion {version : List Int} (h : readVersion json = .ok version) : version ≠ [] := by
  obtain ⟨-, h⟩ := showing_eq_ok_iff.mp h
  split at h
  · split at h
    · rename_i ns hns
      cases h
      rintro rfl
      rw [List.mapM_cons] at hns
      obtain ⟨n, -, hns⟩ := Option.bind_eq_some_iff.mp hns
      obtain ⟨ns, -, hns⟩ := Option.bind_eq_some_iff.mp hns
      cases hns
    · cases h
  · cases h

/-- What a document is read from: in either layout, its metadata and its blocks, with a version that is shown
or the default. -/
theorem parts_of_ofJson (h : ofJson json = .ok d) : ∃ schema version metadata blocks,
    readParts schema version metadata blocks = .ok d ∧
      (version = defaultVersion ∨
        ∃ shown, json.get? versionKey = some shown ∧ readVersion shown = .ok version) ∧
      ∀ legal, Json.Hereditary legal → legal json → legal metadata ∧ legal blocks := by
  rw [ofJson.eq_def] at h
  split at h
  · split at h
    · cases h
    · cases h
    · rename_i metadata blocks hmetadata hblocks
      dsimp only at h
      split at h
      · rename_i shown hshown
        obtain ⟨version, hversion, h⟩ := bind_eq_ok_iff.mp h
        exact ⟨_, version, metadata, blocks, h, .inr ⟨shown, hshown, hversion⟩,
          fun legal hlegal hjson => ⟨hlegal.get? hjson hmetadata, hlegal.get? hjson hblocks⟩⟩
      · exact ⟨_, _, metadata, blocks, h, .inl rfl,
          fun legal hlegal hjson => ⟨hlegal.get? hjson hmetadata, hlegal.get? hjson hblocks⟩⟩
  · rename_i head blocks
    split at h
    · rename_i metadata hmetadata
      exact ⟨_, _, metadata, blocks, h, .inl rfl, fun legal hlegal hjson =>
        ⟨hlegal.get? (hlegal.mem hjson head (by simp)) hmetadata, hlegal.mem hjson blocks (by simp)⟩⟩
    · cases h
  · cases h

/-- Whatever data a document is read from, its trees fit their layouts. -/
theorem shaped_of_ofJson (h : ofJson json = .ok d) : d.Shaped := by
  obtain ⟨schema, version, metadata, blocks, hparts, hversion, -⟩ := parts_of_ofJson h
  obtain ⟨trees, htrees, hparts⟩ := bind_eq_ok_iff.mp hparts
  obtain ⟨entries, hentries, hparts⟩ := bind_eq_ok_iff.mp hparts
  cases hparts
  obtain ⟨hadmits, hshaped⟩ := (reads_shaped _).run rfl trivial htrees
  refine ⟨hadmits, hshaped, MetaValue.shaped_readMap (fun _ _ => MetaValue.shaped_read _) hentries, ?_⟩
  rcases hversion with rfl | ⟨shown, -, hshown⟩
  · show defaultVersion ≠ []
    decide
  · exact ne_nil_of_readVersion hshown

/-- A document whose trees fit their layouts can be written in either layout. -/
theorem Shaped.toJson (h : d.Shaped) (schema : Schema) : ∃ data, d.toJson (.str schema.name) = .ok data := by
  have hmetadata : ∀ entry ∈ d.metadata, entry.2.Restored := fun entry hentry =>
    MetaValue.Shaped.restored (MetaValue.over_map_iff.mp h.metadata entry hentry)
  obtain ⟨data, hwrite, -⟩ :=
    ofJson_toJson h.block (fun t ht => (h.blocks t ht).restored) hmetadata h.version schema
  exact ⟨data, hwrite⟩

end Document

end DocFilter
