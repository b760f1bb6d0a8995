import DocFilter.Codec.Document

/-!
# Well-formed documents

What a document must be so that it can be written and read back as the same document.

* `LaidOut` says that kinds stand one after the other as the slots of a layout ask for them.  It does
  not count places as the writer does.
* `Codec.Yields` says that a payload value is one that reading its slot can give, `Codec.Takes` that it is of
  the same sort.
* `Tree.WellFormed`, `MetaValue.WellFormed` and `Document.WellFormed` put the two together at every
  node, the nodes inside citations and inside metadata included.

Payloads are looked up by name, so the order of their entries is free.  Reading gives them in the order
of the slots: `Tree.inOrder` is the tree with its payloads in that order.
-/

namespace DocFilter

/-! ## Layouts -/

namespace Slot

variable {slot : Slot}

/-- A slot takes a run, or it takes a value or a part. -/
theorem run_or (slot : Slot) :
    slot.isRun ∨ (∃ name codec, slot = .value name codec) ∨ ∃ kind, slot = .part kind := by
  cases slot with
  | value name codec => exact .inr (.inl ⟨name, codec, rfl⟩)
  | part kind => exact .inr (.inr ⟨kind, rfl⟩)
  | inlines | blocks | parts kind => exact .inl rfl

theorem isPart_of_isRun (hrun : slot.isRun) : slot.isPart = false := by
  cases slot <;> first | rfl | cases hrun

theorem name?_of_isRun (hrun : slot.isRun) : slot.name? = none := by
  cases slot <;> first | rfl | cases hrun

end Slot

/-- Kinds of children that fill the child slots of a layout from left to right. -/
inductive LaidOut : List Slot → List Kind → Prop
  | nil : LaidOut [] []
  | value {name codec slots kinds} (rest : LaidOut slots kinds) :
      LaidOut (.value name codec :: slots) kinds
  | part {kind slots kinds} (rest : LaidOut slots kinds) :
      LaidOut (.part kind :: slots) (kind :: kinds)
  | run {slot slots run kinds} (hrun : slot.isRun) (admitted : ∀ k ∈ run, slot.admits k)
      (rest : LaidOut slots kinds) : LaidOut (slot :: slots) (run ++ kinds)

/-- A run alone admits any number of children. -/
theorem LaidOut.run_only {slot : Slot} {kinds : List Kind} (hrun : slot.isRun)
    (admitted : ∀ k ∈ kinds, slot.admits k) : LaidOut [slot] kinds := by
  simpa using LaidOut.run hrun admitted .nil

/-- Without a run there is one child for each part. -/
theorem LaidOut.length_of_no_run {slots : List Slot} {kinds : List Kind} (h : LaidOut slots kinds)
    (hno : slots.countP (·.isRun) = 0) : kinds.length = slots.countP (·.isPart) := by
  induction h with
  | nil => rfl
  | value _ ih => exact ih (by simpa [Slot.isRun] using hno)
  | part _ ih =>
    have := ih (by simpa [Slot.isRun] using hno)
    simp [Slot.isPart, this]
  | run hrun _ _ _ => simp [hrun] at hno

/-- No layout has two runs. -/
theorem Kind.countP_isRun_layout (kind : Kind) : kind.layout.countP (·.isRun) ≤ 1 := by
  cases kind <;> simp [Kind.layout, Slot.isRun, attrSlot, textSlot, formatSlot]

/-- No two values of a kind share a name. -/
theorem Kind.nodup_payloadNames (kind : Kind) : kind.payloadNames.Nodup := by
  cases kind with
  | other name => exact List.nodup_nil
  | _ => decide

/-- A part never stands alone in a layout. -/
theorem Kind.layout_ne_part (kind part : Kind) : kind.layout ≠ [.part part] := by
  cases kind <;> simp [Kind.layout, attrSlot, textSlot, formatSlot]

/-- The parts in a layout are no blocks or inlines. -/
theorem Kind.not_isTagged_of_part {kind part : Kind} (h : .part part ∈ kind.layout ∨ .parts part ∈ kind.layout) :
    part.isTagged = false := by
  have hall : kind.layout.all (fun | .part part | .parts part => !part.isTagged | _ => true) := by
    cases kind <;> rfl
  rcases h with h | h <;> simpa using List.all_eq_true.mp hall _ h

/-- What a layout takes are blocks, inlines and parts. -/
theorem LaidOut.sorts {kind : Kind} {kinds : List Kind} (h : LaidOut kind.layout kinds) :
    ∀ k ∈ kinds, k.isBlock ∨ k.isInline ∨ k.isPart := by
  have hpart : ∀ part, .part part ∈ kind.layout ∨ .parts part ∈ kind.layout → part.isPart := by
    have hall : kind.layout.all (fun | .part p | .parts p => p.isPart | _ => true) := by
      cases kind <;> rfl
    rintro part (h | h) <;> simpa using List.all_eq_true.mp hall _ h
  have hslots : ∀ slot ∈ kind.layout, ∀ k, slot.admits k → k.isBlock ∨ k.isInline ∨ k.isPart := by
    intro slot hslot k hadmits
    cases slot with
    | value name codec => cases hadmits
    | inlines => exact .inr (.inl hadmits)
    | blocks => exact .inl hadmits
    | parts part =>
      obtain rfl : k = part := by simpa [Slot.admits] using hadmits
      exact .inr (.inr (hpart k (.inr hslot)))
    | part part =>
      obtain rfl : k = part := by simpa [Slot.admits] using hadmits
      exact .inr (.inr (hpart k (.inl hslot)))
  generalize kind.layout = slots at h hslots
  clear hpart
  induction h with
  | nil => exact nofun
  | value _ ih => exact ih fun slot hslot => hslots slot (List.mem_cons_of_mem _ hslot)
  | @part part _ _ _ ih =>
    refine List.forall_mem_cons.mpr ⟨hslots (.part part) List.mem_cons_self part (by simp [Slot.admits]), ?_⟩
    exact ih fun slot hslot => hslots slot (List.mem_cons_of_mem _ hslot)
  | run _ admitted _ ih =>
    refine List.forall_mem_append.mpr ⟨fun k hk => hslots _ List.mem_cons_self k (admitted k hk), ?_⟩
    exact ih fun slot hslot => hslots slot (List.mem_cons_of_mem _ hslot)

/-! ## Values -/

/-- No object in the data has two entries under one key. -/
inductive Json.Distinct : Json → Prop
  | null : Distinct .null
  | bool (b) : Distinct (.bool b)
  | int (n) : Distinct (.int n)
  | float (d) : Distinct (.float d)
  | str (s) : Distinct (.str s)
  | arr {items} (below : ∀ item ∈ items, Distinct item) : Distinct (.arr items)
  | obj {entries : List (String × Json)} (keys : (entries.map (·.1)).Nodup)
      (below : ∀ entry ∈ entries, Distinct entry.2) : Distinct (.obj entries)

/-- A citation that reading can give: a known mode, inlines on both sides, and data as it is parsed. -/
structure Citation.WellFormed (c : Citation Tree) : Prop where
  id : c.id.Distinct
  before : ∀ t ∈ c.before, t.kind.isInline
  after : ∀ t ∈ c.after, t.kind.isInline
  mode : c.mode ∈ citationModes
  noteNum : c.noteNum.Distinct
  hash : c.hash.Distinct

/-- The values that reading a slot can give. -/
inductive Codec.Yields : Codec → Value Tree → Prop
  | int (n) : Yields .int (.data (.int n))
  | text (s) : Yields .text (.data (.str s))
  | attr (a) : Yields .attr (.attr a)
  | target (t) : Yields .target (.target t)
  | listAttributes {l : ListAttributes} (style : l.style ∈ listStyles)
      (delimiter : l.delimiter ∈ listDelimiters) : Yields .listAttributes (.listAttributes l)
  | enum {choices name} (known : name ∈ choices) : Yields (.enum choices) (.data (.str name))
  | enumList {choices} {names : List String} (known : ∀ name ∈ names, name ∈ choices) :
      Yields (.enumList choices) (.data (.arr (names.map .str)))
  | floatList {widths : List Double} (numbers : ∀ d ∈ widths, d ≠ .nan) :
      Yields .floatList (.data (.arr (widths.map .float)))
  | citations {cs} (each : ∀ c ∈ cs, c.WellFormed) : Yields .citations (.citations cs)

/-- The values of the sort that reading a slot gives.  The citations among them may hold any nodes. -/
inductive Codec.Takes : Codec → Value Tree → Prop
  | int (n) : Takes .int (.data (.int n))
  | text (s) : Takes .text (.data (.str s))
  | attr (a) : Takes .attr (.attr a)
  | target (t) : Takes .target (.target t)
  | listAttributes {l : ListAttributes} (style : l.style ∈ listStyles)
      (delimiter : l.delimiter ∈ listDelimiters) : Takes .listAttributes (.listAttributes l)
  | enum {choices name} (known : name ∈ choices) : Takes (.enum choices) (.data (.str name))
  | enumList {choices} {names : List String} (known : ∀ name ∈ names, name ∈ choices) :
      Takes (.enumList choices) (.data (.arr (names.map .str)))
  | floatList (widths : List Double) : Takes .floatList (.data (.arr (widths.map .float)))
  | citations {cs : List (Citation Tree)} (modes : ∀ c ∈ cs, c.mode ∈ citationModes) :
      Takes .citations (.citations cs)

theorem Codec.Yields.takes {codec : Codec} {v : Value Tree} (h : codec.Yields v) : codec.Takes v := by
  cases h with
  | int n => exact .int n
  | text s => exact .text s
  | attr a => exact .attr a
  | target t => exact .target t
  | listAttributes style delimiter => exact .listAttributes style delimiter
  | enum known => exact .enum known
  | enumList known => exact .enumList known
  | floatList _ => exact .floatList _
  | citations each => exact .citations fun c hc => (each c hc).mode

/-- The nodes inside a value that reading gives are inlines. -/
theorem Codec.Yields.inline {codec : Codec} {v : Value Tree} (h : codec.Yields v) :
    ∀ t ∈ v.nodes, t.kind.isInline := by
  cases h with
  | citations each =>
    intro t ht
    obtain ⟨c, hc, ht⟩ := List.mem_flatMap.mp ht
    exact (List.mem_append.mp ht).elim ((each c hc).before t) ((each c hc).after t)
  | _ => exact nofun

/-- A payload with exactly the names that a kind asks for, in any order, each with a value of its
slot. -/
structure Kind.Fills (kind : Kind) (payload : Payload Tree) : Prop where
  names : (Entries.keys payload).Perm kind.payloadNames
  values : ∀ name codec, .value name codec ∈ kind.layout →
    ∃ v, Entries.find? name payload = some v ∧ codec.Yields v

/-! ## Trees, metadata and documents -/

/-- A tree that fits the layouts of its kinds at every node, those inside citations included. -/
inductive Tree.WellFormed : Tree → Prop
  | node {kind payload children} (layout : LaidOut kind.layout (children.map Tree.kind))
      (fills : kind.Fills payload) (inside : ∀ t ∈ Payload.nodes payload, WellFormed t)
      (below : ∀ t ∈ children, WellFormed t) : WellFormed (.node kind payload children)

/-- Metadata of any nesting, with distinct names in each map, inlines in inline values and blocks in
block values. -/
inductive MetaValue.WellFormed : MetaValue → Prop
  | map {entries : List (String × MetaValue)} (keys : (entries.map (·.1)).Nodup)
      (below : ∀ entry ∈ entries, WellFormed entry.2) : WellFormed (.map entries)
  | list {items} (below : ∀ item ∈ items, WellFormed item) : WellFormed (.list items)
  | bool (b) : WellFormed (.bool b)
  | string (s) : WellFormed (.string s)
  | inlines {nodes : List Tree} (inline : ∀ t ∈ nodes, t.kind.isInline)
      (below : ∀ t ∈ nodes, t.WellFormed) : WellFormed (.inlines nodes)
  | blocks {nodes : List Tree} (block : ∀ t ∈ nodes, t.kind.isBlock)
      (below : ∀ t ∈ nodes, t.WellFormed) : WellFormed (.blocks nodes)

/-- A document of blocks with metadata and a version that is not empty. -/
structure Document.WellFormed (d : Document) : Prop where
  block : ∀ t ∈ d.blocks, t.kind.isBlock
  blocks : ∀ t ∈ d.blocks, t.WellFormed
  metadata : (MetaValue.map d.metadata).WellFormed
  version : d.version ≠ []

/-! ## Payloads in the order of the slots -/

theorem find?_map {ν μ : Type} (f : ν → μ) (payload : Payload ν) (name : String) :
    Entries.find? name (payload.map f) = (Entries.find? name payload).map (·.map f) := by
  induction payload with
  | nil => rfl
  | cons entry payload ih =>
    rw [Entries.find?, Payload.map] at ih ⊢
    rw [List.map_cons, List.lookup_cons, Entries.find?, List.lookup_cons, ih]
    split <;> rfl

theorem nodes_of_find? {ν : Type} {payload : Payload ν} {name : String} {v : Value ν}
    (h : Entries.find? name payload = some v) : ∀ t ∈ v.nodes, t ∈ Payload.nodes payload := by
  intro t ht
  obtain ⟨l₁, l₂, rfl, _⟩ := List.lookup_eq_some_iff.mp h
  exact List.mem_flatMap.mpr ⟨(name, v), by simp, ht⟩

/-- A payload in the order of the slots. -/
def Kind.arrange {ν : Type} (kind : Kind) (payload : Payload ν) : Payload ν :=
  kind.payloadNames.filterMap fun name => (Entries.find? name payload).map (name, ·)

/-- The tree with every payload in the order of the slots. -/
def Tree.inOrder : Tree → Tree := Tree.fold fun kind payload children =>
  .node kind (kind.arrange payload) children

@[simp] theorem Tree.kind_inOrder (t : Tree) : t.inOrder.kind = t.kind := by
  cases t
  simp [Tree.inOrder, Tree.fold_node, Tree.kind]

theorem Tree.inOrder_node (kind : Kind) (payload : Payload Tree) (children : List Tree) :
    (Tree.node kind payload children).inOrder =
      .node kind (kind.arrange (payload.map Tree.inOrder)) (children.map Tree.inOrder) :=
  Tree.fold_node _ kind payload children

namespace MetaValue

mutual

/-- A metadata value with every payload in the order of the slots. -/
def inOrder : MetaValue → MetaValue
  | map entries => .map (entriesInOrder entries)
  | list items => .list (itemsInOrder items)
  | bool b => .bool b
  | string s => .string s
  | inlines nodes => .inlines (nodes.map Tree.inOrder)
  | blocks nodes => .blocks (nodes.map Tree.inOrder)

/-- The items of a list with every payload in the order of the slots. -/
def itemsInOrder : List MetaValue → List MetaValue
  | [] => []
  | item :: items => inOrder item :: itemsInOrder items

/-- The entries of a map with every payload in the order of the slots. -/
def entriesInOrder : List (String × MetaValue) → List (String × MetaValue)
  | [] => []
  | (key, value) :: entries => (key, inOrder value) :: entriesInOrder entries

end

end MetaValue

/-- What reading a document written in a layout gives: the layout is remembered, and the version as far
as the layout shows it. -/
def Document.asRead (d : Document) (schema : Schema) : Document where
  blocks := d.blocks.map Tree.inOrder
  metadata := MetaValue.entriesInOrder d.metadata
  version := match schema with
    | .v1 => defaultVersion
    | .v2 => d.version
  schema := schema

end DocFilter
