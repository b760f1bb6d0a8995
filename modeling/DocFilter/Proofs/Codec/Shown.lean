import DocFilter.Proofs.Codec.Filled

/-!
# The nodes that are shown

What is written of a tree shows its blocks and inlines as objects with their names, in the order in which they
stand in the tree.  What stands below a node of a kind without slots is not written at all.

* `Json.nodeTags` are the names of the objects, and `Tree.namedKinds` the kinds that they should name.
* `Filled.nodeTags_eq` goes through the slots of one node, `Tree.Typed.shows` is the induction over trees.
* `Tree.shownKinds_eq_iff` says when all kinds are shown: if the leaves are empty.
* `Tree.Typed.written_or_refused` is the main result.
-/

namespace DocFilter

/-! ## Objects with names -/

/-- Whether a name is that of a block or an inline. -/
def Kind.isNodeName (name : String) : Bool := ((Kind.ofName? name).filter (·.isTagged)).isSome

namespace Json

/-- The name of a node object. -/
def nodeTag? (entries : List (String × Json)) : Option String :=
  match Entries.find? "t" entries with
  | some (.str name) => if Kind.isNodeName name then some name else none
  | _ => none

mutual

/-- The names of the node objects in data, each before those inside it, from left to right.  What lies inside a
citation is left out. -/
def nodeTags : Json → List String
  | .arr items => itemTags items
  | .obj entries =>
    if Entries.has "citationId" entries then [] else (nodeTag? entries).toList ++ entryTags entries
  | _ => []

/-- The names of the node objects in the items of a list. -/
def itemTags : List Json → List String
  | [] => []
  | item :: items => nodeTags item ++ itemTags items

/-- The names of the node objects in the entries of an object. -/
def entryTags : List (String × Json) → List String
  | [] => []
  | (_, value) :: entries => nodeTags value ++ entryTags entries

end

theorem itemTags_eq_flatMap (items : List Json) : itemTags items = items.flatMap nodeTags := by
  induction items with
  | nil => rfl
  | cons item items ih => rw [itemTags, ih, List.flatMap_cons]

theorem nodeTags_arr (items : List Json) : (Json.arr items).nodeTags = items.flatMap nodeTags := by
  rw [nodeTags, itemTags_eq_flatMap]

theorem nodeTags_arr_eq_nil {items : List Json} (h : ∀ item ∈ items, item.nodeTags = []) :
    (Json.arr items).nodeTags = [] := by
  rw [nodeTags_arr]
  exact List.flatMap_eq_nil_iff.mpr h

theorem nodeTags_strings (names : List String) : (Json.arr (names.map .str)).nodeTags = [] :=
  nodeTags_arr_eq_nil (List.forall_mem_map.mpr fun _ _ => rfl)

theorem nodeTags_ofFields (fields : List Json) : (Json.ofFields fields).nodeTags = fields.flatMap nodeTags := by
  rcases fields with _ | ⟨field, _ | ⟨second, rest⟩⟩
  · rw [ofFields, nodeTags_arr]
    exact fun _ h => by cases h
  · rw [ofFields, List.flatMap_singleton]
  · rw [ofFields, nodeTags_arr]
    exact fun _ h => by cases h

end Json

/-! ## Kinds with names -/

namespace Tree

/-- The kinds of the blocks and inlines of a tree, each before those below it.  Parts are looked through. -/
def namedKinds : Tree → List Kind := fold fun kind _ children =>
  (if kind.isTagged then [kind] else []) ++ children.flatten

/-- The same, but for what stands below the nodes of kinds without slots. -/
def shownKinds : Tree → List Kind := fold fun kind _ children =>
  (if kind.isTagged then [kind] else []) ++ if kind.layout.isEmpty then [] else children.flatten

/-- No block or inline stands below a node of a kind without slots. -/
inductive EmptyLeaves : Tree → Prop
  | node {kind payload children} (leaf : kind.layout.isEmpty → ∀ t ∈ children, t.namedKinds = [])
      (below : ∀ t ∈ children, EmptyLeaves t) : EmptyLeaves (.node kind payload children)

variable {kind : Kind} {payload : Payload Tree} {children : List Tree} {t : Tree}

theorem namedKinds_node : (node kind payload children).namedKinds =
    (if kind.isTagged then [kind] else []) ++ children.flatMap namedKinds := by
  rw [namedKinds, fold_node, List.flatMap_def]

theorem shownKinds_node : (node kind payload children).shownKinds =
    (if kind.isTagged then [kind] else []) ++
      if kind.layout.isEmpty then [] else children.flatMap shownKinds := by
  rw [shownKinds, fold_node, List.flatMap_def]

/-- What holds of a tree if it holds of its children holds of all trees. -/
theorem induction_children {motive : Tree → Prop}
    (step : ∀ kind payload children, (∀ t ∈ children, motive t) → motive (node kind payload children))
    (t : Tree) : motive t := by
  cases t with
  | node kind payload children => exact step kind payload children fun t _ => induction_children step t

theorem flatMap_sublist {α β : Type} {f g : α → List β} {xs : List α}
    (h : ∀ x ∈ xs, (f x).Sublist (g x)) : (xs.flatMap f).Sublist (xs.flatMap g) := by
  induction xs with
  | nil => exact .refl _
  | cons x xs ih =>
    obtain ⟨hx, hxs⟩ := List.forall_mem_cons.mp h
    exact hx.append (ih hxs)

/-- Where each part is at most as long as another one, and all together are as long, none is shorter. -/
theorem eq_of_flatMap_eq {α β : Type} {f g : α → List β} {xs : List α} (h : ∀ x ∈ xs, (f x).Sublist (g x))
    (heq : xs.flatMap f = xs.flatMap g) : ∀ x ∈ xs, f x = g x := by
  induction xs with
  | nil => exact nofun
  | cons x xs ih =>
    obtain ⟨hx, hxs⟩ := List.forall_mem_cons.mp h
    rw [List.flatMap_cons, List.flatMap_cons] at heq
    have hlength := congrArg List.length heq
    rw [List.length_append, List.length_append] at hlength
    have hfirst := hx.length_le
    have hrest := (flatMap_sublist hxs).length_le
    have hsame : f x = g x := hx.eq_of_length (by omega)
    rw [hsame, List.append_cancel_left_eq] at heq
    exact List.forall_mem_cons.mpr ⟨hsame, ih hxs heq⟩

theorem shownKinds_sublist (t : Tree) : t.shownKinds.Sublist t.namedKinds := by
  induction t using induction_children with
  | step kind payload children ih =>
    rw [shownKinds_node, namedKinds_node]
    refine List.Sublist.append_left ?_ _
    split
    · exact List.nil_sublist _
    · exact flatMap_sublist ih

/-- All blocks and inlines are shown exactly if the leaves are empty. -/
theorem shownKinds_eq_iff (t : Tree) : t.shownKinds = t.namedKinds ↔ t.EmptyLeaves := by
  induction t using induction_children with
  | step kind payload children ih =>
    rw [shownKinds_node, namedKinds_node, List.append_cancel_left_eq]
    constructor
    · intro h
      split at h
      · have hnone : ∀ t ∈ children, t.namedKinds = [] := List.flatMap_eq_nil_iff.mp h.symm
        refine .node (fun _ => hnone) fun t ht => (ih t ht).mp ?_
        rw [hnone t ht]
        exact List.sublist_nil.mp (hnone t ht ▸ t.shownKinds_sublist)
      · rename_i hslots
        refine .node (fun hempty => absurd hempty hslots) fun t ht => (ih t ht).mp ?_
        exact eq_of_flatMap_eq (fun t _ => t.shownKinds_sublist) h t ht
    · rintro ⟨leaf, below⟩
      split
      · rename_i hempty
        exact (List.flatMap_eq_nil_iff.mpr (leaf hempty)).symm
      · exact List.flatMap_congr fun t ht => (ih t ht).mpr (below t ht)

end Tree

/-! ## What is written of a node -/

/-- The names of constructors are no names of nodes. -/
theorem Kind.not_isNodeName_of_choices {kind : Kind} {name : String} {choices : List String}
    (h : .value name (.enum choices) ∈ kind.layout ∨ .value name (.enumList choices) ∈ kind.layout) :
    ∀ choice ∈ choices, Kind.isNodeName choice = false := by
  have hchoices : choices = quoteTypes ∨ choices = mathTypes ∨ choices = alignments := by
    cases kind <;> simp [Kind.layout, attrSlot, textSlot, formatSlot] at h <;> simp [h]
  rcases hchoices with rfl | rfl | rfl <;> decide

theorem nodeTags_writeEnum {name : String} (h : Kind.isNodeName name = false) :
    (writeEnum (.str name)).nodeTags = [] := by
  simp [writeEnum, Json.nodeTags, Entries.has, Json.nodeTag?, Entries.find?, h, Json.entryTags]

theorem nodeTags_writeCitation {c : Citation Written} {json : Json} (h : writeCitation c = .ok json) :
    json.nodeTags = [] := by
  obtain ⟨before, -, h⟩ := bind_eq_ok_iff.mp h
  obtain ⟨after, -, h⟩ := bind_eq_ok_iff.mp h
  cases h
  simp [Json.nodeTags, Entries.has]

/-- A value shows no nodes. -/
theorem Codec.Takes.nodeTags_eq {kind : Kind} {name : String} {codec : Codec} {v : Value Tree} {field : Json}
    (h : codec.Takes v) (hslot : .value name codec ∈ kind.layout)
    (hwrite : writeValue codec (v.map Tree.written) = .ok field) : field.nodeTags = [] := by
  cases h with
  | int n | text s =>
    cases hwrite
    rfl
  | attr a =>
    cases hwrite
    have hpairs : (Json.arr (a.attributes.map fun pair => .arr [.str pair.1, .str pair.2])).nodeTags = [] :=
      Json.nodeTags_arr_eq_nil (List.forall_mem_map.mpr fun pair _ => Json.nodeTags_strings [pair.1, pair.2])
    exact Json.nodeTags_arr_eq_nil (by simpa using ⟨rfl, Json.nodeTags_strings a.classes, hpairs⟩)
  | target t =>
    cases hwrite
    exact Json.nodeTags_strings [t.url, t.title]
  | @listAttributes l style delimiter =>
    cases hwrite
    have hstyles : ∀ style ∈ listStyles, Kind.isNodeName style = false := by decide
    have hdelimiters : ∀ delimiter ∈ listDelimiters, Kind.isNodeName delimiter = false := by decide
    exact Json.nodeTags_arr_eq_nil (by simpa using
      ⟨rfl, nodeTags_writeEnum (hstyles _ style), nodeTags_writeEnum (hdelimiters _ delimiter)⟩)
  | enum known =>
    cases hwrite
    exact nodeTags_writeEnum (Kind.not_isNodeName_of_choices (.inl hslot) _ known)
  | enumList known =>
    cases hwrite
    refine Json.nodeTags_arr_eq_nil (List.forall_mem_map.mpr (List.forall_mem_map.mpr fun name hname => ?_))
    exact nodeTags_writeEnum (Kind.not_isNodeName_of_choices (.inr hslot) _ (known name hname))
  | floatList widths =>
    cases (congrArg (·.map Json.arr) (writeWidths_floats widths)).symm.trans hwrite
    exact Json.nodeTags_arr_eq_nil (List.forall_mem_map.mpr fun d _ => rfl)
  | citations modes =>
    obtain ⟨items, hitems, rfl⟩ := exists_of_map_eq_ok hwrite
    refine Json.nodeTags_arr_eq_nil fun item hitem => ?_
    obtain ⟨c, -, hc⟩ := exists_of_mem_mapM hitems item hitem
    exact nodeTags_writeCitation hc

/-- What can be written of a tree shows its kinds, if its own name is put first. -/
def Tree.Shows (t : Tree) : Prop := ∀ json, t.written.contents = .ok json →
  (if t.kind.isTagged then [t.kind.name] else []) ++ json.nodeTags = t.shownKinds.map Kind.name

section Shows

variable {kind : Kind} {payload : Payload Tree} {children : List Tree} {slots : List Slot} {t : Tree}
  {ts : List Tree} {fields items : List Json} {json : Json}

theorem Tree.Shows.nodeTags_contents (h : t.Shows) (htag : t.kind.isTagged = false)
    (hwrite : t.written.contents = .ok json) : json.nodeTags = t.shownKinds.map Kind.name := by
  have hshown := h json hwrite
  rwa [htag] at hshown

theorem Kind.isNodeName_name (h : kind.isTagged) : Kind.isNodeName kind.name = true := by
  rw [Kind.isNodeName, Kind.ofName?_name h]
  rfl

theorem Tree.Shows.nodeTags_node (h : t.Shows) (hwrite : t.written.node = .ok json) :
    json.nodeTags = t.shownKinds.map Kind.name := by
  rw [Written.node, Tree.kind_written] at hwrite
  split at hwrite
  · cases hwrite
  · rename_i htag
    have htag : t.kind.isTagged = true := by simpa using htag
    have hname := Kind.isNodeName_name htag
    split at hwrite
    · rename_i hempty
      cases hwrite
      have hshown := h .null (t.contents_written_of_isEmpty hempty)
      rw [htag, if_pos rfl] at hshown
      simpa [Json.nodeTags, Entries.has, Json.nodeTag?, Entries.find?, hname, Json.entryTags] using hshown
    · obtain ⟨contents, hcontents, heq⟩ := bind_eq_ok_iff.mp hwrite
      cases heq
      have hshown := h contents hcontents
      rw [htag, if_pos rfl] at hshown
      simpa [Json.nodeTags, Entries.has, Json.nodeTag?, Entries.find?, hname, Json.entryTags] using hshown

theorem flatMap_nodeTags {f : Tree → Except CodecError Json} (hwrite : ts.mapM f = .ok items)
    (h : ∀ t ∈ ts, ∀ json, f t = .ok json → json.nodeTags = t.shownKinds.map Kind.name) :
    (Json.arr items).nodeTags = (ts.flatMap Tree.shownKinds).map Kind.name := by
  rw [Json.nodeTags_arr]
  have hall := mapM_eq_ok_iff.mp hwrite
  clear hwrite
  induction hall with
  | nil => rfl
  | cons hone _ ih =>
    obtain ⟨hfirst, hrest⟩ := List.forall_mem_cons.mp h
    rw [List.flatMap_cons, List.flatMap_cons, List.map_append, hfirst _ hone, ih hrest]

/-- A run shows what its members show. -/
theorem nodeTags_writeRun {slot : Slot} (hslot : slot ∈ kind.layout) (h : ∀ t ∈ ts, t.Shows)
    (hwrite : writeRun kind slot (ts.map Tree.written) = .ok json) :
    json.nodeTags = (ts.flatMap Tree.shownKinds).map Kind.name := by
  have hadmits := admits_of_writeRun hwrite
  obtain ⟨-, -, hwrite⟩ := bind_eq_ok_iff.mp hwrite
  split at hwrite
  · rename_i part _
    obtain ⟨items, hitems, rfl⟩ := exists_of_map_eq_ok hwrite
    rw [List.mapM_map] at hitems
    refine flatMap_nodeTags hitems fun t ht json hjson => (h t ht).nodeTags_contents ?_ hjson
    have hkind : t.kind = part := by simpa [Slot.admits] using hadmits t ht
    rw [hkind]
    exact Kind.not_isTagged_of_part (.inr hslot)
  · obtain ⟨items, hitems, rfl⟩ := exists_of_map_eq_ok hwrite
    rw [List.mapM_map] at hitems
    exact flatMap_nodeTags hitems fun t ht json hjson => (h t ht).nodeTags_node hjson

/-- The fields of a node show what its children show. -/
theorem Filled.nodeTags_eq (h : Filled kind payload slots ts fields) (hslots : ∀ slot ∈ slots, slot ∈ kind.layout)
    (hvalues : ∀ name codec v, .value name codec ∈ kind.layout → Entries.find? name payload = some v →
      codec.Takes v)
    (hshows : ∀ t ∈ ts, t.Shows) :
    fields.flatMap Json.nodeTags = (ts.flatMap Tree.shownKinds).map Kind.name := by
  induction h with
  | nil => rfl
  | value found written _ ih =>
    obtain ⟨hslot, hlater⟩ := List.forall_mem_cons.mp hslots
    have hnone := (hvalues _ _ _ hslot found).nodeTags_eq hslot written
    rw [List.flatMap_cons, hnone, List.nil_append, ih hlater hshows]
  | part written _ ih =>
    obtain ⟨hslot, hlater⟩ := List.forall_mem_cons.mp hslots
    obtain ⟨hfirst, hrest⟩ := List.forall_mem_cons.mp hshows
    have hpart := hfirst.nodeTags_contents (Kind.not_isTagged_of_part (.inl hslot)) written
    rw [List.flatMap_cons, List.flatMap_cons, List.map_append, hpart, ih hlater hrest]
  | run _ written _ ih =>
    obtain ⟨hslot, hlater⟩ := List.forall_mem_cons.mp hslots
    obtain ⟨hmembers, hrest⟩ := List.forall_mem_append.mp hshows
    rw [List.flatMap_cons, List.flatMap_append, List.map_append,
      nodeTags_writeRun hslot hmembers written, ih hlater hrest]

theorem Tree.Typed.shows (h : t.Typed) : t.Shows := by
  induction h with
  | @node kind payload children values inside below ihInside ihBelow =>
    intro json hwrite
    have hown : (if kind.isTagged then [kind.name] else []) = (if kind.isTagged then [kind] else []).map Kind.name := by
      split <;> rfl
    rw [Tree.kind, Tree.shownKinds_node, List.map_append, hown, List.append_cancel_left_eq]
    obtain ⟨hempty, rfl⟩ | ⟨hne, fields, rfl, hfilled⟩ := Tree.filled_of_written hwrite
    · rw [if_pos (by simpa using hempty)]
      rfl
    · rw [if_neg (by simpa using hne), Json.nodeTags_ofFields]
      exact hfilled.nodeTags_eq (fun _ h => h) values ihBelow

/-- **Nodes are shown.**  A tree with values of the right sort is refused, or what is written of it shows its
blocks and inlines in order but for those below nodes of kinds without slots.  So all of them are shown exactly
if there are none there. -/
theorem Tree.Typed.written_or_refused (h : t.Typed) :
    (∃ cause, t.toJson = .error (.malformed cause)) ∨
    ∃ json, t.toJson = .ok json ∧ json.nodeTags = t.shownKinds.map Kind.name ∧
      (json.nodeTags = t.namedKinds.map Kind.name ↔ t.EmptyLeaves) := by
  rcases (Written.fails_node h.fails_malformed).cases with ⟨json, hjson⟩ | ⟨e, ⟨cause, rfl⟩, herror⟩
  · have htags := h.shows.nodeTags_node hjson
    refine .inr ⟨json, hjson, htags, ?_⟩
    rw [htags, ← Tree.shownKinds_eq_iff]
    constructor
    · intro heq
      have hlength := congrArg List.length heq
      rw [List.length_map, List.length_map] at hlength
      exact t.shownKinds_sublist.eq_of_length hlength
    · exact fun heq => by rw [heq]
  · exact .inl ⟨cause, herror⟩

/-- A quotation of a rule that holds a paragraph. -/
def Tree.ruled : Tree :=
  .node .blockQuote [] [.node .horizontalRule [] [.node .para [] [.node .space [] []]]]

theorem Tree.typed_ruled : ruled.Typed := by
  refine typed_of_no_values rfl (List.forall_mem_singleton.mpr ?_)
  refine typed_of_no_values rfl (List.forall_mem_singleton.mpr ?_)
  refine typed_of_no_values rfl (List.forall_mem_singleton.mpr ?_)
  exact typed_of_no_values rfl nofun

/-- The paragraph is dropped without a word. -/
theorem Tree.written_ruled : ∃ json, ruled.toJson = .ok json ∧ json.nodeTags = ["BlockQuote", "HorizontalRule"] ∧
    ruled.namedKinds = [.blockQuote, .horizontalRule, .para, .space] ∧ ¬ ruled.EmptyLeaves := by
  obtain ⟨json, hjson⟩ : ∃ json, ruled.toJson = .ok json := ⟨_, rfl⟩
  obtain ⟨cause, hrefused⟩ | ⟨json', hjson', htags, hall⟩ := typed_ruled.written_or_refused
  · rw [hjson] at hrefused
    cases hrefused
  · have hshown : ruled.shownKinds = [.blockQuote, .horizontalRule] := rfl
    have hnamed : ruled.namedKinds = [.blockQuote, .horizontalRule, .para, .space] := rfl
    rw [hshown] at htags
    refine ⟨json', hjson', htags, hnamed, fun hempty => ?_⟩
    have hwrong := hall.mpr hempty
    rw [htags, hnamed] at hwrong
    cases hwrong

end Shows

end DocFilter
