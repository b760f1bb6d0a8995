import DocFilter.Proofs.Codec.WellFormed
import DocFilter.Proofs.Results

/-!
# Order does not count

Equality by value looks payloads up by name.  A well-formed tree is therefore the same as the tree with
its payloads in the order of the slots, and so is metadata that holds such trees.
-/

namespace DocFilter

/-! ## Data -/

section Lookup

variable {α : Type}

/-- Where no key stands twice, each entry is found under its key. -/
theorem lookup_of_mem {entries : List (String × α)} (hkeys : (entries.map (·.1)).Nodup)
    {key : String} {value : α} (h : (key, value) ∈ entries) :
    entries.lookup key = some value := by
  induction entries with
  | nil => simp at h
  | cons entry entries ih =>
    obtain ⟨hnot, hrest⟩ := List.nodup_cons.mp hkeys
    rcases List.mem_cons.mp h with rfl | h
    · exact List.lookup_cons_self
    · have hne : (key == entry.1) = false := by
        rw [beq_eq_false_iff_ne]
        rintro rfl
        exact hnot (List.mem_map.mpr ⟨(entry.1, value), h, rfl⟩)
      rw [List.lookup_cons, hne]
      exact ih hrest h

end Lookup

theorem allMatch_iff {α β : Type} {test : α → β → Bool} {xs : List α} {ys : List β} :
    allMatch (xs.map test) ys ↔ List.Forall₂ (fun x y => test x y) xs ys := by
  induction xs generalizing ys with
  | nil => cases ys <;> simp [allMatch]
  | cons x xs ih => cases ys <;> simp [allMatch, ih]

namespace Json

theorem sameItems_self {items : List Json} (h : ∀ item ∈ items, item.same item) :
    sameItems items items := by
  induction items with
  | nil => rfl
  | cons item items ih =>
    simp only [sameItems, Bool.and_eq_true]
    exact ⟨h item (by simp), ih fun j hj => h j (by simp [hj])⟩

theorem sameEntries_of_mem {entries all : List (String × Json)}
    (hkeys : (all.map (·.1)).Nodup) (hmem : ∀ entry ∈ entries, entry ∈ all)
    (h : ∀ entry ∈ entries, entry.2.same entry.2) : sameEntries entries all := by
  induction entries with
  | nil => rfl
  | cons entry entries ih =>
    have hfound := lookup_of_mem hkeys (hmem entry (by simp))
    simp only [sameEntries, Bool.and_eq_true, hfound]
    exact ⟨h entry (by simp), ih (fun e he => hmem e (by simp [he])) fun e he => h e (by simp [he])⟩

/-- Data without doubled keys equals itself. -/
theorem Distinct.same_self {j : Json} (h : j.Distinct) : j.same j := by
  induction h with
  | null => rfl
  | bool b => cases b <;> rfl
  | int n => simp [same, sameNumber?, asInt?]
  | float d => cases d <;> simp [same, sameNumber?, Double.same]
  | str s => simp [same]
  | arr _ ih => rw [same]; exact sameItems_self ih
  | obj keys _ ih =>
    simp only [same, beq_self_eq_true, Bool.true_and]
    exact sameEntries_of_mem keys (fun _ h => h) ih

end Json

/-! ## Values -/

theorem Citation.WellFormed.matches_inOrder {c : Citation Tree} (h : c.WellFormed)
    (hin : ∀ t ∈ c.before ++ c.after, t.inOrder.same t) :
    ((c.map Tree.inOrder).map Tree.same).matches c := by
  have hbefore : allMatch ((c.before.map Tree.inOrder).map Tree.same) c.before := by
    rw [allMatch_iff, List.forall₂_map_left_iff, List.forall₂_same]
    exact fun t ht => hin t (List.mem_append_left _ ht)
  have hafter : allMatch ((c.after.map Tree.inOrder).map Tree.same) c.after := by
    rw [allMatch_iff, List.forall₂_map_left_iff, List.forall₂_same]
    exact fun t ht => hin t (List.mem_append_right _ ht)
  simp [Citation.matches, Citation.map, h.id.same_self, h.noteNum.same_self, h.hash.same_self,
    -List.map_map, hbefore, hafter]

/-- A value that reading can give is the same with the payloads inside it in order. -/
theorem Codec.Yields.matches_inOrder {codec : Codec} {v : Value Tree} (h : codec.Yields v)
    (hin : ∀ t ∈ v.nodes, t.inOrder.same t) :
    ((v.map Tree.inOrder).map Tree.same).matches v := by
  have hnames : ∀ names : List String, (Json.arr (names.map .str)).Distinct := fun names =>
    .arr fun item hitem => by
      obtain ⟨name, _, rfl⟩ := List.mem_map.mp hitem
      exact .str name
  have hwidths : ∀ widths : List Double, (Json.arr (widths.map .float)).Distinct := fun widths =>
    .arr fun item hitem => by
      obtain ⟨d, _, rfl⟩ := List.mem_map.mp hitem
      exact .float d
  cases h with
  | int n => exact (Json.Distinct.int n).same_self
  | text s => exact (Json.Distinct.str s).same_self
  | attr a => simp [Value.map, Value.matches]
  | target t => simp [Value.map, Value.matches]
  | listAttributes => simp [Value.map, Value.matches]
  | @enum _ name => exact (Json.Distinct.str name).same_self
  | @enumList _ names => exact (hnames names).same_self
  | @floatList widths => exact (hwidths widths).same_self
  | @citations cs each =>
    have hall : allMatch (((cs.map (·.map Tree.inOrder)).map (·.map Tree.same)).map
        Citation.matches) cs := by
      rw [allMatch_iff, List.forall₂_map_left_iff, List.forall₂_map_left_iff, List.forall₂_same]
      exact fun c hc => (each c hc).matches_inOrder fun t ht =>
        hin t (List.mem_flatMap.mpr ⟨c, hc, ht⟩)
    simpa [Value.map, Value.matches] using hall

/-! ## Trees -/

theorem Tree.same_node (kind : Kind) (payload : Payload Tree) (children : List Tree)
    (other : Tree) :
    (Tree.node kind payload children).same other = (kind == other.kind &&
      allMatch (children.map Tree.same) other.children &&
      (payload.map Tree.same).matches other.payload) := by
  rw [Tree.same, Tree.fold_node]

/-- The entries of an arranged payload are those that stand under a name of the kind. -/
theorem Kind.mem_arrange {ν : Type} {kind : Kind} {payload : Payload ν}
    {entry : String × Value ν} (h : entry ∈ kind.arrange payload) :
    entry.1 ∈ kind.payloadNames ∧ Entries.find? entry.1 payload = some entry.2 := by
  obtain ⟨name, hname, hentry⟩ := List.mem_filterMap.mp h
  obtain ⟨v, hfind, rfl⟩ := Option.map_eq_some_iff.mp hentry
  exact ⟨hname, hfind⟩

/-- Each payload name belongs to a value slot. -/
theorem Kind.exists_slot_of_mem_payloadNames {kind : Kind} {name : String}
    (h : name ∈ kind.payloadNames) : ∃ codec, .value name codec ∈ kind.layout := by
  obtain ⟨slot, hslot, hname⟩ := List.mem_filterMap.mp h
  cases slot with
  | value name' codec =>
    obtain rfl : name' = name := Option.some.inj hname
    exact ⟨codec, hslot⟩
  | _ => cases hname

/-- Arranging a payload that fills a kind drops nothing. -/
theorem Kind.Fills.length_arrange {kind : Kind} {payload : Payload Tree} (h : kind.Fills payload)
    (f : Tree → Tree) : (kind.arrange (payload.map f)).length = payload.length := by
  have hall : ∀ name ∈ kind.payloadNames,
      ((Entries.find? name (payload.map f)).map (name, ·)).isSome := by
    intro name hname
    obtain ⟨codec, hslot⟩ := exists_slot_of_mem_payloadNames hname
    obtain ⟨v, hfind, _⟩ := h.values name codec hslot
    simp [find?_map, hfind]
  rw [Kind.arrange, List.length_filterMap_eq_countP, List.countP_eq_length.mpr hall,
    ← h.names.length_eq, Entries.keys, List.length_map]

/-- A well-formed tree is the same as the tree with its payloads in the order of the slots. -/
theorem Tree.WellFormed.same_inOrder {t : Tree} (h : t.WellFormed) : t.inOrder.same t := by
  induction h with
  | @node kind payload children layout fills inside below ihInside ihBelow =>
    have hchildren : allMatch ((children.map Tree.inOrder).map Tree.same) children := by
      rw [allMatch_iff, List.forall₂_map_left_iff, List.forall₂_same]
      exact ihBelow
    have hpayload : Payload.matches
        ((kind.arrange (payload.map Tree.inOrder)).map Tree.same) payload := by
      simp only [Payload.matches, Bool.and_eq_true, beq_iff_eq, List.all_eq_true]
      refine ⟨by rw [Payload.map, List.length_map, fills.length_arrange], ?_⟩
      intro entry hentry
      obtain ⟨arranged, harranged, rfl⟩ := List.mem_map.mp hentry
      obtain ⟨hname, hfind⟩ := Kind.mem_arrange harranged
      obtain ⟨codec, hslot⟩ := Kind.exists_slot_of_mem_payloadNames hname
      obtain ⟨v, hv, hyields⟩ := fills.values _ codec hslot
      rw [find?_map, hv, Option.map_some, Option.some.injEq] at hfind
      rw [hv, ← hfind]
      exact hyields.matches_inOrder fun t ht => ihInside t (nodes_of_find? hv t ht)
    rw [inOrder_node, same_node, Tree.kind, Tree.children, Tree.payload, hchildren, hpayload]
    simp

/-! ## Metadata -/

namespace MetaValue

theorem sameItems_inOrder {items : List MetaValue}
    (h : ∀ item ∈ items, item.inOrder.same item) : sameItems (itemsInOrder items) items := by
  induction items with
  | nil => rfl
  | cons item items ih =>
    simp only [itemsInOrder, sameItems, Bool.and_eq_true]
    exact ⟨h item (by simp), ih fun m hm => h m (by simp [hm])⟩

theorem sameEntries_inOrder {entries all : List (String × MetaValue)}
    (hkeys : (all.map (·.1)).Nodup) (hmem : ∀ entry ∈ entries, entry ∈ all)
    (h : ∀ entry ∈ entries, entry.2.inOrder.same entry.2) :
    sameEntries (entriesInOrder entries) all := by
  induction entries with
  | nil => rfl
  | cons entry entries ih =>
    have hfound := lookup_of_mem hkeys (hmem entry (by simp))
    simp only [entriesInOrder, sameEntries, Bool.and_eq_true, hfound]
    exact ⟨h entry (by simp), ih (fun e he => hmem e (by simp [he])) fun e he => h e (by simp [he])⟩

theorem length_entriesInOrder (entries : List (String × MetaValue)) :
    (entriesInOrder entries).length = entries.length := by
  induction entries with
  | nil => rfl
  | cons entry entries ih => simp [entriesInOrder, ih]

end MetaValue

theorem Tree.sameList_inOrder {ts : List Tree} (h : ∀ t ∈ ts, t.WellFormed) :
    Tree.sameList (ts.map Tree.inOrder) ts := by
  rw [Tree.sameList, allMatch_iff, List.forall₂_map_left_iff, List.forall₂_same]
  exact fun t ht => (h t ht).same_inOrder

/-- Well-formed metadata is the same as with the payloads inside it in the order of the slots. -/
theorem MetaValue.WellFormed.same_inOrder {m : MetaValue} (h : m.WellFormed) :
    m.inOrder.same m := by
  induction h with
  | map keys _ ih =>
    simp only [MetaValue.inOrder, MetaValue.same, MetaValue.length_entriesInOrder,
      beq_self_eq_true, Bool.true_and]
    exact MetaValue.sameEntries_inOrder keys (fun _ h => h) ih
  | list _ ih => exact MetaValue.sameItems_inOrder ih
  | bool b => simp [MetaValue.inOrder, MetaValue.same]
  | string s => simp [MetaValue.inOrder, MetaValue.same]
  | inlines _ below => exact Tree.sameList_inOrder below
  | blocks _ below => exact Tree.sameList_inOrder below

/-- What reading a well-formed document gives is the same document. -/
theorem Document.WellFormed.same_asRead {d : Document} (h : d.WellFormed) (schema : Schema) :
    (d.asRead schema).same d := by
  rw [Document.same, Bool.and_eq_true]
  exact ⟨Tree.sameList_inOrder h.blocks, h.metadata.same_inOrder⟩

end DocFilter
