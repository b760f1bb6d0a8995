import DocFilter.Proofs.Codec.Decoded

/-!
# What writing gives

What is written of a tree in normal form is made of its data, so it has the properties that data has if its parts
have them: it can be denoted by a text, or shown in a message, if the data of the tree can.

* `legal_writeValue` is about one value, `legal_writeSlots` goes through the slots of a node.
* `Tree.Decoded.legal_written` is the induction over trees.  `MetaValue.Holds.legible_toJson` and
  `MetaValue.Over.short_toJson` are those over metadata.
-/

namespace DocFilter

/-! ## Trees -/

/-- A node whose contents, if it has any, have a property. -/
def Written.Legal (legal : Json → Prop) (w : Written) : Prop := ∀ json, w.contents = .ok json → legal json

section Write

variable {legal : Json → Prop} {w : Written} {ws : List Written} {json : Json} {items : List Json}

theorem legal_writeEnum (hlegal : Json.Composed legal) {name : Json} (h : legal name) : legal (writeEnum name) :=
  hlegal.obj (by simp) (List.forall_mem_singleton.mpr h)

theorem Written.Legal.node (h : w.Legal legal) (hlegal : Json.Composed legal) (hwrite : w.node = .ok json) :
    legal json := by
  rw [Written.node] at hwrite
  split at hwrite
  · cases hwrite
  · split at hwrite
    · cases hwrite
      exact hlegal.obj (by simp) (List.forall_mem_singleton.mpr (hlegal.str _))
    · obtain ⟨contents, hcontents, hwrite⟩ := bind_eq_ok_iff.mp hwrite
      cases hwrite
      exact hlegal.obj (by simp) (by simpa using ⟨hlegal.str _, h contents hcontents⟩)

theorem legal_nodes (hlegal : Json.Composed legal) (h : ∀ w ∈ ws, w.Legal legal)
    (hwrite : ws.mapM Written.node = .ok items) : legal (.arr items) := by
  refine hlegal.arr fun item hitem => ?_
  obtain ⟨w, hw, hnode⟩ := exists_of_mem_mapM hwrite item hitem
  exact (h w hw).node hlegal hnode

theorem legal_writeRun (hlegal : Json.Composed legal) {kind : Kind} {slot : Slot} (h : ∀ w ∈ ws, w.Legal legal)
    (hwrite : writeRun kind slot ws = .ok json) : legal json := by
  obtain ⟨-, -, hwrite⟩ := bind_eq_ok_iff.mp hwrite
  split at hwrite
  · obtain ⟨items, hitems, rfl⟩ := exists_of_map_eq_ok hwrite
    refine hlegal.arr fun item hitem => ?_
    obtain ⟨w, hw, hcontents⟩ := exists_of_mem_mapM hitems item hitem
    exact h w hw item hcontents
  · obtain ⟨items, hitems, rfl⟩ := exists_of_map_eq_ok hwrite
    exact legal_nodes hlegal h hitems

theorem legal_writeCitation (hlegal : Json.Composed legal) {c : Citation Tree}
    (hdata : legal c.id ∧ legal c.noteNum ∧ legal c.hash)
    (hinside : ∀ t ∈ c.before ++ c.after, t.written.Legal legal)
    (hwrite : writeCitation (c.map Tree.written) = .ok json) : legal json := by
  obtain ⟨before, hbefore, hwrite⟩ := bind_eq_ok_iff.mp hwrite
  obtain ⟨after, hafter, hwrite⟩ := bind_eq_ok_iff.mp hwrite
  cases hwrite
  have hlegalBefore := legal_nodes hlegal
    (List.forall_mem_map.mpr fun t ht => hinside t (List.mem_append_left _ ht)) hbefore
  have hlegalAfter := legal_nodes hlegal
    (List.forall_mem_map.mpr fun t ht => hinside t (List.mem_append_right _ ht)) hafter
  obtain ⟨hid, hnote, hhash⟩ := hdata
  refine hlegal.obj (by simp) ?_
  simp only [List.forall_mem_cons, List.not_mem_nil, false_implies, implies_true, and_true]
  exact ⟨hid, hlegalBefore, hlegalAfter, legal_writeEnum hlegal (hlegal.str _), hnote, hhash⟩

theorem legal_writeAttr (hlegal : Json.Composed legal) (a : Attr) : legal (writeAttr a) := by
  have hpairs : ∀ item ∈ a.attributes.map fun pair => Json.arr [.str pair.1, .str pair.2], legal item :=
    List.forall_mem_map.mpr fun pair _ => hlegal.strings [pair.1, pair.2]
  exact hlegal.arr (by simpa using ⟨hlegal.str _, hlegal.strings a.classes, hlegal.arr hpairs⟩)

/-- A value that its slot gives is written as data with the property of its data. -/
theorem legal_writeValue (hlegal : Json.Composed legal) {codec : Codec} {v : Value Tree} (h : codec.Gives legal v)
    (hinside : ∀ t ∈ v.nodes, t.written.Legal legal)
    (hwrite : writeValue codec (v.map Tree.written) = .ok json) : legal json := by
  obtain ⟨htakes, hdata⟩ := h
  cases htakes with
  | int n | text s =>
    cases hwrite
    exact hdata
  | attr a =>
    cases hwrite
    exact legal_writeAttr hlegal a
  | target t =>
    cases hwrite
    exact hlegal.strings [t.url, t.title]
  | @listAttributes l _ _ =>
    cases hwrite
    exact hlegal.arr (by simpa using
      ⟨hdata, legal_writeEnum hlegal (hlegal.str l.style), legal_writeEnum hlegal (hlegal.str l.delimiter)⟩)
  | enum _ =>
    cases hwrite
    exact legal_writeEnum hlegal hdata
  | enumList _ =>
    cases hwrite
    exact hlegal.arr (List.forall_mem_map.mpr fun name hname => legal_writeEnum hlegal (hlegal.mem hdata name hname))
  | floatList widths =>
    cases (congrArg (·.map Json.arr) (writeWidths_floats widths)).symm.trans hwrite
    exact hdata
  | @citations cs _ =>
    obtain ⟨items, hitems, rfl⟩ := exists_of_map_eq_ok hwrite
    refine hlegal.arr fun item hitem => ?_
    obtain ⟨w, hw, hone⟩ := exists_of_mem_mapM hitems item hitem
    obtain ⟨c, hc, rfl⟩ := List.mem_map.mp hw
    exact legal_writeCitation hlegal (hdata c hc) (fun t ht => hinside t (List.mem_flatMap.mpr ⟨c, hc, ht⟩)) hone

theorem legal_writeSlots (hlegal : Json.Composed legal) {kind : Kind} {payload : Payload Tree} {runSize : Nat}
    {slots : List Slot}
    (hvalues : ∀ name codec, .value name codec ∈ slots →
      ∃ v, Entries.find? name payload = some v ∧ codec.Gives legal v)
    (hinside : ∀ t ∈ Payload.nodes payload, t.written.Legal legal) (hbelow : ∀ w ∈ ws, w.Legal legal)
    (hwrite : writeSlots kind (payload.map Tree.written) runSize slots ws = .ok items) :
    ∀ item ∈ items, legal item := by
  induction slots generalizing ws items with
  | nil =>
    cases hwrite
    exact nofun
  | cons slot slots ih =>
    have ih := fun {ws items} => @ih ws items fun name codec hslot =>
      hvalues name codec (List.mem_cons_of_mem _ hslot)
    by_cases hrun : slot.isRun
    · rw [writeSlots_run hrun] at hwrite
      obtain ⟨field, hfield, hwrite⟩ := bind_eq_ok_iff.mp hwrite
      obtain ⟨fields, hfields, heq⟩ := bind_eq_ok_iff.mp hwrite
      cases heq
      exact List.forall_mem_cons.mpr
        ⟨legal_writeRun hlegal (fun w hw => hbelow w (List.mem_of_mem_take hw)) hfield,
          ih (fun w hw => hbelow w (List.mem_of_mem_drop hw)) hfields⟩
    · cases slot with
      | value name codec =>
        obtain ⟨v, hfind, hgives⟩ := hvalues name codec List.mem_cons_self
        rw [writeSlots, find?_map, hfind, Option.map_some] at hwrite
        obtain ⟨field, hfield, hwrite⟩ := bind_eq_ok_iff.mp hwrite
        obtain ⟨fields, hfields, heq⟩ := bind_eq_ok_iff.mp hwrite
        cases heq
        exact List.forall_mem_cons.mpr
          ⟨legal_writeValue hlegal hgives (fun t ht => hinside t (nodes_of_find? hfind t ht)) hfield,
            ih hbelow hfields⟩
      | part part =>
        cases ws with
        | nil => cases hwrite
        | cons w ws =>
          rw [writeSlots] at hwrite
          split at hwrite
          · obtain ⟨field, hfield, hwrite⟩ := bind_eq_ok_iff.mp hwrite
            obtain ⟨fields, hfields, heq⟩ := bind_eq_ok_iff.mp hwrite
            cases heq
            obtain ⟨hfirst, hrest⟩ := List.forall_mem_cons.mp hbelow
            exact List.forall_mem_cons.mpr ⟨hfirst field hfield, ih hrest hfields⟩
          · cases hwrite
      | _ => exact absurd rfl hrun

/-- A tree in normal form is written as data with the property of its data. -/
theorem Tree.Decoded.legal_written (hlegal : Json.Composed legal) {t : Tree} (h : t.Decoded legal) :
    t.written.Legal legal := by
  induction h with
  | @node kind payload children layout names values inline inside below ihInside ihBelow =>
    intro json hwrite
    rw [Tree.written, Tree.fold_node] at hwrite
    have hwrite : writeContents kind (Payload.map Tree.written payload) (children.map Tree.written) =
        .ok json := hwrite
    rw [writeContents] at hwrite
    split at hwrite
    · cases hwrite
      exact hlegal.null
    · split at hwrite
      · cases hwrite
      · obtain ⟨fields, hfields, hwrite⟩ := bind_eq_ok_iff.mp hwrite
        have hall := legal_writeSlots hlegal values ihInside (List.forall_mem_map.mpr ihBelow) hfields
        split at hwrite
        · cases hwrite
          exact hall _ List.mem_cons_self
        · cases hwrite
          exact hlegal.arr hall

end Write

/-! ## Metadata -/

namespace MetaValue

theorem legible_tagged (tag : String) {contents : Json} (h : contents.Legible) :
    (tagged tag contents).Legible :=
  .obj (by simp) (by simpa using ⟨Json.Legible.str tag, h⟩)

theorem legal_writeNodes {legal : Json → Prop} (hlegal : Json.Composed legal) {nodes : List Tree} {json : Json}
    (h : ∀ t ∈ nodes, t.written.Legal legal) (hwrite : writeNodes nodes = .ok json) : legal json := by
  obtain ⟨items, hitems, heq⟩ := bind_eq_ok_iff.mp hwrite
  cases heq
  refine hlegal.arr fun item hitem => ?_
  obtain ⟨t, ht, hone⟩ := exists_of_mem_mapM hitems item hitem
  exact (h t ht).node hlegal hone

/-- Entries are written under their names, as what their values are written as. -/
theorem forall_entriesToJson {good : Json → Prop} {entries : List (String × MetaValue)}
    {jsons : List (String × Json)} (h : ∀ entry ∈ entries, ∀ json, entry.2.toJson = .ok json → good json)
    (hwrite : entriesToJson entries = .ok jsons) :
    jsons.map (·.1) = entries.map (·.1) ∧ ∀ entry ∈ jsons, good entry.2 := by
  induction entries generalizing jsons with
  | nil =>
    cases hwrite
    exact ⟨rfl, nofun⟩
  | cons entry entries ih =>
    obtain ⟨json, hjson, hwrite⟩ := bind_eq_ok_iff.mp hwrite
    obtain ⟨rest, hrest, heq⟩ := bind_eq_ok_iff.mp hwrite
    cases heq
    obtain ⟨hfirst, hlater⟩ := List.forall_mem_cons.mp h
    obtain ⟨hkeys, hbelow⟩ := ih hlater hrest
    exact ⟨congrArg (entry.1 :: ·) hkeys, List.forall_mem_cons.mpr ⟨hfirst json hjson, hbelow⟩⟩

/-- Items are written as what they are written as one by one. -/
theorem forall_itemsToJson {good : Json → Prop} {items : List MetaValue} {jsons : List Json}
    (h : ∀ item ∈ items, ∀ json, item.toJson = .ok json → good json)
    (hwrite : itemsToJson items = .ok jsons) : ∀ json ∈ jsons, good json := by
  induction items generalizing jsons with
  | nil =>
    cases hwrite
    exact nofun
  | cons item items ih =>
    obtain ⟨json, hjson, hwrite⟩ := bind_eq_ok_iff.mp hwrite
    obtain ⟨rest, hrest, heq⟩ := bind_eq_ok_iff.mp hwrite
    cases heq
    obtain ⟨hfirst, hlater⟩ := List.forall_mem_cons.mp h
    exact List.forall_mem_cons.mpr ⟨hfirst json hjson, ih hlater hrest⟩

/-- Metadata over trees that are written as legible data is written as legible data. -/
theorem Holds.legible_toJson {m : MetaValue} {json : Json} (h : m.Holds fun t => t.written.Legal Json.Legible)
    (hwrite : m.toJson = .ok json) : json.Legible := by
  induction h generalizing json with
  | map keys _ ih =>
    obtain ⟨jsons, hjsons, heq⟩ := bind_eq_ok_iff.mp hwrite
    cases heq
    obtain ⟨hkeys, hbelow⟩ := forall_entriesToJson (fun entry hentry json => ih entry hentry) hjsons
    exact legible_tagged _ (.obj (hkeys ▸ keys) hbelow)
  | list _ ih =>
    obtain ⟨jsons, hjsons, heq⟩ := bind_eq_ok_iff.mp hwrite
    cases heq
    exact legible_tagged _ (.arr (forall_itemsToJson (fun item hitem json => ih item hitem) hjsons))
  | bool b =>
    cases hwrite
    exact legible_tagged _ (.bool b)
  | string s =>
    cases hwrite
    exact legible_tagged _ (.str s)
  | inlines _ each | blocks _ each =>
    obtain ⟨contents, hcontents, rfl⟩ := exists_of_map_eq_ok hwrite
    exact legible_tagged _ (legal_writeNodes Json.composed_legible each hcontents)

/-- Metadata over trees that are written as data that can be shown is written as such data, also with a name twice
in a map. -/
theorem Over.short_toJson {m : MetaValue} {json : Json}
    (h : m.Over (·.written.Legal (·.holdsLong = false)) (·.written.Legal (·.holdsLong = false)))
    (hwrite : m.toJson = .ok json) : json.holdsLong = false := by
  induction h generalizing json with
  | map _ ih =>
    obtain ⟨jsons, hjsons, heq⟩ := bind_eq_ok_iff.mp hwrite
    cases heq
    obtain ⟨-, hbelow⟩ := forall_entriesToJson (fun entry hentry json => ih entry hentry) hjsons
    exact (holdsLong_tagged _ _).trans (Json.entriesHoldLong_eq_false_iff.mpr hbelow)
  | list _ ih =>
    obtain ⟨jsons, hjsons, heq⟩ := bind_eq_ok_iff.mp hwrite
    cases heq
    have hbelow := forall_itemsToJson (fun item hitem json => ih item hitem) hjsons
    exact (holdsLong_tagged _ _).trans (Json.itemsHoldLong_eq_false_iff.mpr hbelow)
  | bool b | string s =>
    cases hwrite
    rfl
  | inlines each | blocks each =>
    obtain ⟨contents, hcontents, rfl⟩ := exists_of_map_eq_ok hwrite
    exact (holdsLong_tagged _ _).trans (legal_writeNodes Json.composed_short each hcontents)

end MetaValue

end DocFilter
