import DocFilter.Proofs.Codec.DocumentRoundTrip
import DocFilter.Proofs.Codec.Filled
import DocFilter.Proofs.Codec.Sources

/-!
# Reading what could be written

The writer does not look at every place that the reader looks at: it lets any nodes stand at the sides of a
citation, and in inline and block values of metadata, and any whole numbers, some of which the reader cannot show
in a message.  Here is said exactly which documents are read again once they could be written.

* `Tree.Readable` are the trees with inlines at the sides of citations, `Document.Readable` the documents over
  such trees with inlines in inline values, blocks in block values, and a version if the layout shows one.
* `Filled.accepted_iff` goes through the slots of a node, `Tree.Typed.accepted` is the induction over trees, and
  `MetaValue.accepted_iff` the one over metadata.
* `Document.Typed.accepted_again_iff` is the main result.
-/

namespace DocFilter

/-! ## Trees -/

/-- A tree that has inlines at the sides of its citations.  What stands below a node of a kind without slots
does not count, for it is not written. -/
inductive Tree.Readable : Tree → Prop
  | bare {kind payload children} (hnone : kind.layout = []) : Readable (.node kind payload children)
  | node {kind payload children} (inline : ∀ t ∈ Payload.nodes (kind.arrange payload), t.kind.isInline)
      (inside : ∀ t ∈ Payload.nodes (kind.arrange payload), Readable t) (below : ∀ t ∈ children, Readable t) :
      Readable (.node kind payload children)

/-- Once the contents of the tree could be written, reading them with enough fuel succeeds exactly if the tree
is readable, provided that the contents can be shown. -/
def Tree.Accepted (t : Tree) : Prop := ∀ contents, t.written.contents = .ok contents →
  ∀ fuel, contents.depth ≤ fuel → contents.holdsLong = false →
    (Succeeds (readContents fuel t.kind contents) ↔ t.Readable)

section Read

variable {kind : Kind} {payload : Payload Tree} {children : List Tree} {slots : List Slot} {slot : Slot} {t : Tree}
  {ts : List Tree} {fields items : List Json} {json : Json} {fuel : Nat} {context name : String} {codec : Codec}
  {v : Value Tree}

/-- Reading a node that was written is reading its contents, if it can be shown. -/
theorem readNode_written (h : t.written.node = .ok json) : t.kind.isTagged ∧
    ∃ contents, t.written.contents = .ok contents ∧ contents.depth ≤ json.depth ∧
      json.holdsLong = contents.holdsLong ∧ ∀ read, readNode read json = showing json (read t.kind contents) := by
  rw [Written.node, Tree.kind_written] at h
  split at h
  · cases h
  · rename_i htag
    have htag : t.kind.isTagged = true := by simpa using htag
    refine ⟨htag, ?_⟩
    split at h
    · rename_i hempty
      cases h
      refine ⟨.null, t.contents_written_of_isEmpty hempty, ?_, rfl, fun read => ?_⟩
      · simp only [Json.depth, Json.depthEntries]
        omega
      · simp [readNode, Entries.find?, Json.str?, Kind.ofName?_name htag, List.lookup_cons, hempty]
    · obtain ⟨contents, hcontents, heq⟩ := bind_eq_ok_iff.mp h
      cases heq
      refine ⟨contents, hcontents, ?_, ?_, fun read => ?_⟩
      · simp only [Json.depth, Json.depthEntries]
        omega
      · simp [Json.holdsLong, Json.entriesHoldLong]
      · simp [readNode, Entries.find?, Json.str?, Kind.ofName?_name htag, List.lookup_cons]

/-- A written node is read in a run exactly if it is readable and fits the run. -/
theorem Tree.Accepted.member (h : t.Accepted) (hwrite : t.written.node = .ok json) (hfuel : json.depth ≤ fuel)
    (hshort : json.holdsLong = false) :
    Succeeds (readMember (readContents fuel) context slot json) ↔ slot.admits t.kind ∧ t.Readable := by
  obtain ⟨-, contents, hcontents, hdepth, hlong, hread⟩ := readNode_written hwrite
  have hread (read) : readNode read json = read t.kind contents := (hread read).trans (showing_of_short hshort)
  have haccepted := h contents hcontents fuel (by omega) (hlong ▸ hshort)
  constructor
  · rintro ⟨u, hu⟩
    obtain ⟨hu, hadmits⟩ := readMember_eq_ok_iff.mp hu
    rw [hread] at hu
    exact ⟨kind_of_readContents hu ▸ hadmits, haccepted.mp ⟨u, hu⟩⟩
  · rintro ⟨hadmits, hreadable⟩
    obtain ⟨u, hu⟩ := haccepted.mpr hreadable
    exact ⟨u, readMember_eq_ok_iff.mpr ⟨(hread _).trans hu, (kind_of_readContents hu).symm ▸ hadmits⟩⟩

/-- A list of written nodes is read in a run exactly if they are readable and fit the run. -/
theorem accepted_members (h : ∀ t ∈ ts, t.Accepted)
    (hwrite : (ts.map Tree.written).mapM Written.node = .ok items) (hfuel : Json.depthItems items ≤ fuel)
    (hshort : Json.itemsHoldLong items = false) :
    Succeeds (items.mapM (readMember (readContents fuel) context slot)) ↔
      ∀ t ∈ ts, slot.admits t.kind ∧ t.Readable := by
  rw [List.mapM_map] at hwrite
  exact succeeds_mapM_of_mapM hwrite fun t ht item hitem hnode =>
    (h t ht).member hnode (Nat.le_trans (Json.depth_le_depthItems hitem) hfuel)
      (Json.itemsHoldLong_eq_false_iff.mp hshort item hitem)

/-- A written run is read exactly if its members are readable. -/
theorem accepted_run (hrun : slot.isRun) (h : ∀ t ∈ ts, t.Accepted)
    (hwrite : writeRun kind slot (ts.map Tree.written) = .ok json) (hfuel : json.depth ≤ fuel + 1)
    (hshort : json.holdsLong = false) :
    Succeeds (readRun (readContents fuel) context slot json) ↔ ∀ t ∈ ts, t.Readable := by
  have hadmits := admits_of_writeRun hwrite
  obtain ⟨-, -, hwrite⟩ := bind_eq_ok_iff.mp hwrite
  have hfits : (∀ t ∈ ts, slot.admits t.kind ∧ t.Readable) ↔ ∀ t ∈ ts, t.Readable :=
    forall₂_congr fun t ht => and_iff_right (hadmits t ht)
  cases slot with
  | value name codec => cases hrun
  | part part => cases hrun
  | parts part =>
    obtain ⟨items, hitems, rfl⟩ := exists_of_map_eq_ok hwrite
    rw [List.mapM_map] at hitems
    rw [Json.depth] at hfuel
    refine succeeds_mapM_of_mapM hitems fun t ht item hitem hcontents => ?_
    have hkind : t.kind = part := by simpa [Slot.admits] using hadmits t ht
    have hdepth := Json.depth_le_depthItems hitem
    rw [← hkind]
    exact h t ht item hcontents fuel (by omega) (Json.itemsHoldLong_eq_false_iff.mp hshort item hitem)
  | inlines | blocks =>
    obtain ⟨items, hitems, rfl⟩ := exists_of_map_eq_ok hwrite
    rw [Json.depth] at hfuel
    rw [← hfits]
    exact accepted_members h hitems (by omega) hshort

/-- A written citation is read exactly if its sides are readable inlines. -/
theorem accepted_citation {c : Citation Tree} (hmode : c.mode ∈ citationModes)
    (h : ∀ t ∈ c.before ++ c.after, t.Accepted) (hwrite : writeCitation (c.map Tree.written) = .ok json)
    (hfuel : json.depth ≤ fuel) (hshort : json.holdsLong = false) :
    Succeeds (readCitation (readContents fuel) context json) ↔
      ∀ t ∈ c.before ++ c.after, t.kind.isInline ∧ t.Readable := by
  obtain ⟨before, hbefore, hwrite⟩ := bind_eq_ok_iff.mp hwrite
  obtain ⟨after, hafter, hwrite⟩ := bind_eq_ok_iff.mp hwrite
  have hjson := Except.ok.inj hwrite
  have hdepth : Json.depthItems before ≤ fuel ∧ Json.depthItems after ≤ fuel := by
    rw [← hjson] at hfuel
    simp only [Json.depth, Json.depthEntries] at hfuel
    omega
  have hcitation : readCitation (readContents fuel) context json = (do
      let before ← before.mapM (readMember (readContents fuel) context .inlines)
      let after ← after.mapM (readMember (readContents fuel) context .inlines)
      .ok ⟨c.id, before, after, c.mode, c.noteNum, c.hash⟩) := by
    rw [readCitation, showing_of_short hshort, ← hjson]
    simp [Json.get?, Entries.find?, List.lookup_cons, readRun, readEnum_writeEnum hmode, Citation.map, bind,
      Except.bind]
  have hshortBefore : (Json.arr before).holdsLong = false := by
    rw [← hjson] at hshort
    exact Json.holdsLong_get? "citationPrefix" hshort rfl
  have hshortAfter : (Json.arr after).holdsLong = false := by
    rw [← hjson] at hshort
    exact Json.holdsLong_get? "citationSuffix" hshort rfl
  obtain ⟨hsideBefore, hsideAfter⟩ := List.forall_mem_append.mp h
  have hreadBefore : Succeeds (before.mapM (readMember (readContents fuel) context .inlines)) ↔
      ∀ t ∈ c.before, t.kind.isInline ∧ t.Readable := accepted_members hsideBefore hbefore hdepth.1 hshortBefore
  have hreadAfter : Succeeds (after.mapM (readMember (readContents fuel) context .inlines)) ↔
      ∀ t ∈ c.after, t.kind.isInline ∧ t.Readable := accepted_members hsideAfter hafter hdepth.2 hshortAfter
  rw [hcitation, List.forall_mem_append]
  constructor
  · intro hread
    obtain ⟨us, hus, hread⟩ := succeeds_bind_iff.mp hread
    obtain ⟨vs, hvs, -⟩ := succeeds_bind_iff.mp hread
    exact ⟨hreadBefore.mp ⟨us, hus⟩, hreadAfter.mp ⟨vs, hvs⟩⟩
  · rintro ⟨hbefore, hafter⟩
    obtain ⟨us, hus⟩ := hreadBefore.mpr hbefore
    obtain ⟨vs, hvs⟩ := hreadAfter.mpr hafter
    rw [hus, hvs]
    exact succeeds_ok _

/-- A written value of the right sort is read exactly if the nodes inside it are readable inlines. -/
theorem Codec.Takes.accepted (h : codec.Takes v) (hinside : ∀ t ∈ v.nodes, t.Accepted)
    (hwrite : writeValue codec (v.map Tree.written) = .ok json) (hfuel : json.depth ≤ fuel + 1)
    (hshort : json.holdsLong = false) :
    Succeeds (readValue (readContents fuel) context name codec json) ↔
      ∀ t ∈ v.nodes, t.kind.isInline ∧ t.Readable := by
  have hback : v.nodes = [] → (Succeeds (readValue (readContents fuel) context name codec json) ↔
      ∀ t ∈ v.nodes, t.kind.isInline ∧ t.Readable) := by
    intro hnone
    obtain ⟨json', hwrite', hread⟩ : v.Restored codec := h.restored (by simp [hnone]) (by simp [hnone])
    obtain rfl : json' = json := Except.ok.inj (hwrite'.symm.trans hwrite)
    rw [hnone]
    exact ⟨fun _ => nofun, fun _ => ⟨_, hread fuel context name hfuel hshort⟩⟩
  cases h with
  | @citations cs modes =>
    obtain ⟨items, hitems, rfl⟩ := exists_of_map_eq_ok hwrite
    rw [List.mapM_map] at hitems
    rw [Json.depth] at hfuel
    have hall : Succeeds (items.mapM (readCitation (readContents fuel) context)) ↔
        ∀ c ∈ cs, ∀ t ∈ c.before ++ c.after, t.kind.isInline ∧ t.Readable := by
      refine succeeds_mapM_of_mapM hitems fun c hc item hitem hcitation => ?_
      have hdepth := Json.depth_le_depthItems hitem
      exact accepted_citation (modes c hc) (fun t ht => hinside t (List.mem_flatMap.mpr ⟨c, hc, ht⟩)) hcitation
        (by omega) (Json.itemsHoldLong_eq_false_iff.mp hshort item hitem)
    have hvalue : Succeeds (readValue (readContents fuel) context name .citations (.arr items)) ↔
        Succeeds (items.mapM (readCitation (readContents fuel) context)) := by
      rw [readValue, succeeds_bind_iff]
      exact exists_congr fun us => and_iff_left (succeeds_ok _)
    rw [hvalue, hall]
    exact List.forall_mem_flatMap.symm
  | _ => exact hback rfl

/-- The values of slots, as far as there are any, have a property. -/
def EachValue (slots : List Slot) (payload : Payload Tree) (good : Codec → Value Tree → Prop) : Prop :=
  ∀ name codec v, .value name codec ∈ slots → Entries.find? name payload = some v → good codec v

theorem eachValue_value_iff {good : Codec → Value Tree → Prop} (found : Entries.find? name payload = some v) :
    EachValue (.value name codec :: slots) payload good ↔ good codec v ∧ EachValue slots payload good := by
  constructor
  · exact fun h => ⟨h name codec v List.mem_cons_self found,
      fun n c w hslot => h n c w (List.mem_cons_of_mem _ hslot)⟩
  · rintro ⟨hfirst, hlater⟩ n c w hslot hfind
    rcases List.mem_cons.mp hslot with heq | hslot
    · cases heq
      obtain rfl : v = w := Option.some.inj (found.symm.trans hfind)
      exact hfirst
    · exact hlater n c w hslot hfind

theorem eachValue_skip_iff {good : Codec → Value Tree → Prop} (hname : slot.name? = none) :
    EachValue (slot :: slots) payload good ↔ EachValue slots payload good := by
  constructor
  · exact fun h n c w hslot => h n c w (List.mem_cons_of_mem _ hslot)
  · intro h n c w hslot
    refine h n c w ((List.mem_cons.mp hslot).resolve_left ?_)
    rintro rfl
    cases hname

/-- The written fields of a node are read exactly if the nodes inside its values are readable inlines and its
children are readable. -/
theorem Filled.accepted_iff (h : Filled kind payload slots ts fields)
    (htypes : EachValue slots payload fun codec v => codec.Takes v)
    (hinside : EachValue slots payload fun _ v => ∀ t ∈ v.nodes, t.Accepted)
    (hts : ∀ t ∈ ts, t.Accepted) (hfuel : FuelFor fuel (slots.zip fields))
    (hshort : Json.itemsHoldLong fields = false) :
    Succeeds (readSlots (readContents fuel) kind (slots.zip fields)) ↔
      (EachValue slots payload fun _ v => ∀ t ∈ v.nodes, t.kind.isInline ∧ t.Readable) ∧
        ∀ t ∈ ts, t.Readable := by
  induction h with
  | nil => exact ⟨fun _ => ⟨nofun, nofun⟩, fun _ => succeeds_ok _⟩
  | @value name codec v field slots ts fields found written rest ih =>
    rw [eachValue_value_iff found] at htypes hinside ⊢
    obtain ⟨hshort, hshorts⟩ := Bool.or_eq_false_iff.mp hshort
    have hvalue : Succeeds (readValue (readContents fuel) kind.name name codec field) ↔
        ∀ t ∈ v.nodes, t.kind.isInline ∧ t.Readable :=
      htypes.1.accepted hinside.1 written (hfuel _ List.mem_cons_self).1 hshort
    rw [List.zip_cons_cons, readSlots, succeeds_both_iff fun _ _ => succeeds_ok _, hvalue,
      ih htypes.2 hinside.2 hts hfuel.tail hshorts, and_assoc]
  | @part t field slots ts fields written rest ih =>
    rw [eachValue_skip_iff rfl] at htypes hinside ⊢
    obtain ⟨hfirst, hlater⟩ := List.forall_mem_cons.mp hts
    obtain ⟨hshort, hshorts⟩ := Bool.or_eq_false_iff.mp hshort
    have hpart := hfirst field written fuel ((hfuel _ List.mem_cons_self).2 rfl) hshort
    rw [List.zip_cons_cons, readSlots, succeeds_both_iff fun _ _ => succeeds_ok _, hpart,
      ih htypes hinside hlater hfuel.tail hshorts, List.forall_mem_cons]
    exact and_left_comm
  | @run slot members field slots ts fields hrun written rest ih =>
    have hname : slot.name? = none := Slot.name?_of_isRun hrun
    rw [eachValue_skip_iff hname] at htypes hinside ⊢
    obtain ⟨hmembers, hlater⟩ := List.forall_mem_append.mp hts
    obtain ⟨hshort, hshorts⟩ := Bool.or_eq_false_iff.mp hshort
    have hfirst : Succeeds (readRun (readContents fuel) kind.name slot field) ↔ ∀ t ∈ members, t.Readable :=
      accepted_run hrun hmembers written (hfuel _ List.mem_cons_self).1 hshort
    rw [List.zip_cons_cons, readSlots_run hrun, succeeds_both_iff fun _ _ => succeeds_ok _, hfirst,
      ih htypes hinside hlater hfuel.tail hshorts, List.forall_mem_append]
    exact and_left_comm

theorem Kind.exists_of_mem_nodes_arrange (h : t ∈ Payload.nodes (kind.arrange payload)) :
    ∃ name codec v, .value name codec ∈ kind.layout ∧ Entries.find? name payload = some v ∧ t ∈ v.nodes := by
  obtain ⟨entry, hentry, ht⟩ := List.mem_flatMap.mp h
  obtain ⟨hname, hfind⟩ := Kind.mem_arrange hentry
  obtain ⟨codec, hslot⟩ := Kind.exists_slot_of_mem_payloadNames hname
  exact ⟨entry.1, codec, entry.2, hslot, hfind, ht⟩

theorem Tree.readable_node_iff (hne : kind.layout ≠ []) : (Tree.node kind payload children).Readable ↔
    (∀ t ∈ Payload.nodes (kind.arrange payload), t.kind.isInline ∧ t.Readable) ∧ ∀ t ∈ children, t.Readable := by
  constructor
  · intro h
    cases h with
    | bare hnone => exact absurd hnone hne
    | node inline inside below => exact ⟨fun t ht => ⟨inline t ht, inside t ht⟩, below⟩
  · rintro ⟨hinside, hbelow⟩
    exact .node (fun t ht => (hinside t ht).1) (fun t ht => (hinside t ht).2) hbelow

/-- A tree with values of the right sort is read once it was written exactly if it is readable. -/
theorem Tree.Typed.accepted (h : t.Typed) : t.Accepted := by
  induction h with
  | @node kind payload children values inside below ihInside ihBelow =>
    intro contents hwrite fuel hfuel hshort
    obtain ⟨fuel, rfl⟩ : ∃ rest, fuel = rest + 1 := ⟨fuel - 1, by have := contents.depth_pos; omega⟩
    rw [Tree.kind, readContents]
    obtain ⟨hnone, rfl⟩ | ⟨hne, fields, rfl, hfilled⟩ := Tree.filled_of_written hwrite
    · have hfields : contentFields kind .null = .ok [] := by rw [contentFields, hnone]
      rw [hfields, hnone]
      exact ⟨fun _ => .bare hnone, fun _ => succeeds_ok _⟩
    · rw [contentFields_of_length hfilled.length_eq hne hshort]
      show Succeeds (readSlots (readContents fuel) kind (kind.layout.zip fields) >>= _) ↔ _
      have hslots := hfilled.accepted_iff values
        (fun name codec v hslot hfind t ht => ihInside t (Kind.mem_nodes_arrange hslot hfind t ht)) ihBelow
        (fuelFor_of_contents hfilled.length_eq hfuel) (Json.holdsLong_ofFields fields ▸ hshort)
      rw [succeeds_bind_iff, Tree.readable_node_iff hne]
      constructor
      · rintro ⟨read, hread, -⟩
        obtain ⟨hvalues, hbelow⟩ := hslots.mp ⟨read, hread⟩
        refine ⟨fun t ht => ?_, hbelow⟩
        obtain ⟨name, codec, v, hslot, hfind, ht⟩ := Kind.exists_of_mem_nodes_arrange ht
        exact hvalues name codec v hslot hfind t ht
      · rintro ⟨hinside, hbelow⟩
        obtain ⟨read, hread⟩ := hslots.mpr ⟨fun name codec v hslot hfind t ht =>
          hinside t (Kind.mem_nodes_arrange hslot hfind t ht), hbelow⟩
        exact ⟨read, hread, succeeds_ok _⟩

end Read

/-! ## Metadata -/

namespace MetaValue

/-- Metadata over trees with values of the right sort. -/
def Typed (m : MetaValue) : Prop := m.Over Tree.Typed Tree.Typed

/-- Metadata with readable inlines in inline values and readable blocks in block values. -/
def Readable (m : MetaValue) : Prop :=
  m.Over (fun t => t.kind.isInline ∧ t.Readable) (fun t => t.kind.isBlock ∧ t.Readable)

variable {m : MetaValue} {json : Json} {fuel : Nat}

/-- The nodes of a metadata value are read as they are in a run, and each is shown. -/
theorem accepted_nodes {nodes : List Tree} {slot : Slot} {context : String}
    (hslot : ∀ read items, readRun read context slot (.arr items) = items.mapM (readMember read context slot))
    (h : ∀ t ∈ nodes, t.Typed) (hwrite : writeNodes nodes = .ok json) :
    Succeeds (Tree.listOfJson context slot json) ↔
      json.holdsLong = false ∧ ∀ t ∈ nodes, slot.admits t.kind ∧ t.Readable := by
  obtain ⟨items, hitems, heq⟩ := bind_eq_ok_iff.mp hwrite
  cases heq
  rw [Tree.listOfJson, hslot]
  have hdepth : Json.depthItems items ≤ (Json.arr items).depth := by
    rw [Json.depth]
    omega
  have hread (hshort : Json.itemsHoldLong items = false) :
      Succeeds (items.mapM (readMember (readContents (Json.arr items).depth) context slot)) ↔
        ∀ t ∈ nodes, slot.admits t.kind ∧ t.Readable :=
    accepted_members (fun t ht => (h t ht).accepted) (by rw [List.mapM_map]; exact hitems) hdepth hshort
  constructor
  · intro hsome
    have hshort := short_of_readMembers hsome
    exact ⟨hshort, (hread hshort).mp hsome⟩
  · rintro ⟨hshort, hall⟩
    exact (hread hshort).mpr hall

theorem accepted_items {items : List MetaValue} {jsons : List Json}
    (h : ∀ item ∈ items, ∀ json, item.toJson = .ok json → json.depth ≤ fuel →
      (Succeeds (read fuel json) ↔ json.holdsLong = false ∧ item.Readable))
    (hwrite : itemsToJson items = .ok jsons) (hfuel : Json.depthItems jsons ≤ fuel) :
    Succeeds (readItems (read fuel) jsons) ↔
      Json.itemsHoldLong jsons = false ∧ ∀ item ∈ items, item.Readable := by
  induction items generalizing jsons with
  | nil =>
    cases hwrite
    exact ⟨fun _ => ⟨rfl, nofun⟩, fun _ => succeeds_ok _⟩
  | cons item items ih =>
    obtain ⟨json, hjson, hwrite⟩ := bind_eq_ok_iff.mp hwrite
    obtain ⟨rest, hrest, heq⟩ := bind_eq_ok_iff.mp hwrite
    cases heq
    rw [Json.depthItems] at hfuel
    obtain ⟨hfirst, hlater⟩ := List.forall_mem_cons.mp h
    rw [readItems, succeeds_both_iff fun _ _ => succeeds_ok _, hfirst json hjson (by omega),
      ih hlater hrest (by omega), List.forall_mem_cons, Json.itemsHoldLong, Bool.or_eq_false_iff]
    exact and_and_and_comm

theorem accepted_entries {entries : List (String × MetaValue)} {jsons : List (String × Json)}
    (h : ∀ entry ∈ entries, ∀ json, entry.2.toJson = .ok json → json.depth ≤ fuel →
      (Succeeds (read fuel json) ↔ json.holdsLong = false ∧ entry.2.Readable))
    (hwrite : entriesToJson entries = .ok jsons) (hfuel : Json.depthEntries jsons ≤ fuel) :
    Succeeds (readEntries (read fuel) jsons) ↔
      Json.entriesHoldLong jsons = false ∧ ∀ entry ∈ entries, entry.2.Readable := by
  induction entries generalizing jsons with
  | nil =>
    cases hwrite
    exact ⟨fun _ => ⟨rfl, nofun⟩, fun _ => succeeds_ok _⟩
  | cons entry entries ih =>
    obtain ⟨json, hjson, hwrite⟩ := bind_eq_ok_iff.mp hwrite
    obtain ⟨rest, hrest, heq⟩ := bind_eq_ok_iff.mp hwrite
    cases heq
    rw [Json.depthEntries] at hfuel
    obtain ⟨hfirst, hlater⟩ := List.forall_mem_cons.mp h
    rw [readEntries, succeeds_both_iff fun _ _ => succeeds_ok _, hfirst json hjson (by omega),
      ih hlater hrest (by omega), List.forall_mem_cons, Json.entriesHoldLong, Bool.or_eq_false_iff]
    exact and_and_and_comm

/-- A step that is taken after some reading does not keep it from succeeding. -/
theorem succeeds_andThen {α β : Type} {x : Except CodecError α} {f : α → β} :
    Succeeds (x >>= fun a => .ok (f a)) ↔ Succeeds x := by
  rw [succeeds_bind_iff]
  exact exists_congr fun a => and_iff_left (succeeds_ok _)

/-- Metadata with values of the right sort is read once it was written exactly if it is readable and can be
shown. -/
theorem Typed.accepted_iff (h : m.Typed) (hwrite : m.toJson = .ok json) (hfuel : json.depth ≤ fuel) :
    Succeeds (read fuel json) ↔ json.holdsLong = false ∧ m.Readable := by
  induction h generalizing json fuel with
  | map below ih =>
    obtain ⟨jsons, hjsons, heq⟩ := bind_eq_ok_iff.mp hwrite
    cases heq
    have hdepth := depth_tagged "MetaMap" (.obj jsons)
    obtain ⟨fuel, rfl⟩ : ∃ rest, fuel = rest + 1 := ⟨fuel - 1, by omega⟩
    rw [Json.depth] at hdepth
    show Succeeds (readEntries (read fuel) jsons >>= fun entries => .ok (some (MetaValue.map entries))) ↔ _
    rw [succeeds_andThen, Readable, over_map_iff, holdsLong_tagged, Json.holdsLong]
    exact accepted_entries (fun entry hentry json hjson hlow => ih entry hentry hjson hlow) hjsons (by omega)
  | list below ih =>
    obtain ⟨jsons, hjsons, heq⟩ := bind_eq_ok_iff.mp hwrite
    cases heq
    have hdepth := depth_tagged "MetaList" (.arr jsons)
    obtain ⟨fuel, rfl⟩ : ∃ rest, fuel = rest + 1 := ⟨fuel - 1, by omega⟩
    rw [Json.depth] at hdepth
    show Succeeds (readItems (read fuel) jsons >>= fun items => .ok (some (MetaValue.list items))) ↔ _
    rw [succeeds_andThen, Readable, over_list_iff, holdsLong_tagged, Json.holdsLong]
    exact accepted_items (fun item hitem json hjson hlow => ih item hitem hjson hlow) hjsons (by omega)
  | bool b =>
    cases hwrite
    have hdepth := depth_tagged "MetaBool" (.bool b)
    obtain ⟨fuel, rfl⟩ : ∃ rest, fuel = rest + 1 := ⟨fuel - 1, by omega⟩
    exact ⟨fun _ => ⟨rfl, .bool b⟩, fun _ => ⟨some (.bool b), rfl⟩⟩
  | string s =>
    cases hwrite
    have hdepth := depth_tagged "MetaString" (.str s)
    obtain ⟨fuel, rfl⟩ : ∃ rest, fuel = rest + 1 := ⟨fuel - 1, by omega⟩
    exact ⟨fun _ => ⟨rfl, .string s⟩, fun _ => ⟨some (.string s), rfl⟩⟩
  | inlines each =>
    obtain ⟨contents, hcontents, rfl⟩ := exists_of_map_eq_ok hwrite
    have hdepth := depth_tagged "MetaInlines" contents
    obtain ⟨fuel, rfl⟩ : ∃ rest, fuel = rest + 1 := ⟨fuel - 1, by omega⟩
    show Succeeds (Tree.listOfJson "MetaInlines" .inlines contents >>= fun nodes =>
      .ok (some (MetaValue.inlines nodes))) ↔ _
    rw [succeeds_andThen, Readable, over_inlines_iff, holdsLong_tagged]
    exact accepted_nodes (fun _ _ => rfl) each hcontents
  | blocks each =>
    obtain ⟨contents, hcontents, rfl⟩ := exists_of_map_eq_ok hwrite
    have hdepth := depth_tagged "MetaBlocks" contents
    obtain ⟨fuel, rfl⟩ : ∃ rest, fuel = rest + 1 := ⟨fuel - 1, by omega⟩
    show Succeeds (Tree.listOfJson "MetaBlocks" .blocks contents >>= fun nodes =>
      .ok (some (MetaValue.blocks nodes))) ↔ _
    rw [succeeds_andThen, Readable, over_blocks_iff, holdsLong_tagged]
    exact accepted_nodes (fun _ _ => rfl) each hcontents

end MetaValue

/-! ## Documents -/

namespace Document

variable {d : Document} {schema : Schema} {json : Json}

/-- A document whose trees have values of the right sort, those in its metadata included. -/
structure Typed (d : Document) : Prop where
  blocks : ∀ t ∈ d.blocks, t.Typed
  metadata : (MetaValue.map d.metadata).Typed

/-- A document over readable trees, with inlines in inline values and blocks in block values of its metadata, and
with a version if the layout shows it. -/
structure Readable (d : Document) (schema : Schema) : Prop where
  blocks : ∀ t ∈ d.blocks, t.Readable
  metadata : (MetaValue.map d.metadata).Readable
  version : schema = .v2 → d.version ≠ []

theorem succeeds_readVersion_iff {version : List Int} :
    Succeeds (readVersion (.arr (version.map .int))) ↔
      (Json.arr (version.map .int)).holdsLong = false ∧ version ≠ [] := by
  constructor
  · intro h
    obtain ⟨hshort, read, hread⟩ := succeeds_showing_iff.mp h
    refine ⟨hshort, ?_⟩
    rintro rfl
    cases hread
  · rintro ⟨hshort, hne⟩
    exact ⟨version, (readVersion_ints hne).trans (showing_of_short hshort)⟩

/-- The parts of a document with values of the right sort are read exactly if they are readable and can be
shown. -/
theorem Typed.succeeds_readParts_iff (h : d.Typed) {blocks : Json} {entries : List (String × Json)}
    (hblocks : writeBlocks .document (d.blocks.map Tree.written) = .ok blocks)
    (hentries : MetaValue.entriesToJson d.metadata = .ok entries) (layout : Schema) (version : List Int) :
    Succeeds (readParts layout version (.obj entries) blocks) ↔
      (blocks.holdsLong = false ∧ ∀ t ∈ d.blocks, t.Readable) ∧
        (Json.obj entries).holdsLong = false ∧ (MetaValue.map d.metadata).Readable := by
  rw [writeBlocks_eq_writeRun] at hblocks
  have hreadRun (hshort : blocks.holdsLong = false) :
      Succeeds (Tree.listOfJson "Document" .blocks blocks) ↔ ∀ t ∈ d.blocks, t.Readable :=
    accepted_run rfl (fun t ht => (h.blocks t ht).accepted) hblocks (Nat.le_succ blocks.depth) hshort
  have hshown (hsome : Succeeds (Tree.listOfJson "Document" .blocks blocks)) : blocks.holdsLong = false := by
    cases blocks with
    | arr items => exact short_of_readMembers hsome
    | _ => cases hsome.choose_spec
  have hreadBlocks : Succeeds (Tree.listOfJson "Document" .blocks blocks) ↔
      blocks.holdsLong = false ∧ ∀ t ∈ d.blocks, t.Readable :=
    ⟨fun hsome => ⟨hshown hsome, (hreadRun (hshown hsome)).mp hsome⟩, fun h => (hreadRun h.1).mpr h.2⟩
  have hreadEntries : Succeeds (MetaValue.mapOfJson (.obj entries)) ↔
      Json.entriesHoldLong entries = false ∧ ∀ entry ∈ d.metadata, entry.2.Readable := MetaValue.accepted_entries
    (fun entry hentry json => MetaValue.Typed.accepted_iff (MetaValue.over_map_iff.mp h.metadata entry hentry))
    hentries
    (by rw [Json.depth]; omega)
  rw [readParts, succeeds_both_iff fun _ _ => succeeds_ok _]
  exact and_congr hreadBlocks (hreadEntries.trans (and_congr_right' MetaValue.over_map_iff.symm))

/-- **Acceptance.**  A document with values of the right sort that could be written is read again exactly if it is
readable and no whole number in it has too many digits for a message. -/
theorem Typed.accepted_again_iff (h : d.Typed) (hwrite : d.toJson (.str schema.name) = .ok json) :
    (∃ e, ofJson json = .ok e) ↔ d.Readable schema ∧ json.holdsLong = false := by
  obtain ⟨blocks, hblocks, hwrite⟩ := bind_eq_ok_iff.mp hwrite
  obtain ⟨entries, hentries, hwrite⟩ := bind_eq_ok_iff.mp hwrite
  have hparts := h.succeeds_readParts_iff hblocks hentries
  cases schema with
  | v1 =>
    cases hwrite
    have hread : ofJson (.arr [.obj [("unMeta", .obj entries)], blocks]) =
        readParts .v1 defaultVersion (.obj entries) blocks := rfl
    have hlong : (Json.arr [.obj [("unMeta", .obj entries)], blocks]).holdsLong = false ↔
        (Json.obj entries).holdsLong = false ∧ blocks.holdsLong = false := by
      simp [Json.holdsLong, Json.itemsHoldLong, Json.entriesHoldLong]
    rw [hread, hlong]
    refine (hparts .v1 defaultVersion).trans ⟨?_, ?_⟩
    · rintro ⟨⟨hshort, hblocks⟩, hshorts, hmetadata⟩
      exact ⟨⟨hblocks, hmetadata, by simp⟩, hshorts, hshort⟩
    · rintro ⟨hreadable, hshorts, hshort⟩
      exact ⟨⟨hshort, hreadable.blocks⟩, hshorts, hreadable.metadata⟩
  | v2 =>
    cases hwrite
    have hread : ofJson (.obj [(versionKey, .arr (d.version.map .int)), ("meta", .obj entries), ("blocks", blocks)]) =
        (readVersion (.arr (d.version.map .int)) >>= fun version => readParts .v2 version (.obj entries) blocks) := by
      simp [ofJson, Entries.find?, List.lookup_cons, versionKey]
    have hlong : (Json.obj [(versionKey, .arr (d.version.map .int)), ("meta", .obj entries),
        ("blocks", blocks)]).holdsLong = false ↔ (Json.arr (d.version.map .int)).holdsLong = false ∧
          (Json.obj entries).holdsLong = false ∧ blocks.holdsLong = false := by
      simp [Json.holdsLong, Json.entriesHoldLong]
    rw [hread, hlong]
    constructor
    · intro hsome
      obtain ⟨version, hversion, hsome⟩ := succeeds_bind_iff.mp hsome
      obtain ⟨hshortVersion, hne⟩ := succeeds_readVersion_iff.mp ⟨version, hversion⟩
      obtain ⟨⟨hshort, hblocks⟩, hshorts, hmetadata⟩ := (hparts .v2 version).mp hsome
      exact ⟨⟨hblocks, hmetadata, fun _ => hne⟩, hshortVersion, hshorts, hshort⟩
    · rintro ⟨hreadable, hshortVersion, hshorts, hshort⟩
      obtain ⟨version, hversion⟩ := succeeds_readVersion_iff.mpr ⟨hshortVersion, hreadable.version rfl⟩
      rw [hversion]
      exact (hparts .v2 version).mpr ⟨⟨hshort, hreadable.blocks⟩, hshorts, hreadable.metadata⟩

/-- A citation with a paragraph in front. -/
def paragraphCited : Document where
  blocks := [.node .para [] [.node .cite
    [("citations", .citations [⟨.str "key", [.node .para [] []], [], "NormalCitation", .int 0, .int 0⟩])] []]]

theorem typed_paragraphCited : paragraphCited.Typed where
  blocks := by
    refine List.forall_mem_singleton.mpr (Tree.typed_of_no_values rfl (List.forall_mem_singleton.mpr ?_))
    refine .node (fun name codec v hslot hfind => ?_) ?_ nofun
    · obtain ⟨rfl, rfl⟩ : name = "citations" ∧ codec = .citations := by simpa [Kind.layout] using hslot
      cases hfind
      exact .citations (by decide)
    · exact List.forall_mem_singleton.mpr (Tree.typed_of_no_values rfl nofun)
  metadata := .map nofun

/-- The citation is written, and what is written is not read. -/
theorem accepted_paragraphCited : ∃ json, paragraphCited.toJson (.str "v2") = .ok json ∧
    ¬ ∃ e, ofJson json = .ok e := by
  obtain ⟨json, hjson⟩ : ∃ json, paragraphCited.toJson (.str "v2") = .ok json := ⟨_, rfl⟩
  refine ⟨json, hjson, fun hread => ?_⟩
  have haccepted : (∃ e, ofJson json = .ok e) ↔ paragraphCited.Readable .v2 ∧ json.holdsLong = false :=
    typed_paragraphCited.accepted_again_iff hjson
  obtain ⟨hreadable, -⟩ := haccepted.mp hread
  have hpara := List.forall_mem_singleton.mp hreadable.blocks
  obtain ⟨-, hbelow⟩ := (Tree.readable_node_iff (by decide)).mp hpara
  obtain ⟨hinside, -⟩ := (Tree.readable_node_iff (by decide)).mp (List.forall_mem_singleton.mp hbelow)
  obtain ⟨hinline, -⟩ := List.forall_mem_singleton.mp hinside
  cases hinline

end Document

end DocFilter
