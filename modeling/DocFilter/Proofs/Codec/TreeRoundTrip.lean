import DocFilter.Proofs.Codec.Showing
import DocFilter.Proofs.Codec.WellFormed

/-!
# Reading written trees

A well-formed tree can be written, and reading what was written gives it back with its payloads in the
order of the slots, unless it holds a whole number with too many digits to be shown.

The writer counts the children that its one run takes, the reader takes the fields one by one; the two
meet in `LaidOut.restored`, which goes through the slots of one node from left to right.  It is stated
over values and trees below that read back, so that `Tree.WellFormed.restored` is an induction with one
step, `Tree.Restored.of_laidOut`.

* Values: `Codec.Takes.restored`, with `Citation.restored` for the nodes inside.
* Runs and slots: `restored_run`, `LaidOut.restored`.
* Fuel: `fuelFor_of_contents` says that the depth of the contents is enough for every slot.
* Trees: `Tree.WellFormed.restored`, and `Tree.Restored.node` for a tree written with its name.
-/

namespace DocFilter

namespace Json

theorem depth_le_depthItems {item : Json} {items : List Json} (h : item ∈ items) :
    item.depth ≤ depthItems items := by
  induction items with
  | nil => simp at h
  | cons head items ih =>
    rw [depthItems]
    rcases List.mem_cons.mp h with rfl | h
    · omega
    · have := ih h
      omega

theorem depth_le_depthEntries {entries : List (String × Json)} {entry : String × Json} (h : entry ∈ entries) :
    entry.2.depth ≤ depthEntries entries := by
  induction entries with
  | nil => cases h
  | cons first entries ih =>
    rw [depthEntries]
    rcases List.mem_cons.mp h with rfl | h
    · exact Nat.le_max_left _ _
    · exact Nat.le_trans (ih h) (Nat.le_max_right _ _)

theorem depth_of_get? {json part : Json} {key : String} (hget : json.get? key = some part) : part.depth < json.depth := by
  cases json with
  | obj entries =>
    obtain ⟨l₁, l₂, rfl, -⟩ := List.lookup_eq_some_iff.mp hget
    have hentry : part.depth ≤ depthEntries (l₁ ++ (key, part) :: l₂) :=
      depth_le_depthEntries (show (key, part) ∈ _ by simp)
    rw [depth]
    omega
  | _ => cases hget

theorem depth_pos (j : Json) : 0 < j.depth := by
  cases j <;> simp [depth]

end Json

/-! ## Values -/

theorem readEnum_writeEnum {context : String} {choices : List String} {name : String}
    (h : name ∈ choices) : readEnum context choices (writeEnum (.str name)) = .ok name := by
  have hget : (writeEnum (.str name)).get? "t" = some (.str name) := rfl
  rw [readEnum, showing_of_short rfl, hget]
  simp [h]

theorem strings?_map (names : List String) : strings? (names.map .str) = some names := by
  induction names with
  | nil => rfl
  | cons name names ih =>
    rw [strings?] at ih ⊢
    rw [List.map_cons, List.mapM_cons, ih]
    rfl

theorem attrPairs_map (pairs : List (String × String)) :
    (pairs.map fun p => Json.arr [.str p.1, .str p.2]).mapM attrPair? = some pairs := by
  induction pairs with
  | nil => rfl
  | cons pair pairs ih => simp [List.mapM_cons, attrPair?, Json.plainText, ih]

theorem holdsLong_writeAttr (a : Attr) : (writeAttr a).holdsLong = false := by
  have hclasses : Json.itemsHoldLong (a.classes.map .str) = false := by
    simp [Json.itemsHoldLong_eq_false_iff, Json.holdsLong]
  have hpairs : Json.itemsHoldLong (a.attributes.map fun pair => .arr [.str pair.1, .str pair.2]) = false := by
    rw [Json.itemsHoldLong_eq_false_iff]
    simp only [List.forall_mem_map]
    exact fun _ _ => rfl
  simp [writeAttr, Json.holdsLong, Json.itemsHoldLong, hclasses, hpairs]

theorem readAttr_writeAttr (context : String) (a : Attr) :
    readAttr context (writeAttr a) = .ok a := by
  refine (showing_of_short (holdsLong_writeAttr a)).trans ?_
  simp only [writeAttr, strings?_map, attrPairs_map]

theorem readListAttributes_writeListAttributes {context : String} {l : ListAttributes}
    (hstyle : l.style ∈ listStyles) (hdelimiter : l.delimiter ∈ listDelimiters)
    (hshort : (writeListAttributes l).holdsLong = false) :
    readListAttributes context (writeListAttributes l) = .ok l := by
  refine (showing_of_short hshort).trans ?_
  simp [writeListAttributes, readEnum_writeEnum hstyle, readEnum_writeEnum hdelimiter, bind, Except.bind]

theorem readEnums_writeEnums {context : String} {choices names : List String}
    (h : ∀ name ∈ names, name ∈ choices) :
    ((names.map .str).map writeEnum).mapM (readEnum context choices) = .ok names := by
  induction names with
  | nil => rfl
  | cons name names ih =>
    rw [List.map_cons, List.map_cons, List.mapM_cons, readEnum_writeEnum (h name (by simp)),
      ih fun n hn => h n (by simp [hn])]
    rfl

theorem writeWidths_floats (widths : List Double) :
    (widths.map .float).mapM writeWidth = .ok (widths.map .float) := by
  induction widths with
  | nil => rfl
  | cons d widths ih => rw [List.map_cons, List.mapM_cons, ih]; rfl

theorem readWidths_floats (widths : List Double) :
    (widths.map .float).mapM readWidth? =
      some ((widths.map .float).map (Except.ok (ε := CodecError))) := by
  induction widths with
  | nil => rfl
  | cons d widths ih => rw [List.map_cons, List.mapM_cons, ih]; rfl

theorem mapM_id_ok {α ε : Type} (xs : List α) :
    (xs.map (Except.ok (ε := ε))).mapM id = .ok xs := by
  induction xs with
  | nil => rfl
  | cons x xs ih => rw [List.map_cons, List.mapM_cons, ih]; rfl

/-! ## Nodes -/

/-- The contents of a tree can be written, and reading them with enough fuel gives the tree back, if they can be
shown. -/
def Tree.Restored (t : Tree) : Prop :=
  ∃ contents, t.written.contents = .ok contents ∧ ∀ fuel, contents.depth ≤ fuel →
    contents.holdsLong = false → readContents fuel t.kind contents = .ok t.inOrder

@[simp] theorem Tree.kind_written (t : Tree) : t.written.kind = t.kind := by
  cases t
  simp [Tree.written, Tree.fold_node, Written.of, Tree.kind]

/-- A kind that is written with its name is found by it. -/
theorem Kind.ofName?_name {kind : Kind} (h : kind.isTagged) :
    (Kind.ofName? kind.name).filter (·.isTagged) = some kind := by
  cases kind with
  | other name => simp [Kind.isTagged, Kind.isBlock, Kind.isInline, Kind.category] at h
  | _ => first | decide | simp [Kind.isTagged, Kind.isBlock, Kind.isInline, Kind.category] at h

/-- The tag of a node object is the name of its kind. -/
theorem tag_of_kind {tag : Json} {kind : Kind} (h : (tag.str?.bind Kind.ofName?).filter (·.isTagged) = some kind) :
    tag = .str kind.name := by
  obtain ⟨h, -⟩ := Option.filter_eq_some_iff.mp h
  obtain ⟨name, hname, hkind⟩ := Option.bind_eq_some_iff.mp h
  have hfound : kind.name = name := by simpa using List.find?_some hkind
  cases tag with
  | str s =>
    cases hname
    rw [hfound]
  | _ => cases hname

/-- A kind without slots is written without contents. -/
theorem Tree.contents_written_of_isEmpty {t : Tree} (h : t.kind.layout.isEmpty) :
    t.written.contents = .ok .null := by
  cases t with
  | node kind payload children =>
    have h : kind.layout.isEmpty := h
    simp [Tree.written, Tree.fold_node, Written.of, writeContents, h]

/-- A named node reads back if its contents do, and exactly if it can be shown. -/
theorem Tree.Restored.node {t : Tree} (h : t.Restored) (htag : t.kind.isTagged) :
    ∃ json, t.toJson = .ok json ∧
      ∀ fuel, json.depth ≤ fuel → readNode (readContents fuel) json = showing json (.ok t.inOrder) := by
  obtain ⟨contents, hwrite, hread⟩ := h
  by_cases hempty : t.kind.layout.isEmpty
  · refine ⟨.obj [("t", .str t.kind.name)], ?_, ?_⟩
    · simp [Tree.toJson, Written.node, htag, hempty]
    · intro fuel hfuel
      rw [t.contents_written_of_isEmpty hempty, Except.ok.injEq] at hwrite
      subst hwrite
      have hdepth : Json.null.depth ≤ fuel := by
        simp only [Json.depth, Json.depthEntries] at hfuel ⊢
        omega
      refine showing_congr fun _ => ?_
      simp [Entries.find?, Json.str?, Kind.ofName?_name htag, List.lookup_cons, hempty, hread fuel hdepth rfl]
  · refine ⟨.obj [("t", .str t.kind.name), ("c", contents)], ?_, ?_⟩
    · simp [Tree.toJson, Written.node, htag, hempty, hwrite]
      rfl
    · intro fuel hfuel
      have hdepth : contents.depth ≤ fuel := by
        simp only [Json.depth, Json.depthEntries] at hfuel
        omega
      refine showing_congr fun hshort => ?_
      have hcontents : contents.holdsLong = false := Json.holdsLong_get? "c" hshort rfl
      simp [Entries.find?, Json.str?, Kind.ofName?_name htag, List.lookup_cons, hread fuel hdepth hcontents]

/-- A list of named nodes reads back into any run that admits them. -/
theorem restored_members {ts : List Tree} (h : ∀ t ∈ ts, t.Restored)
    (htag : ∀ t ∈ ts, t.kind.isTagged) :
    ∃ items, (ts.map Tree.written).mapM Written.node = .ok items ∧
      ∀ fuel context run, Json.depthItems items ≤ fuel → (∀ t ∈ ts, run.admits t.kind) →
        items.mapM (readMember (readContents fuel) context run) =
          showing (.arr items) (.ok (ts.map Tree.inOrder)) := by
  obtain ⟨items, hitems⟩ := exists_forall₂ fun t ht => (h t ht).node (htag t ht)
  refine ⟨items, ?_, ?_⟩
  · rw [mapM_eq_ok_iff, List.forall₂_map_left_iff]
    exact hitems.imp fun t item hitem => hitem.1
  · intro fuel context run hfuel hrun
    refine mapM_eq_showing (forall₂_imp_mem hitems fun t ht item hitem hgood => ?_)
    rw [readMember, hgood.2 fuel (Nat.le_trans (Json.depth_le_depthItems hitem) hfuel), showing_bind]
    simp [bind, Except.bind, hrun t ht]

/-- A list of parts of one kind reads back. -/
theorem restored_parts {ts : List Tree} {part : Kind} (h : ∀ t ∈ ts, t.Restored)
    (hkind : ∀ t ∈ ts, t.kind = part) :
    ∃ items, (ts.map Tree.written).mapM Written.contents = .ok items ∧
      ∀ fuel, Json.depthItems items ≤ fuel → Json.itemsHoldLong items = false →
        items.mapM (readContents fuel part) = .ok (ts.map Tree.inOrder) := by
  obtain ⟨items, hitems⟩ := exists_forall₂ h
  refine ⟨items, ?_, ?_⟩
  · rw [mapM_eq_ok_iff, List.forall₂_map_left_iff]
    exact hitems.imp fun t item hitem => hitem.1
  · intro fuel hfuel hshort
    refine mapM_eq_ok_map (forall₂_imp_mem hitems fun t ht item hitem hgood => ?_)
    have hread := hgood.2 fuel (Nat.le_trans (Json.depth_le_depthItems hitem) hfuel)
      (Json.itemsHoldLong_eq_false_iff.mp hshort item hitem)
    rw [← hkind t ht, hread]

theorem Kind.isTagged_of_isInline {kind : Kind} (h : kind.isInline) : kind.isTagged := by
  simp [Kind.isTagged, h]

theorem Kind.isTagged_of_isBlock {kind : Kind} (h : kind.isBlock) : kind.isTagged := by
  simp [Kind.isTagged, h]

/-- A citation with inlines on its two sides reads back if they do and it can be shown. -/
theorem Citation.restored {c : Citation Tree} (hmode : c.mode ∈ citationModes)
    (hinline : ∀ t ∈ c.before ++ c.after, t.kind.isInline) (hin : ∀ t ∈ c.before ++ c.after, t.Restored) :
    ∃ json, writeCitation (c.map Tree.written) = .ok json ∧
      ∀ fuel context, json.depth ≤ fuel → json.holdsLong = false →
        readCitation (readContents fuel) context json = .ok (c.map Tree.inOrder) := by
  obtain ⟨hadmitsBefore, hadmitsAfter⟩ := List.forall_mem_append.mp hinline
  obtain ⟨hinBefore, hinAfter⟩ := List.forall_mem_append.mp hin
  obtain ⟨before, hbefore, hreadBefore⟩ := restored_members hinBefore
    fun t ht => Kind.isTagged_of_isInline (hadmitsBefore t ht)
  obtain ⟨after, hafter, hreadAfter⟩ := restored_members hinAfter
    fun t ht => Kind.isTagged_of_isInline (hadmitsAfter t ht)
  refine ⟨_, by simp only [writeCitation, Citation.map, hbefore, hafter]; rfl, ?_⟩
  intro fuel context hfuel hshort
  simp only [Json.depth, Json.depthEntries] at hfuel
  have hrunBefore := hreadBefore fuel context .inlines (by omega) hadmitsBefore
  have hrunAfter := hreadAfter fuel context .inlines (by omega) hadmitsAfter
  rw [showing_of_short (Json.holdsLong_get? "citationPrefix" hshort rfl)] at hrunBefore
  rw [showing_of_short (Json.holdsLong_get? "citationSuffix" hshort rfl)] at hrunAfter
  rw [readCitation, showing_of_short hshort]
  simp [Json.get?, Entries.find?, List.lookup_cons, readRun, hrunBefore, hrunAfter, readEnum_writeEnum hmode,
    Citation.map, bind, Except.bind]

/-- A payload value can be written in a slot, and reading the slot with enough fuel gives it back, if it can be
shown. -/
def Value.Restored (codec : Codec) (v : Value Tree) : Prop :=
  ∃ json, writeValue codec (v.map Tree.written) = .ok json ∧
    ∀ fuel context name, json.depth ≤ fuel + 1 → json.holdsLong = false →
      readValue (readContents fuel) context name codec json = .ok (v.map Tree.inOrder)

/-- A value of the sort of its slot, with inlines inside, reads back if they do. -/
theorem Codec.Takes.restored {codec : Codec} {v : Value Tree} (h : codec.Takes v)
    (hinline : ∀ t ∈ v.nodes, t.kind.isInline) (hin : ∀ t ∈ v.nodes, t.Restored) : v.Restored codec := by
  cases h with
  | int n => exact ⟨.int n, rfl, fun _ _ _ _ _ => rfl⟩
  | text s => exact ⟨.str s, rfl, fun _ _ _ _ _ => rfl⟩
  | attr a =>
    refine ⟨writeAttr a, rfl, fun _ _ _ _ _ => ?_⟩
    simp [readValue, readAttr_writeAttr, Except.map, Value.map]
  | target t => exact ⟨writeTarget t, rfl, fun _ _ _ _ _ => rfl⟩
  | @listAttributes l hstyle hdelimiter =>
    refine ⟨writeListAttributes l, rfl, fun _ _ _ _ hshort => ?_⟩
    simp [readValue, readListAttributes_writeListAttributes hstyle hdelimiter hshort, Except.map,
      Value.map]
  | @enum choices name known =>
    refine ⟨writeEnum (.str name), rfl, fun _ _ _ _ _ => ?_⟩
    simp [readValue, readEnum_writeEnum known, Except.map, Value.map]
  | @enumList choices names known =>
    refine ⟨.arr ((names.map .str).map writeEnum), rfl, fun _ _ _ _ _ => ?_⟩
    simp only [readValue, readEnums_writeEnums known]
    rfl
  | floatList widths =>
    refine ⟨.arr (widths.map .float), ?_, fun _ _ _ _ _ => ?_⟩
    · simp only [writeValue, Value.map, iterate?, writeWidths_floats]
      rfl
    · simp only [readValue, readWidths_floats, mapM_id_ok]
      rfl
  | @citations cs modes =>
    have hnodes : ∀ c ∈ cs, ∀ t ∈ c.before ++ c.after, t ∈ (Value.citations cs).nodes :=
      fun c hc t ht => List.mem_flatMap.mpr ⟨c, hc, ht⟩
    obtain ⟨items, hitems⟩ := exists_forall₂ fun c hc => Citation.restored (modes c hc)
      (fun t ht => hinline t (hnodes c hc t ht)) fun t ht => hin t (hnodes c hc t ht)
    refine ⟨.arr items, ?_, fun fuel context _ hfuel hshort => ?_⟩
    · have hwrite : (cs.map (·.map Tree.written)).mapM writeCitation = .ok items := by
        rw [mapM_eq_ok_iff, List.forall₂_map_left_iff]
        exact hitems.imp fun c item hitem => hitem.1
      simp only [writeValue, Value.map, hwrite]
      rfl
    · have hread : items.mapM (readCitation (readContents fuel) context) =
          .ok (cs.map (·.map Tree.inOrder)) := by
        refine mapM_eq_ok_map (forall₂_imp_mem hitems fun c _ item hitem hgood => ?_)
        have hdepth := Json.depth_le_depthItems hitem
        rw [Json.depth] at hfuel
        exact hgood.2 fuel context (by omega) (Json.itemsHoldLong_eq_false_iff.mp hshort item hitem)
      simp only [readValue, hread]
      rfl

/-- A value that reading gives reads back if the nodes inside it do. -/
theorem Codec.Yields.restored {codec : Codec} {v : Value Tree} (h : codec.Yields v)
    (hin : ∀ t ∈ v.nodes, t.Restored) : v.Restored codec :=
  h.takes.restored h.inline hin

/-- A run is not refused if it admits its members. -/
theorem checkRun_of_admits {kind : Kind} {slot : Slot} {ts : List Tree} (h : ∀ t ∈ ts, slot.admits t.kind) :
    checkRun kind slot (ts.map Tree.written) = .ok () := by
  have hnone : (ts.map Tree.written).find? (fun child => !slot.admits child.kind) = none := by simpa using h
  rw [checkRun, hnone]

/-- A run reads back if its members do and it can be shown. -/
theorem restored_run {slot : Slot} (hrun : slot.isRun) {ts : List Tree} (kind : Kind)
    (hts : ∀ t ∈ ts, t.Restored) (hadmits : ∀ t ∈ ts, slot.admits t.kind) :
    ∃ json, writeRun kind slot (ts.map Tree.written) = .ok json ∧
      ∀ fuel context, json.depth ≤ fuel + 1 → json.holdsLong = false →
        readRun (readContents fuel) context slot json = .ok (ts.map Tree.inOrder) := by
  have hcheck : checkRun kind slot (ts.map Tree.written) = .ok () := checkRun_of_admits hadmits
  cases slot with
  | value name codec => simp [Slot.isRun] at hrun
  | part part => simp [Slot.isRun] at hrun
  | parts part =>
    have hkind : ∀ t ∈ ts, t.kind = part := fun t ht => by
      simpa [Slot.admits] using hadmits t ht
    obtain ⟨items, hwrite, hread⟩ := restored_parts hts hkind
    refine ⟨.arr items, by simp [writeRun, hcheck, hwrite, bind, Except.bind, Except.map], ?_⟩
    intro fuel context hfuel hshort
    rw [Json.depth] at hfuel
    exact hread fuel (by omega) hshort
  | inlines | blocks =>
    have htag : ∀ t ∈ ts, t.kind.isTagged := fun t ht => by
      have hadmitted := hadmits t ht
      simp only [Slot.admits] at hadmitted
      simp [Kind.isTagged, hadmitted]
    obtain ⟨items, hwrite, hread⟩ := restored_members hts htag
    refine ⟨.arr items, by simp [writeRun, hcheck, hwrite, bind, Except.bind, Except.map], ?_⟩
    intro fuel context hfuel hshort
    rw [Json.depth] at hfuel
    exact (hread fuel context _ (by omega) hadmits).trans (showing_of_short hshort)

/-- The fuel with which the slots of a node read back: a part takes as much as its field is deep, any
other slot goes down one level by itself. -/
def FuelFor (fuel : Nat) (fields : List (Slot × Json)) : Prop :=
  ∀ field ∈ fields, field.2.depth ≤ fuel + 1 ∧ (field.1.isPart → field.2.depth ≤ fuel)

theorem FuelFor.tail {fuel : Nat} {field : Slot × Json} {fields : List (Slot × Json)}
    (h : FuelFor fuel (field :: fields)) : FuelFor fuel fields :=
  fun entry hentry => h entry (List.mem_cons_of_mem _ hentry)

theorem writeSlots_run {slot : Slot} (hrun : slot.isRun) (kind : Kind) (payload : Payload Written)
    (runSize : Nat) (slots : List Slot) (children : List Written) :
    writeSlots kind payload runSize (slot :: slots) children = (do
      let field ← writeRun kind slot (children.take runSize)
      let fields ← writeSlots kind payload runSize slots (children.drop runSize)
      .ok (field :: fields)) := by
  cases slot with
  | value name codec => cases hrun
  | part part => cases hrun
  | _ => rfl

theorem readSlots_run {slot : Slot} (hrun : slot.isRun)
    (read : Kind → Json → Except CodecError Tree) (kind : Kind) (field : Json)
    (rest : List (Slot × Json)) :
    readSlots read kind ((slot, field) :: rest) = (do
      let members ← readRun read kind.name slot field
      let (payload, children) ← readSlots read kind rest
      .ok (payload, members ++ children)) := by
  cases slot with
  | value name codec => cases hrun
  | part part => cases hrun
  | _ => rfl

/-- A run takes what is left of the children once the parts after it have theirs. -/
theorem LaidOut.length_run {slot : Slot} {slots : List Slot} {run kinds : List Kind} {runSize : Nat}
    (h : LaidOut slots kinds) (hrun : slot.isRun) (hno : slots.countP (·.isRun) = 0)
    (hsize : runSize + (slot :: slots).countP (·.isPart) = (run ++ kinds).length) : runSize = run.length := by
  have hparts := h.length_of_no_run hno
  have hpart : slot.isPart = false := Slot.isPart_of_isRun hrun
  simp [hpart] at hsize
  omega

/-- The slots of a node read back if they can be shown: the values under their names and the children in order. -/
theorem LaidOut.restored {slots : List Slot} {kinds : List Kind} (h : LaidOut slots kinds)
    (kind : Kind) (runSize : Nat) {payload : Payload Tree} (hruns : slots.countP (·.isRun) ≤ 1)
    (hsize : slots.countP (·.isRun) = 1 → runSize + slots.countP (·.isPart) = kinds.length)
    (hvalues : ∀ name codec, .value name codec ∈ slots →
      ∃ v, Entries.find? name payload = some v ∧ v.Restored codec)
    {children : List Tree} (hkinds : children.map Tree.kind = kinds)
    (hchildren : ∀ t ∈ children, t.Restored) :
    ∃ fields, writeSlots kind (payload.map Tree.written) runSize slots
        (children.map Tree.written) = .ok fields ∧ fields.length = slots.length ∧
      ∀ fuel, FuelFor fuel (slots.zip fields) → Json.itemsHoldLong fields = false →
        readSlots (readContents fuel) kind (slots.zip fields) =
          .ok ((slots.filterMap (·.name?)).filterMap fun name =>
            (Entries.find? name (payload.map Tree.inOrder)).map (name, ·),
            children.map Tree.inOrder) := by
  induction h generalizing children with
  | nil =>
    rw [List.map_eq_nil_iff] at hkinds
    subst hkinds
    exact ⟨[], rfl, rfl, fun _ _ _ => rfl⟩
  | @value name codec slots kinds rest ih =>
    obtain ⟨v, hfind, field, hwrite, hread⟩ := hvalues name codec (by simp)
    obtain ⟨fields, hwrites, hlength, hreads⟩ := ih (by simpa [Slot.isRun] using hruns)
      (by simpa [Slot.isRun, Slot.isPart] using hsize)
      (fun n c hmem => hvalues n c (List.mem_cons_of_mem _ hmem)) hkinds hchildren
    refine ⟨field :: fields, ?_, by simp [hlength], fun fuel hfuel hshort => ?_⟩
    · simp [writeSlots, find?_map, hfind, hwrite, hwrites, bind, Except.bind]
    · obtain ⟨hfirst, hlater⟩ := Bool.or_eq_false_iff.mp hshort
      have hfield := hread fuel kind.name name (hfuel _ (List.mem_cons_self ..)).1 hfirst
      simp [readSlots, hfield, hreads fuel hfuel.tail hlater, Slot.name?, find?_map, hfind, bind,
        Except.bind]
  | @part part slots kinds rest ih =>
    obtain ⟨t, ts, rfl, rfl, hts⟩ := List.map_eq_cons_iff.mp hkinds
    obtain ⟨field, hwrite, hread⟩ := hchildren t (by simp)
    obtain ⟨fields, hwrites, hlength, hreads⟩ := ih (by simpa [Slot.isRun] using hruns)
      (fun hone => by
        have := hsize (by simpa [Slot.isRun] using hone)
        simp [Slot.isPart] at this ⊢
        omega)
      (fun n c hmem => hvalues n c (List.mem_cons_of_mem _ hmem)) hts
      (fun u hu => hchildren u (List.mem_cons_of_mem _ hu))
    refine ⟨field :: fields, ?_, by simp [hlength], fun fuel hfuel hshort => ?_⟩
    · simp [writeSlots, hwrite, hwrites, bind, Except.bind]
    · obtain ⟨hfirst, hlater⟩ := Bool.or_eq_false_iff.mp hshort
      have hfield := hread fuel ((hfuel _ (List.mem_cons_self ..)).2 rfl) hfirst
      simp [readSlots, hfield, hreads fuel hfuel.tail hlater, Slot.name?, bind, Except.bind]
  | @run slot slots run kinds hrun admitted rest ih =>
    obtain ⟨members, others, rfl, hmembers, hothers⟩ := List.map_eq_append_iff.mp hkinds
    have hno : slots.countP (·.isRun) = 0 := by
      simpa [List.countP_cons, hrun] using hruns
    have hname : slot.name? = none := Slot.name?_of_isRun hrun
    have htake : runSize = members.length := by
      rw [← List.length_map, hmembers]
      exact rest.length_run hrun hno (hsize (by simp only [List.countP_cons, hrun, hno]; rfl))
    obtain ⟨field, hwrite, hread⟩ := restored_run hrun kind
      (fun t ht => hchildren t (List.mem_append_left _ ht))
      (fun t ht => admitted t.kind (hmembers ▸ List.mem_map_of_mem ht))
    obtain ⟨fields, hwrites, hlength, hreads⟩ := ih (by omega) (fun hone => by omega)
      (fun n c hmem => hvalues n c (List.mem_cons_of_mem _ hmem)) hothers
      (fun u hu => hchildren u (List.mem_append_right _ hu))
    have htaken : ((members ++ others).map Tree.written).take runSize =
        members.map Tree.written := by simp [htake]
    have hdropped : ((members ++ others).map Tree.written).drop runSize =
        others.map Tree.written := by simp [htake]
    refine ⟨field :: fields, ?_, by simp [hlength], fun fuel hfuel hshort => ?_⟩
    · rw [writeSlots_run hrun, htaken, hdropped, hwrite, hwrites]
      rfl
    · obtain ⟨hfirst, hlater⟩ := Bool.or_eq_false_iff.mp hshort
      have hfield := hread fuel kind.name (hfuel _ (List.mem_cons_self ..)).1 hfirst
      simp [readSlots_run hrun, hfield, hreads fuel hfuel.tail hlater, hname, bind, Except.bind]

/-- The runs and parts of a layout take as many children as there are. -/
theorem LaidOut.length_bounds {slots : List Slot} {kinds : List Kind} (h : LaidOut slots kinds) :
    slots.countP (·.isPart) ≤ kinds.length ∧
      (slots.find? (·.isRun) = none → kinds.length = slots.countP (·.isPart)) := by
  induction h with
  | nil => simp
  | value _ ih => simpa [Slot.isPart, Slot.isRun] using ih
  | part _ ih => simpa [Slot.isPart, Slot.isRun] using ih
  | @run slot slots run kinds hrun _ _ ih =>
    have hpart : slot.isPart = false := Slot.isPart_of_isRun hrun
    simp [hpart, hrun]
    omega

/-- The contents that fields make: one field stands for itself, several stand in a list. -/
def Json.ofFields : List Json → Json
  | [field] => field
  | fields => .arr fields

theorem Json.holdsLong_ofFields (fields : List Json) : (ofFields fields).holdsLong = itemsHoldLong fields := by
  match fields with
  | [] | _ :: _ :: _ => rfl
  | [field] => rw [ofFields, itemsHoldLong, itemsHoldLong, Bool.or_false]

/-- The contents of a node with slots are made of the fields of its slots. -/
theorem writeContents_of_laidOut {kind : Kind} {payload : Payload Written}
    {children : List Written} {fields : List Json}
    (hlaid : LaidOut kind.layout (children.map (·.kind))) (hne : kind.layout ≠ [])
    (hfields : writeSlots kind payload (children.length - kind.layout.countP (·.isPart))
      kind.layout children = .ok fields) :
    writeContents kind payload children = .ok (Json.ofFields fields) := by
  obtain ⟨hle, heq⟩ := hlaid.length_bounds
  rw [List.length_map] at hle heq
  have hcount : ¬ (children.length < kind.layout.countP (·.isPart) ∨
      (kind.layout.countP (·.isPart) < children.length ∧ kind.run?.isNone)) := by
    rw [Option.isNone_iff_eq_none, Kind.run?]
    rintro (hlt | ⟨hlt, hnone⟩)
    · omega
    · have := heq hnone
      omega
  have hempty : kind.layout.isEmpty = false := by simpa using hne
  simp only [writeContents, hempty, Bool.false_eq_true, if_false, if_neg hcount, hfields, bind,
    Except.bind]
  match fields with
  | [] | [_] | _ :: _ :: _ => rfl

/-- The fields that were laid out are found again if they can be shown. -/
theorem contentFields_of_length {kind : Kind} {fields : List Json}
    (hlength : fields.length = kind.layout.length) (hne : kind.layout ≠ [])
    (hshort : (Json.ofFields fields).holdsLong = false) :
    contentFields kind (Json.ofFields fields) = .ok fields := by
  rw [contentFields]
  generalize kind.layout = slots at hlength hne ⊢
  match slots, fields with
  | [], _ => exact absurd rfl hne
  | [_], [] | [_], _ :: _ :: _ | _ :: _ :: _, [] | _ :: _ :: _, [_] => simp at hlength
  | [_], [field] => rfl
  | slot :: _ :: _, first :: second :: rest =>
    dsimp only
    rw [showing_of_short hshort]
    simp only [Json.ofFields, hlength, if_true]

/-- The contents that are read as fields are made of them. -/
theorem fields_of_contentFields {kind : Kind} {json : Json} {fields : List Json}
    (h : contentFields kind json = .ok fields) (hne : kind.layout ≠ []) :
    json = .ofFields fields ∧ fields.length = kind.layout.length := by
  rw [contentFields] at h
  split at h
  · rename_i hnone
    exact absurd hnone hne
  · rename_i hone
    cases h
    exact ⟨rfl, by rw [hone]; rfl⟩
  · rename_i hnone hone
    obtain ⟨-, h⟩ := showing_eq_ok_iff.mp h
    split at h
    · rename_i items
      split at h
      · rename_i hlength
        cases h
        refine ⟨?_, hlength⟩
        rcases fields with _ | ⟨field, _ | ⟨second, rest⟩⟩
        · rfl
        · exact absurd (List.length_eq_one_iff.mp hlength.symm) fun ⟨slot, hslot⟩ => hone slot hslot
        · rfl
      · cases h
    · cases h

/-- The depth of the contents is enough fuel for the fields below. -/
theorem fuelFor_of_contents {kind : Kind} {fields : List Json} {fuel : Nat}
    (hlength : fields.length = kind.layout.length)
    (hfuel : (Json.ofFields fields).depth ≤ fuel + 1) : FuelFor fuel (kind.layout.zip fields) := by
  intro field hfield
  match hslots : kind.layout, fields with
  | [], _ => simp [hslots] at hfield
  | _ :: _, [] => simp at hfield
  | slot :: slots, [only] =>
    have hnil : slots = [] := by simpa [hslots] using hlength.symm
    subst hnil
    simp only [hslots, List.zip_cons_cons, List.zip_nil_right, List.mem_singleton] at hfield
    subst hfield
    refine ⟨hfuel, fun hpart => ?_⟩
    cases slot with
    | part part => exact absurd hslots (kind.layout_ne_part part)
    | _ => cases hpart
  | _ :: _, first :: second :: rest =>
    have hmem := Json.depth_le_depthItems (List.of_mem_zip hfield).2
    simp only [Json.ofFields, Json.depth] at hfuel
    exact ⟨by omega, fun _ => by omega⟩

/-- Reading contents gives a tree of the kind that is asked for. -/
theorem kind_of_readContents {fuel : Nat} {kind : Kind} {json : Json} {t : Tree}
    (h : readContents fuel kind json = .ok t) : t.kind = kind := by
  cases fuel with
  | zero => cases h
  | succ fuel =>
    obtain ⟨fields, -, h⟩ := bind_eq_ok_iff.mp h
    obtain ⟨⟨payload, children⟩, -, h⟩ := bind_eq_ok_iff.mp h
    cases h
    rfl

/-- A node reads back if its children fit its layout, and they and its values read back. -/
theorem Tree.Restored.of_laidOut {kind : Kind} {payload : Payload Tree} {children : List Tree}
    (layout : LaidOut kind.layout (children.map Tree.kind))
    (hvalues : ∀ name codec, .value name codec ∈ kind.layout →
      ∃ v, Entries.find? name payload = some v ∧ v.Restored codec)
    (hchildren : ∀ t ∈ children, t.Restored) : (Tree.node kind payload children).Restored := by
  have hwritten : (Tree.node kind payload children).written.contents =
      writeContents kind (payload.map Tree.written) (children.map Tree.written) := by
    rw [Tree.written, Tree.fold_node]
    rfl
  by_cases hne : kind.layout = []
  · rw [hne] at layout
    refine ⟨.null, contents_written_of_isEmpty (by simp [Tree.kind, hne]), fun fuel hfuel _ => ?_⟩
    have hnil : children = [] := by
      cases hkinds : children.map Tree.kind with
      | nil => simpa using hkinds
      | cons k ks => rw [hkinds] at layout; cases layout
    have hpos := Json.depth_pos .null
    obtain ⟨fuel, rfl⟩ : ∃ m, fuel = m + 1 := ⟨fuel - 1, by omega⟩
    have hfields : contentFields kind .null = .ok [] := by rw [contentFields, hne]
    simp [readContents, hfields, Tree.kind, hne, readSlots, bind, Except.bind,
      Tree.inOrder_node, Kind.arrange, Kind.payloadNames, hnil]
  · obtain ⟨fields, hwrites, hlength, hreads⟩ := layout.restored kind
      (children.length - kind.layout.countP (·.isPart)) kind.countP_isRun_layout (fun _ => by
        have := layout.length_bounds.1
        rw [List.length_map] at this ⊢
        omega) hvalues rfl hchildren
    refine ⟨Json.ofFields fields, ?_, fun fuel hfuel hshort => ?_⟩
    · rw [hwritten]
      refine writeContents_of_laidOut ?_ hne (by simpa using hwrites)
      simpa [Function.comp_def] using layout
    · have hpos := Json.depth_pos (Json.ofFields fields)
      obtain ⟨fuel, rfl⟩ : ∃ m, fuel = m + 1 := ⟨fuel - 1, by omega⟩
      have hread := hreads fuel (fuelFor_of_contents hlength hfuel) (by rwa [← Json.holdsLong_ofFields])
      rw [Tree.kind, readContents, contentFields_of_length hlength hne hshort]
      simp only [bind, Except.bind, hread]
      rw [Tree.inOrder_node]
      rfl

/-- Every well-formed tree can be written and reads back with its payloads in the order of the slots, if it can be
shown. -/
theorem Tree.WellFormed.restored {t : Tree} (h : t.WellFormed) : t.Restored := by
  induction h with
  | @node kind payload children layout fills inside below ihInside ihBelow =>
    refine .of_laidOut layout (fun name codec hslot => ?_) ihBelow
    obtain ⟨v, hfind, hyields⟩ := fills.values name codec hslot
    exact ⟨v, hfind, hyields.restored fun t ht => ihInside t (nodes_of_find? hfind t ht)⟩

end DocFilter
