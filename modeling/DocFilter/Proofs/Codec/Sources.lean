import DocFilter.Proofs.Codec.TreeRoundTrip

/-!
# What a node is read from

Reading may refuse whatever it is given.  Here is said once what it means that something could be read, so that
what is to be known of it is known by cases, or by induction over the slots.

* `readMember_eq_ok_iff` and `readCitation_eq_ok` are the inversions of the readers of the members of a run and of
  citations.
* `ReadsAs` relates a sort of values to the data of a value and to the value, and `readsAs_of_readValue` is the
  inversion of the reader of values.
* `ReadsOff` relates the slots of a node and the fields of its contents to the payload and the children that are
  read off them, from left to right.  `readContents_eq_ok` is the inversion of the reader of contents.
* `MetaValue.SourceOf` relates an object to the metadata value that it is read as, and `MetaValue.sourceOf_of_read`
  is the inversion of the reader of metadata.
-/

namespace DocFilter

section Read

variable {read : Kind → Json → Except CodecError Tree} {context name : String} {choices : List String}
  {json : Json} {kind : Kind} {slot : Slot} {codec : Codec} {v : Value Tree} {t : Tree} {c : Citation Tree}

/-! ## Members and citations -/

/-- A member of a run is a node that the run admits. -/
theorem readMember_eq_ok_iff :
    readMember read context slot json = .ok t ↔ readNode read json = .ok t ∧ slot.admits t.kind := by
  rw [readMember, bind_eq_ok_iff]
  constructor
  · rintro ⟨u, hu, hfits⟩
    split at hfits
    · rename_i hadmits
      cases hfits
      exact ⟨hu, hadmits⟩
    · cases hfits
  · rintro ⟨ht, hadmits⟩
    exact ⟨t, ht, if_pos hadmits⟩

/-- Nodes that are read can be shown. -/
theorem short_of_readMembers {items : List Json} (h : Succeeds (items.mapM (readMember read context slot))) :
    Json.itemsHoldLong items = false := by
  refine Json.itemsHoldLong_eq_false_iff.mpr fun item hitem => ?_
  obtain ⟨t, ht⟩ := succeeds_mapM_iff.mp h item hitem
  exact (showing_eq_ok_iff.mp (readMember_eq_ok_iff.mp ht).1).1

theorem mem_of_readEnum {text : String} (h : readEnum context choices json = .ok text) : text ∈ choices := by
  obtain ⟨-, h⟩ := showing_eq_ok_iff.mp h
  split at h
  · cases h
  · split at h
    · rename_i hmem
      cases h
      simpa using hmem
    · cases h
  · cases h

/-- What a citation is read from. -/
theorem readCitation_eq_ok (hread : readCitation read context json = .ok c) :
    json.get? "citationId" = some c.id ∧
      readRun read context .inlines ((json.get? "citationPrefix").getD (.arr [])) = .ok c.before ∧
      readRun read context .inlines ((json.get? "citationSuffix").getD (.arr [])) = .ok c.after ∧
      c.mode ∈ citationModes ∧ c.noteNum = (json.get? "citationNoteNum").getD (.int 0) ∧
      c.hash = (json.get? "citationHash").getD (.int 0) := by
  obtain ⟨-, hread⟩ := showing_eq_ok_iff.mp hread
  split at hread
  · cases hread
  · rename_i id hid
    obtain ⟨before, hbefore, hread⟩ := bind_eq_ok_iff.mp hread
    obtain ⟨after, hafter, hread⟩ := bind_eq_ok_iff.mp hread
    dsimp only at hread
    split at hread
    · cases hread
      exact ⟨hid, hbefore, hafter, (by decide : "NormalCitation" ∈ citationModes), rfl, rfl⟩
    · obtain ⟨mode, hmode, hread⟩ := bind_eq_ok_iff.mp hread
      cases hread
      exact ⟨hid, hbefore, hafter, mem_of_readEnum hmode, rfl, rfl⟩

/-! ## Values -/

/-- What a width is read from: a fractional number, or a whole number, for which the nearest one stands. -/
inductive WidthFrom : Json → Double → Prop
  | float (x : Double) : WidthFrom (.float x) x
  | int {n : Int} {x : Double} (near : Double.ofInt? n = some x) : WidthFrom (.int n) x

theorem widthFrom_of_readWidth? {width : Json} (h : readWidth? json = some (.ok width)) :
    ∃ x : Double, width = .float x ∧ WidthFrom json x := by
  cases json with
  | float x =>
    cases h
    exact ⟨x, rfl, .float x⟩
  | int n =>
    rw [readWidth?] at h
    split at h
    · rename_i x hx
      cases h
      exact ⟨x, rfl, .int hx⟩
    · cases h
  | _ => cases h

/-- Widths are read one by one. -/
theorem widthsFrom_of_readWidths {items widths : List Json} {results : List (Except CodecError Json)}
    (hresults : items.mapM readWidth? = some results) (hwidths : results.mapM id = .ok widths) :
    ∃ xs : List Double, widths = xs.map .float ∧ List.Forall₂ WidthFrom items xs := by
  have heq : List.Forall₂ (· = ·) results (widths.map .ok) :=
    List.forall₂_map_right_iff.mpr (mapM_eq_ok_iff.mp hwidths)
  rw [List.forall₂_eq_eq_eq] at heq
  rw [heq, mapM_eq_some_iff, List.forall₂_map_right_iff] at hresults
  clear heq hwidths
  induction hresults with
  | nil => exact ⟨[], rfl, .nil⟩
  | cons hread _ ih =>
    obtain ⟨x, rfl, hx⟩ := widthFrom_of_readWidth? hread
    obtain ⟨xs, rfl, hxs⟩ := ih
    exact ⟨x :: xs, rfl, .cons hx hxs⟩

/-- What a value is read from: data of the form that its sort asks for, whose parts are read as its parts. -/
inductive ReadsAs (read : Kind → Json → Except CodecError Tree) (context : String) :
    Codec → Json → Value Tree → Prop
  | int (n : Int) : ReadsAs read context .int (.int n) (.data (.int n))
  | text (s : String) : ReadsAs read context .text (.str s) (.data (.str s))
  | attr {json : Json} {a : Attr} (all : readAttr context json = .ok a) : ReadsAs read context .attr json (.attr a)
  | target (url title : String) : ReadsAs read context .target (.arr [.str url, .str title]) (.target ⟨url, title⟩)
  | listAttributes {n : Int} {style delimiter : Json} {styleName delimiterName : String}
      (hstyle : readEnum context listStyles style = .ok styleName)
      (hdelimiter : readEnum context listDelimiters delimiter = .ok delimiterName) :
      ReadsAs read context .listAttributes (.arr [.int n, style, delimiter])
        (.listAttributes ⟨n, styleName, delimiterName⟩)
  | enum {choices : List String} {json : Json} {name : String} (one : readEnum context choices json = .ok name) :
      ReadsAs read context (.enum choices) json (.data (.str name))
  | enumList {choices : List String} {items : List Json} {names : List String}
      (each : List.Forall₂ (fun item name => readEnum context choices item = .ok name) items names) :
      ReadsAs read context (.enumList choices) (.arr items) (.data (.arr (names.map .str)))
  | floatList {items : List Json} {widths : List Double} (each : List.Forall₂ WidthFrom items widths) :
      ReadsAs read context .floatList (.arr items) (.data (.arr (widths.map .float)))
  | citations {items : List Json} {cs : List (Citation Tree)}
      (each : List.Forall₂ (fun item c => readCitation read context item = .ok c) items cs) :
      ReadsAs read context .citations (.arr items) (.citations cs)

/-- A value that is read comes from data of its form. -/
theorem readsAs_of_readValue (hread : readValue read context name codec json = .ok v) :
    ReadsAs read context codec json v := by
  cases codec with
  | int =>
    cases json with
    | int n =>
      cases hread
      exact .int n
    | _ => cases hread
  | text =>
    cases json with
    | str s =>
      cases hread
      exact .text s
    | _ => cases hread
  | attr =>
    obtain ⟨a, ha, rfl⟩ := exists_of_map_eq_ok hread
    exact .attr ha
  | target =>
    obtain ⟨t, ht, rfl⟩ := exists_of_map_eq_ok hread
    obtain ⟨-, ht⟩ := showing_eq_ok_iff.mp ht
    split at ht
    · cases ht
      exact .target _ _
    · cases ht
  | listAttributes =>
    obtain ⟨l, hl, rfl⟩ := exists_of_map_eq_ok hread
    obtain ⟨-, hl⟩ := showing_eq_ok_iff.mp hl
    split at hl
    · split at hl
      · obtain ⟨style, hstyle, hl⟩ := bind_eq_ok_iff.mp hl
        obtain ⟨delimiter, hdelimiter, hl⟩ := bind_eq_ok_iff.mp hl
        cases hl
        exact .listAttributes hstyle hdelimiter
      · cases hl
    · cases hl
  | enum choices =>
    obtain ⟨text, htext, rfl⟩ := exists_of_map_eq_ok hread
    exact .enum htext
  | enumList choices =>
    cases json with
    | arr items =>
      obtain ⟨names, hnames, hread⟩ := bind_eq_ok_iff.mp hread
      cases hread
      exact .enumList (mapM_eq_ok_iff.mp hnames)
    | _ => cases hread
  | floatList =>
    cases json with
    | arr items =>
      rw [readValue] at hread
      split at hread
      · rename_i results hresults
        obtain ⟨widths, hwidths, hread⟩ := bind_eq_ok_iff.mp hread
        cases hread
        obtain ⟨xs, rfl, hxs⟩ := widthsFrom_of_readWidths hresults hwidths
        exact .floatList hxs
      · cases hread
    | _ => cases hread
  | citations =>
    cases json with
    | arr items =>
      obtain ⟨cs, hcs, hread⟩ := bind_eq_ok_iff.mp hread
      cases hread
      exact .citations (mapM_eq_ok_iff.mp hcs)
    | _ => cases hread

/-- A slot is read as a value of its sort. -/
theorem ReadsAs.takes (h : ReadsAs read context codec json v) : codec.Takes v := by
  cases h with
  | int n => exact .int n
  | text s => exact .text s
  | attr _ => exact .attr _
  | target url title => exact .target _
  | listAttributes hstyle hdelimiter => exact .listAttributes (mem_of_readEnum hstyle) (mem_of_readEnum hdelimiter)
  | enum one => exact .enum (mem_of_readEnum one)
  | enumList each =>
    refine .enumList fun name hname => ?_
    obtain ⟨item, -, hitem⟩ := exists_of_mem_right each name hname
    exact mem_of_readEnum hitem
  | floatList _ => exact .floatList _
  | citations each =>
    refine .citations fun c hc => ?_
    obtain ⟨item, -, hitem⟩ := exists_of_mem_right each c hc
    exact (readCitation_eq_ok hitem).2.2.2.1

/-! ## Slots -/

/-- What is read off the fields of slots: each value under its name, each part and each run as children in their
order. -/
inductive ReadsOff (read : Kind → Json → Except CodecError Tree) (kind : Kind) :
    List Slot → List Json → Payload Tree → List Tree → Prop
  | nil : ReadsOff read kind [] [] [] []
  | value {name codec field v slots fields payload children} (here : ReadsAs read kind.name codec field v)
      (rest : ReadsOff read kind slots fields payload children) :
      ReadsOff read kind (.value name codec :: slots) (field :: fields) ((name, v) :: payload) children
  | part {part field t slots fields payload children} (here : read part field = .ok t)
      (rest : ReadsOff read kind slots fields payload children) :
      ReadsOff read kind (.part part :: slots) (field :: fields) payload (t :: children)
  | run {slot field members slots fields payload children} (hrun : slot.isRun)
      (here : readRun read kind.name slot field = .ok members)
      (rest : ReadsOff read kind slots fields payload children) :
      ReadsOff read kind (slot :: slots) (field :: fields) payload (members ++ children)

variable {slots : List Slot} {fields : List Json} {payload : Payload Tree} {children : List Tree}

theorem readsOff_of_readSlots (hlength : fields.length = slots.length)
    (hread : readSlots read kind (slots.zip fields) = .ok (payload, children)) :
    ReadsOff read kind slots fields payload children := by
  induction slots generalizing fields payload children with
  | nil =>
    obtain rfl := List.length_eq_zero_iff.mp hlength
    cases hread
    exact .nil
  | cons slot slots ih =>
    obtain ⟨field, fields, rfl⟩ := List.exists_cons_of_length_eq_add_one hlength
    have hshort : fields.length = slots.length := Nat.succ.inj hlength
    rw [List.zip_cons_cons] at hread
    rcases slot.run_or with hrun | ⟨name, codec, rfl⟩ | ⟨part, rfl⟩
    · rw [readSlots_run hrun] at hread
      obtain ⟨members, hmembers, hread⟩ := bind_eq_ok_iff.mp hread
      obtain ⟨⟨payload, children⟩, hslots, heq⟩ := bind_eq_ok_iff.mp hread
      cases heq
      exact .run hrun hmembers (ih hshort hslots)
    · obtain ⟨v, hv, hread⟩ := bind_eq_ok_iff.mp hread
      obtain ⟨⟨payload, children⟩, hslots, heq⟩ := bind_eq_ok_iff.mp hread
      cases heq
      exact .value (readsAs_of_readValue hv) (ih hshort hslots)
    · obtain ⟨child, hchild, hread⟩ := bind_eq_ok_iff.mp hread
      obtain ⟨⟨payload, children⟩, hslots, heq⟩ := bind_eq_ok_iff.mp hread
      cases heq
      exact .part hchild (ih hshort hslots)

/-- The payload has the names of the slots, in their order. -/
theorem ReadsOff.keys (h : ReadsOff read kind slots fields payload children) :
    Entries.keys payload = slots.filterMap (·.name?) := by
  induction h with
  | nil => rfl
  | @value name _ _ _ _ _ _ _ _ _ ih => exact congrArg (name :: ·) ih
  | part _ _ ih => exact ih
  | run hrun _ _ ih => rw [List.filterMap_cons_none (Slot.name?_of_isRun hrun), ih]

theorem length_contentFields (h : contentFields kind json = .ok fields) : fields.length = kind.layout.length := by
  by_cases hnone : kind.layout = []
  · rw [contentFields, hnone] at h
    cases h
    rw [hnone]
    rfl
  · exact (fields_of_contentFields h hnone).2

/-- The contents of a node are read off their fields. -/
theorem readContents_eq_ok {fuel : Nat} (hread : readContents (fuel + 1) kind json = .ok t) :
    ∃ fields payload children, t = .node kind payload children ∧ contentFields kind json = .ok fields ∧
      ReadsOff (readContents fuel) kind kind.layout fields payload children := by
  obtain ⟨fields, hfields, hread⟩ := bind_eq_ok_iff.mp hread
  obtain ⟨⟨payload, children⟩, hslots, heq⟩ := bind_eq_ok_iff.mp hread
  cases heq
  exact ⟨fields, payload, children, rfl, hfields, readsOff_of_readSlots (length_contentFields hfields) hslots⟩

end Read

/-! ## Metadata -/

namespace MetaValue

variable {json : Json} {m : MetaValue}

/-- The contents of a value that are no null are there. -/
theorem get?_of_getD {contents : Json} (h : (json.get? "c").getD .null = contents) (hne : contents ≠ .null) :
    json.get? "c" = some contents := by
  cases hget : json.get? "c" with
  | none =>
    rw [hget, Option.getD_none] at h
    exact absurd h.symm hne
  | some found =>
    rw [hget, Option.getD_some] at h
    rw [h]

/-- What a value is read from: an object with the tag of its sort, and with contents of the form that the sort asks
for, which are read as what is below it. -/
inductive SourceOf (read : Json → Except CodecError (Option MetaValue)) (json : Json) : MetaValue → Prop
  | map {raw entries} (tag : json.get? "t" = some (.str "MetaMap")) (contents : json.get? "c" = some (.obj raw))
      (below : readEntries read raw = .ok entries) : SourceOf read json (.map entries)
  | list {items values} (tag : json.get? "t" = some (.str "MetaList")) (contents : json.get? "c" = some (.arr items))
      (below : readItems read items = .ok values) : SourceOf read json (.list values)
  | bool {b} (tag : json.get? "t" = some (.str "MetaBool")) (contents : json.get? "c" = some (.bool b)) :
      SourceOf read json (.bool b)
  | string {s} (tag : json.get? "t" = some (.str "MetaString")) (contents : json.get? "c" = some (.str s)) :
      SourceOf read json (.string s)
  | inlines {items nodes} (tag : json.get? "t" = some (.str "MetaInlines"))
      (contents : json.get? "c" = some (.arr items))
      (below : Tree.listOfJson "MetaInlines" .inlines (.arr items) = .ok nodes) : SourceOf read json (.inlines nodes)
  | blocks {items nodes} (tag : json.get? "t" = some (.str "MetaBlocks"))
      (contents : json.get? "c" = some (.arr items))
      (below : Tree.listOfJson "MetaBlocks" .blocks (.arr items) = .ok nodes) : SourceOf read json (.blocks nodes)

/-- A list of nodes is read from an array. -/
theorem exists_items_of_listOfJson {context : String} {run : Slot} {nodes : List Tree}
    (hread : Tree.listOfJson context run ((json.get? "c").getD .null) = .ok nodes) :
    ∃ items, json.get? "c" = some (.arr items) ∧ Tree.listOfJson context run (.arr items) = .ok nodes := by
  cases hcontents : (json.get? "c").getD .null with
  | arr items => exact ⟨items, get?_of_getD hcontents (by simp), hcontents ▸ hread⟩
  | _ =>
    rw [hcontents] at hread
    cases hread

/-- A value that is read comes from an object of its form. -/
theorem sourceOf_of_read {fuel : Nat} (hread : read (fuel + 1) json = .ok (some m)) :
    SourceOf (read fuel) json m := by
  rw [read] at hread
  split at hread
  · rename_i htag
    obtain ⟨entries, hentries, heq⟩ := bind_eq_ok_iff.mp hread
    cases heq
    cases hcontents : (json.get? "c").getD .null with
    | obj raw =>
      rw [hcontents] at hentries
      exact .map htag (get?_of_getD hcontents (by simp)) hentries
    | _ =>
      rw [hcontents] at hentries
      cases hentries
  · rename_i htag
    split at hread
    · rename_i items hcontents
      obtain ⟨values, hvalues, heq⟩ := bind_eq_ok_iff.mp hread
      cases heq
      exact .list htag (get?_of_getD hcontents (by simp)) hvalues
    · cases hread
  · rename_i htag
    split at hread
    · rename_i b hcontents
      cases hread
      exact .bool htag (get?_of_getD hcontents (by simp))
    · cases hread
  · rename_i htag
    split at hread
    · rename_i s hcontents
      cases hread
      exact .string htag (get?_of_getD hcontents (by simp))
    · cases hread
  · rename_i htag
    obtain ⟨nodes, hnodes, heq⟩ := bind_eq_ok_iff.mp hread
    cases heq
    obtain ⟨items, hcontents, hnodes⟩ := exists_items_of_listOfJson hnodes
    exact .inlines htag hcontents hnodes
  · rename_i htag
    obtain ⟨nodes, hnodes, heq⟩ := bind_eq_ok_iff.mp hread
    cases heq
    obtain ⟨items, hcontents, hnodes⟩ := exists_items_of_listOfJson hnodes
    exact .blocks htag hcontents hnodes
  · cases (showing_eq_ok_iff.mp hread).2

end MetaValue

end DocFilter
