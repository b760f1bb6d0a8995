import DocFilter.Proofs.Codec.Shaped
import DocFilter.Proofs.Json.Parsed
import DocFilter.Proofs.Node.Payload

/-!
# What reading gives

Reading drops whatever it has no place for, so what it gives is in a normal form: payloads in the order of
the slots, with values whose data stood in what was read.  A tree in normal form is read back as it is.

* `Json.Composed` are the properties that data has if its parts have them, such as that a text can denote it, or
  that a message can show it.
* `Codec.Gives` are the values that a slot can give: values of its sort with data of such a property.
* `Tree.Decoded` is the normal form of trees, and `reads_readContents` says that reading gives it, by
  induction on the fuel.
* `Tree.Shaped.inOrder_eq` says that it is read back as it is.
* `MetaValue.holds_read` and `MetaValue.Over.inOrder_eq` carry this over to metadata.
-/

namespace DocFilter

/-! ## Data -/

/-- A property that data hands on to its parts, and that it has if all its parts do. -/
structure Json.Composed (legal : Json → Prop) : Prop extends Json.Hereditary legal where
  str : ∀ s, legal (.str s)
  zero : legal (.int 0)
  nearest : ∀ {n : Int} {x : Double}, Double.ofInt? n = some x → legal (.float x)
  arr : ∀ {items : List Json}, (∀ item ∈ items, legal item) → legal (.arr items)
  obj : ∀ {entries : List (String × Json)}, (entries.map (·.1)).Nodup → (∀ entry ∈ entries, legal entry.2) →
    legal (.obj entries)

theorem Json.Legible.of_get? {j value : Json} {key : String} (h : j.Legible)
    (hget : j.get? key = some value) : value.Legible := by
  cases h with
  | obj keys below =>
    obtain ⟨l₁, l₂, rfl, -⟩ := List.lookup_eq_some_iff.mp hget
    exact below (key, value) (by simp)
  | _ => cases hget

theorem Json.Legible.of_mem {items : List Json} (h : (Json.arr items).Legible) :
    ∀ item ∈ items, item.Legible := by
  cases h with
  | arr below => exact below

theorem Json.composed_legible : Json.Composed Json.Legible where
  get? := Json.Legible.of_get?
  mem := Json.Legible.of_mem
  null := .null
  nil := .arr nofun
  str := .str
  zero := .int (not_isLong (by decide))
  nearest := by
    intro n x hnear
    rw [Double.ofInt?] at hnear
    split at hnear
    · cases hnear
    · cases hnear
      exact .float (Double.canonical_ofRatio Nat.one_pos)
  arr := .arr
  obj := .obj

theorem Json.composed_short : Json.Composed (·.holdsLong = false) where
  get? := Json.holdsLong_get? _
  mem := Json.itemsHoldLong_eq_false_iff.mp
  null := rfl
  nil := rfl
  str _ := rfl
  zero := Bool.eq_false_iff.mpr (not_isLong (by decide))
  nearest _ := rfl
  arr := Json.itemsHoldLong_eq_false_iff.mpr
  obj _ := Json.entriesHoldLong_eq_false_iff.mpr

theorem Json.Composed.strings {legal : Json → Prop} (h : Json.Composed legal) (names : List String) :
    legal (.arr (names.map .str)) := h.arr (List.forall_mem_map.mpr fun name _ => h.str name)

/-! ## Values -/

/-- The data of a value, apart from the nodes in it, has a property. -/
def Value.Legal (legal : Json → Prop) : Value Tree → Prop
  | .data v => legal v
  | .listAttributes l => legal (.int l.start)
  | .citations cs => ∀ c ∈ cs, legal c.id ∧ legal c.noteNum ∧ legal c.hash
  | .attr _ | .target _ => True

/-- The values that reading a slot of data with a property gives. -/
structure Codec.Gives (legal : Json → Prop) (codec : Codec) (v : Value Tree) : Prop where
  takes : codec.Takes v
  legal : v.Legal legal

section Read

variable {legal : Json → Prop} {read : Kind → Json → Except CodecError Tree} {context name : String} {json : Json}
  {codec : Codec} {v : Value Tree}

theorem legal_of_readCitation {c : Citation Tree} (hlegal : Json.Composed legal) (hjson : legal json)
    (hread : readCitation read context json = .ok c) : legal c.id ∧ legal c.noteNum ∧ legal c.hash := by
  obtain ⟨hid, -, -, -, hnoteNum, hhash⟩ := readCitation_eq_ok hread
  have hnumber := hlegal.getD_get? hjson hlegal.zero
  exact ⟨hlegal.get? hjson hid, hnoteNum ▸ hnumber _, hhash ▸ hnumber _⟩

theorem WidthFrom.legal_float {x : Double} (h : WidthFrom json x) (hlegal : Json.Composed legal) (hjson : legal json) :
    legal (.float x) := by
  cases h with
  | float x => exact hjson
  | int near => exact hlegal.nearest near

/-- The value of a slot has data with the property of what it is read from. -/
theorem ReadsAs.legal_value (h : ReadsAs read context codec json v) (hlegal : Json.Composed legal) (hjson : legal json) :
    v.Legal legal := by
  cases h with
  | int n | text s => exact hjson
  | attr _ | target _ _ => trivial
  | @listAttributes n _ _ _ _ _ _ => exact hlegal.mem hjson (.int n) (by simp)
  | enum _ => exact hlegal.str _
  | enumList _ => exact hlegal.strings _
  | floatList each =>
    refine hlegal.arr (List.forall_mem_map.mpr fun x hx => ?_)
    obtain ⟨item, hitem, hone⟩ := exists_of_mem_right each x hx
    exact hone.legal_float hlegal (hlegal.mem hjson item hitem)
  | citations each =>
    intro c hc
    obtain ⟨item, hitem, hone⟩ := exists_of_mem_right each c hc
    exact legal_of_readCitation hlegal (hlegal.mem hjson item hitem) hone

end Read

/-! ## Trees -/

/-- A tree that at every node, those inside citations included, has what the slots of its kind give for data with
a property. -/
inductive Tree.Decoded (legal : Json → Prop) : Tree → Prop
  | node {kind payload children} (layout : LaidOut kind.layout (children.map Tree.kind))
      (names : Entries.keys payload = kind.payloadNames)
      (values : ∀ name codec, .value name codec ∈ kind.layout →
        ∃ v, Entries.find? name payload = some v ∧ codec.Gives legal v)
      (inline : ∀ t ∈ Payload.nodes payload, t.kind.isInline)
      (inside : ∀ t ∈ Payload.nodes payload, Decoded legal t) (below : ∀ t ∈ children, Decoded legal t) :
      Decoded legal (.node kind payload children)

/-- Reading contents with a property gives a tree in normal form. -/
theorem reads_readContents {legal : Json → Prop} (hlegal : Json.Composed legal) (fuel : Nat) :
    Reads legal (readContents fuel) (Tree.Decoded legal) := by
  induction fuel with
  | zero => exact ⟨hlegal.toHereditary, fun _ hread => by cases hread⟩
  | succ fuel ih =>
    have hvalue : ∀ {context codec json v}, legal json → ReadsAs (readContents fuel) context codec json v →
        codec.Gives legal v ∧ ∀ t ∈ v.nodes, t.kind.isInline ∧ t.Decoded legal := fun hjson hread =>
      ⟨⟨hread.takes, hread.legal_value hlegal hjson⟩, ih.value hjson hread⟩
    refine ih.succ hvalue fun hgives => ?_
    exact .node hgives.layout hgives.names hgives.values (fun t ht => (hgives.inside t ht).1)
      (fun t ht => (hgives.inside t ht).2) hgives.below

/-! ## Written and read back -/

theorem Tree.Decoded.shaped {legal : Json → Prop} {t : Tree} (h : t.Decoded legal) : t.Shaped := by
  induction h with
  | node layout names values inline _ _ ihInside ihBelow =>
    refine .node layout names (fun name codec hslot => ?_) inline ihInside ihBelow
    obtain ⟨v, hfind, hgives⟩ := values name codec hslot
    exact ⟨v, hfind, hgives.takes⟩

/-- A payload with the names of the slots in their order is in order. -/
theorem Kind.arrange_eq_self {kind : Kind} {payload : Payload Tree}
    (h : Entries.keys payload = kind.payloadNames) : kind.arrange payload = payload := by
  have hkeys : ∀ entries : Payload Tree, (Entries.keys entries).Nodup →
      (Entries.keys entries).filterMap (fun name => (Entries.find? name entries).map (name, ·)) =
        entries := by
    intro entries hnodup
    induction entries with
    | nil => rfl
    | cons entry entries ih =>
      obtain ⟨hnew, hrest⟩ := List.nodup_cons.mp hnodup
      have hlater : ∀ name ∈ Entries.keys entries,
          (Entries.find? name (entry :: entries)).map (name, ·) =
            (Entries.find? name entries).map (name, ·) := by
        intro name hname
        have hne : (name == entry.1) = false := by
          rw [beq_eq_false_iff_ne]
          rintro rfl
          exact hnew hname
        rw [Entries.find?, List.lookup_cons, hne, Entries.find?]
      have hfirst : (Entries.find? entry.1 (entry :: entries)).map (entry.1, ·) = some entry := by
        rw [Entries.find?, List.lookup_cons_self, Option.map_some]
      rw [Entries.keys, List.map_cons, List.filterMap_cons, hfirst]
      exact congrArg (entry :: ·) ((List.filterMap_congr hlater).trans (ih hrest))
  rw [Kind.arrange, ← h]
  exact hkeys payload (h ▸ kind.nodup_payloadNames)

/-- A node with the names of its slots in their order is in order if the nodes in it and below it are. -/
theorem Tree.inOrder_eq_self {kind : Kind} {payload : Payload Tree} {children : List Tree}
    (names : Entries.keys payload = kind.payloadNames) (inside : ∀ t ∈ Payload.nodes payload, t.inOrder = t)
    (below : ∀ t ∈ children, t.inOrder = t) : (node kind payload children).inOrder = .node kind payload children := by
  have hchildren : children.map Tree.inOrder = children := (List.map_congr_left below).trans (List.map_id _)
  rw [Tree.inOrder_node, Payload.map_eq_self inside, Kind.arrange_eq_self names, hchildren]

/-- A tree that fits its layouts is in order. -/
theorem Tree.Shaped.inOrder_eq {t : Tree} (h : t.Shaped) : t.inOrder = t := by
  induction h with
  | node _ names _ _ _ _ ihInside ihBelow => exact Tree.inOrder_eq_self names ihInside ihBelow

/-! ## Metadata -/

namespace MetaValue

section Read

variable {good : Tree → Prop} {read : Json → Except CodecError (Option MetaValue)}

/-- The entries that are kept have some of the names, in their order. -/
theorem keys_of_readEntries {jsons : List (String × Json)} {entries : List (String × MetaValue)}
    (hread : readEntries read jsons = .ok entries) : (entries.map (·.1)).Sublist (jsons.map (·.1)) := by
  induction jsons generalizing entries with
  | nil =>
    cases hread
    exact .refl _
  | cons first jsons ih =>
    obtain ⟨key, json⟩ := first
    obtain ⟨value, -, hread⟩ := bind_eq_ok_iff.mp hread
    obtain ⟨rest, hrest, heq⟩ := bind_eq_ok_iff.mp hread
    cases value with
    | none =>
      cases heq
      exact (ih hrest).cons _
    | some m =>
      cases heq
      exact (ih hrest).cons_cons _

theorem holds_readMap {json : Json} {entries : List (String × MetaValue)} (hjson : json.Legible)
    (h : ∀ json m, json.Legible → read json = .ok (some m) → m.Holds good)
    (hread : readMap read json = .ok entries) : (map entries).Holds good := by
  cases hjson with
  | obj keys below =>
    refine .map ((keys_of_readEntries hread).nodup keys) fun entry hentry => ?_
    obtain ⟨json, hmem, hjson⟩ := exists_of_mem_readEntries hread entry hentry
    exact h json entry.2 (below _ hmem) hjson
  | _ => cases hread

/-- Metadata is read over trees in normal form, with distinct names. -/
theorem holds_read (fuel : Nat) {json : Json} {m : MetaValue} (hjson : json.Legible)
    (hread : MetaValue.read fuel json = .ok (some m)) : m.Holds (Tree.Decoded Json.Legible) := by
  induction fuel generalizing json m with
  | zero => cases hread
  | succ fuel ih =>
    have ih := fun json m => @ih json m
    cases sourceOf_of_read hread with
    | @map raw _ _ contents below => exact holds_readMap (hjson.of_get? contents) ih below
    | list _ contents below =>
      refine .list fun item hitem => ?_
      obtain ⟨json, hmem, hone⟩ := exists_of_mem_readItems below item hitem
      exact ih json item ((hjson.of_get? contents).of_mem json hmem) hone
    | bool _ _ => exact .bool _
    | string _ _ => exact .string _
    | inlines _ contents below =>
      obtain ⟨hadmits, hdecoded⟩ :=
        (reads_readContents Json.composed_legible _).run rfl (hjson.of_get? contents) below
      exact .inlines hadmits hdecoded
    | blocks _ contents below =>
      obtain ⟨hadmits, hdecoded⟩ :=
        (reads_readContents Json.composed_legible _).run rfl (hjson.of_get? contents) below
      exact .blocks hadmits hdecoded

end Read

theorem entriesInOrder_eq_self {entries : List (String × MetaValue)}
    (h : ∀ entry ∈ entries, entry.2.inOrder = entry.2) : entriesInOrder entries = entries := by
  induction entries with
  | nil => rfl
  | cons entry entries ih =>
    obtain ⟨hfirst, hrest⟩ := List.forall_mem_cons.mp h
    rw [entriesInOrder, hfirst, ih hrest]

theorem itemsInOrder_eq_self {items : List MetaValue} (h : ∀ item ∈ items, item.inOrder = item) :
    itemsInOrder items = items := by
  induction items with
  | nil => rfl
  | cons item items ih =>
    obtain ⟨hfirst, hrest⟩ := List.forall_mem_cons.mp h
    rw [itemsInOrder, hfirst, ih hrest]

/-- Metadata over trees in order is in order. -/
theorem Over.inOrder_eq {m : MetaValue} (h : m.Over (fun t => t.inOrder = t) fun t => t.inOrder = t) :
    m.inOrder = m := by
  induction h with
  | map _ ih => rw [inOrder, entriesInOrder_eq_self ih]
  | list _ ih => rw [inOrder, itemsInOrder_eq_self ih]
  | bool b | string s => rfl
  | inlines each | blocks each => rw [inOrder, List.map_congr_left each, List.map_id']

theorem Holds.inOrder_eq {m : MetaValue} (h : m.Holds fun t => t.inOrder = t) : m.inOrder = m :=
  (h.over.mono (fun _ => And.right) fun _ => And.right).inOrder_eq

theorem Shaped.inOrder_eq {m : MetaValue} (h : m.Shaped) : m.inOrder = m :=
  (h.mono (fun _ ht => ht.2.inOrder_eq) fun _ ht => ht.2.inOrder_eq).inOrder_eq

end MetaValue

end DocFilter
