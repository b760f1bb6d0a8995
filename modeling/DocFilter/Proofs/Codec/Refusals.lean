import DocFilter.Codec.Document
import DocFilter.Proofs.Codec.Filled
import DocFilter.Proofs.Json.Refused

/-!
# How reading fails

Data that is no document is refused for a cause that the refusal tells.  There is one exception, a whole number
among the widths of a table that is beyond the range of fractional numbers, for data that can be shown, as all data
from a text can.

* `Json.HasWideTable` says that data holds such a table, `CodecError.Expected` which errors are left.
* `FailsExpected.slots` goes through the slots of a node, `fails_readContents` is the induction on the fuel, which
  is always enough.
* `Document.fails_ofJson` is about data, `Document.Fares` is what can come of reading text.
* `Document.parse_fares` is the main result, on text and on bytes.
-/

namespace DocFilter

/-! ## Wide tables -/

namespace Json

/-- A value that stands somewhere in some data. -/
inductive Inside (part : Json) : Json → Prop
  | self : Inside part part
  | item {items : List Json} {item : Json} (hmem : item ∈ items) (h : Inside part item) : Inside part (.arr items)
  | entry {entries : List (String × Json)} {entry : String × Json} (hmem : entry ∈ entries)
      (h : Inside part entry.2) : Inside part (.obj entries)

/-- Widths with a whole number among them that is beyond the range of fractional numbers. -/
def TooWide (widths : Json) : Prop := ∃ items n, widths = .arr items ∧ .int n ∈ items ∧ Double.ofInt? n = none

/-- Data with a table in it that has such widths. -/
def HasWideTable (json : Json) : Prop := ∃ table fields widths, Inside table json ∧
  table.get? "t" = some (.str "Table") ∧ table.get? "c" = some (.arr fields) ∧ fields[2]? = some widths ∧
    widths.TooWide

variable {json part : Json} {key : String} {items : List Json}

theorem HasWideTable.of_inside (h : part.HasWideTable) (hstep : ∀ j, Inside j part → Inside j json) :
    json.HasWideTable := by
  obtain ⟨table, fields, widths, hinside, htable⟩ := h
  exact ⟨table, fields, widths, hstep table hinside, htable⟩

theorem HasWideTable.of_mem (h : part.HasWideTable) (hmem : part ∈ items) : (Json.arr items).HasWideTable :=
  h.of_inside fun _ => .item hmem

theorem HasWideTable.of_get? (h : part.HasWideTable) (hget : json.get? key = some part) : json.HasWideTable := by
  cases json with
  | obj entries =>
    obtain ⟨l₁, l₂, rfl, -⟩ := List.lookup_eq_some_iff.mp hget
    exact h.of_inside fun _ => .entry (show (key, part) ∈ l₁ ++ (key, part) :: l₂ by simp)
  | _ => cases hget

theorem HasWideTable.ofFields (h : part.HasWideTable) (hmem : part ∈ items) :
    (Json.ofFields items).HasWideTable := by
  rcases items with _ | ⟨field, _ | ⟨second, rest⟩⟩
  · cases hmem
  · rwa [List.mem_singleton.mp hmem] at h
  · exact h.of_mem hmem

end Json

/-! ## Errors -/

/-- The errors of reading: a cause in the data, a kind that is not known, and, if there is a wide table, a number
out of range. -/
def CodecError.Expected (wide : Prop) (e : CodecError) : Prop :=
  e.IsMalformed ∨ (∃ name, e = .unknownKind name) ∨ wide ∧ e = .fault .overflow

theorem CodecError.Expected.mono {wide wide' : Prop} (himp : wide → wide') {e : CodecError} (h : e.Expected wide) :
    e.Expected wide' := h.imp_right (Or.imp_right (And.imp_left himp))

section Read

variable {α : Type} {wide wide' : Prop} {read : Kind → Json → Except CodecError Tree} {fuel : Nat} {kind : Kind}
  {slot : Slot} {json : Json} {context name : String} {choices : List String} {codec : Codec}

theorem FailsOnly.widen {x : Except CodecError α} (h : FailsOnly (CodecError.Expected wide) x)
    (himp : wide → wide') : FailsOnly (CodecError.Expected wide') x :=
  fun e he => (h e he).mono himp

theorem fails_expected (cause : Malformed) :
    FailsOnly (CodecError.Expected wide) (malformed cause : Except CodecError α) := .error (.inl ⟨cause, rfl⟩)

theorem fails_readEnum (hshort : json.holdsLong = false) :
    FailsOnly (CodecError.Expected wide) (readEnum context choices json) := by
  refine .showing ?_ hshort
  split
  · exact fails_expected _
  · split
    · exact .ok
    · exact fails_expected _
  · exact fails_expected _

theorem fails_readAttr (hshort : json.holdsLong = false) :
    FailsOnly (CodecError.Expected wide) (readAttr context json) := by
  refine .showing ?_ hshort
  repeat' split
  all_goals first | exact .ok | exact fails_expected _

theorem fails_readTarget (hshort : json.holdsLong = false) :
    FailsOnly (CodecError.Expected wide) (readTarget context json) := by
  refine .showing ?_ hshort
  split
  · exact .ok
  · exact fails_expected _

theorem fails_readListAttributes (hshort : json.holdsLong = false) :
    FailsOnly (CodecError.Expected wide) (readListAttributes context json) := by
  refine .showing ?_ hshort
  split
  · rename_i start style delimiter
    have hparts := Json.itemsHoldLong_eq_false_iff.mp hshort
    split
    · exact (fails_readEnum (hparts style (by simp))).bind fun _ _ =>
        (fails_readEnum (hparts delimiter (by simp))).bind fun _ _ => .ok
    · exact fails_expected _
  · exact fails_expected _

/-- Widths are refused, or there is one out of range. -/
theorem fails_readWidths : FailsOnly (CodecError.Expected json.TooWide)
    (readValue read context name .floatList json) := by
  cases json with
  | arr items =>
    rw [readValue]
    split
    · rename_i results hresults
      refine FailsOnly.bind (FailsOnly.mapM fun result hresult => ?_) fun _ _ => .ok
      obtain ⟨item, hitem, hwidth⟩ := exists_of_mem_mapM_some hresults result hresult
      cases item with
      | float d =>
        cases hwidth
        exact .ok
      | int n =>
        cases hwidth
        cases hnear : Double.ofInt? n with
        | some d => exact .ok
        | none => exact .error (.inr (.inr ⟨⟨items, n, rfl, hitem, hnear⟩, rfl⟩))
      | _ => cases hwidth
    · exact fails_expected _
  | _ => exact fails_expected _

/-- Data that, as the contents of a kind, are or hold a wide table. -/
def WideContents (kind : Kind) (json : Json) : Prop := json.HasWideTable ∨
  kind = .table ∧ ∃ fields widths, json = .arr fields ∧ fields[2]? = some widths ∧ widths.TooWide

/-- A reader of contents that fails as expected on data of so much depth that can be shown. -/
def FailsExpected (read : Kind → Json → Except CodecError Tree) (fuel : Nat) : Prop :=
  ∀ kind json, json.depth ≤ fuel → json.holdsLong = false →
    FailsOnly (CodecError.Expected (WideContents kind json)) (read kind json)

theorem FailsExpected.node (h : FailsExpected read fuel) (hdepth : json.depth ≤ fuel + 1)
    (hshort : json.holdsLong = false) : FailsOnly (CodecError.Expected json.HasWideTable) (readNode read json) := by
  refine .showing ?_ hshort
  split
  · rename_i entries
    split
    · exact fails_expected _
    · rename_i tag htag
      split
      · exact .error (.inr (.inl ⟨_, rfl⟩))
      · rename_i kind hkind
        split
        · rename_i contents hcontents
          have hget : (Json.obj entries).get? "c" = some contents := hcontents
          have hlow := Json.depth_of_get? hget
          refine (h kind contents (by omega) (Json.holdsLong_get? "c" hshort hget)).widen fun hwide => ?_
          rcases hwide with hwide | ⟨rfl, fields, widths, rfl, hwidths⟩
          · exact hwide.of_get? hget
          · refine ⟨.obj entries, fields, widths, .self, ?_, hcontents, hwidths⟩
            exact htag.trans (congrArg some (tag_of_kind hkind))
        · split
          · have hlow : tag.depth < (Json.obj entries).depth := Json.depth_of_get? htag
            have hpos := tag.depth_pos
            have hnull : Json.null.depth = 1 := rfl
            refine (h kind .null (by omega) rfl).widen fun hwide => ?_
            rcases hwide with ⟨table, fields, widths, hinside, htable, -⟩ | ⟨-, fields, widths, hnull, -⟩
            · cases hinside
              cases htable
            · cases hnull
          · exact fails_expected _
  · exact fails_expected _

theorem FailsExpected.member (h : FailsExpected read fuel) (hdepth : json.depth ≤ fuel + 1)
    (hshort : json.holdsLong = false) :
    FailsOnly (CodecError.Expected json.HasWideTable) (readMember read context slot json) := by
  refine (h.node hdepth hshort).bind fun t _ => ?_
  split
  · exact .ok
  · exact fails_expected _

/-- A run of nodes or parts fails as expected. -/
theorem FailsExpected.run (h : FailsExpected read fuel) (hslot : slot.isRun)
    (hpart : ∀ part, slot = .parts part → part ≠ .table) (hdepth : json.depth ≤ fuel + 1)
    (hshort : json.holdsLong = false) :
    FailsOnly (CodecError.Expected json.HasWideTable) (readRun read context slot json) := by
  cases json with
  | arr items =>
    rw [Json.depth] at hdepth
    have hitems : ∀ item ∈ items, item.depth ≤ fuel := fun item hitem =>
      Nat.le_trans (Json.depth_le_depthItems hitem) (by omega)
    have hshorts : ∀ item ∈ items, item.holdsLong = false := Json.itemsHoldLong_eq_false_iff.mp hshort
    have hmembers : FailsOnly (CodecError.Expected (Json.arr items).HasWideTable)
        (items.mapM (readMember read context slot)) := .mapM fun item hitem =>
      (h.member (Nat.le_succ_of_le (hitems item hitem)) (hshorts item hitem)).widen fun hwide => hwide.of_mem hitem
    cases slot with
    | value name codec => cases hslot
    | part part => cases hslot
    | inlines | blocks => exact hmembers
    | parts part =>
      refine FailsOnly.mapM fun item hitem =>
        (h part item (hitems item hitem) (hshorts item hitem)).widen fun hwide => ?_
      rcases hwide with hwide | ⟨heq, -⟩
      · exact hwide.of_mem hitem
      · exact absurd heq (hpart part rfl)
  | _ => exact fails_expected _

/-- A citation fails as expected. -/
theorem FailsExpected.citation (h : FailsExpected read fuel) (hdepth : json.depth ≤ fuel + 1)
    (hshort : json.holdsLong = false) :
    FailsOnly (CodecError.Expected json.HasWideTable) (readCitation read context json) := by
  have hside : ∀ key, FailsOnly (CodecError.Expected json.HasWideTable)
      (readRun read context .inlines ((json.get? key).getD (.arr []))) := by
    intro key
    cases hget : json.get? key with
    | none => exact .ok
    | some side =>
      have hlow := Json.depth_of_get? hget
      have hrun : FailsOnly (CodecError.Expected side.HasWideTable) (readRun read context .inlines side) :=
        h.run rfl nofun (by omega) (Json.holdsLong_get? key hshort hget)
      exact hrun.widen fun hwide => hwide.of_get? hget
  refine .showing ?_ hshort
  split
  · exact fails_expected _
  · refine (hside _).bind fun _ _ => (hside _).bind fun _ _ => ?_
    dsimp only
    split
    · exact .ok
    · rename_i mode hmode
      exact (fails_readEnum (Json.holdsLong_get? "citationMode" hshort hmode)).bind fun _ _ => .ok

/-- A value fails as expected, but for widths of which one is out of range. -/
theorem FailsExpected.value (h : FailsExpected read fuel) (hdepth : json.depth ≤ fuel + 1)
    (hshort : json.holdsLong = false) :
    FailsOnly (CodecError.Expected (json.HasWideTable ∨ codec = .floatList ∧ json.TooWide))
      (readValue read context name codec json) := by
  cases codec with
  | int | text =>
    rw [readValue.eq_def]
    dsimp only
    split
    · exact .ok
    · exact fails_expected _
  | attr => exact (fails_readAttr hshort).map
  | target => exact (fails_readTarget hshort).map
  | listAttributes => exact (fails_readListAttributes hshort).map
  | enum choices => exact (fails_readEnum hshort).map
  | enumList choices =>
    cases json with
    | arr items =>
      exact (FailsOnly.mapM fun item hitem =>
        fails_readEnum (Json.itemsHoldLong_eq_false_iff.mp hshort item hitem)).bind fun _ _ => .ok
    | _ => exact fails_expected _
  | floatList => exact fails_readWidths.widen fun hwide => .inr ⟨rfl, hwide⟩
  | citations =>
    cases json with
    | arr items =>
      rw [Json.depth] at hdepth
      refine (FailsOnly.mapM fun item hitem => ?_).bind fun _ _ => .ok
      have hlow := Json.depth_le_depthItems hitem
      exact (h.citation (by omega) (Json.itemsHoldLong_eq_false_iff.mp hshort item hitem)).widen fun hwide =>
        .inl (hwide.of_mem hitem)
    | _ => exact fails_expected _

/-- The fields of a node fail as expected, but for widths of which one is out of range. -/
theorem FailsExpected.slots (h : FailsExpected read fuel) {slots : List (Slot × Json)}
    (hfuel : FuelFor fuel slots) (hshort : ∀ field ∈ slots, field.2.holdsLong = false)
    (hparts : ∀ field ∈ slots, ∀ part, field.1 = .part part ∨ field.1 = .parts part → part ≠ .table) :
    FailsOnly (CodecError.Expected (∃ field ∈ slots, field.2.HasWideTable ∨
      ∃ name, field.1 = .value name .floatList ∧ field.2.TooWide)) (readSlots read kind slots) := by
  induction slots with
  | nil => exact .ok
  | cons field slots ih =>
    obtain ⟨slot, json⟩ := field
    obtain ⟨hpart, hlater⟩ := List.forall_mem_cons.mp hparts
    obtain ⟨hfield, hfields⟩ := List.forall_mem_cons.mp hshort
    obtain ⟨hdepth, hlow⟩ := hfuel _ List.mem_cons_self
    have hrest : FailsOnly (CodecError.Expected (∃ field ∈ (slot, json) :: slots, field.2.HasWideTable ∨
        ∃ name, field.1 = .value name .floatList ∧ field.2.TooWide)) (readSlots read kind slots) :=
      (ih hfuel.tail hfields hlater).widen fun ⟨field, hmem, hwide⟩ => ⟨field, List.mem_cons_of_mem _ hmem, hwide⟩
    rcases slot.run_or with hrun | ⟨name, codec, rfl⟩ | ⟨part, rfl⟩
    · rw [readSlots_run hrun]
      refine ((h.run hrun (fun part heq => hpart part (.inr heq)) hdepth hfield).widen fun hwide => ?_).bind
        fun _ _ => hrest.bind fun _ _ => .ok
      exact ⟨_, List.mem_cons_self, .inl hwide⟩
    · refine ((h.value hdepth hfield).widen fun hwide => ⟨_, List.mem_cons_self, ?_⟩).bind fun _ _ =>
        hrest.bind fun _ _ => .ok
      rcases hwide with hwide | ⟨rfl, hwide⟩
      · exact .inl hwide
      · exact .inr ⟨name, rfl, hwide⟩
    · refine ((h part json (hlow rfl) hfield).widen fun hwide => ⟨_, List.mem_cons_self, .inl ?_⟩).bind fun _ _ =>
        hrest.bind fun _ _ => .ok
      rcases hwide with hwide | ⟨heq, -⟩
      · exact hwide
      · exact absurd heq (hpart part (.inl rfl))

/-- Only a table has widths, in its third field. -/
theorem Kind.field_of_widths {fields : List Json} (h : (.value name .floatList, json) ∈ kind.layout.zip fields) :
    kind = .table ∧ fields[2]? = some json := by
  have hkind : kind = .table := by
    have hslot := (List.of_mem_zip h).1
    cases kind <;> simp [Kind.layout, attrSlot, textSlot, formatSlot] at hslot ⊢
  subst hkind
  obtain ⟨i, hi⟩ := List.mem_iff_getElem?.mp h
  obtain ⟨hslot, hfield⟩ := List.getElem?_zip_eq_some.mp hi
  have htwo : i = 2 := by
    rcases i with _ | _ | _ | _ | _ | i <;> simp [Kind.layout] at hslot ⊢
  exact ⟨rfl, htwo ▸ hfield⟩

/-- Reading the contents of a node with fuel for their depth fails as expected. -/
theorem fails_readContents (fuel : Nat) : FailsExpected (readContents fuel) fuel := by
  induction fuel with
  | zero =>
    intro kind json hdepth
    have hpos := json.depth_pos
    omega
  | succ fuel ih =>
    intro kind json hdepth hshort
    rw [readContents]
    have hcontents : FailsOnly (CodecError.Expected (WideContents kind json)) (contentFields kind json) := by
      rw [contentFields.eq_def]
      split
      · exact .ok
      · exact .ok
      · refine .showing ?_ hshort
        repeat' split
        all_goals first | exact .ok | exact fails_expected _
    refine hcontents.bind fun fields hfields => ?_
    refine FailsOnly.bind ?_ fun _ _ => .ok
    by_cases hne : kind.layout = []
    · rw [hne]
      exact .ok
    · obtain ⟨rfl, hlength⟩ := fields_of_contentFields hfields hne
      have hparts : ∀ field ∈ kind.layout.zip fields, ∀ part, field.1 = .part part ∨ field.1 = .parts part →
          part ≠ .table := by
        rintro ⟨slot, field⟩ hfield part hslot rfl
        have hmem := (List.of_mem_zip hfield).1
        rcases hslot with rfl | rfl
        · cases Kind.not_isTagged_of_part (.inl hmem)
        · cases Kind.not_isTagged_of_part (.inr hmem)
      have hshorts : ∀ field ∈ kind.layout.zip fields, field.2.holdsLong = false := fun field hfield =>
        Json.itemsHoldLong_eq_false_iff.mp (Json.holdsLong_ofFields fields ▸ hshort) field.2 (List.of_mem_zip hfield).2
      refine (ih.slots (fuelFor_of_contents hlength hdepth) hshorts hparts).widen ?_
      rintro ⟨⟨slot, field⟩, hfield, hwide | ⟨name, rfl, hwide⟩⟩
      · exact .inl (hwide.ofFields (List.of_mem_zip hfield).2)
      · obtain ⟨rfl, hthird⟩ := Kind.field_of_widths hfield
        refine .inr ⟨rfl, fields, field, ?_, hthird, hwide⟩
        rcases fields with _ | ⟨first, _ | ⟨second, rest⟩⟩
        · cases hthird
        · cases hthird
        · rfl

end Read

/-! ## Metadata and documents -/

namespace MetaValue

variable {json : Json} {fuel : Nat} {read : Json → Except CodecError (Option MetaValue)} {wide : Prop}

theorem fails_readEntries {entries : List (String × Json)}
    (h : ∀ entry ∈ entries, FailsOnly (CodecError.Expected wide) (read entry.2)) :
    FailsOnly (CodecError.Expected wide) (readEntries read entries) := by
  induction entries with
  | nil => exact .ok
  | cons entry entries ih =>
    obtain ⟨hfirst, hrest⟩ := List.forall_mem_cons.mp h
    exact hfirst.bind fun _ _ => (ih hrest).bind fun _ _ => .ok

theorem fails_readItems {items : List Json} (h : ∀ item ∈ items, FailsOnly (CodecError.Expected wide) (read item)) :
    FailsOnly (CodecError.Expected wide) (readItems read items) := by
  induction items with
  | nil => exact .ok
  | cons item items ih =>
    obtain ⟨hfirst, hrest⟩ := List.forall_mem_cons.mp h
    exact hfirst.bind fun _ _ => (ih hrest).bind fun _ _ => .ok

theorem fails_readMap (hshort : json.holdsLong = false) (h : ∀ j, j.depth < json.depth → j.holdsLong = false →
      FailsOnly (CodecError.Expected j.HasWideTable) (read j)) :
    FailsOnly (CodecError.Expected json.HasWideTable) (readMap read json) := by
  cases json with
  | obj entries =>
    have hentries := Json.entriesHoldLong_eq_false_iff.mp hshort
    refine fails_readEntries fun entry hentry => (h entry.2 ?_ (hentries entry hentry)).widen fun hwide =>
      hwide.of_inside fun _ => .entry hentry
    have hlow := Json.depth_le_depthEntries hentry
    rw [Json.depth]
    omega
  | _ => exact fails_expected _

theorem fails_nodes {slot : Slot} {context : String} (hrun : slot.isRun) (hpart : ∀ part, slot ≠ .parts part)
    (hshort : json.holdsLong = false) :
    FailsOnly (CodecError.Expected json.HasWideTable) (Tree.listOfJson context slot json) :=
  (fails_readContents json.depth).run hrun (fun part heq => absurd heq (hpart part)) (Nat.le_succ _) hshort

/-- What lies in a member, or in the null that stands for a missing one, lies in the data. -/
theorem depth_le_of_getD {key : String} (hdepth : json.depth ≤ fuel + 1) (j : Json)
    (h : j.depth < ((json.get? key).getD .null).depth) : j.depth ≤ fuel := by
  cases hget : json.get? key with
  | none =>
    have hpos := j.depth_pos
    have hnull : Json.null.depth = 1 := rfl
    rw [hget, Option.getD_none] at h
    omega
  | some found =>
    have hfound := Json.depth_of_get? hget
    rw [hget, Option.getD_some] at h
    omega

theorem short_of_getD (key : String) (hshort : json.holdsLong = false) :
    ((json.get? key).getD .null).holdsLong = false := by
  cases hget : json.get? key with
  | none => rfl
  | some found => exact Json.holdsLong_get? key hshort hget

theorem hasWideTable_of_getD (key : String) (h : ((json.get? key).getD .null).HasWideTable) :
    json.HasWideTable := by
  cases hget : json.get? key with
  | none =>
    rw [hget, Option.getD_none] at h
    obtain ⟨table, fields, widths, hinside, htable, -⟩ := h
    cases hinside
    cases htable
  | some found =>
    rw [hget, Option.getD_some] at h
    exact h.of_get? hget

/-- Reading metadata with fuel for its depth fails as expected. -/
theorem fails_read (hdepth : json.depth ≤ fuel) (hshort : json.holdsLong = false) :
    FailsOnly (CodecError.Expected json.HasWideTable) (MetaValue.read fuel json) := by
  induction fuel generalizing json with
  | zero =>
    have hpos := json.depth_pos
    omega
  | succ fuel ih =>
    rw [MetaValue.read]
    obtain ⟨contents, hcontents⟩ : ∃ contents, (json.get? "c").getD .null = contents := ⟨_, rfl⟩
    have hlow : ∀ j : Json, j.depth < contents.depth → j.depth ≤ fuel :=
      hcontents ▸ depth_le_of_getD hdepth
    have hwiden : contents.HasWideTable → json.HasWideTable := hcontents ▸ hasWideTable_of_getD "c"
    have hcontentsShort : contents.holdsLong = false := hcontents ▸ short_of_getD "c" hshort
    have htagShort := short_of_getD "t" hshort
    rw [hcontents]
    split
    · exact ((fails_readMap hcontentsShort fun j hj => ih (hlow j hj)).widen hwiden).bind fun _ _ => .ok
    · split
      · rename_i items
        refine FailsOnly.bind (fails_readItems fun item hitem => ?_) fun _ _ => .ok
        have hitemDepth := Json.depth_le_depthItems hitem
        have hread := ih (hlow item (by rw [Json.depth]; omega))
          (Json.itemsHoldLong_eq_false_iff.mp hcontentsShort item hitem)
        exact hread.widen fun hwide => hwiden (hwide.of_mem hitem)
      · exact fails_expected _
    · split
      · exact .ok
      · exact fails_expected _
    · split
      · exact .ok
      · exact fails_expected _
    · have hnodes : FailsOnly (CodecError.Expected contents.HasWideTable)
          (Tree.listOfJson "MetaInlines" .inlines contents) := fails_nodes rfl (by simp) hcontentsShort
      exact (hnodes.widen hwiden).bind fun _ _ => .ok
    · have hnodes : FailsOnly (CodecError.Expected contents.HasWideTable)
          (Tree.listOfJson "MetaBlocks" .blocks contents) := fails_nodes rfl (by simp) hcontentsShort
      exact (hnodes.widen hwiden).bind fun _ _ => .ok
    · exact .showing .ok htagShort

end MetaValue

namespace Document

variable {json : Json}

theorem fails_readVersion {wide : Prop} (hshort : json.holdsLong = false) :
    FailsOnly (CodecError.Expected wide) (readVersion json) := by
  refine .showing ?_ hshort
  split
  · split
    · exact .ok
    · exact fails_expected _
  · exact fails_expected _

theorem fails_readParts {schema : Schema} {version : List Int} {metadata blocks : Json} {wide : Prop}
    (hmetadata : metadata.HasWideTable → wide) (hblocks : blocks.HasWideTable → wide)
    (hshort : metadata.holdsLong = false) (hshorts : blocks.holdsLong = false) :
    FailsOnly (CodecError.Expected wide) (readParts schema version metadata blocks) := by
  have hnodes : FailsOnly (CodecError.Expected blocks.HasWideTable) (Tree.listOfJson "Document" .blocks blocks) :=
    MetaValue.fails_nodes rfl nofun hshorts
  have hmap : FailsOnly (CodecError.Expected metadata.HasWideTable) (MetaValue.mapOfJson metadata) :=
    MetaValue.fails_readMap hshort fun j hj => MetaValue.fails_read (Nat.le_of_lt hj)
  exact (hnodes.widen hblocks).bind fun _ _ => (hmap.widen hmetadata).bind fun _ _ => .ok

/-- Data that can be shown is read, or it fails as expected. -/
theorem fails_ofJson (hshort : json.holdsLong = false) :
    FailsOnly (CodecError.Expected json.HasWideTable) (ofJson json) := by
  rw [ofJson.eq_def]
  split
  · rename_i entries
    split
    · exact fails_expected _
    · exact fails_expected _
    · rename_i metadata blocks hmetadata hblocks
      have hparts : ∀ version, FailsOnly (CodecError.Expected (Json.obj entries).HasWideTable)
          (readParts .v2 version metadata blocks) := fun version =>
        fails_readParts (fun hwide => hwide.of_get? (show (Json.obj entries).get? "meta" = _ from hmetadata))
          (fun hwide => hwide.of_get? (show (Json.obj entries).get? "blocks" = _ from hblocks))
          (Json.holdsLong_get? "meta" hshort hmetadata) (Json.holdsLong_get? "blocks" hshort hblocks)
      dsimp only
      split
      · rename_i version hversion
        exact (fails_readVersion (Json.holdsLong_get? versionKey hshort hversion)).bind fun version _ => hparts version
      · exact hparts defaultVersion
  · rename_i head blocks
    split
    · rename_i metadata hmetadata
      have hparts := Json.itemsHoldLong_eq_false_iff.mp hshort
      exact fails_readParts (fun hwide => (hwide.of_get? hmetadata).of_mem (by simp))
        (fun hwide => hwide.of_mem (by simp)) (Json.holdsLong_get? "unMeta" (hparts head (by simp)) hmetadata)
        (hparts blocks (by simp))
    · exact fails_expected _
  · exact fails_expected _

/-- What came of reading characters as a document: the document, a refusal, a kind that is not known, a number out
of range, which is a width of a table, or a numeral of too many digits. -/
inductive Fares (cs : List Char) (parsed : Except (ReadError Json.SyntaxError) Json) :
    Except CodecError Document → Prop
  | read (d : Document) : Fares cs parsed (.ok d)
  | refused (cause : Malformed) : Fares cs parsed (.error (.malformed cause))
  | unknown (name : String) : Fares cs parsed (.error (.unknownKind name))
  | wide {json : Json} (hjson : parsed = .ok json) (hwide : json.HasWideTable) :
      Fares cs parsed (.error (.fault .overflow))
  | long {count : Nat} (hlong : Json.HasLongNumeral count cs) :
      Fares cs parsed (.error (.fault (.value (.longNumeral count))))

theorem fares_ofParsed {cs : List Char} {parsed : Except (ReadError Json.SyntaxError) Json}
    (hlegible : ∀ json, parsed = .ok json → json.Legible) (hunfit : ∀ reason, parsed = .error (.unfit reason) →
      ∃ count, reason = .longNumeral count ∧ Json.HasLongNumeral count cs) : Fares cs parsed (ofParsed parsed) := by
  cases parsed with
  | ok json =>
    rcases (fails_ofJson (hlegible json rfl).short).cases with ⟨d, hd⟩ | ⟨e, ⟨cause, rfl⟩ | ⟨name, rfl⟩ | ⟨hwide, rfl⟩, he⟩
    · rw [ofParsed, hd]
      exact .read d
    · rw [ofParsed, he]
      exact .refused cause
    · rw [ofParsed, he]
      exact .unknown name
    · rw [ofParsed, he]
      exact .wide rfl hwide
  | error e =>
    cases e with
    | rule e => exact .refused (.syntaxError e)
    | unfit reason =>
      obtain ⟨count, rfl, hlong⟩ := hunfit reason rfl
      exact .long hlong

/-- **Refusals.**  Text is read as a document or refused for a cause that the refusal tells, but for a number out
of range among the widths of a table and for a numeral of too many digits.  Bytes fare as the text that they hold,
and bytes that hold none are refused. -/
theorem parse_fares (text : String) (bytes : List UInt8) : Fares text.toList (Json.parse text) (parse text) ∧
    ((∃ cs, Text.decodeBytes bytes = some cs ∧ Fares cs (Json.parseDecoded cs) (parseBytes bytes)) ∨
      Text.decodeBytes bytes = none ∧ parseBytes bytes = malformed .encoding) := by
  constructor
  · exact fares_ofParsed (fun _ => Json.legible_of_parse) fun _ => Json.parse_refused
  · rw [parseBytes]
    cases hdecoded : Text.decodeBytes bytes with
    | some cs =>
      exact .inl ⟨cs, rfl, fares_ofParsed (fun _ => Json.legible_of_parseDecoded) fun _ => Json.parseDecoded_refused⟩
    | none => exact .inr ⟨rfl, rfl⟩

/-- A width of more than four hundred digits is out of range. -/
example : ofJson (.arr [.obj [("unMeta", .obj [])], .arr [.obj [("t", .str "Table"), ("c", .arr
    [.arr [], .arr [], .arr [.int (10 ^ 400)], .arr [], .arr []])]]]) matches .error (.fault .overflow) := by
  decide +kernel

end Document

end DocFilter
