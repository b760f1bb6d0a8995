import DocFilter.Proofs.Codec.Filled
import DocFilter.Proofs.Codec.InOrder
import DocFilter.Proofs.Codec.Sources

/-!
# What reading keeps

Reading passes over keys that it does not know and fills in those that are missing from a citation.  Data
without either is written as it was read, but for the order of keys and for two things: the whole numbers among
widths become fractional ones, and the members of key-value pairs become texts.

* `Place` says what is expected to stand in some data, `Codec.place`, `Slot.place` and `Kind.place` follow the
  layouts.
* `Json.Kept` relates data to what becomes of it, given what may become of widths and of members.  `Json.Exact`
  is data with exactly the keys that are written.
* `Keeps.slots` goes through the slots of a node, `keeps_readContents` is the induction on the fuel.
* `Tree.written_as_read` is the main result.
-/

namespace DocFilter

/-! ## Places -/

/-- What is expected to stand in some data.  A member is one of the two of a key-value pair. -/
inductive Place where
  | verbatim
  | width
  | member
  | constructor
  | citation
  | node
  | contents (kind : Kind)
  | list (item : Place)
  | tuple (fields : List Place)

/-- What stands in the field of a value. -/
def Codec.place : Codec → Place
  | int | text | target => .verbatim
  | attr => .tuple [.verbatim, .verbatim, .list (.tuple [.member, .member])]
  | listAttributes => .tuple [.verbatim, .constructor, .constructor]
  | enum _ => .constructor
  | enumList _ => .list .constructor
  | floatList => .list .width
  | citations => .list .citation

/-- What stands in the field of a slot. -/
def Slot.place : Slot → Place
  | value _ codec => codec.place
  | inlines | blocks => .list .node
  | parts kind => .list (.contents kind)
  | part kind => .contents kind

/-- What stands in the contents of a kind with slots. -/
def Kind.place (kind : Kind) : Place := match kind.layout with
  | [slot] => slot.place
  | slots => .tuple (slots.map Slot.place)

namespace Json

/-- What becomes of data at a place.  The objects of nodes, constructors and citations have exactly the keys that
are written, in any order, and come to have them in the order in which they are written. -/
inductive Kept (width member : Json → Json → Prop) : Place → Json → Json → Prop
  | verbatim (x : Json) : Kept width member .verbatim x x
  | width {x y : Json} (h : width x y) : Kept width member .width x y
  | member {x y : Json} (h : member x y) : Kept width member .member x y
  | constructor (name : Json) : Kept width member .constructor (.obj [("t", name)]) (.obj [("t", name)])
  | citation {entries : List (String × Json)} {id before before' after after' mode mode' noteNum hash : Json}
      (keys : entries.Perm [("citationId", id), ("citationPrefix", before), ("citationSuffix", after),
        ("citationMode", mode), ("citationNoteNum", noteNum), ("citationHash", hash)])
      (hbefore : Kept width member (.list .node) before before')
      (hafter : Kept width member (.list .node) after after')
      (hmode : Kept width member .constructor mode mode') :
      Kept width member .citation (.obj entries) (.obj [("citationId", id), ("citationPrefix", before'),
        ("citationSuffix", after'), ("citationMode", mode'), ("citationNoteNum", noteNum), ("citationHash", hash)])
  | bare {kind : Kind} (tagged : kind.isTagged) (hnone : kind.layout = []) :
      Kept width member .node (.obj [("t", .str kind.name)]) (.obj [("t", .str kind.name)])
  | node {kind : Kind} {entries : List (String × Json)} {contents contents' : Json} (tagged : kind.isTagged)
      (keys : entries.Perm [("t", .str kind.name), ("c", contents)])
      (below : Kept width member (.contents kind) contents contents') :
      Kept width member .node (.obj entries) (.obj [("t", .str kind.name), ("c", contents')])
  | contents {kind : Kind} {x y : Json} (hsome : kind.layout ≠ []) (fields : Kept width member kind.place x y) :
      Kept width member (.contents kind) x y
  | nil {place : Place} : Kept width member (.list place) (.arr []) (.arr [])
  | cons {place : Place} {x y : Json} {xs ys : List Json} (first : Kept width member place x y)
      (rest : Kept width member (.list place) (.arr xs) (.arr ys)) :
      Kept width member (.list place) (.arr (x :: xs)) (.arr (y :: ys))
  | done : Kept width member (.tuple []) (.arr []) (.arr [])
  | field {place : Place} {places : List Place} {x y : Json} {xs ys : List Json}
      (first : Kept width member place x y) (rest : Kept width member (.tuple places) (.arr xs) (.arr ys)) :
      Kept width member (.tuple (place :: places)) (.arr (x :: xs)) (.arr (y :: ys))

/-- Data at a place whose objects of nodes, constructors and citations have exactly the keys that are written, with
good members in its key-value pairs.  Any widths will do. -/
def Exact (good : Json → Prop) (place : Place) (x : Json) : Prop :=
  ∃ y, Kept (fun _ _ => True) (fun member y => good member ∧ member = y) place x y

/-- A text. -/
def IsText (x : Json) : Prop := ∃ s, x = .str s

/-- A number is turned into the nearest fractional one. -/
def ToFraction : Json → Json → Prop
  | .float d, y => y = .float d
  | .int n, y => ∃ d, Double.ofInt? n = some d ∧ y = .float d
  | _, _ => False

/-- What becomes of data at a place: widths are turned into fractional numbers and members, which are good, into
texts. -/
def Rewritten (good : Json → Prop) : Place → Json → Json → Prop :=
  Kept ToFraction fun member text => good member ∧ text = .str member.plainText

variable {width width' member member' : Json → Json → Prop} {good : Json → Prop} {place : Place}
  {places : List Place} {x y : Json} {xs ys : List Json}

theorem Kept.mono (h : Kept width member place x y) (hwidth : ∀ x y, width x y → width' x y)
    (hmember : ∀ x y, member x y → member' x y) : Kept width' member' place x y := by
  induction h with
  | verbatim x => exact .verbatim x
  | width h => exact .width (hwidth _ _ h)
  | member h => exact .member (hmember _ _ h)
  | constructor name => exact .constructor name
  | citation keys _ _ _ ihBefore ihAfter ihMode => exact .citation keys ihBefore ihAfter ihMode
  | bare tagged hnone => exact .bare tagged hnone
  | node tagged keys _ ih => exact .node tagged keys ih
  | contents hsome _ ih => exact .contents hsome ih
  | nil => exact .nil
  | cons _ _ ihFirst ihRest => exact .cons ihFirst ihRest
  | done => exact .done
  | field _ _ ihFirst ihRest => exact .field ihFirst ihRest

/-- An entry is found under its key in any order of the entries. -/
theorem find?_of_perm {entries others : List (String × Json)} {key : String} (h : entries.Perm others)
    (hkeys : (others.map (·.1)).Nodup) (hmem : (key, x) ∈ others) : Entries.find? key entries = some x :=
  lookup_of_mem ((h.map _).nodup_iff.mpr hkeys) (h.mem_iff.mpr hmem)

theorem eq_of_perm (key : String) {entries others others' : List (String × Json)} (h : entries.Perm others)
    (hkeys : (others.map (·.1)).Nodup) (hmem : (key, x) ∈ others) (h' : entries.Perm others')
    (hkeys' : (others'.map (·.1)).Nodup) (hmem' : (key, y) ∈ others') : x = y :=
  Option.some.inj ((find?_of_perm h hkeys hmem).symm.trans (find?_of_perm h' hkeys' hmem'))

/-- Two accounts of what becomes of data hold together, for what stands under a key is the same in both. -/
theorem Kept.and (h : Kept width member place x y) (h' : Kept width' member' place x y) :
    Kept (fun x y => width x y ∧ width' x y) (fun x y => member x y ∧ member' x y) place x y := by
  induction h with
  | verbatim x => exact .verbatim x
  | width h =>
    cases h' with
    | width h' => exact .width ⟨h, h'⟩
  | member h =>
    cases h' with
    | member h' => exact .member ⟨h, h'⟩
  | constructor name => exact .constructor name
  | @citation _ _ before _ after _ mode _ _ _ keys _ _ _ ihBefore ihAfter ihMode =>
    cases h' with
    | @citation _ _ before₂ _ after₂ _ mode₂ _ _ _ keys₂ hbefore hafter hmode =>
      have hbefores : before = before₂ :=
        eq_of_perm "citationPrefix" keys (by simp) (by simp) keys₂ (by simp) (by simp)
      have hafters : after = after₂ :=
        eq_of_perm "citationSuffix" keys (by simp) (by simp) keys₂ (by simp) (by simp)
      have hmodes : mode = mode₂ := eq_of_perm "citationMode" keys (by simp) (by simp) keys₂ (by simp) (by simp)
      subst hbefores hafters hmodes
      exact .citation keys (ihBefore hbefore) (ihAfter hafter) (ihMode hmode)
  | bare tagged hnone => exact .bare tagged hnone
  | @node kind _ contents _ tagged keys _ ih =>
    generalize hname : kind.name = name at h' keys ⊢
    cases h' with
    | @node kind₂ _ contents₂ _ tagged₂ keys₂ below =>
      have hcontents : contents = contents₂ := eq_of_perm "c" keys (by simp) (by simp) keys₂ (by simp) (by simp)
      have hkind : kind = kind₂ := Option.some.inj
        ((Kind.ofName?_name tagged).symm.trans (hname ▸ Kind.ofName?_name tagged₂))
      subst hcontents hkind
      exact .node tagged keys (ih below)
  | contents hsome _ ih =>
    cases h' with
    | contents _ fields => exact .contents hsome (ih fields)
  | nil => exact .nil
  | cons _ _ ihFirst ihRest =>
    cases h' with
    | cons first rest => exact .cons (ihFirst first) (ihRest rest)
  | done => exact .done
  | field _ _ ihFirst ihRest =>
    cases h' with
    | field first rest => exact .field (ihFirst first) (ihRest rest)

theorem Exact.cons (h : (Json.arr (x :: xs)).Exact good (.list place)) :
    x.Exact good place ∧ (Json.arr xs).Exact good (.list place) := by
  obtain ⟨y, h⟩ := h
  cases h with
  | cons first rest => exact ⟨⟨_, first⟩, ⟨_, rest⟩⟩

theorem Exact.field (h : (Json.arr (x :: xs)).Exact good (.tuple (place :: places))) :
    x.Exact good place ∧ (Json.arr xs).Exact good (.tuple places) := by
  obtain ⟨y, h⟩ := h
  cases h with
  | field first rest => exact ⟨⟨_, first⟩, ⟨_, rest⟩⟩

theorem Exact.contents {kind : Kind} (h : x.Exact good (.contents kind)) :
    kind.layout ≠ [] ∧ x.Exact good kind.place := by
  obtain ⟨y, h⟩ := h
  cases h with
  | contents hsome fields => exact ⟨hsome, y, fields⟩

/-- The fields of exact contents are exact. -/
theorem Exact.fields {kind : Kind} (h : (Json.ofFields xs).Exact good kind.place)
    (hlength : xs.length = kind.layout.length) :
    (Json.arr xs).Exact good (.tuple (kind.layout.map Slot.place)) := by
  rw [Kind.place] at h
  split at h
  · rename_i hone
    rw [hone] at hlength ⊢
    obtain ⟨x, rfl⟩ := List.length_eq_one_iff.mp hlength
    obtain ⟨y, h⟩ := h
    exact ⟨_, .field h .done⟩
  · rename_i hmany
    rcases xs with _ | ⟨x, _ | ⟨second, rest⟩⟩
    · exact h
    · exact absurd (List.length_eq_one_iff.mp hlength.symm) fun ⟨slot, hslot⟩ => hmany slot hslot
    · exact h

/-- What becomes of fields becomes of the contents that they make. -/
theorem Kept.ofFields {kind : Kind} (hsome : kind.layout ≠ [])
    (h : Kept width member (.tuple (kind.layout.map Slot.place)) (.arr xs) (.arr ys)) :
    Kept width member (.contents kind) (.ofFields xs) (.ofFields ys) := by
  refine .contents hsome ?_
  rw [Kind.place]
  split
  · rename_i hone
    rw [hone] at h
    cases h with
    | field first rest =>
      cases rest
      exact first
  · rename_i hmany
    generalize hslots : kind.layout = slots at h hsome hmany ⊢
    rcases slots with _ | ⟨slot, _ | ⟨second, slots⟩⟩
    · exact absurd rfl hsome
    · exact absurd rfl (hmany slot)
    · rw [List.map_cons, List.map_cons] at h ⊢
      cases h with
      | field first rest =>
        cases rest with
        | field second rest => exact .field first (.field second rest)

end Json

/-! ## Reading -/

/-- A reader of contents that gives trees of the kind that is asked for, which are written as what becomes of exact
data. -/
structure Keeps (good : Json → Prop) (read : Kind → Json → Except CodecError Tree) : Prop where
  kind : ∀ {kind json t}, read kind json = .ok t → t.kind = kind
  contents : ∀ {kind json t}, json.Exact good (.contents kind) → read kind json = .ok t →
    ∃ y, t.written.contents = .ok y ∧ json.Rewritten good (.contents kind) y

section Read

variable {α : Type} {good : Json → Prop} {read : Kind → Json → Except CodecError Tree} {place : Place} {json : Json}
  {items : List Json} {kind : Kind} {slot : Slot} {codec : Codec} {context name : String} {choices : List String}

/-- Items that are each written as what becomes of them make a list that is. -/
theorem rewritten_items {reads : Json → α → Prop} {write : α → Except CodecError Json} {xs : List α}
    (hexact : (Json.arr items).Exact good (.list place)) (hread : List.Forall₂ reads items xs)
    (h : ∀ item x, item.Exact good place → reads item x → ∃ y, write x = .ok y ∧ item.Rewritten good place y) :
    ∃ ys, xs.mapM write = .ok ys ∧ (Json.arr items).Rewritten good (.list place) (.arr ys) := by
  induction hread with
  | nil => exact ⟨[], rfl, .nil⟩
  | @cons item x items xs hx _ ih =>
    obtain ⟨hfirst, hrest⟩ := hexact.cons
    obtain ⟨y, hy, hitem⟩ := h item x hfirst hx
    obtain ⟨ys, hys, hitems⟩ := ih hrest
    refine ⟨y :: ys, ?_, .cons hitem hitems⟩
    rw [List.mapM_cons, hy, hys]
    rfl

/-- The same where nothing is refused in writing. -/
theorem rewritten_map {reads : Json → α → Prop} {write : α → Json} {xs : List α}
    (hexact : (Json.arr items).Exact good (.list place)) (hread : List.Forall₂ reads items xs)
    (h : ∀ item x, item.Exact good place → reads item x → item.Rewritten good place (write x)) :
    (Json.arr items).Rewritten good (.list place) (.arr (xs.map write)) := by
  obtain ⟨ys, hwrite, hkept⟩ := rewritten_items hexact hread fun item x hitem hx =>
    (⟨write x, rfl, h item x hitem hx⟩ : ∃ y, Except.ok (write x) = .ok y ∧ _)
  have hmap : xs.mapM (fun x => (.ok (write x) : Except CodecError Json)) = .ok (xs.map write) := List.mapM_pure
  rw [hmap] at hwrite
  cases hwrite
  exact hkept

/-- A constructor is written as it was. -/
theorem writeEnum_of_readEnum {text : String} (hexact : json.Exact good .constructor)
    (hread : readEnum context choices json = .ok text) : writeEnum (.str text) = json := by
  obtain ⟨y, h⟩ := hexact
  cases h with
  | constructor tag =>
    have hget : (Json.obj [("t", tag)]).get? "t" = some tag := rfl
    obtain ⟨-, hname⟩ := showing_eq_ok_iff.mp hread
    clear hread
    rw [hget] at hname
    split at hname
    · cases hname
    · rename_i heq
      cases heq
      split at hname
      · cases hname
        rfl
      · cases hname
    · cases hname

theorem rewritten_constructor {text : String} (hexact : json.Exact good .constructor)
    (hread : readEnum context choices json = .ok text) :
    json.Rewritten good .constructor (writeEnum (.str text)) := by
  obtain rfl := writeEnum_of_readEnum hexact hread
  exact .constructor _

theorem eq_str_of_str? {text : String} (h : json.str? = some text) : json = .str text := by
  cases json with
  | str s =>
    cases h
    rfl
  | _ => cases h

/-- The members of a pair are written as texts. -/
theorem rewritten_pair {pair : String × String} (hexact : json.Exact good (.tuple [.member, .member]))
    (hread : attrPair? json = some pair) :
    json.Rewritten good (.tuple [.member, .member]) (.arr [.str pair.1, .str pair.2]) := by
  rw [attrPair?.eq_def] at hread
  split at hread
  · cases hread
    obtain ⟨y, hkept⟩ := hexact
    cases hkept with
    | field first rest =>
      cases first with
      | member hkey =>
        cases rest with
        | field second rest =>
          cases second with
          | member hvalue => exact .field (.member ⟨hkey.1, rfl⟩) (.field (.member ⟨hvalue.1, rfl⟩) .done)
  · cases hread

/-- Attributes are written with their members as texts. -/
theorem rewritten_attr {a : Attr} (hexact : json.Exact good Codec.attr.place)
    (hread : readAttr context json = .ok a) : json.Rewritten good Codec.attr.place (writeAttr a) := by
  obtain ⟨-, hread⟩ := showing_eq_ok_iff.mp hread
  repeat' split at hread
  all_goals try cases hread
  rename_i items _ names hnames _ pairs _ members hmembers
  obtain ⟨-, hexact⟩ := hexact.field
  obtain ⟨-, hexact⟩ := hexact.field
  have hclasses : items = names.map .str := by
    have hall : List.Forall₂ (· = ·) items (names.map .str) :=
      List.forall₂_map_right_iff.mpr ((mapM_eq_some_iff.mp hnames).imp fun _ _ => eq_str_of_str?)
    rwa [List.forall₂_eq_eq_eq] at hall
  rw [hclasses]
  refine .field (.verbatim _) (.field (.verbatim _) (.field ?_ .done))
  exact rewritten_map hexact.field.1 (mapM_eq_some_iff.mp hmembers) fun pair member hpair hmember =>
    rewritten_pair hpair hmember

/-- Widths are written as fractional numbers. -/
theorem rewritten_widths {widths : List Double} (hexact : (Json.arr items).Exact good Codec.floatList.place)
    (hread : List.Forall₂ WidthFrom items widths) :
    (Json.arr items).Rewritten good Codec.floatList.place (.arr (widths.map .float)) := by
  refine rewritten_map hexact hread fun item x _ hx => .width ?_
  cases hx with
  | float x => exact rfl
  | int near => exact ⟨x, near, rfl⟩

/-- A named node is written as what becomes of it. -/
theorem Keeps.node {t : Tree} (h : Keeps good read) (hexact : json.Exact good .node)
    (hread : readNode read json = .ok t) : ∃ y, t.written.node = .ok y ∧ json.Rewritten good .node y := by
  obtain ⟨y, hkept⟩ := hexact
  cases hkept with
  | @bare kind tagged hnone =>
    obtain ⟨-, hread⟩ := showing_eq_ok_iff.mp hread
    have hkind : t.kind = kind := h.kind (by
      simpa [Entries.find?, Json.str?, Kind.ofName?_name tagged, List.lookup_cons, hnone] using hread)
    refine ⟨_, ?_, .bare tagged hnone⟩
    simp [Written.node, hkind, tagged, hnone]
  | @node kind entries contents _ tagged keys below =>
    have htag : Entries.find? "t" entries = some (.str kind.name) := Json.find?_of_perm keys (by simp) (by simp)
    have hcontents : Entries.find? "c" entries = some contents := Json.find?_of_perm keys (by simp) (by simp)
    obtain ⟨-, hread⟩ := showing_eq_ok_iff.mp hread
    have hread : read kind contents = .ok t := by
      simpa [htag, hcontents, Json.str?, Kind.ofName?_name tagged] using hread
    obtain ⟨y, hwrite, hbelow⟩ := h.contents ⟨_, below⟩ hread
    refine ⟨_, ?_, .node tagged keys hbelow⟩
    have hempty : kind.layout.isEmpty = false := by
      have hsome := (Json.Exact.contents ⟨_, below⟩).1
      simpa using hsome
    simp only [Written.node, Tree.kind_written, h.kind hread, tagged, hempty, hwrite]
    rfl

/-- The named nodes of a run are written as what becomes of them. -/
theorem Keeps.members {ts : List Tree} (h : Keeps good read) (hexact : (Json.arr items).Exact good (.list .node))
    (hread : items.mapM (readMember read context slot) = .ok ts) : (∀ t ∈ ts, slot.admits t.kind) ∧
      ∃ ys, (ts.map Tree.written).mapM Written.node = .ok ys ∧
        (Json.arr items).Rewritten good (.list .node) (.arr ys) := by
  constructor
  · intro t ht
    obtain ⟨item, -, hitem⟩ := exists_of_mem_mapM hread t ht
    exact (readMember_eq_ok_iff.mp hitem).2
  · rw [List.mapM_map]
    exact rewritten_items hexact (mapM_eq_ok_iff.mp hread) fun item t hitem hone =>
      h.node hitem (readMember_eq_ok_iff.mp hone).1

/-- A side of a citation is written as what becomes of it. -/
theorem Keeps.side {ts : List Tree} (h : Keeps good read) (hexact : json.Exact good (.list .node))
    (hread : readRun read context .inlines json = .ok ts) :
    ∃ ys, (ts.map Tree.written).mapM Written.node = .ok ys ∧ json.Rewritten good (.list .node) (.arr ys) := by
  cases json with
  | arr items => exact (h.members hexact hread).2
  | _ => cases hread

/-- A run is written as what becomes of it. -/
theorem Keeps.run {ts : List Tree} (h : Keeps good read) (hrun : slot.isRun) (hexact : json.Exact good slot.place)
    (hread : readRun read context slot json = .ok ts) :
    ∃ y, writeRun kind slot (ts.map Tree.written) = .ok y ∧ json.Rewritten good slot.place y := by
  cases json with
  | arr items =>
    cases slot with
    | value name codec => cases hrun
    | part part => cases hrun
    | parts part =>
      have hadmits : ∀ t ∈ ts, (Slot.parts part).admits t.kind := by
        intro t ht
        obtain ⟨item, -, hitem⟩ := exists_of_mem_mapM hread t ht
        simp [Slot.admits, h.kind hitem]
      obtain ⟨ys, hwrite, hkept⟩ := rewritten_items hexact (mapM_eq_ok_iff.mp hread) fun item t hitem hone =>
        h.contents hitem hone
      refine ⟨.arr ys, ?_, hkept⟩
      show (checkRun kind (.parts part) (ts.map Tree.written) >>= fun _ =>
        ((ts.map Tree.written).mapM Written.contents).map Json.arr) = _
      rw [checkRun_of_admits hadmits, List.mapM_map]
      exact congrArg (Except.map Json.arr) hwrite
    | inlines | blocks =>
      obtain ⟨hadmits, ys, hwrite, hkept⟩ := h.members hexact hread
      refine ⟨.arr ys, ?_, hkept⟩
      show (checkRun kind _ (ts.map Tree.written) >>= fun _ =>
        ((ts.map Tree.written).mapM Written.node).map Json.arr) = _
      rw [checkRun_of_admits hadmits]
      exact congrArg (Except.map Json.arr) hwrite
  | _ => cases hread

/-- A citation is written as what becomes of it. -/
theorem Keeps.citation {c : Citation Tree} (h : Keeps good read) (hexact : json.Exact good .citation)
    (hread : readCitation read context json = .ok c) :
    ∃ y, writeCitation (c.map Tree.written) = .ok y ∧ json.Rewritten good .citation y := by
  obtain ⟨y, hkept⟩ := hexact
  cases hkept with
  | @citation entries id before _ after _ mode _ noteNum hash keys hbefore hafter hmode =>
    have hget : ∀ key value, (key, value) ∈ [("citationId", id), ("citationPrefix", before),
        ("citationSuffix", after), ("citationMode", mode), ("citationNoteNum", noteNum), ("citationHash", hash)] →
        (Json.obj entries).get? key = some value := fun key value => Json.find?_of_perm keys (by simp)
    obtain ⟨-, hread⟩ := showing_eq_ok_iff.mp hread
    rw [hget "citationId" id (by simp), hget "citationPrefix" before (by simp),
      hget "citationSuffix" after (by simp), hget "citationMode" mode (by simp),
      hget "citationNoteNum" noteNum (by simp), hget "citationHash" hash (by simp)] at hread
    obtain ⟨us, hus, hread⟩ := bind_eq_ok_iff.mp hread
    obtain ⟨vs, hvs, hread⟩ := bind_eq_ok_iff.mp hread
    obtain ⟨name, hname, heq⟩ := bind_eq_ok_iff.mp hread
    cases heq
    obtain ⟨ys, hys, hkeptBefore⟩ := h.side ⟨_, hbefore⟩ hus
    obtain ⟨zs, hzs, hkeptAfter⟩ := h.side ⟨_, hafter⟩ hvs
    refine ⟨_, ?_, .citation keys hkeptBefore hkeptAfter (rewritten_constructor ⟨_, hmode⟩ hname)⟩
    simp only [writeCitation, Citation.map, hys, hzs]
    rfl

/-- The field of a value is written as what becomes of it. -/
theorem Keeps.value {v : Value Tree} (h : Keeps good read) (hexact : json.Exact good codec.place)
    (hread : ReadsAs read context codec json v) :
    ∃ y, writeValue codec (v.map Tree.written) = .ok y ∧ json.Rewritten good codec.place y := by
  cases hread with
  | int n => exact ⟨.int n, rfl, .verbatim _⟩
  | text s => exact ⟨.str s, rfl, .verbatim _⟩
  | @attr _ a all => exact ⟨writeAttr a, rfl, rewritten_attr hexact all⟩
  | target url title => exact ⟨writeTarget ⟨url, title⟩, rfl, .verbatim _⟩
  | @listAttributes n style delimiter styleName delimiterName hstyle hdelimiter =>
    obtain ⟨-, hexact⟩ := hexact.field
    obtain ⟨hexactStyle, hexact⟩ := hexact.field
    exact ⟨writeListAttributes ⟨n, styleName, delimiterName⟩, rfl,
      .field (.verbatim _) (.field (rewritten_constructor hexactStyle hstyle)
        (.field (rewritten_constructor hexact.field.1 hdelimiter) .done))⟩
  | @enum choices _ name one => exact ⟨writeEnum (.str name), rfl, rewritten_constructor hexact one⟩
  | enumList each =>
    have hkept := rewritten_map hexact each fun item name hitem hname => rewritten_constructor hitem hname
    refine ⟨_, rfl, ?_⟩
    rwa [List.map_map]
  | floatList each =>
    exact ⟨_, congrArg (Except.map Json.arr) (writeWidths_floats _), rewritten_widths hexact each⟩
  | citations each =>
    obtain ⟨ys, hwrite, hkept⟩ := rewritten_items hexact each fun item c hitem hc => h.citation hitem hc
    refine ⟨.arr ys, ?_, hkept⟩
    rw [Value.map, writeValue, List.mapM_map]
    exact congrArg (Except.map Json.arr) hwrite

/-- The slots of a node are filled with what becomes of the fields, whatever else is in the payload. -/
theorem Keeps.slots {slots : List Slot} {fields : List Json} {all payload : Payload Tree} {children : List Tree}
    (h : Keeps good read) (hexact : (Json.arr fields).Exact good (.tuple (slots.map Slot.place)))
    (hread : ReadsOff read kind slots fields payload children)
    (hfound : ∀ entry ∈ payload, Entries.find? entry.1 all = some entry.2) :
    ∃ ys, Filled kind all slots children ys ∧
      (Json.arr fields).Rewritten good (.tuple (slots.map Slot.place)) (.arr ys) := by
  induction hread with
  | nil => exact ⟨[], .nil, .done⟩
  | value here _ ih =>
    obtain ⟨hfirst, hrest⟩ := hexact.field
    obtain ⟨hhere, hlater⟩ := List.forall_mem_cons.mp hfound
    obtain ⟨y, hwrite, hkept⟩ := h.value hfirst here
    obtain ⟨ys, hfilled, hall⟩ := ih hrest hlater
    exact ⟨y :: ys, .value hhere hwrite hfilled, .field hkept hall⟩
  | part here _ ih =>
    obtain ⟨hfirst, hrest⟩ := hexact.field
    obtain rfl := h.kind here
    obtain ⟨y, hwrite, hkept⟩ := h.contents hfirst here
    obtain ⟨ys, hfilled, hall⟩ := ih hrest hfound
    exact ⟨y :: ys, .part hwrite hfilled, .field hkept hall⟩
  | run hrun here _ ih =>
    obtain ⟨hfirst, hrest⟩ := hexact.field
    obtain ⟨y, hwrite, hkept⟩ := h.run hrun hfirst here
    obtain ⟨ys, hfilled, hall⟩ := ih hrest hfound
    exact ⟨y :: ys, .run hrun hwrite hfilled, .field hkept hall⟩

end Read

/-- Reading contents keeps them, with any fuel with which it succeeds. -/
theorem keeps_readContents (good : Json → Prop) (fuel : Nat) : Keeps good (readContents fuel) := by
  induction fuel with
  | zero => exact ⟨kind_of_readContents, fun _ hread => by cases hread⟩
  | succ fuel ih =>
    refine ⟨kind_of_readContents, fun {kind json t} hexact hread => ?_⟩
    obtain ⟨fields, payload, children, rfl, hfields, hslots⟩ := readContents_eq_ok hread
    obtain ⟨hsome, hexact⟩ := hexact.contents
    obtain ⟨rfl, hlength⟩ := fields_of_contentFields hfields hsome
    have hnodup : (Entries.keys payload).Nodup := hslots.keys ▸ kind.nodup_payloadNames
    have hfound : ∀ entry ∈ payload, Entries.find? entry.1 payload = some entry.2 := fun entry hentry =>
      lookup_of_mem hnodup hentry
    obtain ⟨ys, hfilled, hkept⟩ := ih.slots (hexact.fields hlength) hslots hfound
    exact ⟨.ofFields ys, hfilled.written_eq hsome, .ofFields hsome hkept⟩

/-- **Reading keeps what it accepts.**  Data with exactly the keys that are written is written as it was read, but
for the order of keys, the whole numbers among widths, and the members of key-value pairs, which become texts
whatever they are.  So nothing but keys and widths changes exactly if those members are texts. -/
theorem Tree.written_as_read {json : Json} {t : Tree} (hexact : json.Exact (fun _ => True) .node)
    (hread : Tree.ofJson json = .ok t) :
    ∃ y, t.toJson = .ok y ∧
      Json.Kept Json.ToFraction (fun member text => text = .str member.plainText) .node json y ∧
      (Json.Kept Json.ToFraction Eq .node json y ↔ json.Exact Json.IsText .node) := by
  obtain ⟨y, hwrite, hkept⟩ := (keeps_readContents (fun _ => True) json.depth).node hexact hread
  refine ⟨y, hwrite, hkept.mono (fun _ _ h => h) fun _ _ h => h.2, fun hsame => ⟨y, ?_⟩, fun htexts => ?_⟩
  · refine (hkept.and hsame).mono (fun _ _ _ => trivial) ?_
    rintro member _ ⟨⟨-, htext⟩, rfl⟩
    exact ⟨⟨_, htext⟩, rfl⟩
  · obtain ⟨y', hwrite', hkept'⟩ := (keeps_readContents Json.IsText json.depth).node htexts hread
    obtain rfl : y = y' := Except.ok.inj (hwrite.symm.trans hwrite')
    refine hkept'.mono (fun _ _ h => h) ?_
    rintro _ _ ⟨⟨s, rfl⟩, rfl⟩
    rfl

/-- A code node with one key-value pair. -/
def Json.codeWithMember (member : Json) : Json :=
  .obj [("t", .str "Code"), ("c", .arr [.arr [.str "", .arr [], .arr [.arr [.str "k", member]]], .str "x"])]

/-- A number as a member is read as a text. -/
theorem Tree.ofJson_numericMember : Tree.ofJson (.codeWithMember (.int 1)) =
    .ok (.node .code [("attr", .attr ⟨"", [], [("k", "1")]⟩), ("text", .data (.str "x"))] []) := by
  have hattr : readAttr "Code" (.arr [.str "", .arr [], .arr [.arr [.str "k", .int 1]]]) =
      .ok ⟨"", [], [("k", "1")]⟩ := by
    rw [readAttr, showing_of_short (by decide +kernel)]
    rfl
  have hfields : contentFields .code (.arr [.arr [.str "", .arr [], .arr [.arr [.str "k", .int 1]]], .str "x"]) =
      .ok [.arr [.str "", .arr [], .arr [.arr [.str "k", .int 1]]], .str "x"] := showing_of_short (by decide +kernel)
  have hcontents (fuel : Nat) : readContents (fuel + 1) .code
      (.arr [.arr [.str "", .arr [], .arr [.arr [.str "k", .int 1]]], .str "x"]) =
        .ok (.node .code [("attr", .attr ⟨"", [], [("k", "1")]⟩), ("text", .data (.str "x"))] []) := by
    simp [readContents, hfields, Kind.layout, attrSlot, textSlot, readSlots, readValue, Kind.name, hattr, Except.map,
      bind, Except.bind]
  rw [Tree.ofJson, Json.codeWithMember, readNode, showing_of_short (by decide +kernel)]
  exact hcontents _

/-- A number as a member is read, and written as a text. -/
theorem Tree.written_numericMember : (Json.codeWithMember (.int 1)).Exact (fun _ => True) .node ∧
    ∃ t, Tree.ofJson (.codeWithMember (.int 1)) = .ok t ∧ t.toJson = .ok (.codeWithMember (.str "1")) ∧
      Json.Kept Json.ToFraction (fun member text => text = .str member.plainText) .node
        (.codeWithMember (.int 1)) (.codeWithMember (.str "1")) := by
  have hexact : (Json.codeWithMember (.int 1)).Exact (fun _ => True) .node := by
    have hpair : Json.Exact (fun _ => True) (.list (.tuple [.member, .member])) (.arr [.arr [.str "k", .int 1]]) :=
      ⟨_, .cons (.field (.member ⟨trivial, rfl⟩) (.field (.member ⟨trivial, rfl⟩) .done)) .nil⟩
    obtain ⟨pairs, hpairs⟩ := hpair
    exact ⟨_, .node (by decide) (.refl _) (.contents (show Kind.code.layout ≠ [] by decide)
      (.field (.field (.verbatim _) (.field (.verbatim _) (.field hpairs .done))) (.field (.verbatim _) .done)))⟩
  obtain ⟨y, hwrite, hkept, -⟩ := written_as_read hexact ofJson_numericMember
  obtain rfl : y = .codeWithMember (.str "1") := Except.ok.inj (hwrite.symm.trans rfl)
  exact ⟨hexact, _, ofJson_numericMember, hwrite, hkept⟩

end DocFilter
