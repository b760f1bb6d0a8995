import DocFilter.Proofs.Codec.Fuel
import DocFilter.Proofs.Codec.Legible

/-!
# Metadata that is dropped

Reading metadata drops the values that are no objects with a tag of metadata, in maps and in lists at any depth, and
nothing else; what is written again is the rest.  Of what is dropped only the tag is looked at: a message shows it.

* `MetaValue.isTagged` says which values are kept, `MetaValue.Tellable` that the tags of those that are dropped can be
  shown.
* `MetaValue.Reduced` relates a value to what is written of it once it was read, `MetaValue.reduced_read` says that
  this is what is written.
* `MetaValue.Alike` relates values that differ in what is dropped only, `MetaValue.read_alike` says that they are read
  alike.
* `MetaValue.drops_exactly` is the main result, on the objects of metadata maps.
-/

namespace DocFilter.MetaValue

/-! ## What is kept -/

/-- The tags of metadata. -/
def tags : List String := ["MetaMap", "MetaList", "MetaBool", "MetaString", "MetaInlines", "MetaBlocks"]

/-- Whether a value is an object with a tag of metadata. -/
def isTagged (json : Json) : Bool := match json.get? "t" with
  | some (.str tag) => tags.contains tag
  | _ => false

/-- The entries of an object that are kept. -/
def keptEntries (raw : List (String × Json)) : List (String × Json) := raw.filter fun entry => isTagged entry.2

/-- Two objects have the same keys in the same order, with related values. -/
inductive Entrywise (R : Json → Json → Prop) : List (String × Json) → List (String × Json) → Prop
  | nil : Entrywise R [] []
  | cons {key : String} {json json' : Json} {raw raw' : List (String × Json)} (value : R json json')
      (rest : Entrywise R raw raw') : Entrywise R ((key, json) :: raw) ((key, json') :: raw')

/-- A node of a category, and what is written once it was read. -/
def Rewritten (category : Kind → Bool) (item out : Json) : Prop :=
  ∃ t, Tree.ofJson item = .ok t ∧ category t.kind ∧ t.toJson = .ok out

/-- A value with a tag of metadata, and what is written once it was read: the tag, and the contents without what is
dropped from them, with their nodes written again. -/
inductive Reduced : Json → Json → Prop
  | map {json : Json} {raw out : List (String × Json)} (tag : json.get? "t" = some (.str "MetaMap"))
      (contents : json.get? "c" = some (.obj raw)) (below : Entrywise Reduced (keptEntries raw) out) :
      Reduced json (tagged "MetaMap" (.obj out))
  | list {json : Json} {raw out : List Json} (tag : json.get? "t" = some (.str "MetaList"))
      (contents : json.get? "c" = some (.arr raw)) (below : List.Forall₂ Reduced (raw.filter isTagged) out) :
      Reduced json (tagged "MetaList" (.arr out))
  | bool {json : Json} {b : Bool} (tag : json.get? "t" = some (.str "MetaBool"))
      (contents : json.get? "c" = some (.bool b)) : Reduced json (tagged "MetaBool" (.bool b))
  | string {json : Json} {s : String} (tag : json.get? "t" = some (.str "MetaString"))
      (contents : json.get? "c" = some (.str s)) : Reduced json (tagged "MetaString" (.str s))
  | inlines {json : Json} {items out : List Json} (tag : json.get? "t" = some (.str "MetaInlines"))
      (contents : json.get? "c" = some (.arr items)) (each : List.Forall₂ (Rewritten Kind.isInline) items out) :
      Reduced json (tagged "MetaInlines" (.arr out))
  | blocks {json : Json} {items out : List Json} (tag : json.get? "t" = some (.str "MetaBlocks"))
      (contents : json.get? "c" = some (.arr items)) (each : List.Forall₂ (Rewritten Kind.isBlock) items out) :
      Reduced json (tagged "MetaBlocks" (.arr out))

/-- Two values that differ in what is dropped from them only. -/
inductive Alike : Json → Json → Prop
  | same {json json' : Json} (tag : json.get? "t" = json'.get? "t") (contents : json.get? "c" = json'.get? "c") :
      Alike json json'
  | map {json json' : Json} {raw raw' : List (String × Json)} (tag : json.get? "t" = some (.str "MetaMap"))
      (tag' : json'.get? "t" = some (.str "MetaMap")) (contents : json.get? "c" = some (.obj raw))
      (contents' : json'.get? "c" = some (.obj raw')) (below : Entrywise Alike (keptEntries raw) (keptEntries raw')) :
      Alike json json'
  | list {json json' : Json} {raw raw' : List Json} (tag : json.get? "t" = some (.str "MetaList"))
      (tag' : json'.get? "t" = some (.str "MetaList")) (contents : json.get? "c" = some (.arr raw))
      (contents' : json'.get? "c" = some (.arr raw'))
      (below : List.Forall₂ Alike (raw.filter isTagged) (raw'.filter isTagged)) : Alike json json'

/-- A value that reading comes to in a value, and drops. -/
inductive Dropped (part : Json) : Json → Prop
  | self (h : isTagged part = false) : Dropped part part
  | entry {json : Json} {raw : List (String × Json)} {entry : String × Json}
      (tag : json.get? "t" = some (.str "MetaMap")) (contents : json.get? "c" = some (.obj raw)) (hmem : entry ∈ raw)
      (below : Dropped part entry.2) : Dropped part json
  | item {json : Json} {raw : List Json} {item : Json} (tag : json.get? "t" = some (.str "MetaList"))
      (contents : json.get? "c" = some (.arr raw)) (hmem : item ∈ raw) (below : Dropped part item) : Dropped part json

/-- The tags of all that is dropped from a value can be shown. -/
def Tellable (json : Json) : Prop := ∀ part, Dropped part json → ((part.get? "t").getD .null).holdsLong = false

section Read

variable {fuel fuel' : Nat} {json json' : Json} {raw raw' : List (String × Json)} {items items' : List Json}
  {m : MetaValue} {entries : List (String × MetaValue)} {values : List MetaValue}
  {read read' : Json → Except CodecError (Option MetaValue)}

theorem isTagged_iff : isTagged json = true ↔ ∃ tag ∈ tags, json.get? "t" = some (.str tag) := by
  rw [isTagged]
  split
  · rename_i tag htag
    simp [htag]
  · rename_i hno
    exact iff_of_false Bool.false_ne_true fun ⟨tag, _, htag⟩ => hno tag htag

/-- A value without a tag of metadata is dropped, once its tag was shown. -/
theorem read_of_not_isTagged (h : isTagged json = false) (hfuel : json.depth ≤ fuel) :
    MetaValue.read fuel json = showing ((json.get? "t").getD .null) (.ok none) := by
  have hno : ∀ tag ∈ tags, json.get? "t" ≠ some (.str tag) := by
    intro tag hmem heq
    rw [isTagged_iff.mpr ⟨tag, hmem, heq⟩] at h
    cases h
  cases fuel with
  | zero =>
    have := json.depth_pos
    omega
  | succ fuel =>
    rw [MetaValue.read]
    split
    case h_7 => rfl
    all_goals exact absurd ‹_› (hno _ (by decide))

theorem Tellable.drop (htell : Tellable json) (h : isTagged json = false) (hfuel : json.depth ≤ fuel) :
    MetaValue.read fuel json = .ok none :=
  (read_of_not_isTagged h hfuel).trans (showing_of_short (htell json (.self h)))

theorem Tellable.entry (h : Tellable json) (tag : json.get? "t" = some (.str "MetaMap"))
    (contents : json.get? "c" = some (.obj raw)) : ∀ entry ∈ raw, Tellable entry.2 :=
  fun _ hmem part hpart => h part (.entry tag contents hmem hpart)

theorem Tellable.item (h : Tellable json) (tag : json.get? "t" = some (.str "MetaList"))
    (contents : json.get? "c" = some (.arr items)) : ∀ item ∈ items, Tellable item :=
  fun _ hmem part hpart => h part (.item tag contents hmem hpart)

/-! ## What is dropped is not looked at, but for its tag -/

theorem readEntries_keptEntries (h : ∀ entry ∈ raw, isTagged entry.2 = false → read entry.2 = .ok none) :
    readEntries read raw = readEntries read (keptEntries raw) := by
  induction raw with
  | nil => rfl
  | cons entry raw ih =>
    obtain ⟨hfirst, hrest⟩ := List.forall_mem_cons.mp h
    rw [keptEntries, List.filter_cons, ← keptEntries]
    split
    · rw [readEntries, readEntries, ih hrest]
    · rename_i hdropped
      rw [readEntries, hfirst (by simpa using hdropped), ih hrest]
      cases readEntries read (keptEntries raw) <;> rfl

theorem readItems_filter (h : ∀ item ∈ items, isTagged item = false → read item = .ok none) :
    readItems read items = readItems read (items.filter isTagged) := by
  induction items with
  | nil => rfl
  | cons item items ih =>
    obtain ⟨hfirst, hrest⟩ := List.forall_mem_cons.mp h
    rw [List.filter_cons]
    split
    · rw [readItems, readItems, ih hrest]
    · rename_i hdropped
      rw [readItems, hfirst (by simpa using hdropped), ih hrest]
      cases readItems read (items.filter isTagged) <;> rfl

theorem readEntries_congr (h : Entrywise (fun x y => read x = read' y) raw raw') :
    readEntries read raw = readEntries read' raw' := by
  induction h with
  | nil => rfl
  | cons hvalue _ ih => rw [readEntries, readEntries, hvalue, ih]

theorem readItems_congr (h : List.Forall₂ (fun x y => read x = read' y) items items') :
    readItems read items = readItems read' items' := by
  induction h with
  | nil => rfl
  | cons hitem _ ih => rw [readItems, readItems, hitem, ih]

theorem Entrywise.same {R : Json → Json → Prop} (h : ∀ entry ∈ raw, R entry.2 entry.2) : Entrywise R raw raw := by
  induction raw with
  | nil => exact .nil
  | cons entry raw ih =>
    obtain ⟨hfirst, hrest⟩ := List.forall_mem_cons.mp h
    exact .cons hfirst (ih hrest)

theorem Entrywise.imp_mem {R R' : Json → Json → Prop} (h : Entrywise R raw raw')
    (himp : ∀ x ∈ raw, ∀ y ∈ raw', R x.2 y.2 → R' x.2 y.2) : Entrywise R' raw raw' := by
  induction h with
  | nil => exact .nil
  | cons hvalue _ ih =>
    exact .cons (himp _ List.mem_cons_self _ List.mem_cons_self hvalue)
      (ih fun x hx y hy => himp x (List.mem_cons_of_mem _ hx) y (List.mem_cons_of_mem _ hy))

/-- Objects that differ in what is dropped only are read alike if their values are. -/
theorem readEntries_alike (hdrop : ∀ entry ∈ raw, isTagged entry.2 = false → read entry.2 = .ok none)
    (hdrop' : ∀ entry ∈ raw', isTagged entry.2 = false → read' entry.2 = .ok none)
    (hkept : ∀ x ∈ raw, ∀ y ∈ raw', Alike x.2 y.2 → read x.2 = read' y.2)
    (h : Entrywise Alike (keptEntries raw) (keptEntries raw')) : readEntries read raw = readEntries read' raw' := by
  rw [readEntries_keptEntries hdrop, readEntries_keptEntries hdrop']
  exact readEntries_congr <| h.imp_mem fun x hx y hy =>
    hkept x (List.mem_filter.mp hx).1 y (List.mem_filter.mp hy).1

theorem depth_of_entry (hget : json.get? "c" = some (.obj raw)) (hfuel : json.depth ≤ fuel + 1) :
    ∀ entry ∈ raw, entry.2.depth ≤ fuel := by
  intro entry hentry
  have hcontents := Json.depth_of_get? hget
  have hlow := Json.depth_le_depthEntries hentry
  rw [Json.depth] at hcontents
  omega

theorem depth_of_item (hget : json.get? "c" = some (.arr items)) (hfuel : json.depth ≤ fuel + 1) :
    ∀ item ∈ items, item.depth ≤ fuel := by
  intro item hitem
  have hcontents := Json.depth_of_get? hget
  have hlow := Json.depth_le_depthItems hitem
  rw [Json.depth] at hcontents
  omega

/-- A value is read from its tag and its contents, with fuel for their depth. -/
theorem read_congr (tag : json.get? "t" = json'.get? "t") (contents : json.get? "c" = json'.get? "c")
    (hfuel : json.depth ≤ fuel) (hfuel' : json'.depth ≤ fuel') :
    MetaValue.read fuel json = MetaValue.read fuel' json' := by
  induction fuel generalizing fuel' json json' with
  | zero =>
    have := json.depth_pos
    omega
  | succ fuel ih =>
    obtain ⟨fuel', rfl⟩ : ∃ k, fuel' = k + 1 := ⟨fuel' - 1, by have := json'.depth_pos; omega⟩
    rw [MetaValue.read, MetaValue.read, ← tag, ← contents]
    cases hget : json.get? "c" with
    | none => rfl
    | some found =>
      have hget' := contents.symm.trans hget
      cases found with
      | obj raw =>
        have hentries : readEntries (MetaValue.read fuel) raw = readEntries (MetaValue.read fuel') raw :=
          readEntries_congr <| .same fun entry hentry =>
            ih rfl rfl (depth_of_entry hget hfuel entry hentry) (depth_of_entry hget' hfuel' entry hentry)
        simp only [Option.getD_some, readMap, hentries]
      | arr items =>
        have hitems : readItems (MetaValue.read fuel) items = readItems (MetaValue.read fuel') items :=
          readItems_congr <| List.forall₂_same.mpr fun item hitem =>
            ih rfl rfl (depth_of_item hget hfuel item hitem) (depth_of_item hget' hfuel' item hitem)
        simp only [Option.getD_some, readMap, hitems]
      | _ => rfl

/-- Values that differ in what is dropped only are read alike, with fuel for their depths, if the tags of what is
dropped can be shown. -/
theorem read_alike (h : Alike json json') (htell : Tellable json) (htell' : Tellable json')
    (hfuel : json.depth ≤ fuel) (hfuel' : json'.depth ≤ fuel') :
    MetaValue.read fuel json = MetaValue.read fuel' json' := by
  induction fuel generalizing fuel' json json' with
  | zero =>
    have := json.depth_pos
    omega
  | succ fuel ih =>
    obtain ⟨fuel', rfl⟩ : ∃ k, fuel' = k + 1 := ⟨fuel' - 1, by have := json'.depth_pos; omega⟩
    cases h with
    | same tag contents => exact read_congr tag contents hfuel hfuel'
    | @map _ _ raw raw' tag tag' contents contents' below =>
      have hlow := depth_of_entry contents hfuel
      have hlow' := depth_of_entry contents' hfuel'
      have htells := htell.entry tag contents
      have htells' := htell'.entry tag' contents'
      have hentries : readEntries (MetaValue.read fuel) raw = readEntries (MetaValue.read fuel') raw' :=
        readEntries_alike (fun entry hentry h => (htells entry hentry).drop h (hlow entry hentry))
          (fun entry hentry h => (htells' entry hentry).drop h (hlow' entry hentry))
          (fun x hx y hy hxy => ih hxy (htells x hx) (htells' y hy) (hlow x hx) (hlow' y hy)) below
      rw [MetaValue.read, MetaValue.read, tag, tag', contents, contents']
      simp only [Option.getD_some, readMap, hentries]
    | @list _ _ raw raw' tag tag' contents contents' below =>
      have hlow := depth_of_item contents hfuel
      have hlow' := depth_of_item contents' hfuel'
      have htells := htell.item tag contents
      have htells' := htell'.item tag' contents'
      have hitems : readItems (MetaValue.read fuel) raw = readItems (MetaValue.read fuel') raw' := by
        rw [readItems_filter fun item hitem h => (htells item hitem).drop h (hlow item hitem),
          readItems_filter fun item hitem h => (htells' item hitem).drop h (hlow' item hitem)]
        refine readItems_congr (forall₂_imp_mem below fun x hx y hy hxy => ?_)
        have hmem := (List.mem_filter.mp hx).1
        have hmem' := (List.mem_filter.mp hy).1
        exact ih hxy (htells x hmem) (htells' y hmem') (hlow x hmem) (hlow' y hmem')
      rw [MetaValue.read, MetaValue.read, tag, tag', contents, contents']
      simp only [Option.getD_some, hitems]

/-- Entries are read one by one. -/
theorem succeeds_of_readEntries (h : Succeeds (readEntries read raw)) : ∀ entry ∈ raw, Succeeds (read entry.2) := by
  induction raw with
  | nil => exact nofun
  | cons entry raw ih =>
    obtain ⟨hfirst, hrest⟩ := (succeeds_both_iff fun _ _ => succeeds_ok _).mp h
    exact List.forall_mem_cons.mpr ⟨hfirst, ih hrest⟩

/-- Items are read one by one. -/
theorem succeeds_of_readItems (h : Succeeds (readItems read items)) : ∀ item ∈ items, Succeeds (read item) := by
  induction items with
  | nil => exact nofun
  | cons item items ih =>
    obtain ⟨hfirst, hrest⟩ := (succeeds_both_iff fun _ _ => succeeds_ok _).mp h
    exact List.forall_mem_cons.mpr ⟨hfirst, ih hrest⟩

/-- The tags of what is dropped from a value that is read can be shown. -/
theorem tellable_of_read (h : Succeeds (MetaValue.read fuel json)) (hfuel : json.depth ≤ fuel) : Tellable json := by
  intro part hpart
  induction hpart generalizing fuel with
  | self hdropped =>
    rw [read_of_not_isTagged hdropped hfuel] at h
    exact (succeeds_showing_iff.mp h).1
  | @entry json raw entry tag contents hmem _ ih =>
    obtain ⟨fuel, rfl⟩ : ∃ k, fuel = k + 1 := ⟨fuel - 1, by have := json.depth_pos; omega⟩
    rw [MetaValue.read, tag, contents] at h
    obtain ⟨entries, hentries, -⟩ := succeeds_bind_iff.mp h
    exact ih (succeeds_of_readEntries ⟨entries, hentries⟩ entry hmem) (depth_of_entry contents hfuel entry hmem)
  | @item json raw item tag contents hmem _ ih =>
    obtain ⟨fuel, rfl⟩ : ∃ k, fuel = k + 1 := ⟨fuel - 1, by have := json.depth_pos; omega⟩
    rw [MetaValue.read, tag, contents] at h
    obtain ⟨items, hitems, -⟩ := succeeds_bind_iff.mp h
    exact ih (succeeds_of_readItems ⟨items, hitems⟩ item hmem) (depth_of_item contents hfuel item hmem)

/-! ## What is written again -/

/-- A value with a tag of metadata is not dropped. -/
theorem isTagged_of_read_none (h : MetaValue.read fuel json = .ok none) : isTagged json = false := by
  cases fuel with
  | zero => cases h
  | succ fuel =>
    rw [MetaValue.read] at h
    split at h
    · obtain ⟨entries, -, h⟩ := bind_eq_ok_iff.mp h
      cases h
    · split at h
      · obtain ⟨items, -, h⟩ := bind_eq_ok_iff.mp h
        cases h
      · cases h
    · split at h <;> cases h
    · split at h <;> cases h
    · obtain ⟨nodes, -, h⟩ := bind_eq_ok_iff.mp h
      cases h
    · obtain ⟨nodes, -, h⟩ := bind_eq_ok_iff.mp h
      cases h
    · clear h
      rename_i hmap hlist hbool hstring hinlines hblocks
      cases htagged : isTagged json with
      | false => rfl
      | true =>
        obtain ⟨tag, hmem, htag⟩ := isTagged_iff.mp htagged
        simp only [tags, List.mem_cons, List.not_mem_nil, or_false] at hmem
        obtain rfl | rfl | rfl | rfl | rfl | rfl := hmem
        · exact absurd htag hmap
        · exact absurd htag hlist
        · exact absurd htag hbool
        · exact absurd htag hstring
        · exact absurd htag hinlines
        · exact absurd htag hblocks

theorem Reduced.isTagged {out : Json} (h : Reduced json out) : isTagged json = true := by
  cases h with
  | map tag | list tag | bool tag | string tag | inlines tag | blocks tag =>
    exact isTagged_iff.mpr ⟨_, by decide, tag⟩

/-- Of the entries that were read, those that are kept are written again. -/
theorem entrywise_of_readEntries {out : List (String × Json)}
    (hnone : ∀ json, read json = .ok none → isTagged json = false)
    (hsome : ∀ json m out, read json = .ok (some m) → m.toJson = .ok out → Reduced json out)
    (hread : readEntries read raw = .ok entries) (hwrite : entriesToJson entries = .ok out) :
    Entrywise Reduced (keptEntries raw) out := by
  induction raw generalizing entries out with
  | nil =>
    cases hread
    cases hwrite
    exact .nil
  | cons entry raw ih =>
    obtain ⟨key, json⟩ := entry
    obtain ⟨value, hvalue, hread⟩ := bind_eq_ok_iff.mp hread
    obtain ⟨rest, hrest, heq⟩ := bind_eq_ok_iff.mp hread
    cases value with
    | none =>
      cases heq
      rw [keptEntries, List.filter_cons_of_neg (by simp [hnone json hvalue])]
      exact ih hrest hwrite
    | some m =>
      cases heq
      obtain ⟨first, hfirst, hwrite⟩ := bind_eq_ok_iff.mp hwrite
      obtain ⟨others, hothers, heq⟩ := bind_eq_ok_iff.mp hwrite
      cases heq
      have hreduced := hsome json m first hvalue hfirst
      have hkept : keptEntries ((key, json) :: raw) = (key, json) :: keptEntries raw :=
        List.filter_cons_of_pos hreduced.isTagged
      rw [hkept]
      exact .cons hreduced (ih hrest hothers)

/-- Of the items that were read, those that are kept are written again. -/
theorem forall₂_of_readItems {out : List Json} (hnone : ∀ json, read json = .ok none → isTagged json = false)
    (hsome : ∀ json m out, read json = .ok (some m) → m.toJson = .ok out → Reduced json out)
    (hread : readItems read items = .ok values) (hwrite : itemsToJson values = .ok out) :
    List.Forall₂ Reduced (items.filter isTagged) out := by
  induction items generalizing values out with
  | nil =>
    cases hread
    cases hwrite
    exact .nil
  | cons json items ih =>
    obtain ⟨value, hvalue, hread⟩ := bind_eq_ok_iff.mp hread
    obtain ⟨rest, hrest, heq⟩ := bind_eq_ok_iff.mp hread
    cases value with
    | none =>
      cases heq
      rw [List.filter_cons_of_neg (by simp [hnone json hvalue])]
      exact ih hrest hwrite
    | some m =>
      cases heq
      obtain ⟨first, hfirst, hwrite⟩ := bind_eq_ok_iff.mp hwrite
      obtain ⟨others, hothers, heq⟩ := bind_eq_ok_iff.mp hwrite
      cases heq
      have hreduced := hsome json m first hvalue hfirst
      rw [List.filter_cons_of_pos hreduced.isTagged]
      exact .cons hreduced (ih hrest hothers)

/-- The nodes of a value are read and written again one by one. -/
theorem rewritten_of_listOfJson {run : Slot} {context : String} {nodes : List Tree} {written : Json}
    (hmembers : ∀ read, readRun read context run (.arr items) = items.mapM (readMember read context run))
    (hnodes : Tree.listOfJson context run (.arr items) = .ok nodes) (hwrite : writeNodes nodes = .ok written) :
    ∃ out, written = .arr out ∧ List.Forall₂ (Rewritten run.admits) items out := by
  obtain ⟨out, hout, heq⟩ := bind_eq_ok_iff.mp hwrite
  cases heq
  have hread := (Tree.listOfJson_eq_ok_iff hmembers).mp hnodes
  exact ⟨out, rfl, forall₂_trans hread (mapM_eq_ok_iff.mp hout) fun item t json ⟨ht, hadmits⟩ hjson =>
    ⟨t, ht, hadmits, hjson⟩⟩

/-- What is written of a value that was read is the value without what is dropped from it. -/
theorem reduced_read {out : Json} (hread : MetaValue.read fuel json = .ok (some m)) (hwrite : m.toJson = .ok out) :
    Reduced json out := by
  induction fuel generalizing json m out with
  | zero => cases hread
  | succ fuel ih =>
    cases sourceOf_of_read hread with
    | map tag contents below =>
      obtain ⟨written, hwritten, heq⟩ := bind_eq_ok_iff.mp hwrite
      cases heq
      exact .map tag contents <|
        entrywise_of_readEntries (fun _ => isTagged_of_read_none) (fun _ _ _ => ih) below hwritten
    | list tag contents below =>
      obtain ⟨written, hwritten, heq⟩ := bind_eq_ok_iff.mp hwrite
      cases heq
      exact .list tag contents <|
        forall₂_of_readItems (fun _ => isTagged_of_read_none) (fun _ _ _ => ih) below hwritten
    | bool tag contents =>
      cases hwrite
      exact .bool tag contents
    | string tag contents =>
      cases hwrite
      exact .string tag contents
    | inlines tag contents below =>
      obtain ⟨written, hwritten, rfl⟩ := exists_of_map_eq_ok hwrite
      obtain ⟨out, rfl, heach⟩ := rewritten_of_listOfJson (fun _ => rfl) below hwritten
      exact .inlines tag contents heach
    | blocks tag contents below =>
      obtain ⟨written, hwritten, rfl⟩ := exists_of_map_eq_ok hwrite
      obtain ⟨out, rfl, heach⟩ := rewritten_of_listOfJson (fun _ => rfl) below hwritten
      exact .blocks tag contents heach

/-- What is written of a value that was read can be shown. -/
theorem short_toJson_of_read {out : Json} (hread : MetaValue.read fuel json = .ok (some m))
    (hwrite : m.toJson = .ok out) : out.holdsLong = false := by
  have hnodes : ∀ {run context items nodes}, run = .inlines ∨ run = .blocks →
      Tree.listOfJson context run (.arr items) = .ok nodes →
        ∀ t ∈ nodes, run.admits t.kind ∧ t.written.Legal (·.holdsLong = false) := by
    intro run context items nodes hrun hnodes t ht
    have hshort : (Json.arr items).holdsLong = false := by
      rcases hrun with rfl | rfl <;> exact short_of_readMembers ⟨nodes, hnodes⟩
    obtain ⟨hadmits, hdecoded⟩ := (reads_readContents Json.composed_short _).run
      (by rcases hrun with rfl | rfl <;> rfl) hshort hnodes
    exact ⟨hadmits t ht, (hdecoded t ht).legal_written Json.composed_short⟩
  exact ((over_read hnodes fuel hread).mono (fun _ => And.right) fun _ => And.right).short_toJson hwrite

end Read

/-- Dropping is exact.  What is written of the metadata that was read of an object is the object without the values
that have no tag of metadata, at any depth, in the order of the object, and it is read as the same metadata.  Of what
is dropped only the tag is looked at, and it is possible to show it: objects that differ in what is dropped only are
read alike, also where reading fails, unless a tag cannot be shown. -/
theorem drops_exactly (raw : List (String × Json)) :
    (∀ entries, mapOfJson (.obj raw) = .ok entries → (∀ entry ∈ raw, Tellable entry.2) ∧
      ∃ out, entriesToJson entries = .ok out ∧ Entrywise Reduced (keptEntries raw) out ∧
        mapOfJson (.obj out) = .ok entries) ∧
    ∀ raw', Entrywise Alike (keptEntries raw) (keptEntries raw') → (∀ entry ∈ raw, Tellable entry.2) →
      (∀ entry ∈ raw', Tellable entry.2) → mapOfJson (.obj raw') = mapOfJson (.obj raw) := by
  have hlow : ∀ (raw : List (String × Json)), ∀ entry ∈ raw, entry.2.depth ≤ (Json.obj raw).depth := by
    intro raw entry hentry
    rw [Json.depth]
    exact Nat.le_succ_of_le (Json.depth_le_depthEntries hentry)
  constructor
  · intro entries hread
    have hshaped : (map entries).Shaped := shaped_readMap (fun _ _ => shaped_read _) hread
    have hbelow := over_map_iff.mp hshaped
    obtain ⟨out, hwrite, hagain⟩ := restored_entries fun entry hentry => Shaped.restored (hbelow entry hentry)
    refine ⟨fun entry hentry => ?_, out, hwrite, ?_, ?_⟩
    · exact tellable_of_read (succeeds_of_readEntries ⟨entries, hread⟩ entry hentry) (hlow raw entry hentry)
    · exact entrywise_of_readEntries (fun _ => isTagged_of_read_none) (fun _ _ _ => reduced_read) hread hwrite
    · rw [entriesInOrder_eq_self fun entry hentry => Shaped.inOrder_eq (hbelow entry hentry)] at hagain
      have hshort : ∀ entry ∈ entries, ∀ json, entry.2.toJson = .ok json → json.holdsLong = false := by
        intro entry hentry json hjson
        obtain ⟨part, -, hpart⟩ := exists_of_mem_readEntries hread entry hentry
        exact short_toJson_of_read hpart hjson
      refine (hagain _ ?_).trans (showing_of_short ?_)
      · rw [Json.depth]
        exact Nat.le_succ _
      · exact Json.entriesHoldLong_eq_false_iff.mpr (forall_entriesToJson hshort hwrite).2
  · intro raw' halike htells htells'
    exact (readEntries_alike (fun entry hentry h => (htells entry hentry).drop h (hlow raw entry hentry))
      (fun entry hentry h => (htells' entry hentry).drop h (hlow raw' entry hentry))
      (fun x hx y hy hxy => read_alike hxy (htells x hx) (htells' y hy) (hlow raw x hx) (hlow raw' y hy))
      halike).symm

/-- Metadata with a string, a number that is dropped, and a list of a truth value and of an object with another tag,
with something below it. -/
def mixed (below : Json) : List (String × Json) :=
  [("title", .obj [("t", .str "MetaString"), ("c", .str "x"), ("extra", .null)]), ("count", .int 3),
    ("tags", tagged "MetaList" (.arr [tagged "Other" below, tagged "MetaBool" (.bool true)]))]

/-- A value that is dropped, with a tag that cannot be shown. -/
def untold : Json := .obj [("t", .arr [.int (10 ^ 4300)])]

theorem drops_exactly_mixed :
    mapOfJson (.obj (mixed .null)) = .ok [("title", .string "x"), ("tags", .list [.bool true])] ∧
      mapOfJson (.obj (mixed (tagged "MetaMap" (.str "no object")))) = mapOfJson (.obj (mixed .null)) ∧
      (∃ out, entriesToJson [("title", .string "x"), ("tags", .list [.bool true])] = .ok out ∧
        Entrywise Reduced (keptEntries (mixed .null)) out ∧
        mapOfJson (.obj out) = .ok [("title", .string "x"), ("tags", .list [.bool true])]) ∧
      ¬ ∃ entries, mapOfJson (.obj [("k", untold)]) = .ok entries := by
  have hread (below : Json) : mapOfJson (.obj (mixed below)) =
      .ok [("title", .string "x"), ("tags", .list [.bool true])] := rfl
  obtain ⟨hwritten, halike⟩ := drops_exactly (mixed .null)
  obtain ⟨htells, hout⟩ := hwritten _ (hread .null)
  obtain ⟨htells', -⟩ := (drops_exactly (mixed (tagged "MetaMap" (.str "no object")))).1 _ (hread _)
  refine ⟨hread .null, halike _ ?_ htells htells', hout, ?_⟩
  · exact .cons (.same rfl rfl) (.cons (.list rfl rfl rfl rfl (.cons (.same rfl rfl) .nil)) .nil)
  · rintro ⟨entries, hentries⟩
    obtain ⟨htells, -⟩ := (drops_exactly _).1 entries hentries
    have hshort := htells _ List.mem_cons_self untold (.self rfl)
    exact absurd hshort (by decide +kernel)

end DocFilter.MetaValue
