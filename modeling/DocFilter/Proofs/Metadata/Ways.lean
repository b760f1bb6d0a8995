import DocFilter.Proofs.Metadata.Paths
import DocFilter.Proofs.Metadata.Planting

/-!
# Ways through a store

A way leads from a value to one of its parts, to a part of that one, and so on; unlike a path it also leads
through lists.  Metadata is a tree if no map is reached along two ways.

* `Store.Unshared` says that the root is a tree, `Store.Apart` that a value has no map in common with it.
  `Store.Unshared.leads_on` says what this means for paths: what reaches a map stands on the path to it.
* `Store.follow_congr` says which cells a path looks at, `Store.Unchanged` that nothing below a value differs.
* `Store.unshared_add` says that a store made from entries is a tree, and that it stays apart from what is
  brought in.
-/

namespace DocFilter

/-- The values that a cell refers to, in order. -/
def MetaCell.parts : MetaCell → List MetaId
  | map entries => entries.map (·.2)
  | list items => items
  | _ => []

/-- The parts of the value in a cell. -/
def partsIn (cells : Array MetaCell) (id : MetaId) : List MetaId :=
  (cells[id.index]?.map MetaCell.parts).getD []

/-- Follows positions among parts. -/
def reachIn (cells : Array MetaCell) : MetaId → List Nat → Option MetaId
  | id, [] => some id
  | id, i :: way => (partsIn cells id)[i]?.bind (reachIn cells · way)

namespace Store

variable {store store' : Store} {id last other changed v : MetaId} {keys keys' : List String}
  {way way' : List Nat} {entries entries' : Keyed MetaId}

/-- The value at the end of a way. -/
def reach (store : Store) : MetaId → List Nat → Option MetaId := reachIn store.cells

/-- No map is reached from the root along two ways. -/
def Unshared (store : Store) : Prop := ∀ way way' id entries, store.reach store.root way = some id →
  store.reach store.root way' = some id → store.map? id = some entries → way = way'

/-- No map is reached both from a value and from the root. -/
def Apart (store : Store) (v : MetaId) : Prop := ∀ way way' id entries, store.reach v way = some id →
  store.reach store.root way' = some id → store.map? id ≠ some entries

/-- What is reached from a value is in one store as it is in another. -/
def Unchanged (store store' : Store) (id : MetaId) : Prop := ∀ way other, store.reach id way = some other →
  store'.cells[other.index]? = store.cells[other.index]?

/-! ## Cells -/

theorem map?_eq_some_iff : store.map? id = some entries ↔ store.cells[id.index]? = some (.map entries) := by
  rw [map?]
  split
  · rename_i found hcell
    simp [hcell]
  · rename_i hcell
    simpa using hcell entries

theorem map?_congr (h : store'.cells[id.index]? = store.cells[id.index]?) : store'.map? id = store.map? id := by
  rw [map?, map?, h]

theorem root_setMap : (store.setMap id entries).root = store.root := rfl

theorem cells_setMap_of_ne (h : other ≠ changed) :
    (store.setMap changed entries).cells[other.index]? = store.cells[other.index]? := by
  have hindex : changed.index ≠ other.index := fun heq => h (by cases other; cases changed; simp_all)
  exact Array.getElem?_setIfInBounds_ne hindex

theorem map?_setMap_of_ne (h : other ≠ changed) :
    (store.setMap changed entries).map? other = store.map? other := map?_congr (cells_setMap_of_ne h)

theorem map?_setMap_self (h : store.map? id = some entries) (entries' : Keyed MetaId) :
    (store.setMap id entries').map? id = some entries' := by
  obtain ⟨hbound, -⟩ := Array.getElem?_eq_some_iff.mp (map?_eq_some_iff.mp h)
  exact map?_eq_some_iff.mpr (Array.getElem?_setIfInBounds_self_of_lt hbound)

theorem setMap_setMap (store : Store) (id : MetaId) (entries entries' : Keyed MetaId) :
    (store.setMap id entries).setMap id entries' = store.setMap id entries' := by
  simp [setMap]

theorem setMap_eq_self (h : store.map? id = some entries) : store.setMap id entries = store := by
  obtain ⟨hbound, hcell⟩ := Array.getElem?_eq_some_iff.mp (map?_eq_some_iff.mp h)
  obtain ⟨cells, root⟩ := store
  simp only [setMap, Store.mk.injEq, and_true]
  apply Array.ext
  · simp
  · intro i hi hi'
    rw [Array.getElem_setIfInBounds]
    split
    · rename_i hi
      subst hi
      exact hcell.symm
    · rfl

/-! ## Keys -/

theorem follow_cons (key : String) (keys : List String) :
    store.follow id (key :: keys) =
      (store.map? id).bind fun entries => (Keyed.find? (.text key) entries).bind (store.follow · keys) := rfl

theorem follow_cons_of_map (h : store.map? id = some entries) (key : String) (keys : List String) :
    store.follow id (key :: keys) = (Keyed.find? (.text key) entries).bind (store.follow · keys) := by
  rw [follow_cons, h]
  rfl

theorem follow_append (store : Store) (id : MetaId) (keys keys' : List String) :
    store.follow id (keys ++ keys') = (store.follow id keys).bind (store.follow · keys') := by
  induction keys generalizing id with
  | nil => rfl
  | cons key keys ih =>
    rw [List.cons_append, follow_cons, follow_cons, Option.bind_assoc]
    simp only [ih, Option.bind_assoc]

theorem follow_append_of_eq (h : store.follow id keys = some other) (keys' : List String) :
    store.follow id (keys ++ keys') = store.follow other keys' := by
  rw [follow_append, h]
  rfl

/-- Keys lead to where they led if the maps in which they are looked up are the same. -/
theorem follow_congr (h : ∀ before key rest other, keys = before ++ key :: rest →
      store.follow id before = some other → store'.map? other = store.map? other) :
    store'.follow id keys = store.follow id keys := by
  induction keys generalizing id with
  | nil => rfl
  | cons key keys ih =>
    rw [follow_cons, follow_cons, h [] key keys id rfl rfl]
    cases hmap : store.map? id with
    | none => rfl
    | some entries =>
      dsimp only [Option.bind_some]
      cases hfind : Keyed.find? (.text key) entries with
      | none => rfl
      | some next =>
        refine ih fun before later rest other heq hother => ?_
        refine h (key :: before) later rest other (by rw [heq]; rfl) ?_
        rw [follow_cons_of_map hmap, hfind]
        exact hother

/-- Keys and positions that lead the same way. -/
inductive Spells (store : Store) : MetaId → List String → List Nat → MetaId → Prop
  | here (a : MetaId) : Spells store a [] [] a
  | on {a next last : MetaId} {entries : Keyed MetaId} {i : Nat} {key : String} {keys : List String}
      {way : List Nat} (map : store.map? a = some entries)
      (entry : entries[i]? = some (MetaKey.text key, next)) (rest : Spells store next keys way last) :
      Spells store a (key :: keys) (i :: way) last

theorem exists_spells (h : store.follow id keys = some last) : ∃ way, Spells store id keys way last := by
  induction keys generalizing id with
  | nil =>
    cases h
    exact ⟨[], .here _⟩
  | cons key keys ih =>
    rw [follow_cons] at h
    obtain ⟨entries, hmap, h⟩ := Option.bind_eq_some_iff.mp h
    obtain ⟨next, hfind, h⟩ := Option.bind_eq_some_iff.mp h
    obtain ⟨way, hway⟩ := ih h
    obtain ⟨i, hi⟩ := Keyed.exists_getElem?_of_find? hfind
    exact ⟨i :: way, .on hmap hi hway⟩

theorem Spells.reach (h : Spells store id keys way last) : store.reach id way = some last := by
  induction h with
  | here id => rfl
  | @on a next _ _ i _ _ _ hmap hentry _ ih =>
    have hpart : (partsIn store.cells a)[i]? = some next := by
      simp [partsIn, map?_eq_some_iff.mp hmap, MetaCell.parts, hentry]
    rw [Store.reach, reachIn, hpart]
    exact ih

/-- Of two ways through maps of which one goes on from the other, the keys do so as well. -/
theorem Spells.leads_on (h : Spells store id keys way last) {more : List Nat}
    (h' : Spells store id keys' (way ++ more) other) : keys <+: keys' := by
  induction h generalizing keys' with
  | here id => exact List.nil_prefix
  | on hmap hentry _ ih =>
    rw [List.cons_append] at h'
    cases h' with
    | on hmap' hentry' rest =>
      obtain rfl := Option.some.inj (hmap.symm.trans hmap')
      obtain ⟨hkey, rfl⟩ := Prod.mk.inj (Option.some.inj (hentry.symm.trans hentry'))
      obtain rfl := MetaKey.text.inj hkey
      exact List.cons_prefix_cons.mpr ⟨rfl, ih rest⟩

theorem reachIn_append (cells : Array MetaCell) (id : MetaId) (way way' : List Nat) :
    reachIn cells id (way ++ way') = (reachIn cells id way).bind (reachIn cells · way') := by
  induction way generalizing id with
  | nil => rfl
  | cons i way ih =>
    rw [List.cons_append, reachIn, reachIn, Option.bind_assoc]
    simp only [ih]

/-- In a tree the keys that lead to a map begin with those that lead to any value from which it is reached. -/
theorem Unshared.leads_on (h : store.Unshared) (hkeys : store.follow store.root keys = some id)
    (hway : store.reach id way = some other) (hother : store.follow store.root keys' = some other)
    (hmap : store.map? other = some entries) : keys <+: keys' := by
  obtain ⟨first, hfirst⟩ := exists_spells hkeys
  obtain ⟨whole, hwhole⟩ := exists_spells hother
  have hreach : store.reach store.root (first ++ way) = some other := by
    rw [reach, reachIn_append, ← reach, hfirst.reach]
    exact hway
  obtain rfl := h _ _ other entries hreach hwhole.reach hmap
  exact hfirst.leads_on hwhole

/-- In a tree only one sequence of keys leads to a map. -/
theorem Unshared.unique (h : store.Unshared) (hkeys : store.follow store.root keys = some id)
    (hkeys' : store.follow store.root keys' = some id) (hmap : store.map? id = some entries) : keys = keys' := by
  have hprefix : keys <+: keys' := h.leads_on hkeys (show store.reach id [] = some id from rfl) hkeys' hmap
  have hprefix' : keys' <+: keys := h.leads_on hkeys' (show store.reach id [] = some id from rfl) hkeys hmap
  exact hprefix.eq_of_length_le hprefix'.length_le

theorem Apart.not_reached (h : store.Apart v) (hkeys : store.follow store.root keys = some id)
    (hmap : store.map? id = some entries) (way : List Nat) : store.reach v way ≠ some id := by
  intro hway
  obtain ⟨whole, hwhole⟩ := exists_spells hkeys
  exact h way whole id entries hway hwhole.reach hmap

/-! ## Values that stay the same -/

theorem unchanged_setMap (h : ∀ way, store.reach id way ≠ some changed) :
    Unchanged store (store.setMap changed entries) id := fun way _ hother =>
  cells_setMap_of_ne fun heq => h way (heq ▸ hother)

theorem Unchanged.follow (h : Unchanged store store' id) (keys : List String) :
    store'.follow id keys = store.follow id keys := by
  refine follow_congr fun before key rest other _ hother => ?_
  obtain ⟨way, hway⟩ := exists_spells hother
  exact map?_congr (h way other hway.reach)

theorem Unchanged.map? (h : Unchanged store store' id) : store'.map? id = store.map? id :=
  map?_congr (h [] id rfl)

/-- The ways from an unchanged value lead to what they led to. -/
theorem Unchanged.reach_eq (h : Unchanged store store' id) (way : List Nat) :
    store'.reach id way = store.reach id way := by
  induction way generalizing id with
  | nil => rfl
  | cons i way ih =>
    have hparts : partsIn store'.cells id = partsIn store.cells id := by
      rw [partsIn, partsIn, h [] id rfl]
    rw [Store.reach, Store.reach, reachIn, reachIn, hparts]
    cases hpart : (partsIn store.cells id)[i]? with
    | none => rfl
    | some part =>
      refine ih fun way other hother => h (i :: way) other ?_
      rw [Store.reach, reachIn, hpart]
      exact hother

/-- What keys lead to is unchanged as well. -/
theorem Unchanged.onward (h : Unchanged store store' id) (hleads : store.follow id keys = some v) :
    Unchanged store store' v := by
  intro way other hway
  obtain ⟨first, hfirst⟩ := exists_spells hleads
  refine h (first ++ way) other ?_
  rw [reach, reachIn_append, ← reach, hfirst.reach]
  exact hway

end Store

/-! ## Stores made from values -/

namespace MetaValue

open Store

variable {cells cells' cells'' : Array MetaCell} {ids ids' : List MetaId}

/-- From some values that were brought in only new cells are reached, each along one way. -/
structure Sown (cells cells' : Array MetaCell) (ids : List MetaId) : Prop where
  kept : Kept cells cells'
  within : ∀ later, Kept cells' later → ∀ id ∈ ids, ∀ way other, reachIn later id way = some other →
    cells.size ≤ other.index ∧ other.index < cells'.size
  once : ∀ later, Kept cells' later → ∀ (i j : Nat) a b way way' other, ids[i]? = some a → ids[j]? = some b →
    reachIn later a way = some other → reachIn later b way' = some other → i = j ∧ way = way'

theorem sown_nil (cells : Array MetaCell) : Sown cells cells [] :=
  ⟨.refl cells, fun _ _ _ h => by simp at h, fun _ _ _ _ _ _ _ _ _ h => by simp at h⟩

/-- Values that are brought in after one another are apart. -/
theorem Sown.cons {id : MetaId} (h : Sown cells cells' [id]) (h' : Sown cells' cells'' ids) :
    Sown cells cells'' (id :: ids) where
  kept := h.kept.trans h'.kept
  within := by
    intro later hlater a ha way other hother
    obtain rfl | ha := List.mem_cons.mp ha
    · have hin := h.within later (h'.kept.trans hlater) a (by simp) way other hother
      exact ⟨hin.1, Nat.lt_of_lt_of_le hin.2 h'.kept.size_le⟩
    · have hin := h'.within later hlater a ha way other hother
      exact ⟨Nat.le_trans h.kept.size_le hin.1, hin.2⟩
  once := by
    intro later hlater i j a b way way' other ha hb hway hway'
    have hfirst := h'.kept.trans hlater
    cases i with
    | zero =>
      obtain rfl : id = a := by simpa using ha
      cases j with
      | zero =>
        obtain rfl : id = b := by simpa using hb
        exact ⟨rfl, (h.once later hfirst 0 0 id id way way' other rfl rfl hway hway').2⟩
      | succ j =>
        have hin := h.within later hfirst id (by simp) way other hway
        have hin' := h'.within later hlater b (List.mem_of_getElem? hb) way' other hway'
        omega
    | succ i =>
      cases j with
      | zero =>
        obtain rfl : id = b := by simpa using hb
        have hin := h.within later hfirst id (by simp) way' other hway'
        have hin' := h'.within later hlater a (List.mem_of_getElem? ha) way other hway
        omega
      | succ j =>
        obtain ⟨rfl, rfl⟩ := h'.once later hlater i j a b way way' other ha hb hway hway'
        exact ⟨rfl, rfl⟩

/-- A cell that is put behind its parts. -/
theorem Sown.gather (cell : MetaCell) (h : Sown cells cells' cell.parts) :
    Sown cells (cells'.push cell) [⟨cells'.size⟩] := by
  have hcases : ∀ later, Kept (cells'.push cell) later → ∀ way other,
      reachIn later ⟨cells'.size⟩ way = some other → way = [] ∧ other.index = cells'.size ∨
        ∃ i rest a, way = i :: rest ∧ cell.parts[i]? = some a ∧ reachIn later a rest = some other := by
    intro later hlater way other hother
    have hcell : later[cells'.size]? = some cell := by
      rw [hlater.same cells'.size (by simp), Array.getElem?_push_size]
    cases way with
    | nil =>
      cases hother
      exact .inl ⟨rfl, rfl⟩
    | cons i rest =>
      have hparts : partsIn later ⟨cells'.size⟩ = cell.parts := by simp [partsIn, hcell]
      rw [reachIn, hparts] at hother
      obtain ⟨a, ha, hother⟩ := Option.bind_eq_some_iff.mp hother
      exact .inr ⟨i, rest, a, rfl, ha, hother⟩
  have hsize := h.kept.size_le
  refine ⟨h.kept.trans (kept_push cells' cell), ?_, ?_⟩
  · intro later hlater id hid way other hother
    obtain rfl := List.mem_singleton.mp hid
    rw [Array.size_push]
    obtain ⟨-, hindex⟩ | ⟨i, rest, a, -, ha, hrest⟩ := hcases later hlater way other hother
    · omega
    · have hin := h.within later ((kept_push cells' cell).trans hlater) a (List.mem_of_getElem? ha) rest other hrest
      omega
  · intro later hlater i j a b way way' other ha hb hway hway'
    obtain ⟨rfl, rfl⟩ : i = 0 ∧ ⟨cells'.size⟩ = a := by
      cases i with
      | zero => simpa using ha
      | succ i => simp at ha
    obtain ⟨rfl, rfl⟩ : j = 0 ∧ ⟨cells'.size⟩ = b := by
      cases j with
      | zero => simpa using hb
      | succ j => simp at hb
    refine ⟨rfl, ?_⟩
    have hbelow := (kept_push cells' cell).trans hlater
    obtain ⟨rfl, hindex⟩ | ⟨i, rest, a, rfl, ha, hrest⟩ := hcases later hlater way other hway
    · obtain ⟨rfl, -⟩ | ⟨j, rest', b, -, hb, hrest'⟩ := hcases later hlater way' other hway'
      · rfl
      · have hin := h.within later hbelow b (List.mem_of_getElem? hb) rest' other hrest'
        omega
    · obtain ⟨-, hindex⟩ | ⟨j, rest', b, rfl, hb, hrest'⟩ := hcases later hlater way' other hway'
      · have hin := h.within later hbelow a (List.mem_of_getElem? ha) rest other hrest
        omega
      · obtain ⟨rfl, rfl⟩ := h.once later hbelow i j a b rest rest' other ha hb hrest hrest'
        rfl

mutual

theorem sown_plant : ∀ (m : MetaValue) (cells : Array MetaCell), Sown cells (m.plant cells).2 [(m.plant cells).1]
  | map entries, cells => .gather (.map _) (sown_plantEntries entries cells)
  | list items, cells => .gather (.list _) (sown_plantItems items cells)
  | bool b, cells => .gather (.bool b) (sown_nil cells)
  | string s, cells => .gather (.string s) (sown_nil cells)
  | inlines nodes, cells => .gather (.inlines nodes) (sown_nil cells)
  | blocks nodes, cells => .gather (.blocks nodes) (sown_nil cells)

theorem sown_plantItems : ∀ (items : List MetaValue) (cells : Array MetaCell),
    Sown cells (plantItems items cells).2 (plantItems items cells).1
  | [], cells => sown_nil cells
  | item :: items, cells => (sown_plant item cells).cons (sown_plantItems items (item.plant cells).2)

theorem sown_plantEntries : ∀ (entries : List (String × MetaValue)) (cells : Array MetaCell),
    Sown cells (plantEntries entries cells).2 ((plantEntries entries cells).1.map (·.2))
  | [], cells => sown_nil cells
  | (_, value) :: entries, cells => (sown_plant value cells).cons (sown_plantEntries entries (value.plant cells).2)

end

end MetaValue

/-- A store made from entries is a tree, also after a value was brought in, and the value is apart from it. -/
theorem Store.unshared_add (entries : List (String × MetaValue)) (value : MetaValue) :
    ((ofEntries entries).add value).2.Unshared ∧
      ((ofEntries entries).add value).2.Apart ((ofEntries entries).add value).1 := by
  have hroot := MetaValue.sown_plant (.map entries) #[]
  have hvalue := MetaValue.sown_plant value (ofEntries entries).cells
  constructor
  · intro way way' id found hway hway' _
    exact (hroot.once _ hvalue.kept 0 0 _ _ way way' id rfl rfl hway hway').2
  · intro way way' id found hway hway' _
    have hold := hroot.within _ hvalue.kept _ (List.mem_singleton.mpr rfl) way' id hway'
    have hnew := hvalue.within _ (.refl _) _ (List.mem_singleton.mpr rfl) way id hway
    have hsame : (ofEntries entries).cells.size = ((MetaValue.map entries).plant #[]).2.size := rfl
    omega

end DocFilter
