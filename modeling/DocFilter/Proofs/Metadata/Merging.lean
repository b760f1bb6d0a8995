import DocFilter.Proofs.Metadata.Calls
import DocFilter.Proofs.Metadata.Keys
import DocFilter.Proofs.Metadata.Mapping
import DocFilter.Proofs.Results

/-!
# Merging maps

Merging a map into what is at a path writes its entries over those of the map that is there, one level deep, and is
putting where there is no map.

* `Store.Merged` says what is there after a merge, `Store.merged` that it is.
* `Store.SameTree` says that two values, each in a store, cannot be told apart; it is shown by a relation between
  values whose cells match (`Match`).  Such values are read alike (`SameTree.readCell_eq`).
* `Store.merge_merge` says that merging two maps one after the other comes to the same tree as merging the second
  one written over the first.
* `Store.merge_laws` collects the laws.
-/

namespace DocFilter

/-! ## Values that cannot be told apart -/

/-- Two cells are of one form, and their parts are related. -/
inductive Match (R : MetaId → MetaId → Prop) : MetaCell → MetaCell → Prop
  | map {entries entries' : Keyed MetaId}
      (parts : List.Forall₂ (fun x y => x.1 = y.1 ∧ R x.2 y.2) entries entries') :
      Match R (.map entries) (.map entries')
  | list {items items' : List MetaId} (parts : List.Forall₂ R items items') : Match R (.list items) (.list items')
  | bool (b : Bool) : Match R (.bool b) (.bool b)
  | string (s : String) : Match R (.string s) (.string s)
  | inlines (nodes : List Tree) : Match R (.inlines nodes) (.inlines nodes)
  | blocks (nodes : List Tree) : Match R (.blocks nodes) (.blocks nodes)

theorem Match.of_parts {R : MetaId → MetaId → Prop} : ∀ {cell : MetaCell}, (∀ part ∈ cell.parts, R part part) →
    Match R cell cell
  | .map _, h => .map (List.forall₂_same.mpr fun entry hentry => ⟨rfl, h entry.2 (List.mem_map_of_mem hentry)⟩)
  | .list _, h => .list (List.forall₂_same.mpr h)
  | .bool b, _ => .bool b
  | .string s, _ => .string s
  | .inlines nodes, _ => .inlines nodes
  | .blocks nodes, _ => .blocks nodes

namespace Store

variable {store store' s t : Store} {path key : String} {id v w v₁ v₂ a b : MetaId} {keys : List String}
  {old new new₁ new₂ entries : Keyed MetaId} {R : MetaId → MetaId → Prop}

/-- Two values, each in a store, are the same tree: some relation holds of them, and the cells of related values
match. -/
def SameTree (s : Store) (a : MetaId) (t : Store) (b : MetaId) : Prop :=
  ∃ R : MetaId → MetaId → Prop, R a b ∧ ∀ x y, R x y → Option.Rel (Match R) s.cells[x.index]? t.cells[y.index]?

theorem SameTree.refl (s : Store) (a : MetaId) : SameTree s a s a := by
  refine ⟨Eq, rfl, ?_⟩
  rintro x _ rfl
  cases s.cells[x.index]? with
  | none => exact .none
  | some cell => exact .some (.of_parts fun _ _ => rfl)

/-- The same trees are read alike. -/
theorem SameTree.readCell_eq (h : SameTree s a t b) (fuel : Nat) :
    readCell s.cells fuel a = readCell t.cells fuel b := by
  obtain ⟨R, hab, hmatch⟩ := h
  induction fuel generalizing a b with
  | zero => rfl
  | succ fuel ih =>
    have hcells := hmatch a b hab
    rw [readCell, readCell]
    generalize s.cells[a.index]? = cell at hcells
    generalize t.cells[b.index]? = cell' at hcells
    cases hcells with
    | none => rfl
    | some hparts =>
      cases hparts with
      | map parts =>
        dsimp only
        rw [mapM_eq_mapM (parts.imp fun x y hxy => by rw [hxy.1, ih hxy.2])]
      | list parts =>
        dsimp only
        rw [mapM_eq_mapM (parts.imp fun x y hxy => ih hxy)]
      | bool b => rfl
      | string s => rfl
      | inlines nodes => rfl
      | blocks nodes => rfl

/-! ## What is there after a merge -/

/-- A path leads on from another one under a key of some entries. -/
def Through (path : String) (new : Keyed MetaId) (q : String) : Prop :=
  ∃ key rest value, pathKeys q = pathKeys path ++ key :: rest ∧ Keyed.find? (.text key) new = some value

/-- What is there after entries were written over those of the map at a path: the same map, with the old keys in their
order and then the new ones; no other cell changed.  Under a new key the path leads on into its value, and otherwise
paths lead to what they led to; what they led to is as before, other than on the way to the path. -/
structure Merged (store : Store) (path : String) (id : MetaId) (old new : Keyed MetaId) (store' : Store) : Prop where
  place : store'.get? path = some id
  entries : store'.map? id = some (Keyed.override old new)
  root : store'.root = store.root
  cells : ∀ other ≠ id, store'.cells[other.index]? = store.cells[other.index]?
  through : ∀ q key rest value, pathKeys q = pathKeys path ++ key :: rest →
    Keyed.find? (.text key) new = some value → store'.get? q = store.follow value rest
  elsewhere : ∀ q, ¬ Through path new q → store'.get? q = store.get? q
  untouched : ∀ q found, ¬ pathKeys q <+: pathKeys path → store.get? q = some found → Unchanged store store' found

theorem merge_of_maps (hget : store.get? path = some id) (hold : store.map? id = some old)
    (hnew : store.map? v = some new) :
    store.merge path v = .ok (store.setMap id (Keyed.update old new)) := by
  rw [Store.merge, hget, Option.bind_some, hold, hnew]
  rfl

/-- Merging does not depend on the map itself where there is none at the path. -/
theorem merge_of_not_maps (h : (∀ id, store.get? path = some id → store.map? id = none) ∨ store.map? v = none) :
    store.merge path v = store.replace path v := by
  rw [Store.merge]
  split
  · rename_i id entries new hthere hnew
    obtain ⟨found, hget, hfound⟩ := Option.bind_eq_some_iff.mp hthere
    obtain ⟨there, hmap, -⟩ := Option.map_eq_some_iff.mp hfound
    obtain hnone | hnone := h
    · rw [hnone found hget] at hmap
      cases hmap
    · rw [hnone] at hnew
      cases hnew
  · rfl

theorem Apart.ne (h : store.Apart v) (hmap : store.map? v = some entries)
    (hleads : store.follow store.root keys = some id) : v ≠ id := by
  rintro rfl
  exact h.not_reached hleads hmap [] rfl

/-- Writing the entries of a map over those of the one at a path. -/
theorem merged_setMap (htree : store.Unshared) (hget : store.get? path = some id) (hold : store.map? id = some old)
    (holdKeys : old.Distinct) (hnew : store.map? v = some new) (hnewKeys : new.Distinct) (hapart : store.Apart v) :
    Merged store path id old new (store.setMap id (Keyed.update old new)) := by
  rw [Keyed.update_eq_override holdKeys hnewKeys]
  have hfind : ∀ key : String, Keyed.find? (.text key) (Keyed.override old new) =
      (Keyed.find? (.text key) new).or (Keyed.find? (.text key) old) := fun key =>
    Keyed.find?_override holdKeys.proper hnewKeys.proper (show (MetaKey.text key).Proper from trivial)
  have hplace := htree.follow_setMap hget hold (Keyed.override old new)
  have hentries := map?_setMap_self hold (Keyed.override old new)
  refine ⟨hplace, hentries, rfl, fun other hne => cells_setMap_of_ne hne, fun q key rest value hq hvalue => ?_,
    fun q hq => htree.follow_setMap_other hget hold fun next rest hsplit => ?_,
    fun q found hq hfound => htree.unchanged_setMap hget hold hfound hq _⟩
  · have hleads : store.follow v [key] = some value := by
      rw [follow_cons_of_map hnew, hvalue]
      rfl
    obtain ⟨first, hfirst⟩ := exists_spells hleads
    have hsame : Unchanged store (store.setMap id (Keyed.override old new)) value := by
      refine unchanged_setMap fun way hway => hapart.not_reached hget hold (first ++ way) ?_
      rw [reach, reachIn_append, ← reach, hfirst.reach]
      exact hway
    rw [get?, hq, root_setMap, follow_append_of_eq hplace, follow_cons_of_map hentries, hfind, hvalue, Option.some_or]
    exact hsame.follow rest
  · have hnone : Keyed.find? (.text next) new = none := by
      cases hvalue : Keyed.find? (.text next) new with
      | none => rfl
      | some value => exact absurd ⟨next, rest, value, hsplit, hvalue⟩ hq
    rw [hfind, hnone, Option.none_or]

/-! ## Two maps after one another -/

/-- No map is reached from a value along two ways. -/
def UnsharedAt (store : Store) (v : MetaId) : Prop := ∀ way way' id entries, store.reach v way = some id →
  store.reach v way' = some id → store.map? id = some entries → way = way'

/-- No map is reached from both of two values. -/
def Separate (store : Store) (v w : MetaId) : Prop := ∀ way way' id entries, store.reach v way = some id →
  store.reach w way' = some id → store.map? id ≠ some entries

/-- Maps that are to be merged after one another, and the one that the second written over the first is: they have
proper keys and no map in common with each other and with the metadata, and the first one is a tree. -/
structure Mergeable (store : Store) (v₁ v₂ v : MetaId) (new₁ new₂ : Keyed MetaId) : Prop where
  first : store.map? v₁ = some new₁
  second : store.map? v₂ = some new₂
  both : store.map? v = some (Keyed.override new₁ new₂)
  firstKeys : new₁.Distinct
  secondKeys : new₂.Distinct
  tree : store.UnsharedAt v₁
  separate : store.Separate v₁ v₂
  firstApart : store.Apart v₁
  secondApart : store.Apart v₂
  bothApart : store.Apart v

/-- Two runs come to the same answer and to the same tree. -/
structure SameOutcome (x y : Except Failure Unit × Store) : Prop where
  answer : x.1 = y.1
  tree : SameTree x.2 x.2.root y.2 y.2.root

theorem SameOutcome.of_eq {x y : Except Failure Unit × Store} (h : x = y) : SameOutcome x y := by
  subst h
  exact ⟨rfl, .refl x.2 x.2.root⟩

theorem run_merge_ok (h : store.merge path v = .ok store') :
    (Editing.merge path (.metadata v)).run store = (.ok (), store') := by
  rw [Editing.run_merge, h]

theorem run_merge_error {e : StoreError} (h : store.merge path v = .error e) :
    (Editing.merge path (.metadata v)).run store = (.error (.store e), store) := by
  rw [Editing.run_merge, h]

/-- Merging one map, and then another one. -/
def mergeBoth (path : String) (v₁ v₂ : MetaId) : Editing Unit :=
  Editing.merge path (.metadata v₁) >>= fun _ => Editing.merge path (.metadata v₂)

theorem run_mergeBoth_ok (h : store.merge path v₁ = .ok s) :
    (mergeBoth path v₁ v₂).run store = (Editing.merge path (.metadata v₂)).run s := by
  rw [mergeBoth, Editing.run_bind, run_merge_ok h]

theorem run_mergeBoth_error {e : StoreError} (h : store.merge path v₁ = .error e) :
    (mergeBoth path v₁ v₂).run store = (.error (.store e), store) := by
  rw [mergeBoth, Editing.run_bind, run_merge_error h]

/-- Values that are in the metadata, or in one of two maps that are to be merged but are not the map itself. -/
def Placed (store : Store) (v₁ v₂ x : MetaId) : Prop :=
  (∃ way, store.reach store.root way = some x) ∨ (∃ i way, store.reach v₁ (i :: way) = some x) ∨
    ∃ i way, store.reach v₂ (i :: way) = some x

theorem reach_part {x : MetaId} {way : List Nat} {cell : MetaCell} (hx : store.reach id way = some x)
    (hcell : store.cells[x.index]? = some cell) {part : MetaId} (hpart : part ∈ cell.parts) :
    ∃ i, store.reach id (way ++ [i]) = some part := by
  obtain ⟨i, hi⟩ := List.getElem?_of_mem hpart
  have hparts : partsIn store.cells x = cell.parts := by simp [partsIn, hcell]
  refine ⟨i, ?_⟩
  rw [reach, reachIn_append, ← reach, hx]
  show (partsIn store.cells x)[i]?.bind (reachIn store.cells · []) = some part
  rw [hparts, hi]
  rfl

theorem Placed.part {x part : MetaId} {cell : MetaCell} (h : store.Placed v₁ v₂ x)
    (hcell : store.cells[x.index]? = some cell) (hpart : part ∈ cell.parts) : store.Placed v₁ v₂ part := by
  obtain ⟨way, hway⟩ | ⟨i, way, hway⟩ | ⟨i, way, hway⟩ := h
  · obtain ⟨j, hj⟩ := reach_part hway hcell hpart
    exact .inl ⟨_, hj⟩
  · obtain ⟨j, hj⟩ := reach_part hway hcell hpart
    exact .inr (.inl ⟨i, _, hj⟩)
  · obtain ⟨j, hj⟩ := reach_part hway hcell hpart
    exact .inr (.inr ⟨i, _, hj⟩)

/-- Values that are placed stand for themselves, and the first map stands for the two. -/
def StandsFor (store : Store) (v₁ v₂ v x y : MetaId) : Prop := x = y ∧ store.Placed v₁ v₂ x ∨ x = v₁ ∧ y = v

/-- What is placed is not the first map itself. -/
theorem Mergeable.ne (h : store.Mergeable v₁ v₂ v new₁ new₂) {x : MetaId} (hx : store.Placed v₁ v₂ x) : x ≠ v₁ := by
  rintro rfl
  obtain ⟨way, hway⟩ | ⟨i, way, hway⟩ | ⟨i, way, hway⟩ := hx
  · exact h.firstApart [] way x new₁ rfl hway h.first
  · cases h.tree [] (i :: way) x new₁ rfl hway h.first
  · exact h.separate [] (i :: way) x new₁ rfl hway h.first

theorem forall₂_put {x y : MetaId} (hentries : ∀ entry ∈ entries, R entry.2 entry.2) (hxy : R x y) (key : MetaKey) :
    List.Forall₂ (fun x y => x.1 = y.1 ∧ R x.2 y.2) (Keyed.put key x entries) (Keyed.put key y entries) := by
  induction entries with
  | nil => exact .cons ⟨rfl, hxy⟩ .nil
  | cons entry entries ih =>
    obtain ⟨hentry, hentries⟩ := List.forall_mem_cons.mp hentries
    rw [Keyed.put, Keyed.put]
    split
    · exact .cons ⟨rfl, hxy⟩ (List.forall₂_same.mpr fun other hother => ⟨rfl, hentries other hother⟩)
    · exact .cons ⟨rfl, hentry⟩ (ih hentries)

/-- The values of both maps are placed. -/
theorem Mergeable.placed (h : store.Mergeable v₁ v₂ v new₁ new₂) :
    ∀ part ∈ (MetaCell.map (Keyed.override new₁ new₂)).parts, store.Placed v₁ v₂ part := by
  intro part hpart
  obtain ⟨entry, hentry, rfl⟩ := List.mem_map.mp hpart
  obtain ⟨first, hfirst, heq⟩ | ⟨first, hfirst, heq⟩ := Keyed.mem_of_mem_override hentry
  · obtain ⟨i, hi⟩ := @reach_part store v₁ v₁ [] _ rfl (map?_eq_some_iff.mp h.first) first.2
      (List.mem_map_of_mem hfirst)
    exact .inr (.inl ⟨i, [], heq ▸ hi⟩)
  · obtain ⟨i, hi⟩ := @reach_part store v₂ v₂ [] _ rfl (map?_eq_some_iff.mp h.second) first.2
      (List.mem_map_of_mem hfirst)
    exact .inr (.inr ⟨i, [], heq ▸ hi⟩)

/-- The first map, put into a holder and merged with the second one there, is the same tree as the two written over
one another in its place. -/
theorem Mergeable.sameTree (h : store.Mergeable v₁ v₂ v new₁ new₂) {holder : MetaId} {before : List String}
    (hholder : store.follow store.root before = some holder) (hmap : store.map? holder = some entries) (key : MetaKey) :
    SameTree ((store.setMap holder (Keyed.put key v₁ entries)).setMap v₁ (Keyed.override new₁ new₂)) store.root
      (store.setMap holder (Keyed.put key v entries)) store.root := by
  have hfirst : v₁ ≠ holder := h.firstApart.ne h.first hholder
  have hboth : v ≠ holder := h.bothApart.ne h.both hholder
  have hplaced : store.Placed v₁ v₂ holder := by
    obtain ⟨way, hway⟩ := exists_spells hholder
    exact .inl ⟨way, hway.reach⟩
  refine ⟨store.StandsFor v₁ v₂ v, .inl ⟨rfl, .inl ⟨[], rfl⟩⟩, ?_⟩
  rintro x y (⟨rfl, hx⟩ | ⟨rfl, rfl⟩)
  · rw [cells_setMap_of_ne (h.ne hx)]
    by_cases hhere : x = holder
    · subst hhere
      rw [map?_eq_some_iff.mp (map?_setMap_self hmap _), map?_eq_some_iff.mp (map?_setMap_self hmap _)]
      have hheld : ∀ entry ∈ entries, store.StandsFor v₁ v₂ v entry.2 entry.2 := fun entry hentry =>
        .inl ⟨rfl, hplaced.part (map?_eq_some_iff.mp hmap) (List.mem_map_of_mem hentry)⟩
      exact .some (.map (forall₂_put hheld (.inr ⟨rfl, rfl⟩) key))
    · rw [cells_setMap_of_ne hhere, cells_setMap_of_ne hhere]
      cases hcell : store.cells[x.index]? with
      | none => exact .none
      | some cell => exact .some (.of_parts fun part hpart => .inl ⟨rfl, hx.part hcell hpart⟩)
  · have hthere : (store.setMap holder (Keyed.put key x entries)).map? x = some new₁ :=
      (map?_setMap_of_ne hfirst).trans h.first
    rw [map?_eq_some_iff.mp (map?_setMap_self hthere _), cells_setMap_of_ne hboth, map?_eq_some_iff.mp h.both]
    exact .some (.of_parts fun part hpart => .inl ⟨rfl, h.placed part hpart⟩)

/-- What a merge finds at a path: a map, or no map but a holder for one, or not even that. -/
theorem found_cases (hroot : store.map? store.root = some entries) (path : String) :
    (∃ id old, store.get? path = some id ∧ store.map? id = some old) ∨
      (∀ id, store.get? path = some id → store.map? id = none) ∧
        ((∃ before key holder entries, store.Holder path before key holder entries) ∨
          path ≠ "" ∧ ∃ e, store.parent path = .error e) := by
  by_cases hthere : ∃ id old, store.get? path = some id ∧ store.map? id = some old
  · exact .inl hthere
  have hnone : ∀ id, store.get? path = some id → store.map? id = none := by
    intro id hget
    cases hmap : store.map? id with
    | none => rfl
    | some old => exact absurd ⟨id, old, hget, hmap⟩ hthere
  have hpath : path ≠ "" := by
    rintro rfl
    rw [hnone store.root rfl] at hroot
    cases hroot
  refine .inr ⟨hnone, ?_⟩
  cases hparent : store.parent path with
  | error e => exact .inr ⟨hpath, e, rfl⟩
  | ok found =>
    obtain ⟨before, key, holder, entries, -, hholder⟩ := (parent_eq_ok_iff hpath).mp hparent
    exact .inl ⟨before, key, holder, entries, hholder⟩

theorem replace_of_holder {before : List String} {holder : MetaId}
    (h : store.Holder path before key holder entries) (v : MetaId) :
    store.replace path v = .ok (store.setMap holder (Keyed.put (.text key) v entries)) := by
  have hpath : path ≠ "" := by
    rintro rfl
    simpa [pathKeys] using h.keys
  exact (replace_eq_ok_iff hpath).mpr ⟨before, key, holder, entries, h, rfl⟩

theorem replace_of_no_holder {e : StoreError} (h : store.parent path = .error e) (v : MetaId) :
    store.replace path v = .error e := by
  rw [Store.replace, h]
  rfl

/-- A map that was put into a holder is found there, and it is as it was. -/
theorem Holder.get?_put {before : List String} {holder : MetaId} (h : store.Holder path before key holder entries)
    (htree : store.Unshared) (v : MetaId) :
    (store.setMap holder (Keyed.put (.text key) v entries)).get? path = some v :=
  (h.setMap htree _).get?_eq.trans (Keyed.find?_put_self key v entries)

/-- Merging two maps after one another comes to the same as merging the second one written over the first. -/
theorem merge_merge (hroot : store.map? store.root = some entries) (htree : store.Unshared)
    (hkeys : ∀ id old, store.get? path = some id → store.map? id = some old → old.Distinct)
    (h : store.Mergeable v₁ v₂ v new₁ new₂) :
    SameOutcome ((mergeBoth path v₁ v₂).run store) ((Editing.merge path (.metadata v)).run store) := by
  obtain ⟨id, old, hget, hold⟩ | ⟨hnone, ⟨before, key, holder, held, hholder⟩ | ⟨-, e, hparent⟩⟩ :=
    found_cases hroot path
  · have holdKeys := hkeys id old hget hold
    have hfirst := merged_setMap htree hget hold holdKeys h.first h.firstKeys h.firstApart
    have hsecond : (store.setMap id (Keyed.update old new₁)).map? v₂ = some new₂ :=
      (map?_setMap_of_ne (h.secondApart.ne h.second hget)).trans h.second
    have hboth : Keyed.update (Keyed.override old new₁) new₂ = Keyed.update old (Keyed.override new₁ new₂) := by
      rw [Keyed.update_eq_override (holdKeys.override h.firstKeys) h.secondKeys,
        Keyed.update_eq_override holdKeys (h.firstKeys.override h.secondKeys),
        Keyed.override_override holdKeys.proper h.firstKeys.proper h.secondKeys.proper]
    refine .of_eq ?_
    rw [run_mergeBoth_ok (merge_of_maps hget hold h.first), run_merge_ok (merge_of_maps hget hold h.both),
      run_merge_ok (merge_of_maps hfirst.place hfirst.entries hsecond), setMap_setMap, hboth]
  · have hleads := hholder.leads
    have hfirst : (store.setMap holder (Keyed.put (.text key) v₁ held)).map? v₁ = some new₁ :=
      (map?_setMap_of_ne (h.firstApart.ne h.first hleads)).trans h.first
    have hsecond : (store.setMap holder (Keyed.put (.text key) v₁ held)).map? v₂ = some new₂ :=
      (map?_setMap_of_ne (h.secondApart.ne h.second hleads)).trans h.second
    rw [run_mergeBoth_ok ((merge_of_not_maps (.inl hnone)).trans (replace_of_holder hholder v₁)),
      run_merge_ok ((merge_of_not_maps (.inl hnone)).trans (replace_of_holder hholder v)),
      run_merge_ok (merge_of_maps (hholder.get?_put htree v₁) hfirst hsecond),
      Keyed.update_eq_override h.firstKeys h.secondKeys]
    exact ⟨rfl, h.sameTree hleads hholder.map _⟩
  · refine .of_eq ?_
    rw [run_mergeBoth_error ((merge_of_not_maps (.inl hnone)).trans (replace_of_no_holder hparent v₁)),
      run_merge_error ((merge_of_not_maps (.inl hnone)).trans (replace_of_no_holder hparent v))]

/-- Merging a map once more changes nothing. -/
theorem merge_twice (hroot : store.map? store.root = some entries) (htree : store.Unshared)
    (hkeys : ∀ id old, store.get? path = some id → store.map? id = some old → old.Distinct)
    (hnew : store.map? v = some new) (hnewKeys : new.Distinct) (hapart : store.Apart v) :
    (mergeBoth path v v).run store = (Editing.merge path (.metadata v)).run store := by
  obtain ⟨id, old, hget, hold⟩ | ⟨hnone, ⟨before, key, holder, held, hholder⟩ | ⟨-, e, hparent⟩⟩ :=
    found_cases hroot path
  · have holdKeys := hkeys id old hget hold
    have hfirst := merged_setMap htree hget hold holdKeys hnew hnewKeys hapart
    have hagain : (store.setMap id (Keyed.update old new)).map? v = some new :=
      (map?_setMap_of_ne (hapart.ne hnew hget)).trans hnew
    have htwice : Keyed.update (Keyed.override old new) new = Keyed.update old new := by
      rw [Keyed.update_eq_override (holdKeys.override hnewKeys) hnewKeys, Keyed.update_eq_override holdKeys hnewKeys,
        Keyed.override_override holdKeys.proper hnewKeys.proper hnewKeys.proper, Keyed.override_self hnewKeys]
    rw [run_mergeBoth_ok (merge_of_maps hget hold hnew), run_merge_ok (merge_of_maps hget hold hnew),
      run_merge_ok (merge_of_maps hfirst.place hfirst.entries hagain), setMap_setMap, htwice]
  · have hagain : (store.setMap holder (Keyed.put (.text key) v held)).map? v = some new :=
      (map?_setMap_of_ne (hapart.ne hnew hholder.leads)).trans hnew
    have hput := (merge_of_not_maps (.inl hnone)).trans (replace_of_holder hholder v)
    rw [run_mergeBoth_ok hput, run_merge_ok hput,
      run_merge_ok (merge_of_maps (hholder.get?_put htree v) hagain hagain),
      Keyed.update_eq_override hnewKeys hnewKeys, Keyed.override_self hnewKeys, setMap_eq_self hagain]
  · have hstop := (merge_of_not_maps (.inl hnone)).trans (replace_of_no_holder hparent v)
    rw [run_mergeBoth_error hstop, run_merge_error hstop]

/-! ## Values that are brought in -/

/-- What is reached from unchanged values is separate if it was. -/
theorem Separate.of_unchanged (h : store.Separate v w) (hv : Unchanged store s v) (hw : Unchanged store s w) :
    s.Separate v w := by
  intro way way' id entries hway hway' hmap
  rw [hv.reach_eq] at hway
  rw [hw.reach_eq] at hway'
  exact h way way' id entries hway hway' ((map?_congr (hv way id hway)).symm.trans hmap)

theorem Separate.symm (h : store.Separate v w) : store.Separate w v := fun way way' id entries hway hway' =>
  h way' way id entries hway' hway

theorem UnsharedAt.of_unchanged (h : store.UnsharedAt v) (hv : Unchanged store s v) : s.UnsharedAt v := by
  intro way way' id entries hway hway' hmap
  rw [hv.reach_eq] at hway hway'
  exact h way way' id entries hway hway' ((map?_congr (hv way id hway)).symm.trans hmap)

/-- A value that is brought in is a tree. -/
theorem unsharedAt_add (store : Store) (m : MetaValue) : (store.add m).2.UnsharedAt (store.add m).1 := by
  intro way way' id entries hway hway' _
  exact ((MetaValue.sown_plant m store.cells).once _ (.refl _) 0 0 _ _ way way' id rfl rfl hway hway').2

/-- A value that is brought in is separate from what was there. -/
theorem Sound.separate_add (h : store.Sound) (m : MetaValue) (hid : id.index < store.cells.size) :
    (store.add m).2.Separate (store.add m).1 id := by
  intro way way' found entries hway hway' _
  have hnew := (MetaValue.sown_plant m store.cells).within _ (.refl _) _ (List.mem_singleton.mpr rfl) way found hway
  rw [(h.unchanged (kept_add store m) hid).reach_eq] at hway'
  have hold := h.reach_lt hid hway'
  omega

/-- The keys of a map that is brought in are distinct. -/
theorem distinct_add {m : MetaValue} (hm : m.Distinct) (hnew : (store.add m).2.map? (store.add m).1 = some new) :
    new.Distinct := by
  have hlast : ∀ cell, (m.plant store.cells).2[(m.plant store.cells).1.index]? = some cell →
      ∀ entries, cell = .map entries → entries.Distinct := by
    cases hm with
    | @map entries keys _ =>
      intro cell hcell found heq
      have hpushed := Array.getElem?_push_size.symm.trans hcell
      obtain rfl := MetaCell.map.inj ((Option.some.inj hpushed).trans heq)
      exact Keyed.distinct_of_texts _ (MetaValue.keys_plantEntries entries store.cells) keys
    | list _ | bool _ | string _ | inlines _ | blocks _ =>
      rintro cell hcell found rfl
      have hpushed := Array.getElem?_push_size.symm.trans hcell
      cases hpushed
  exact hlast _ (map?_eq_some_iff.mp hnew) new rfl

/-- What a call is given is brought in without a change to the metadata. -/
theorem Sound.brought (h : store.Sound) {given : Given} (hcoerce : (Editing.coerce given).run store = (.ok v, s)) :
    s.root = store.root ∧ (∀ q, s.get? q = store.get? q) ∧ Unchanged store s store.root := by
  have hsame := (stocked_coerce given store).untouched
  rw [hcoerce] at hsame
  have hroot := h.unchanged hsame.cells h.root_lt
  refine ⟨hsame.root, fun q => ?_, hroot⟩
  rw [get?, get?, hsame.root]
  exact hroot.follow (pathKeys q)

/-- What becomes of plain data is apart from the metadata, and has distinct keys. -/
theorem Sound.brought_plain (h : store.Sound) {value : Plain}
    (hcoerce : (Editing.coerce (.plain value)).run store = (.ok v, s)) :
    s.Apart v ∧ ∀ new, s.map? v = some new → new.Distinct := by
  rw [Editing.run_coerce_plain] at hcoerce
  cases hvalue : MetaValue.ofValue value with
  | error e =>
    rw [hvalue] at hcoerce
    cases hcoerce
  | ok m =>
    rw [hvalue] at hcoerce
    cases hcoerce
    exact ⟨h.separate_add m h.root_lt, fun new => distinct_add (MetaValue.distinct_ofValue hvalue)⟩

/-- Merging into what is no map, or what is no map, is putting. -/
theorem Sound.run_merge_eq_replace (h : store.Sound) {given : Given}
    (hno : (∀ id, store.get? path = some id → store.map? id = none) ∨
      ∀ v s, (Editing.coerce given).run store = (.ok v, s) → s.map? v = none) :
    (Editing.merge path given).run store = (Editing.replace path given).run store := by
  rw [Editing.run_merge_given, Editing.run_replace_given]
  cases hcoerce : (Editing.coerce given).run store with
  | mk result s =>
    cases result with
    | error e => rfl
    | ok v =>
      dsimp only
      obtain ⟨-, hget, hroot⟩ := h.brought hcoerce
      have hno' : (∀ id, s.get? path = some id → s.map? id = none) ∨ s.map? v = none := by
        refine hno.imp (fun hthere id hid => ?_) fun hvalue => hvalue v s hcoerce
        rw [hget] at hid
        rw [(hroot.onward hid).map?]
        exact hthere id hid
      rw [Editing.run_merge, Editing.run_replace, merge_of_not_maps hno']

/-- Merging a block is merging the map that it is read as into the root. -/
theorem Sound.run_mergeText_eq (h : store.Sound) {text : String} {entries : List (String × MetaValue)}
    (hblock : MetaValue.ofBlock text = .ok (.map entries)) :
    (Editing.mergeText text).run store = (Editing.merge "" (.plain (.str text))).run store ∧
      (Editing.mergeText text).run store =
        (Editing.merge "" (.metadata (store.add (.map entries)).1)).run (store.add (.map entries)).2 := by
  have hread : MetaValue.mapOfBlock text = .ok (.map entries) := by
    rw [MetaValue.mapOfBlock, hblock]
    rfl
  have hcoerce : (Editing.coerce (.plain (.str text))).run store =
      (.ok (store.add (.map entries)).1, (store.add (.map entries)).2) := by
    rw [Editing.run_coerce_plain, MetaValue.ofValue, hblock]
  obtain ⟨old, hold⟩ := (h.add (.map entries)).1.root
  have hnew : (store.add (.map entries)).2.map? (store.add (.map entries)).1 =
      some (MetaValue.plantEntries entries store.cells).1 := map?_eq_some_iff.mpr Array.getElem?_push_size
  have hget : (store.add (.map entries)).2.get? "" = some (store.add (.map entries)).2.root := rfl
  have hmerge := run_merge_ok (merge_of_maps hget hold hnew)
  have htext : (Editing.mergeText text).run store =
      (Editing.merge "" (.metadata (store.add (.map entries)).1)).run (store.add (.map entries)).2 := by
    rw [hmerge, Editing.run_mergeText, hread]
    dsimp only
    rw [Store.mergeRoot, Store.entries, hold, hnew]
    rfl
  refine ⟨?_, htext⟩
  rw [htext, Editing.run_merge_given (.plain (.str text)), hcoerce]

/-- Merging what a call is given into the map at a path. -/
theorem Sound.run_merge_of_map (h : store.Sound) (htree : store.Unshared) {given : Given}
    (hcoerce : (Editing.coerce given).run store = (.ok v, s)) (hget : store.get? path = some id)
    (hold : store.map? id = some old) (holdKeys : old.Distinct) (hnew : s.map? v = some new)
    (hnewKeys : new.Distinct) (hapart : s.Apart v) :
    ∃ store', (Editing.merge path given).run store = (.ok (), store') ∧ Merged s path id old new store' := by
  obtain ⟨hsroot, hsget, hroot⟩ := h.brought hcoerce
  have hstree : s.Unshared := by
    have hthere : s.UnsharedAt store.root := UnsharedAt.of_unchanged htree hroot
    rwa [← hsroot] at hthere
  have hshere : s.get? path = some id := (hsget path).trans hget
  have hsold : s.map? id = some old := (hroot.onward hget).map?.trans hold
  refine ⟨_, ?_, merged_setMap hstree hshere hsold holdKeys hnew hnewKeys hapart⟩
  rw [Editing.run_merge_given, hcoerce]
  exact run_merge_ok (merge_of_maps hshere hsold hnew)

/-! ## The laws -/

/-- In sound metadata that is a tree, with distinct keys in the map at a path if there is one: what a call is given is
brought in without a change to the metadata, plain data as a value of its own.  Merging a map that is apart into the
map at the path leaves the same map there, with the old keys in their order and then the new ones, and changes no path
but those through a new key.  Merging two maps after one another comes to the same tree as merging the second one
written over the first; merging a map twice is merging it once.  Where there is no map at the path, or none is given,
merging is putting.  Merging a block is merging the map that it is read as into the root. -/
theorem merge_laws (h : store.Sound) (htree : store.Unshared) (path : String)
    (hkeys : ∀ id old, store.get? path = some id → store.map? id = some old → old.Distinct) :
    (∀ given v s, (Editing.coerce given).run store = (.ok v, s) →
      (∀ q, s.get? q = store.get? q) ∧ Unchanged store s store.root ∧
      (∀ value, given = .plain value → s.Apart v ∧ ∀ new, s.map? v = some new → new.Distinct) ∧
      ∀ id old new, store.get? path = some id → store.map? id = some old → s.map? v = some new → new.Distinct →
        s.Apart v → ∃ store', (Editing.merge path given).run store = (.ok (), store') ∧
          Merged s path id old new store') ∧
    (∀ v₁ v₂ v new₁ new₂, store.Mergeable v₁ v₂ v new₁ new₂ →
      SameOutcome ((mergeBoth path v₁ v₂).run store) ((Editing.merge path (.metadata v)).run store)) ∧
    (∀ v new, store.map? v = some new → new.Distinct → store.Apart v →
      (mergeBoth path v v).run store = (Editing.merge path (.metadata v)).run store) ∧
    (∀ given, ((∀ id, store.get? path = some id → store.map? id = none) ∨
        ∀ v s, (Editing.coerce given).run store = (.ok v, s) → s.map? v = none) →
      (Editing.merge path given).run store = (Editing.replace path given).run store) ∧
    ∀ text entries, MetaValue.ofBlock text = .ok (.map entries) →
      (Editing.mergeText text).run store = (Editing.merge "" (.plain (.str text))).run store ∧
      (Editing.mergeText text).run store =
        (Editing.merge "" (.metadata (store.add (.map entries)).1)).run (store.add (.map entries)).2 := by
  obtain ⟨entries, hroot⟩ := h.root
  refine ⟨fun given v s hcoerce => ?_, fun v₁ v₂ v new₁ new₂ => merge_merge hroot htree hkeys,
    fun v new hnew hnewKeys hapart => merge_twice hroot htree hkeys hnew hnewKeys hapart,
    fun given => h.run_merge_eq_replace, fun text entries => h.run_mergeText_eq⟩
  obtain ⟨-, hsget, hsroot⟩ := h.brought hcoerce
  refine ⟨hsget, hsroot, ?_, fun id old new hget hold hnew hnewKeys hapart =>
    h.run_merge_of_map htree hcoerce hget hold (hkeys id old hget hold) hnew hnewKeys hapart⟩
  rintro value rfl
  exact h.brought_plain hcoerce

/-! ## Maps that are to be merged -/

/-- A store with one more cell. -/
def withCell (store : Store) (cell : MetaCell) : Store := { store with cells := store.cells.push cell }

theorem Sound.unchanged_withCell (h : store.Sound) (cell : MetaCell) (hid : id.index < store.cells.size) :
    Unchanged store (store.withCell cell) id := h.unchanged (MetaValue.kept_push store.cells cell) hid

theorem Sound.sound_withCell (h : store.Sound) {cell : MetaCell}
    (hcell : ∀ part ∈ cell.parts, part.index < store.cells.size) : (store.withCell cell).Sound where
  root := by
    obtain ⟨entries, hroot⟩ := h.root
    exact ⟨entries, (h.unchanged_withCell cell h.root_lt).map?.trans hroot⟩
  closed := h.closed.push hcell

/-- A new map of values of two others that are apart is apart. -/
theorem Sound.apart_withCell (h : store.Sound) (hfirst : store.map? v₁ = some new₁)
    (hsecond : store.map? v₂ = some new₂) (hapart₁ : store.Apart v₁) (hapart₂ : store.Apart v₂) :
    (store.withCell (.map (Keyed.override new₁ new₂))).Apart ⟨store.cells.size⟩ := by
  intro way way' id entries hway hway' hmap
  have hroot := h.unchanged_withCell (.map (Keyed.override new₁ new₂)) h.root_lt
  replace hway' : store.reach store.root way' = some id := (hroot.reach_eq way').symm.trans hway'
  have hparts : partsIn (store.withCell (.map (Keyed.override new₁ new₂))).cells ⟨store.cells.size⟩ =
      (Keyed.override new₁ new₂).map (·.2) := by
    simp [partsIn, withCell, MetaCell.parts]
  cases way with
  | nil =>
    cases hway
    exact absurd (h.reach_lt h.root_lt hway') (Nat.lt_irrefl _)
  | cons i rest =>
    rw [reach, reachIn, hparts] at hway
    obtain ⟨part, hpart, hrest⟩ := Option.bind_eq_some_iff.mp hway
    obtain ⟨entry, hentry, rfl⟩ := List.mem_map.mp (List.mem_of_getElem? hpart)
    have hno : ∀ (v : MetaId) (new : Keyed MetaId), store.map? v = some new → store.Apart v →
        (∃ one ∈ new, one.2 = entry.2) → False := by
      rintro v new hnew hapart ⟨one, hone, heq⟩
      have hsame := h.unchanged_withCell (.map (Keyed.override new₁ new₂)) (h.entry_lt hnew one hone)
      obtain ⟨j, hj⟩ := @reach_part store v v [] _ rfl (map?_eq_some_iff.mp hnew) one.2 (List.mem_map_of_mem hone)
      rw [← heq] at hrest
      have hin : store.reach one.2 rest = some id := (hsame.reach_eq rest).symm.trans hrest
      refine hapart ([j] ++ rest) way' id entries ?_ hway' ((map?_congr (hsame rest id hin)).symm.trans hmap)
      rw [reach, reachIn_append, ← reach, show store.reach v [j] = some one.2 from hj]
      exact hin
    obtain hone | hone := Keyed.mem_of_mem_override hentry
    · exact hno v₁ new₁ hfirst hapart₁ hone
    · exact hno v₂ new₂ hsecond hapart₂ hone

/-- Two maps that are apart from the metadata and from each other, with the new map of both. -/
theorem Sound.mergeable_withCell (h : store.Sound) (hfirst : store.map? v₁ = some new₁)
    (hsecond : store.map? v₂ = some new₂) (hkeys₁ : new₁.Distinct) (hkeys₂ : new₂.Distinct)
    (htree : store.UnsharedAt v₁) (hseparate : store.Separate v₁ v₂) (hapart₁ : store.Apart v₁)
    (hapart₂ : store.Apart v₂) :
    (store.withCell (.map (Keyed.override new₁ new₂))).Mergeable v₁ v₂ ⟨store.cells.size⟩ new₁ new₂ := by
  have hsame := fun (v : MetaId) (hv : v.index < store.cells.size) =>
    h.unchanged_withCell (.map (Keyed.override new₁ new₂)) hv
  have hsame₁ := hsame v₁ (lt_size_of_map? hfirst)
  have hsame₂ := hsame v₂ (lt_size_of_map? hsecond)
  have hroot := hsame store.root h.root_lt
  exact ⟨hsame₁.map?.trans hfirst, hsame₂.map?.trans hsecond, map?_eq_some_iff.mpr Array.getElem?_push_size, hkeys₁,
    hkeys₂, htree.of_unchanged hsame₁, hseparate.of_unchanged hsame₁ hsame₂, Separate.of_unchanged hapart₁ hsame₁ hroot,
    Separate.of_unchanged hapart₂ hsame₂ hroot, h.apart_withCell hfirst hsecond hapart₁ hapart₂⟩

/-- The options of a report. -/
def options : Store :=
  ofEntries [("title", .string "Report"), ("opts", .map [("from", .string "markdown"), ("toc", .bool true)])]

/-- The same with other options brought in. -/
def withDepth : MetaId × Store :=
  options.add (.map [("toc", .map [("depth", .string "2")]), ("lang", .string "en")])

/-- The same with more options brought in. -/
def withDraft : MetaId × Store := withDepth.2.add (.map [("lang", .string "fr"), ("draft", .bool true)])

/-- The same with a new map of the options that were brought in. -/
def withOptions : Store := withDraft.2.withCell (.map (Keyed.override
  [(.text "toc", ⟨6⟩), (.text "lang", ⟨7⟩)] [(.text "lang", ⟨9⟩), (.text "draft", ⟨10⟩)]))

theorem mergeable_withOptions : withOptions.Sound ∧ withOptions.Unshared ∧
    withOptions.Mergeable ⟨8⟩ ⟨11⟩ ⟨12⟩ [(.text "toc", ⟨6⟩), (.text "lang", ⟨7⟩)]
      [(.text "lang", ⟨9⟩), (.text "draft", ⟨10⟩)] := by
  have hstart : options.Sound := sound_ofEntries _
  obtain ⟨hfirst, hin⟩ : withDepth.2.Sound ∧ withDepth.1.index < withDepth.2.cells.size := hstart.add _
  have hsecond : withDraft.2.Sound := (hfirst.add _).1
  have hsame : ∀ {id : MetaId}, id.index < withDepth.2.cells.size → Unchanged withDepth.2 withDraft.2 id :=
    hfirst.unchanged (kept_add withDepth.2 _)
  have hone : withDraft.2.map? ⟨8⟩ = some [(.text "toc", ⟨6⟩), (.text "lang", ⟨7⟩)] := rfl
  have htwo : withDraft.2.map? ⟨11⟩ = some [(.text "lang", ⟨9⟩), (.text "draft", ⟨10⟩)] := rfl
  have htree : withDepth.2.Unshared := (unshared_add _ _).1
  have hcells : ∀ part ∈ (MetaCell.map (Keyed.override [(.text "toc", (⟨6⟩ : MetaId)), (.text "lang", ⟨7⟩)]
      [(.text "lang", ⟨9⟩), (.text "draft", ⟨10⟩)])).parts, part.index < withDraft.2.cells.size := by decide
  refine ⟨hsecond.sound_withCell hcells, ?_, hsecond.mergeable_withCell hone htwo ?_ ?_ ?_ ?_ ?_ ?_⟩
  · exact UnsharedAt.of_unchanged (UnsharedAt.of_unchanged htree (hsame hfirst.root_lt))
      (hsecond.unchanged_withCell _ hsecond.root_lt)
  · exact Keyed.distinct_of_texts ["toc", "lang"] rfl (by decide)
  · exact Keyed.distinct_of_texts ["lang", "draft"] rfl (by decide)
  · exact (unsharedAt_add options _).of_unchanged (hsame hin)
  · exact (hfirst.separate_add _ hin).symm
  · exact Separate.of_unchanged (hstart.separate_add _ hstart.root_lt) (hsame hin) (hsame hfirst.root_lt)
  · exact hfirst.separate_add _ hfirst.root_lt

/-- The table of contents is replaced as a whole and the language added, and what there was before stays.  Both maps
of options come to the same as the new map, and a truth value is put over the title. -/
theorem merge_laws_withOptions :
    (∃ store', (Editing.merge "opts" (.metadata ⟨8⟩)).run withOptions = (.ok (), store') ∧
      store'.map? ⟨3⟩ = some [(.text "from", ⟨1⟩), (.text "toc", ⟨6⟩), (.text "lang", ⟨7⟩)] ∧
      store'.get? "opts.toc.depth" = some ⟨5⟩ ∧ store'.get? "title" = some ⟨0⟩) ∧
    SameOutcome ((mergeBoth "opts" ⟨8⟩ ⟨11⟩).run withOptions)
      ((Editing.merge "opts" (.metadata ⟨12⟩)).run withOptions) ∧
    (Editing.merge "title" (.plain (.bool true))).run withOptions =
      (Editing.replace "title" (.plain (.bool true))).run withOptions := by
  obtain ⟨hsound, htree, hboth⟩ := mergeable_withOptions
  have hmap : withOptions.map? ⟨3⟩ = some [(.text "from", ⟨1⟩), (.text "toc", ⟨2⟩)] := rfl
  have hget : withOptions.get? "opts" = some ⟨3⟩ := rfl
  have hkeys : ∀ id old, withOptions.get? "opts" = some id → withOptions.map? id = some old → old.Distinct := by
    rintro id old hid hold
    rw [hget] at hid
    cases hid
    rw [hmap] at hold
    cases hold
    exact Keyed.distinct_of_texts ["from", "toc"] rfl (by decide)
  obtain ⟨hone, htwo, -, -⟩ := merge_laws hsound htree "opts" hkeys
  refine ⟨?_, htwo _ _ _ _ _ hboth, ?_⟩
  · obtain ⟨store', hrun, hmerged⟩ := (hone (.metadata ⟨8⟩) ⟨8⟩ withOptions rfl).2.2.2 _ _ _ hget hmap hboth.first
      hboth.firstKeys hboth.firstApart
    refine ⟨store', hrun, hmerged.entries, ?_, ?_⟩
    · exact (hmerged.through "opts.toc.depth" "toc" ["depth"] ⟨6⟩ rfl rfl).trans rfl
    · refine (hmerged.elsewhere "title" ?_).trans rfl
      rintro ⟨key, rest, value, hq, -⟩
      exact absurd (List.cons.inj hq).1 (by decide)
  · refine (merge_laws hsound htree "title" ?_).2.2.2.1 _ (.inl ?_)
    · rintro id old hid hold
      cases (show withOptions.get? "title" = some ⟨0⟩ from rfl).symm.trans hid
      cases hold
    · rintro id hid
      cases (show withOptions.get? "title" = some ⟨0⟩ from rfl).symm.trans hid
      rfl

end Store

end DocFilter
