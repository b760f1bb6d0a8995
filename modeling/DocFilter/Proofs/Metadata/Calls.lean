import DocFilter.Metadata.Call
import DocFilter.Proofs.Metadata.PathEdits

/-!
# What calls do to metadata

A call that is given a value of the store comes to the edit of its name, and where the edit is refused nothing has
been done.  A call that is given plain data brings in its value first.

* `Editing.run_coerce_plain` says what becomes of plain data, `MetaCall.run_replace`, `MetaCall.run_merge`,
  `MetaCall.run_delete`, `MetaCall.run_remove` and `MetaCall.run_mergeText` say what each call does.
* `Store.Does` is what a call can do, and `Store.untouched_of_error` what it leaves when it stops.
* `Store.Sound` is what all metadata has: the root is a map, and what a cell refers to is a cell.
  `Store.Sound.run` says that a call keeps it, `Store.Edits.sound` that any calls after one another do.
-/

namespace DocFilter

open MetaValue (Kept)

/-! ## Calls as edits -/

namespace Editing

variable {ε α β : Type} {path : String}

theorem run_bind (x : Editing α) (f : α → Editing β) (store : Store) :
    (x >>= f).run store = match x.run store with
      | (.ok a, store) => (f a).run store
      | (.error e, store) => (.error e, store) := by
  cases h : x.run.run store with
  | mk result store' =>
    have h' : x.run store = (result, store') := h
    show (ExceptT.run (x >>= f)).run store = _
    rw [ExceptT.run_bind, StateT.run_bind, h, h']
    cases result <;> rfl

theorem run_pure (a : α) (store : Store) : (pure a : Editing α).run store = (.ok a, store) := rfl

theorem run_get (store : Store) : (get : Editing Store).run store = (.ok store, store) := rfl

theorem run_ofResult_bind (wrap : ε → Failure) (x : Except ε α) (f : α → Editing β) (store : Store) :
    (ofResult wrap x >>= f).run store = match x with
      | .ok a => (f a).run store
      | .error e => (.error (wrap e), store) := by
  rw [run_bind]
  cases x <;> rfl

theorem run_change (id : MetaId) (f : Keyed MetaId → Keyed MetaId) (store : Store) :
    (change id f).run store = (.ok (), store.setMap id (f ((store.map? id).getD []))) := rfl

theorem run_coerce_metadata (id : MetaId) (store : Store) :
    (coerce (.metadata id)).run store = (.ok id, store) := rfl

/-- Plain data is brought in, if it can be read as metadata. -/
theorem run_coerce_plain (value : Plain) (store : Store) :
    (coerce (.plain value)).run store = match MetaValue.ofValue value with
      | .ok m => (.ok (store.add m).1, (store.add m).2)
      | .error e => (.error (.codec e), store) := by
  rw [coerce, run_ofResult_bind]
  cases MetaValue.ofValue value <;> rfl

/-- A call that puts a value of the store at a path. -/
theorem run_replace (v : MetaId) (store : Store) :
    (replace path (.metadata v)).run store = match store.replace path v with
      | .ok store' => (.ok (), store')
      | .error e => (.error (.store e), store) := by
  rw [replace, run_bind, run_coerce_metadata]
  dsimp only
  rw [run_bind, run_get]
  dsimp only
  rw [run_ofResult_bind, Store.replace]
  cases store.parent path with
  | error e => rfl
  | ok found =>
    cases found with
    | none =>
      dsimp only
      cases store.map? v with
      | none => rfl
      | some entries => rfl
    | some place => rfl

/-- A call that merges a value of the store into what is at a path. -/
theorem run_merge (v : MetaId) (store : Store) :
    (merge path (.metadata v)).run store = match store.merge path v with
      | .ok store' => (.ok (), store')
      | .error e => (.error (.store e), store) := by
  rw [merge, run_bind, run_coerce_metadata]
  dsimp only
  rw [run_bind, run_get, Store.merge]
  dsimp only
  cases hthere : (store.get? path).bind fun id => (store.map? id).map (id, ·) with
  | none => exact run_replace v store
  | some there =>
    cases store.map? v with
    | none => exact run_replace v store
    | some new =>
      obtain ⟨id, -, hid⟩ := Option.bind_eq_some_iff.mp hthere
      obtain ⟨entries, hmap, rfl⟩ := Option.map_eq_some_iff.mp hid
      dsimp only
      rw [run_change, hmap]
      rfl

/-- Taking out comes to an answer: where there is a value at a path, there is a map that holds it. -/
theorem run_delete (store : Store) :
    (delete path).run store = (.ok (store.delete path).1, (store.delete path).2) := by
  rw [delete, run_bind, run_get]
  dsimp only
  by_cases hpath : path = ""
  · subst hpath
    rfl
  cases hget : store.get? path with
  | none =>
    rw [if_pos (by simp [Store.has, hget]), run_pure, Store.delete, hget]
  | some v =>
    rw [if_neg (by simp [Store.has, hget, hpath])]
    obtain ⟨before, key, holder, entries, hholder, hfind⟩ := Store.exists_holder hpath hget
    rw [run_ofResult_bind, hholder.parent_eq, hholder.delete_eq hget]
    simp only [hholder.map, Option.bind_some, hfind]
    rw [run_bind, run_change, hholder.map]
    rfl

theorem run_remove (store : Store) :
    (remove path).run store = match store.remove path with
      | .ok store' => (.ok (), store')
      | .error e => (.error (.store e), store) := by
  rw [remove, run_bind, run_delete, Store.remove]
  cases hdelete : store.delete path with
  | mk taken left =>
    cases taken with
    | some v => rfl
    | none =>
      have hleft : left = store := by
        rw [Store.delete] at hdelete
        split at hdelete
        · cases hdelete
        · exact (Prod.mk.inj hdelete).2.symm
      subst hleft
      rfl

theorem run_mergeText (text : String) (store : Store) :
    (mergeText text).run store = match MetaValue.mapOfBlock text with
      | .ok m => (.ok (), (store.add m).2.mergeRoot (store.add m).1)
      | .error e => (.error (.codec e), store) := by
  rw [mergeText, run_ofResult_bind]
  cases MetaValue.mapOfBlock text <;> rfl

/-- A call that is given a value does what it does with what becomes of the value. -/
theorem run_replace_given (given : Given) (store : Store) :
    (replace path given).run store = match (coerce given).run store with
      | (.ok v, store) => (replace path (.metadata v)).run store
      | (.error e, store) => (.error e, store) := by
  rw [replace, run_bind]
  cases (coerce given).run store with
  | mk result store => cases result <;> rfl

theorem run_merge_given (given : Given) (store : Store) :
    (merge path given).run store = match (coerce given).run store with
      | (.ok v, store) => (merge path (.metadata v)).run store
      | (.error e, store) => (.error e, store) := by
  rw [merge, run_bind]
  cases (coerce given).run store with
  | mk result store => cases result <;> rfl

end Editing

namespace MetaCall

variable {store s : Store} {given : Given} {v : MetaId} {e : Failure}

theorem run_replace (h : (Editing.coerce given).run store = (.ok v, s)) (path : String) :
    (replace path given).run store = match s.replace path v with
      | .ok s' => (.ok none, s')
      | .error e => (.error (.store e), s) := by
  rw [run, steps, Editing.run_bind, Editing.run_replace_given, h]
  dsimp only
  rw [Editing.run_replace]
  cases s.replace path v <;> rfl

theorem run_merge (h : (Editing.coerce given).run store = (.ok v, s)) (path : String) :
    (merge path given).run store = match s.merge path v with
      | .ok s' => (.ok none, s')
      | .error e => (.error (.store e), s) := by
  rw [run, steps, Editing.run_bind, Editing.run_merge_given, h]
  dsimp only
  rw [Editing.run_merge]
  cases s.merge path v <;> rfl

/-- A call whose value cannot be read stops with it. -/
theorem run_of_coerce_error (h : (Editing.coerce given).run store = (.error e, s)) (path : String) :
    (replace path given).run store = (.error e, s) ∧ (merge path given).run store = (.error e, s) := by
  constructor
  · rw [run, steps, Editing.run_bind, Editing.run_replace_given, h]
  · rw [run, steps, Editing.run_bind, Editing.run_merge_given, h]

theorem run_delete (store : Store) (path : String) :
    (delete path).run store = (.ok (store.delete path).1, (store.delete path).2) := Editing.run_delete store

theorem run_remove (store : Store) (path : String) :
    (remove path).run store = match store.remove path with
      | .ok s' => (.ok none, s')
      | .error e => (.error (.store e), store) := by
  rw [run, steps, Editing.run_bind, Editing.run_remove]
  cases store.remove path <;> rfl

theorem run_mergeText (store : Store) (text : String) :
    (mergeText text).run store = match MetaValue.mapOfBlock text with
      | .ok m => (.ok none, (store.add m).2.mergeRoot (store.add m).1)
      | .error e => (.error (.codec e), store) := by
  rw [run, steps, Editing.run_bind, Editing.run_mergeText]
  cases MetaValue.mapOfBlock text <;> rfl

end MetaCall

/-! ## Cells that refer to cells -/

namespace Keyed

variable {α : Type} {key : MetaKey} {value : α} {entries new : Keyed α} {entry : MetaKey × α}

/-- What stands under a key after writing is the value written or stood there before. -/
theorem mem_of_mem_put (h : entry ∈ put key value entries) :
    entry.2 = value ∨ ∃ old ∈ entries, old.2 = entry.2 := by
  induction entries with
  | nil =>
    obtain rfl := List.mem_singleton.mp h
    exact .inl rfl
  | cons first entries ih =>
    rw [put] at h
    split at h
    · obtain rfl | h := List.mem_cons.mp h
      · exact .inl rfl
      · exact .inr ⟨entry, List.mem_cons_of_mem _ h, rfl⟩
    · obtain rfl | h := List.mem_cons.mp h
      · exact .inr ⟨_, List.mem_cons_self, rfl⟩
      · obtain hvalue | ⟨old, hold, heq⟩ := ih h
        · exact .inl hvalue
        · exact .inr ⟨old, List.mem_cons_of_mem _ hold, heq⟩

theorem mem_of_mem_update (h : entry ∈ update entries new) :
    (∃ old ∈ entries, old.2 = entry.2) ∨ ∃ added ∈ new, added.2 = entry.2 := by
  rw [update] at h
  induction new generalizing entries with
  | nil => exact .inl ⟨entry, h, rfl⟩
  | cons first new ih =>
    obtain ⟨old, hold, heq⟩ | ⟨added, hadded, heq⟩ := ih h
    · obtain hvalue | ⟨older, holder, heq'⟩ := mem_of_mem_put hold
      · exact .inr ⟨first, List.mem_cons_self, hvalue.symm.trans heq⟩
      · exact .inl ⟨older, holder, heq'.trans heq⟩
    · exact .inr ⟨added, List.mem_cons_of_mem _ hadded, heq⟩

end Keyed

namespace MetaValue

/-- What a cell refers to is a cell. -/
def Closed (cells : Array MetaCell) : Prop :=
  ∀ (i : Nat) cell, cells[i]? = some cell → ∀ part ∈ cell.parts, part.index < cells.size

variable {cells cells' : Array MetaCell}

theorem Closed.push (h : Closed cells) {cell : MetaCell} (hcell : ∀ part ∈ cell.parts, part.index < cells.size) :
    Closed (cells.push cell) := by
  intro i found hi part hpart
  rw [Array.size_push]
  rw [Array.getElem?_push] at hi
  split at hi
  · cases hi
    exact Nat.lt_succ_of_lt (hcell part hpart)
  · exact Nat.lt_succ_of_lt (h i found hi part hpart)

mutual

theorem closed_plant : ∀ (m : MetaValue) (cells : Array MetaCell), Closed cells →
    Closed (m.plant cells).2 ∧ (m.plant cells).1.index < (m.plant cells).2.size
  | map entries, cells, h => by
    obtain ⟨hclosed, hin⟩ := closed_plantEntries entries cells h
    exact ⟨hclosed.push hin, by simp [plant]⟩
  | list items, cells, h => by
    obtain ⟨hclosed, hin⟩ := closed_plantItems items cells h
    exact ⟨hclosed.push hin, by simp [plant]⟩
  | bool b, cells, h => ⟨h.push nofun, by simp [plant]⟩
  | string s, cells, h => ⟨h.push nofun, by simp [plant]⟩
  | inlines nodes, cells, h => ⟨h.push nofun, by simp [plant]⟩
  | blocks nodes, cells, h => ⟨h.push nofun, by simp [plant]⟩

theorem closed_plantItems : ∀ (items : List MetaValue) (cells : Array MetaCell), Closed cells →
    Closed (plantItems items cells).2 ∧
      ∀ id ∈ (plantItems items cells).1, id.index < (plantItems items cells).2.size
  | [], cells, h => ⟨h, nofun⟩
  | item :: items, cells, h => by
    obtain ⟨hfirst, hin⟩ := closed_plant item cells h
    obtain ⟨hrest, hins⟩ := closed_plantItems items _ hfirst
    have hsize := (planted_plantItems items (item.plant cells).2).kept.size_le
    exact ⟨hrest, List.forall_mem_cons.mpr ⟨Nat.lt_of_lt_of_le hin hsize, hins⟩⟩

theorem closed_plantEntries : ∀ (entries : List (String × MetaValue)) (cells : Array MetaCell), Closed cells →
    Closed (plantEntries entries cells).2 ∧
      ∀ id ∈ (plantEntries entries cells).1.map (·.2), id.index < (plantEntries entries cells).2.size
  | [], cells, h => ⟨h, nofun⟩
  | (key, value) :: entries, cells, h => by
    obtain ⟨hfirst, hin⟩ := closed_plant value cells h
    obtain ⟨hrest, hins⟩ := closed_plantEntries entries _ hfirst
    have hsize := (planted_plantEntries entries (value.plant cells).2).kept.size_le
    exact ⟨hrest, List.forall_mem_cons.mpr ⟨Nat.lt_of_lt_of_le hin hsize, hins⟩⟩

end

end MetaValue

namespace Store

variable {store store' last : Store} {path : String} {id other v : MetaId} {entries : Keyed MetaId}
  {way : List Nat} {keys : List String}

/-- What all metadata has: the root is a map, and what a cell refers to is a cell. -/
structure Sound (store : Store) : Prop where
  root : ∃ entries, store.map? store.root = some entries
  closed : MetaValue.Closed store.cells

theorem lt_size_of_map? (h : store.map? id = some entries) : id.index < store.cells.size :=
  (Array.getElem?_eq_some_iff.mp (map?_eq_some_iff.mp h)).1

theorem Sound.root_lt (h : store.Sound) : store.root.index < store.cells.size := by
  obtain ⟨entries, hroot⟩ := h.root
  exact lt_size_of_map? hroot

theorem Sound.entry_lt (h : store.Sound) (hmap : store.map? id = some entries) :
    ∀ entry ∈ entries, entry.2.index < store.cells.size := fun entry hentry =>
  h.closed _ _ (map?_eq_some_iff.mp hmap) entry.2 (List.mem_map_of_mem hentry)

/-- From a cell only cells are reached. -/
theorem Sound.reach_lt (h : store.Sound) (hid : id.index < store.cells.size)
    (hway : store.reach id way = some other) : other.index < store.cells.size := by
  induction way generalizing id with
  | nil =>
    cases hway
    exact hid
  | cons i way ih =>
    rw [reach, reachIn] at hway
    obtain ⟨next, hnext, hway⟩ := Option.bind_eq_some_iff.mp hway
    rw [partsIn, Array.getElem?_eq_getElem hid] at hnext
    exact ih (h.closed _ _ (Array.getElem?_eq_getElem hid) next (List.mem_of_getElem? hnext)) hway

/-- Bringing in cells changes nothing about what is in the metadata. -/
theorem Sound.unchanged (h : store.Sound) (hkept : Kept store.cells store'.cells)
    (hid : id.index < store.cells.size) : Unchanged store store' id := fun _ _ hway =>
  hkept.same _ (h.reach_lt hid hway)

theorem sound_ofEntries (entries : List (String × MetaValue)) : (ofEntries entries).Sound where
  root := ⟨_, map?_eq_some_iff.mpr Array.getElem?_push_size⟩
  closed := (MetaValue.closed_plant (.map entries) #[] (by intro i cell hi; simp at hi)).1

theorem kept_add (store : Store) (m : MetaValue) : Kept store.cells (store.add m).2.cells :=
  (MetaValue.planted_plant m store.cells).kept

theorem Sound.add (h : store.Sound) (m : MetaValue) :
    (store.add m).2.Sound ∧ (store.add m).1.index < (store.add m).2.cells.size := by
  obtain ⟨hclosed, hin⟩ := MetaValue.closed_plant m store.cells h.closed
  obtain ⟨entries, hroot⟩ := h.root
  refine ⟨⟨⟨entries, ?_⟩, hclosed⟩, hin⟩
  rw [← hroot]
  exact map?_congr ((kept_add store m).same _ h.root_lt)

theorem Sound.setMap (h : store.Sound) (hin : ∀ entry ∈ entries, entry.2.index < store.cells.size) (id : MetaId) :
    (store.setMap id entries).Sound where
  root := by
    obtain ⟨old, hroot⟩ := h.root
    by_cases heq : store.root = id
    · exact ⟨entries, heq ▸ map?_setMap_self hroot entries⟩
    · exact ⟨old, (map?_setMap_of_ne heq).trans hroot⟩
  closed := by
    intro i cell hi part hpart
    have hsize : (store.setMap id entries).cells.size = store.cells.size := Array.size_setIfInBounds
    rw [hsize]
    by_cases heq : id.index = i
    · rw [Store.setMap, Array.getElem?_setIfInBounds, if_pos heq] at hi
      split at hi
      · cases hi
        obtain ⟨entry, hentry, rfl⟩ := List.mem_map.mp hpart
        exact hin entry hentry
      · cases hi
    · rw [Store.setMap, Array.getElem?_setIfInBounds_ne heq] at hi
      exact h.closed i cell hi part hpart

/-! ## Calls on sound metadata -/

theorem Sound.replace (h : store.Sound) (hv : v.index < store.cells.size)
    (hreplace : store.replace path v = .ok store') : store'.Sound := by
  by_cases hpath : path = ""
  · subst hpath
    cases hmap : store.map? v with
    | none => simp [Store.replace, parent, pathKeys, bind, Except.bind, hmap] at hreplace
    | some entries =>
      obtain rfl : store.setMap store.root entries = store' := by
        simpa [Store.replace, parent, pathKeys, bind, Except.bind, hmap] using hreplace
      exact h.setMap (h.entry_lt hmap) _
  · obtain ⟨before, key, holder, entries, hholder, rfl⟩ := (replace_eq_ok_iff hpath).mp hreplace
    refine h.setMap (fun entry hentry => ?_) _
    obtain hvalue | ⟨old, hold, heq⟩ := Keyed.mem_of_mem_put hentry
    · rwa [hvalue]
    · rw [← heq]
      exact h.entry_lt hholder.map old hold

theorem Sound.update (h : store.Sound) {old new : Keyed MetaId} (hold : store.map? id = some old)
    (hnew : ∀ entry ∈ new, entry.2.index < store.cells.size) (other : MetaId) :
    (store.setMap other (Keyed.update old new)).Sound := by
  refine h.setMap (fun entry hentry => ?_) _
  obtain ⟨found, hfound, heq⟩ | ⟨found, hfound, heq⟩ := Keyed.mem_of_mem_update hentry
  · exact heq ▸ h.entry_lt hold found hfound
  · exact heq ▸ hnew found hfound

theorem Sound.merge (h : store.Sound) (hv : v.index < store.cells.size)
    (hmerge : store.merge path v = .ok store') : store'.Sound := by
  rw [Store.merge] at hmerge
  split at hmerge
  · rename_i there old new hthere hnew
    obtain ⟨found, -, hfound⟩ := Option.bind_eq_some_iff.mp hthere
    obtain ⟨entries, hmap, heq⟩ := Option.map_eq_some_iff.mp hfound
    cases heq
    cases hmerge
    exact h.update hmap (h.entry_lt hnew) _
  · exact h.replace hv hmerge

theorem Sound.delete (h : store.Sound) (path : String) : (store.delete path).2.Sound := by
  rw [Store.delete]
  split
  · rename_i id holder key hget hparent
    cases hmap : store.map? holder with
    | none => exact h.setMap (fun entry hentry => by cases hentry) _
    | some entries => exact h.setMap (fun entry hentry => h.entry_lt hmap entry (List.mem_filter.mp hentry).1) _
  · exact h

theorem Sound.remove (h : store.Sound) (hremove : store.remove path = .ok store') : store'.Sound := by
  have hdelete := h.delete path
  rw [Store.remove] at hremove
  split at hremove
  · rename_i heq
    cases hremove
    rwa [heq] at hdelete
  · cases hremove

theorem Sound.mergeRoot (h : store.Sound) (v : MetaId) : (store.mergeRoot v).Sound := by
  obtain ⟨entries, hroot⟩ := h.root
  rw [Store.mergeRoot, Store.entries, hroot]
  refine h.update hroot (fun entry hentry => ?_) _
  cases hmap : store.map? v with
  | none =>
    rw [hmap] at hentry
    cases hentry
  | some new =>
    rw [hmap] at hentry
    exact h.entry_lt hmap entry hentry

/-- The metadata is what it was: the root and all cells; others may have been added. -/
structure Untouched (store store' : Store) : Prop where
  root : store'.root = store.root
  cells : Kept store.cells store'.cells

/-- The store, or the store after a value was brought in that is not yet under any path. -/
inductive Stocked (store : Store) : Store → Prop
  | same : Stocked store store
  | more (m : MetaValue) : Stocked store (store.add m).2

theorem Stocked.untouched (h : Stocked store store') : Untouched store store' := by
  cases h with
  | same => exact ⟨rfl, .refl _⟩
  | more m => exact ⟨rfl, kept_add store m⟩

theorem Sound.stocked (h : store.Sound) (hstocked : Stocked store store') : store'.Sound := by
  cases hstocked with
  | same => exact h
  | more m => exact (h.add m).1

/-- A value that a call is given is one of the store. -/
def Holds (store : Store) : Given → Prop
  | .metadata id => id.index < store.cells.size
  | .plain _ => True

theorem stocked_coerce (given : Given) (store : Store) : Stocked store ((Editing.coerce given).run store).2 := by
  cases given with
  | metadata id => exact .same
  | plain value =>
    rw [Editing.run_coerce_plain]
    cases MetaValue.ofValue value with
    | ok m => exact .more m
    | error e => exact .same

theorem Sound.coerce (h : store.Sound) {given : Given} (hin : store.Holds given)
    (hrun : (Editing.coerce given).run store = (.ok v, store')) :
    store'.Sound ∧ v.index < store'.cells.size := by
  cases given with
  | metadata id =>
    cases hrun
    exact ⟨h, hin⟩
  | plain value =>
    rw [Editing.run_coerce_plain] at hrun
    split at hrun
    · cases hrun
      exact h.add _
    · cases hrun

/-- What a call can do: it stops before anything is written, or it comes to its edit. -/
inductive Does (store : Store) : MetaCall → Except Failure (Option MetaId) → Store → Prop
  | stopped {call : MetaCall} {s : Store} (e : Failure) (stocked : Stocked store s) : Does store call (.error e) s
  | replaced {path : String} {given : Given} {v : MetaId} {s s' : Store}
      (coerced : (Editing.coerce given).run store = (.ok v, s)) (edit : s.replace path v = .ok s') :
      Does store (.replace path given) (.ok none) s'
  | merged {path : String} {given : Given} {v : MetaId} {s s' : Store}
      (coerced : (Editing.coerce given).run store = (.ok v, s)) (edit : s.merge path v = .ok s') :
      Does store (.merge path given) (.ok none) s'
  | deleted (path : String) : Does store (.delete path) (.ok (store.delete path).1) (store.delete path).2
  | removed {path : String} {s' : Store} (edit : store.remove path = .ok s') :
      Does store (.remove path) (.ok none) s'
  | mergedText {text : String} {m : MetaValue} (read : MetaValue.mapOfBlock text = .ok m) :
      Does store (.mergeText text) (.ok none) ((store.add m).2.mergeRoot (store.add m).1)

theorem does_run (store : Store) (call : MetaCall) : Does store call (call.run store).1 (call.run store).2 := by
  cases call with
  | replace path given =>
    have hstocked := stocked_coerce given store
    cases hcoerce : (Editing.coerce given).run store with
    | mk result s =>
      rw [hcoerce] at hstocked
      cases result with
      | error e =>
        rw [(MetaCall.run_of_coerce_error hcoerce path).1]
        exact .stopped e hstocked
      | ok v =>
        rw [MetaCall.run_replace hcoerce]
        cases hedit : s.replace path v with
        | error e => exact .stopped _ hstocked
        | ok s' => exact .replaced hcoerce hedit
  | merge path given =>
    have hstocked := stocked_coerce given store
    cases hcoerce : (Editing.coerce given).run store with
    | mk result s =>
      rw [hcoerce] at hstocked
      cases result with
      | error e =>
        rw [(MetaCall.run_of_coerce_error hcoerce path).2]
        exact .stopped e hstocked
      | ok v =>
        rw [MetaCall.run_merge hcoerce]
        cases hedit : s.merge path v with
        | error e => exact .stopped _ hstocked
        | ok s' => exact .merged hcoerce hedit
  | delete path =>
    rw [MetaCall.run_delete]
    exact .deleted path
  | remove path =>
    rw [MetaCall.run_remove]
    cases hedit : store.remove path with
    | error e => exact .stopped _ .same
    | ok s' => exact .removed hedit
  | mergeText text =>
    rw [MetaCall.run_mergeText]
    cases hread : MetaValue.mapOfBlock text with
    | error e => exact .stopped _ .same
    | ok m => exact .mergedText hread

/-- A call that stops leaves the metadata as it was. -/
theorem untouched_of_error {call : MetaCall} {e : Failure} (h : (call.run store).1 = .error e) :
    Untouched store (call.run store).2 := by
  have hdoes := does_run store call
  rw [h] at hdoes
  cases hdoes with
  | stopped _ stocked => exact stocked.untouched

/-- What a call is given is of the store. -/
def HoldsFor (store : Store) : MetaCall → Prop
  | .replace _ given | .merge _ given => store.Holds given
  | _ => True

/-- A call leaves sound metadata sound, whether it stops or not. -/
theorem Sound.run (h : store.Sound) {call : MetaCall} (hin : store.HoldsFor call) :
    (call.run store).2.Sound := by
  have hdoes := does_run store call
  generalize (call.run store).1 = answer at hdoes
  generalize (call.run store).2 = left at hdoes ⊢
  cases hdoes with
  | stopped _ stocked => exact h.stocked stocked
  | replaced coerced edit =>
    obtain ⟨hs, hv⟩ := h.coerce hin coerced
    exact hs.replace hv edit
  | merged coerced edit =>
    obtain ⟨hs, hv⟩ := h.coerce hin coerced
    exact hs.merge hv edit
  | deleted path => exact h.delete path
  | removed edit => exact h.remove edit
  | mergedText read => exact (h.add _).1.mergeRoot _

/-- Calls one after the other, each of them given what the store holds by then. -/
inductive Edits : Store → Store → Prop
  | done (store : Store) : Edits store store
  | call {store last : Store} (call : MetaCall) (given : store.HoldsFor call)
      (rest : Edits (call.run store).2 last) : Edits store last

theorem Edits.sound (h : Edits store last) (hstore : store.Sound) : last.Sound := by
  induction h with
  | done => exact hstore
  | call call given _ ih => exact ih (hstore.run given)

end Store

end DocFilter
