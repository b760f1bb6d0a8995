import DocFilter.Proofs.Metadata.Ways

/-!
# Edits at a path

A value that is put at a path is found there, what is in it is found behind it, and every other path leads to
what it led to before; taking the value out again leaves the metadata as it was.

* `Store.Holder` is the map that holds the last key of a path.  `Store.replace_eq_ok_iff` and
  `Store.Holder.delete_eq` say what the edits do to it.
* `Store.Holder.follow_other`, `Store.Holder.follow_behind` and `Store.Holder.unchanged` say what an edit of the
  holder does to paths and values.
* `Store.EditedAt` collects what any edit at a path leaves alone, and `Store.replace_delete_at` is the result
  on putting a value at a path and taking it out.
-/

namespace DocFilter.Store

variable {store store' : Store} {path key : String} {id holder v : MetaId} {keys before : List String}
  {entries entries' : Keyed MetaId}

/-! ## The holder of a path -/

/-- The map that holds the last key of a path. -/
structure Holder (store : Store) (path : String) (before : List String) (key : String) (holder : MetaId)
    (entries : Keyed MetaId) : Prop where
  keys : pathKeys path = before ++ [key]
  leads : store.follow store.root before = some holder
  map : store.map? holder = some entries

theorem parentFrom_eq_ok_iff {passed : List String} {found : MetaId × String} :
    store.parentFrom path passed id key keys = .ok found ↔ ∃ before entries,
      key :: keys = before ++ [found.2] ∧ store.follow id before = some found.1 ∧
        store.map? found.1 = some entries := by
  induction keys generalizing id key passed with
  | nil =>
    rw [parentFrom]
    constructor
    · intro h
      split at h
      · rename_i hmap
        cases h
        obtain ⟨entries, hmap⟩ := Option.isSome_iff_exists.mp hmap
        exact ⟨[], entries, rfl, rfl, hmap⟩
      · cases h
    · rintro ⟨before, entries, hkeys, hleads, hmap⟩
      obtain ⟨rfl, rfl⟩ : before = [] ∧ key = found.2 := by
        cases before with
        | nil => simpa using hkeys
        | cons _ before => simp at hkeys
      cases hleads
      rw [if_pos (by rw [hmap]; rfl)]
  | cons next keys ih =>
    rw [parentFrom]
    constructor
    · intro h
      split at h
      · rename_i child hchild
        obtain ⟨here, hhere, hfind⟩ := Option.bind_eq_some_iff.mp hchild
        obtain ⟨before, entries, hkeys, hleads, hmap⟩ := ih.mp h
        refine ⟨key :: before, entries, by rw [hkeys]; rfl, ?_, hmap⟩
        rw [follow_cons_of_map hhere, hfind]
        exact hleads
      · cases h
    · rintro ⟨before, entries, hkeys, hleads, hmap⟩
      cases before with
      | nil => simp at hkeys
      | cons first before =>
        rw [List.cons_append, List.cons.injEq] at hkeys
        obtain ⟨rfl, hkeys⟩ := hkeys
        rw [follow_cons] at hleads
        obtain ⟨here, hhere, hleads⟩ := Option.bind_eq_some_iff.mp hleads
        obtain ⟨child, hfind, hleads⟩ := Option.bind_eq_some_iff.mp hleads
        have hchild : (store.map? id).bind (Keyed.find? (.text key)) = some child := by
          rw [hhere]
          exact hfind
        rw [hchild]
        exact ih.mpr ⟨before, entries, hkeys, hleads, hmap⟩

theorem parent_eq_ok_iff (hpath : path ≠ "") {found : Option (MetaId × String)} :
    store.parent path = .ok found ↔
      ∃ before key holder entries, found = some (holder, key) ∧ store.Holder path before key holder entries := by
  obtain ⟨before, key, hkeys⟩ := exists_pathKeys_eq hpath
  obtain ⟨first, rest, hcons⟩ : ∃ first rest, pathKeys path = first :: rest := by
    cases h : pathKeys path with
    | nil => simp [h] at hkeys
    | cons first rest => exact ⟨first, rest, rfl⟩
  rw [parent, hcons]
  dsimp only
  constructor
  · intro h
    cases hfound : store.parentFrom path [] store.root first rest with
    | error e =>
      rw [hfound] at h
      cases h
    | ok place =>
      rw [hfound] at h
      cases h
      obtain ⟨before, entries, hkeys, hleads, hmap⟩ := parentFrom_eq_ok_iff.mp hfound
      exact ⟨before, place.2, place.1, entries, rfl, hcons.trans hkeys, hleads, hmap⟩
  · rintro ⟨before, key, holder, entries, rfl, h⟩
    have hfound : store.parentFrom path [] store.root first rest = .ok (holder, key) :=
      parentFrom_eq_ok_iff.mpr ⟨before, entries, hcons.symm.trans h.keys, h.leads, h.map⟩
    rw [hfound]
    rfl

theorem Holder.parent_eq (h : store.Holder path before key holder entries) :
    store.parent path = .ok (some (holder, key)) := by
  have hpath : path ≠ "" := fun heq => by
    subst heq
    simpa [pathKeys] using h.keys
  exact (parent_eq_ok_iff hpath).mpr ⟨before, key, holder, entries, rfl, h⟩

/-- A value can be put at a path exactly if there is a holder, which then has the value under the last key. -/
theorem replace_eq_ok_iff (hpath : path ≠ "") : store.replace path v = .ok store' ↔
    ∃ before key holder entries, store.Holder path before key holder entries ∧
      store' = store.setMap holder (Keyed.put (.text key) v entries) := by
  rw [replace]
  constructor
  · intro h
    cases hparent : store.parent path with
    | error e =>
      rw [hparent] at h
      cases h
    | ok found =>
      obtain ⟨before, key, holder, entries, rfl, hholder⟩ := (parent_eq_ok_iff hpath).mp hparent
      rw [hparent] at h
      cases h
      exact ⟨before, key, holder, entries, hholder, by rw [hholder.map]; rfl⟩
  · rintro ⟨before, key, holder, entries, h, rfl⟩
    rw [h.parent_eq]
    show Except.ok _ = _
    rw [h.map]
    rfl

/-- The value at a path is the one that its holder has under the last key. -/
theorem Holder.get?_eq (h : store.Holder path before key holder entries) :
    store.get? path = Keyed.find? (.text key) entries := by
  rw [get?, h.keys, follow_append_of_eq h.leads, follow_cons_of_map h.map]
  cases Keyed.find? (.text key) entries <;> rfl

/-- Where there is a value at a path, there is a holder that has it. -/
theorem exists_holder (hpath : path ≠ "") (hget : store.get? path = some v) :
    ∃ before key holder entries, store.Holder path before key holder entries ∧
      Keyed.find? (.text key) entries = some v := by
  obtain ⟨before, key, hkeys⟩ := exists_pathKeys_eq hpath
  have hleads := hget
  rw [get?, hkeys, follow_append] at hleads
  obtain ⟨holder, hholder, hlast⟩ := Option.bind_eq_some_iff.mp hleads
  obtain ⟨entries, hmap, -⟩ := Option.bind_eq_some_iff.mp hlast
  have hfound : store.Holder path before key holder entries := ⟨hkeys, hholder, hmap⟩
  exact ⟨before, key, holder, entries, hfound, hfound.get?_eq.symm.trans hget⟩

/-- Taking out the value at a path takes the last key out of its holder. -/
theorem Holder.delete_eq (h : store.Holder path before key holder entries) (hv : store.get? path = some v) :
    store.delete path = (some v, store.setMap holder (Keyed.erase (.text key) entries)) := by
  rw [delete, hv, h.parent_eq]
  dsimp only
  rw [h.map]
  rfl

/-- In a tree the way to a map does not lead through it, so it still leads there after the map got other entries. -/
theorem Unshared.follow_setMap (htree : store.Unshared) (hleads : store.follow store.root keys = some id)
    (hmap : store.map? id = some entries) (entries' : Keyed MetaId) :
    (store.setMap id entries').follow store.root keys = some id := by
  rw [← hleads]
  refine follow_congr fun passed next rest other hbefore hother => map?_setMap_of_ne fun heq => ?_
  subst heq
  have hlength := congrArg List.length (htree.unique hother hleads hmap)
  rw [hbefore] at hlength
  simp at hlength

/-- The holder of a path after it got other entries: it stays where it is. -/
theorem Holder.setMap (h : store.Holder path before key holder entries) (htree : store.Unshared)
    (entries' : Keyed MetaId) : (store.setMap holder entries').Holder path before key holder entries' where
  keys := h.keys
  leads := htree.follow_setMap h.leads h.map entries'
  map := map?_setMap_self h.map entries'

/-! ## What an edit leaves alone -/

/-- After an edit of its holder under the last key, a path leads on as before from the value that is there now,
if the holder is not part of that value. -/
theorem Holder.follow_behind (h : store.Holder path before key holder entries) (htree : store.Unshared)
    (hfind : Keyed.find? (.text key) entries' = some v)
    (hv : Unchanged store (store.setMap holder entries') v) (rest : List String) :
    (store.setMap holder entries').follow store.root (pathKeys path ++ rest) = store.follow v rest := by
  have hafter := h.setMap htree entries'
  rw [h.keys, List.append_assoc, ← root_setMap, follow_append_of_eq hafter.leads, List.singleton_append,
    follow_cons_of_map hafter.map, hfind]
  exact hv.follow rest

/-- After a map got other entries, keys lead to what they led to before, unless they lead on from the map under a key
of which the entry changed. -/
theorem Unshared.follow_setMap_other (htree : store.Unshared) (hleads : store.follow store.root before = some id)
    (hmap : store.map? id = some entries)
    (hsame : ∀ next rest, keys = before ++ next :: rest →
      Keyed.find? (.text next) entries' = Keyed.find? (.text next) entries) :
    (store.setMap id entries').follow store.root keys = store.follow store.root keys := by
  by_cases hthrough : before <+: keys
  · obtain ⟨rest, rfl⟩ := hthrough
    rw [follow_append_of_eq hleads, follow_append_of_eq (htree.follow_setMap hleads hmap entries')]
    cases rest with
    | nil => rfl
    | cons next rest =>
      rw [follow_cons_of_map (map?_setMap_self hmap entries'), follow_cons_of_map hmap, hsame next rest rfl]
      cases hfind : Keyed.find? (.text next) entries with
      | none => rfl
      | some child =>
        refine follow_congr fun passed _ _ other _ hpassed => map?_setMap_of_ne fun heq => ?_
        subst heq
        have hagain : store.follow store.root (before ++ next :: passed) = some other := by
          rw [follow_append_of_eq hleads, follow_cons_of_map hmap, hfind]
          exact hpassed
        have hlength := congrArg List.length (htree.unique hagain hleads hmap)
        simp at hlength
  · refine follow_congr fun passed _ rest other hsplit hpassed => map?_setMap_of_ne fun heq => ?_
    subst heq
    obtain rfl := htree.unique hpassed hleads hmap
    exact hthrough ⟨_, hsplit.symm⟩

/-- Keys that do not begin with those of the path lead to what they led to before. -/
theorem Holder.follow_other (h : store.Holder path before key holder entries) (htree : store.Unshared)
    (hother : ∀ other ≠ key, Keyed.find? (.text other) entries' = Keyed.find? (.text other) entries)
    (hkeys : ¬ pathKeys path <+: keys) :
    (store.setMap holder entries').follow store.root keys = store.follow store.root keys := by
  refine htree.follow_setMap_other h.leads h.map fun next rest hsplit => hother next fun heq => hkeys ?_
  exact ⟨rest, by rw [h.keys, hsplit, heq, List.append_assoc]; rfl⟩

/-- What keys lead to is as before if they are no beginning of the way to the map that got other entries. -/
theorem Unshared.unchanged_setMap (htree : store.Unshared) (hleads : store.follow store.root before = some holder)
    (hmap : store.map? holder = some entries) (hid : store.follow store.root keys = some id)
    (hkeys : ¬ keys <+: before) (entries' : Keyed MetaId) : Unchanged store (store.setMap holder entries') id :=
  Store.unchanged_setMap fun _ hway => hkeys (htree.leads_on hid hway hleads hmap)

/-- A value is as before unless the path leads to it or through it. -/
theorem Holder.unchanged (h : store.Holder path before key holder entries) (htree : store.Unshared)
    (hid : store.follow store.root keys = some id) (hkeys : ¬ keys <+: pathKeys path) (entries' : Keyed MetaId) :
    Unchanged store (store.setMap holder entries') id := by
  refine htree.unchanged_setMap h.leads h.map hid (fun hbefore => hkeys ?_) entries'
  rw [h.keys]
  exact hbefore.trans (List.prefix_append before [key])

/-! ## Putting in and taking out -/

/-- An edit at a path: the entries of the map that holds the last key change in some way, no other cell does,
other paths lead to what they led to, and what they lead to is as before unless the path leads through it. -/
structure EditedAt (store store' : Store) (path : String)
    (change : (key : MetaKey) → (entries entries' : Keyed MetaId) → Prop) : Prop where
  holder : ∃ before key holder entries entries', store.Holder path before key holder entries ∧
    store'.Holder path before key holder entries' ∧ change (.text key) entries entries' ∧
    ∀ other ≠ holder, store'.cells[other.index]? = store.cells[other.index]?
  elsewhere : ∀ q, ¬ pathKeys path <+: pathKeys q → store'.get? q = store.get? q
  untouched : ∀ q id, ¬ pathKeys path <+: pathKeys q → ¬ pathKeys q <+: pathKeys path →
    store.get? q = some id → Unchanged store store' id

theorem Holder.editedAt (h : store.Holder path before key holder entries) (htree : store.Unshared)
    {change : MetaKey → Keyed MetaId → Keyed MetaId → Prop} (hchange : change (.text key) entries entries')
    (hother : ∀ other ≠ key, Keyed.find? (.text other) entries' = Keyed.find? (.text other) entries) :
    EditedAt store (store.setMap holder entries') path change where
  holder := ⟨before, key, holder, entries, entries', h, h.setMap htree entries', hchange,
    fun _ hne => cells_setMap_of_ne hne⟩
  elsewhere := fun _ hq => h.follow_other htree hother hq
  untouched := fun _ _ _ hq hid => h.unchanged htree hid hq entries'

/-- In metadata that is a tree, let a value that has no map in common with it be put at a path.  Then the path
leads to the value, which is as it was, and the path with a text behind it to what the segments of the text lead
to in the value; nothing else changes but that the last key was written in its holder.  Taking the value out
again gives the metadata from before if there was nothing at the path, and else that without the last key. -/
theorem replace_delete_at (htree : store.Unshared) (hapart : store.Apart v) (hpath : path ≠ "")
    (h : store.replace path v = .ok store') :
    store'.get? path = some v ∧ Unchanged store store' v ∧
      (∀ s, store'.get? (path ++ "." ++ s) = store.follow v (segments s)) ∧
      EditedAt store store' path (Keyed.Wrote · v) ∧
      (store.get? path = none → store'.delete path = (some v, store)) ∧
      ∀ old, store.get? path = some old → ∃ store'', store'.delete path = (some v, store'') ∧
        (∀ q, pathKeys path <+: pathKeys q → store''.get? q = none) ∧ EditedAt store store'' path Keyed.Lost := by
  obtain ⟨before, key, holder, entries, hholder, rfl⟩ := (replace_eq_ok_iff hpath).mp h
  have hfind := Keyed.find?_put_self key v entries
  have hvalue : Unchanged store (store.setMap holder (Keyed.put (.text key) v entries)) v :=
    unchanged_setMap (hapart.not_reached hholder.leads hholder.map)
  have hafter := hholder.setMap htree (Keyed.put (.text key) v entries)
  have hget : (store.setMap holder (Keyed.put (.text key) v entries)).get? path = some v :=
    hafter.get?_eq.trans hfind
  have hdelete := hafter.delete_eq hget
  rw [setMap_setMap, Keyed.erase_put] at hdelete
  refine ⟨hget, hvalue, fun s => ?_, ?_, fun habsent => ?_, fun old _ => ?_⟩
  · rw [get?, pathKeys_append hpath]
    exact hholder.follow_behind htree hfind hvalue (segments s)
  · exact hholder.editedAt htree (Keyed.wrote_put key v entries)
      fun other hne => Keyed.find?_put_of_ne hne v entries
  · rw [hholder.get?_eq] at habsent
    rw [hdelete, Keyed.erase_eq_self habsent, setMap_eq_self hholder.map]
  · refine ⟨_, hdelete, ?_, hholder.editedAt htree (Keyed.lost_erase key entries)
      fun other hne => Keyed.find?_erase_of_ne hne entries⟩
    rintro q ⟨rest, hq⟩
    have hgone := hholder.setMap htree (Keyed.erase (.text key) entries)
    rw [get?, ← hq, follow_append, ← get?, hgone.get?_eq, Keyed.find?_erase_self]
    rfl

/-- The metadata of a report whose author has an address, with a contact brought in but not yet under any path. -/
def withContact : MetaId × Store :=
  (ofEntries [("title", .string "Report"),
    ("author", .map [("name", .string "Ada"), ("at", .map [("city", .string "York")])])]).add
    (.map [("mail", .string "ada@host"), ("", .bool true)])

/-- The contact is put beside the address.  The empty key in it is found behind a dot at the end, the address is
still there, and taking the contact out again gives what there was before. -/
theorem replace_delete_contact : withContact.2.Unshared ∧ withContact.2.Apart withContact.1 ∧ ∃ store',
    withContact.2.replace "author.contact" withContact.1 = .ok store' ∧
      store'.get? "author.contact" = some ⟨8⟩ ∧ store'.get? "author.contact." = some ⟨7⟩ ∧
      store'.get? "author.at.city" = some ⟨2⟩ ∧ store'.delete "author.contact" = (some ⟨8⟩, withContact.2) := by
  obtain ⟨htree, hapart⟩ : withContact.2.Unshared ∧ withContact.2.Apart withContact.1 := unshared_add _ _
  obtain ⟨store', hreplace⟩ : ∃ store', withContact.2.replace "author.contact" withContact.1 = .ok store' :=
    ⟨_, by rfl⟩
  obtain ⟨hget, -, hbehind, hedited, hdelete, -⟩ := replace_delete_at htree hapart (by decide) hreplace
  have hapart' : ¬ pathKeys "author.contact" <+: pathKeys "author.at.city" := by decide
  refine ⟨htree, hapart, store', hreplace, hget, ?_, ?_, hdelete (by rfl)⟩
  · exact (hbehind "").trans (by rfl)
  · exact (hedited.elsewhere "author.at.city" hapart').trans (by rfl)

end DocFilter.Store
