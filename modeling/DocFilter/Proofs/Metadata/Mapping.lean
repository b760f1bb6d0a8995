import DocFilter.Metadata.Block
import DocFilter.Proofs.Codec.Normal
import DocFilter.Proofs.Metadata.PathEdits

/-!
# Metadata as a mapping

A store is a mapping over the keys of its root: it lists them, holds them, finds and takes out what is under them.
Listing gives the keys as they stand, while the other three read a key as a path.  The two agree on exactly those
keys that are not empty and hold no dot.

* `Store.WellKeyed` says that no text is the key of two entries of one map.  It holds of all metadata that was
  read, from a document (`Store.wellKeyed_of_isRead`) or from a block (`Store.wellKeyed_of_block`), and edits keep
  it (`Store.WellKeyed.replace`, `Store.WellKeyed.merge`, `Store.WellKeyed.delete`).
* `Store.Coherent` is what a mapping promises of a key that it lists, and `Store.coherent_iff` says which keys it is
  true of.
-/

namespace DocFilter

/-! ## Keys that are texts -/

/-- The text that a key is. -/
def MetaKey.text? : MetaKey → Option String
  | text s => some s
  | simple _ => none

namespace Keyed

variable {α : Type} {key : String} {value : α} {entries new : Keyed α}

/-- The keys that are texts, in order. -/
def texts (entries : Keyed α) : List String := List.filterMap (·.1.text?) entries

theorem mem_texts_iff {s : String} : s ∈ texts entries ↔ ∃ value, (MetaKey.text s, value) ∈ entries := by
  rw [texts, List.mem_filterMap]
  constructor
  · rintro ⟨⟨k, value⟩, hmem, htext⟩
    cases k with
    | text t =>
      obtain rfl : t = s := by simpa [MetaKey.text?] using htext
      exact ⟨value, hmem⟩
    | simple v => cases htext
  · rintro ⟨value, hmem⟩
    exact ⟨_, hmem, rfl⟩

/-- Writing adds at most the text that the key is, and that only if it is new. -/
theorem texts_put_cases (key : MetaKey) (value : α) (entries : Keyed α) :
    texts (put key value entries) = texts entries ∨ ∃ s, key = .text s ∧ s ∉ texts entries ∧
      texts (put key value entries) = texts entries ++ [s] := by
  induction entries with
  | nil =>
    cases key with
    | text s => exact .inr ⟨s, rfl, List.not_mem_nil, rfl⟩
    | simple v => exact .inl rfl
  | cons entry entries ih =>
    obtain ⟨k, first⟩ := entry
    rw [put]
    split
    · exact .inl rfl
    · rename_i hsame
      have hcons : ∀ entries' : Keyed α, texts ((k, first) :: entries') = k.text?.toList ++ texts entries' := by
        intro entries'
        cases k <;> rfl
      rw [hcons, hcons]
      obtain ih | ⟨s, rfl, hnew, ih⟩ := ih
      · exact .inl (by rw [ih])
      · refine .inr ⟨s, rfl, ?_, by rw [ih, List.append_assoc]⟩
        have hk : k ≠ .text s := fun heq => hsame (MetaKey.same_text_iff.mpr heq)
        cases k with
        | text t =>
          have hne : s ≠ t := fun heq => hk (by rw [heq])
          simpa [MetaKey.text?, hne] using hnew
        | simple v => exact hnew

theorem nodup_texts_put (h : (texts entries).Nodup) (key : MetaKey) (value : α) :
    (texts (put key value entries)).Nodup := by
  obtain heq | ⟨s, -, hnew, heq⟩ := texts_put_cases key value entries
  · rwa [heq]
  · rw [heq, ← List.concat_eq_append]
    exact h.concat hnew

theorem nodup_texts_update (h : (texts entries).Nodup) (new : Keyed α) : (texts (update entries new)).Nodup := by
  rw [update]
  induction new generalizing entries with
  | nil => exact h
  | cons entry new ih => exact ih (nodup_texts_put h entry.1 entry.2)

theorem nodup_texts_erase (h : (texts entries).Nodup) (key : MetaKey) : (texts (erase key entries)).Nodup :=
  (List.filter_sublist.filterMap _).nodup h

/-- Where no text is the key of two entries, an entry is found under its key. -/
theorem find?_of_mem (h : (texts entries).Nodup) (hmem : (MetaKey.text key, value) ∈ entries) :
    find? (.text key) entries = some value := by
  induction entries with
  | nil => cases hmem
  | cons entry entries ih =>
    obtain ⟨k, first⟩ := entry
    obtain hhere | hrest := List.mem_cons.mp hmem
    · cases hhere
      exact find?_cons_self key value entries
    · have hk : k ≠ .text key := by
        rintro rfl
        exact (List.nodup_cons.mp h).1 (mem_texts_iff.mpr ⟨value, hrest⟩)
      rw [find?_cons_of_ne hk]
      exact ih (h.sublist ((List.sublist_cons_self _ _).filterMap _)) hrest

/-- Where no text is the key of two entries, taking out an entry takes out one. -/
theorem length_erase (h : (texts entries).Nodup) (hmem : (MetaKey.text key, value) ∈ entries) :
    (erase (.text key) entries).length + 1 = entries.length := by
  induction entries with
  | nil => cases hmem
  | cons entry entries ih =>
    obtain ⟨k, first⟩ := entry
    by_cases hk : k = .text key
    · subst hk
      have hnone : find? (.text key) entries = none := find?_eq_none_iff.mpr fun other hother heq =>
        (List.nodup_cons.mp h).1 (mem_texts_iff.mpr ⟨other.2, heq ▸ hother⟩)
      rw [erase_cons_self, erase_eq_self hnone, List.length_cons]
    · have hrest : (MetaKey.text key, value) ∈ entries := by
        obtain hhere | hrest := List.mem_cons.mp hmem
        · exact absurd (congrArg Prod.fst hhere).symm hk
        · exact hrest
      rw [erase_cons_of_ne hk, List.length_cons, List.length_cons,
        ih (h.sublist ((List.sublist_cons_self _ _).filterMap _)) hrest]

end Keyed

/-! ## Metadata with distinct keys -/

namespace MetaValue

/-- Every map in a value has distinct keys. -/
inductive Distinct : MetaValue → Prop
  | map {entries : List (String × MetaValue)} (keys : (entries.map (·.1)).Nodup)
      (below : ∀ entry ∈ entries, Distinct entry.2) : Distinct (.map entries)
  | list {items : List MetaValue} (below : ∀ item ∈ items, Distinct item) : Distinct (.list items)
  | bool (b : Bool) : Distinct (.bool b)
  | string (s : String) : Distinct (.string s)
  | inlines (nodes : List Tree) : Distinct (.inlines nodes)
  | blocks (nodes : List Tree) : Distinct (.blocks nodes)

theorem Holds.distinct {good : Tree → Prop} {m : MetaValue} (h : m.Holds good) : m.Distinct := by
  induction h with
  | map keys _ ih => exact .map keys ih
  | list _ ih => exact .list ih
  | bool b => exact .bool b
  | string s => exact .string s
  | inlines => exact .inlines _
  | blocks => exact .blocks _

mutual

theorem distinct_ofPlain : ∀ value : Plain, (ofPlain value).Distinct
  | .map entries => distinct_ofPlainEntries entries [] List.nodup_nil nofun
  | .list items | .tuple items => .list (distinct_ofPlainItems items)
  | .bool b => .bool b
  | .null | .date _ | .moment _ | .int _ | .float _ | .str _ | .bytes _ | .time _ | .set _ | .again _ => by
    simpa only [ofPlain] using .string _

theorem distinct_ofPlainItems : ∀ (items : List Plain), ∀ m ∈ ofPlainItems items, m.Distinct
  | [] => nofun
  | item :: items => List.forall_mem_cons.mpr ⟨distinct_ofPlain item, distinct_ofPlainItems items⟩

theorem distinct_ofPlainEntries : ∀ (entries : List (Plain × Plain)) (written : Entries MetaValue),
    written.keys.Nodup → (∀ entry ∈ written, entry.2.Distinct) → (map (ofPlainEntries entries written)).Distinct
  | [], _, hkeys, hbelow => .map hkeys hbelow
  | (key, value) :: entries, written, hkeys, hbelow => by
    refine distinct_ofPlainEntries entries _ (Entries.nodup_keys_put hkeys) fun entry hentry => ?_
    obtain hold | hnew := Entries.mem_of_mem_put hentry
    · exact hbelow entry hold
    · rw [hnew]
      exact distinct_ofPlain value

end

theorem distinct_convert {value : Plain} {m : MetaValue} (h : convert value = .ok m) : m.Distinct := by
  unfold convert at h
  split at h
  · cases h
    exact distinct_ofPlain value
  · cases h

theorem distinct_of_mapError {ε : Type} {wrap : Fault → ε} {value : Plain} {m : MetaValue}
    (h : (convert value).mapError wrap = .ok m) : m.Distinct := by
  cases hvalue : convert value with
  | error fault =>
    rw [hvalue] at h
    cases h
  | ok m' =>
    rw [hvalue] at h
    cases h
    exact distinct_convert hvalue

/-- What a block is read as has distinct keys. -/
theorem distinct_ofBlock {text : String} {m : MetaValue} (h : ofBlock text = .ok m) : m.Distinct := by
  unfold ofBlock at h
  generalize Yaml.read .whole (unfenced text) = answer at h
  split at h
  · cases h
    exact .map List.nodup_nil nofun
  · exact distinct_of_mapError h
  · cases h
  · cases h

theorem distinct_ofValue {value : Plain} {m : MetaValue} (h : ofValue value = .ok m) : m.Distinct := by
  unfold ofValue at h
  split at h
  · exact distinct_ofBlock h
  · exact distinct_of_mapError h

/-- The maps among some cells have distinct texts for keys. -/
def KeyedCells (cells : Array MetaCell) : Prop :=
  ∀ (i : Nat) entries, cells[i]? = some (.map entries) → (Keyed.texts entries).Nodup

variable {cells : Array MetaCell}

theorem KeyedCells.push (h : KeyedCells cells) {cell : MetaCell}
    (hcell : ∀ entries, cell = .map entries → (Keyed.texts entries).Nodup) : KeyedCells (cells.push cell) := by
  intro i entries hi
  rw [Array.getElem?_push] at hi
  split at hi
  · exact hcell entries (Option.some.inj hi)
  · exact h i entries hi

theorem texts_plantEntries (entries : List (String × MetaValue)) (cells : Array MetaCell) :
    Keyed.texts (plantEntries entries cells).1 = entries.map (·.1) := by
  induction entries generalizing cells with
  | nil => rfl
  | cons entry entries ih => exact congrArg (entry.1 :: ·) (ih _)

theorem keys_plantEntries (entries : List (String × MetaValue)) (cells : Array MetaCell) :
    List.map (·.1) (plantEntries entries cells).1 = (entries.map (·.1)).map MetaKey.text := by
  induction entries generalizing cells with
  | nil => rfl
  | cons entry entries ih => exact congrArg (MetaKey.text entry.1 :: ·) (ih _)

mutual

/-- Bringing in a value with distinct keys. -/
theorem keyedCells_plant : ∀ (m : MetaValue) (cells : Array MetaCell), m.Distinct → KeyedCells cells →
    KeyedCells (m.plant cells).2
  | map entries, cells, hm, hcells => by
    cases hm with
    | map keys below =>
      refine (keyedCells_plantEntries entries cells below hcells).push fun entries' heq => ?_
      obtain rfl := MetaCell.map.inj heq
      rwa [texts_plantEntries]
  | list items, cells, hm, hcells => by
    cases hm with
    | list below => exact (keyedCells_plantItems items cells below hcells).push nofun
  | bool _, _, _, hcells => hcells.push nofun
  | string _, _, _, hcells => hcells.push nofun
  | inlines _, _, _, hcells => hcells.push nofun
  | blocks _, _, _, hcells => hcells.push nofun

theorem keyedCells_plantItems : ∀ (items : List MetaValue) (cells : Array MetaCell),
    (∀ item ∈ items, item.Distinct) → KeyedCells cells → KeyedCells (plantItems items cells).2
  | [], _, _, hcells => hcells
  | item :: items, cells, hitems, hcells => by
    obtain ⟨hitem, hitems⟩ := List.forall_mem_cons.mp hitems
    exact keyedCells_plantItems items _ hitems (keyedCells_plant item cells hitem hcells)

theorem keyedCells_plantEntries : ∀ (entries : List (String × MetaValue)) (cells : Array MetaCell),
    (∀ entry ∈ entries, entry.2.Distinct) → KeyedCells cells → KeyedCells (plantEntries entries cells).2
  | [], _, _, hcells => hcells
  | (_, value) :: entries, cells, hentries, hcells => by
    obtain ⟨hvalue, hentries⟩ := List.forall_mem_cons.mp hentries
    exact keyedCells_plantEntries entries _ hentries (keyedCells_plant value cells hvalue hcells)

end

end MetaValue

namespace Store

variable {store store' : Store} {path key : String} {id v : MetaId} {entries new : Keyed MetaId}

/-- In no map of a store is a text the key of two entries. -/
def WellKeyed (store : Store) : Prop := ∀ id entries, store.map? id = some entries → (Keyed.texts entries).Nodup

theorem wellKeyed_iff : store.WellKeyed ↔ MetaValue.KeyedCells store.cells :=
  ⟨fun h i entries hi => h ⟨i⟩ entries (map?_eq_some_iff.mpr hi),
    fun h id entries hmap => h id.index entries (map?_eq_some_iff.mp hmap)⟩

theorem wellKeyed_ofEntries {entries : List (String × MetaValue)} (h : (MetaValue.map entries).Distinct) :
    (ofEntries entries).WellKeyed :=
  wellKeyed_iff.mpr (MetaValue.keyedCells_plant _ _ h (by intro i entries hi; simp at hi))

/-- Metadata of a document that was read. -/
theorem wellKeyed_of_isRead {d : Document} (h : d.IsRead) : (ofEntries d.metadata).WellKeyed :=
  wellKeyed_ofEntries h.decoded.metadata.distinct

/-- Metadata of a block. -/
theorem wellKeyed_of_block {text : String} {entries : List (String × MetaValue)}
    (h : MetaValue.ofBlock text = .ok (.map entries)) : (ofEntries entries).WellKeyed :=
  wellKeyed_ofEntries (MetaValue.distinct_ofBlock h)

theorem WellKeyed.add (h : store.WellKeyed) {value : MetaValue} (hvalue : value.Distinct) :
    (store.add value).2.WellKeyed :=
  wellKeyed_iff.mpr (MetaValue.keyedCells_plant value _ hvalue (wellKeyed_iff.mp h))

theorem WellKeyed.getD_map? (h : store.WellKeyed) (id : MetaId) :
    (Keyed.texts ((store.map? id).getD [])).Nodup := by
  cases hmap : store.map? id with
  | none => exact List.nodup_nil
  | some entries => exact h id entries hmap

theorem WellKeyed.setMap (h : store.WellKeyed) (hentries : (Keyed.texts entries).Nodup) (id : MetaId) :
    (store.setMap id entries).WellKeyed := by
  intro other others hmap
  by_cases heq : other = id
  · subst heq
    have hcell := map?_eq_some_iff.mp hmap
    rw [Store.setMap, Array.getElem?_setIfInBounds_self] at hcell
    split at hcell
    · obtain rfl := MetaCell.map.inj (Option.some.inj hcell)
      exact hentries
    · cases hcell
  · rw [map?_setMap_of_ne heq] at hmap
    exact h other others hmap

/-- Putting a value at a path keeps keys distinct. -/
theorem WellKeyed.replace (h : store.WellKeyed) (hreplace : store.replace path v = .ok store') :
    store'.WellKeyed := by
  rw [Store.replace] at hreplace
  cases hparent : store.parent path with
  | error e =>
    rw [hparent] at hreplace
    cases hreplace
  | ok found =>
    rw [hparent] at hreplace
    cases found with
    | none =>
      cases hmap : store.map? v with
      | none => simp [bind, Except.bind, hmap] at hreplace
      | some entries =>
        obtain rfl : store.setMap store.root entries = store' := by
          simpa [bind, Except.bind, hmap] using hreplace
        exact h.setMap (h v entries hmap) _
    | some place =>
      cases hreplace
      exact h.setMap (Keyed.nodup_texts_put (h.getD_map? _) _ _) _

/-- Merging a value at a path keeps keys distinct. -/
theorem WellKeyed.merge (h : store.WellKeyed) (hmerge : store.merge path v = .ok store') : store'.WellKeyed := by
  rw [Store.merge] at hmerge
  split at hmerge
  · rename_i there entries new hthere hnew
    obtain ⟨found, -, hfound⟩ := Option.bind_eq_some_iff.mp hthere
    obtain ⟨old, hmap, heq⟩ := Option.map_eq_some_iff.mp hfound
    cases heq
    cases hmerge
    exact h.setMap (Keyed.nodup_texts_update (h _ _ hmap) _) _
  · exact h.replace hmerge

theorem WellKeyed.mergeRoot (h : store.WellKeyed) (v : MetaId) : (store.mergeRoot v).WellKeyed :=
  h.setMap (Keyed.nodup_texts_update (h.getD_map? _) _) _

/-- Taking out a value keeps keys distinct. -/
theorem WellKeyed.delete (h : store.WellKeyed) (path : String) : (store.delete path).2.WellKeyed := by
  rw [Store.delete]
  split
  · exact h.setMap (Keyed.nodup_texts_erase (h.getD_map? _) _) _
  · exact h

/-! ## Listing and looking up -/

theorem entries_of_map (h : store.map? store.root = some entries) : store.entries = entries := by
  rw [Store.entries, h]
  rfl

theorem map?_root_of_mem {entry : MetaKey × MetaId} (h : entry ∈ store.entries) :
    store.map? store.root = some store.entries := by
  cases hmap : store.map? store.root with
  | none =>
    rw [Store.entries, hmap] at h
    cases h
  | some entries => rw [entries_of_map hmap]

/-- What a mapping promises of a key that it lists with an entry: it holds the key, it finds the entry under it, and
taking it out takes this entry out of the root and changes nothing else. -/
structure Coherent (store : Store) (key : String) (id : MetaId) : Prop where
  held : store.has key = true
  found : store.require key = .ok id
  removed : ∃ store', store.remove key = .ok store' ∧ Keyed.Lost (.text key) store.entries store'.entries ∧
    store'.entries.length + 1 = store.entries.length ∧
      ∀ other ≠ store.root, store'.cells[other.index]? = store.cells[other.index]?

theorem Coherent.not_listed (h : store.Coherent key id) :
    ∃ store', store.remove key = .ok store' ∧ ∀ other, (MetaKey.text key, other) ∉ store'.entries := by
  obtain ⟨store', hremove, hlost, -⟩ := h.removed
  exact ⟨store', hremove, fun other hother => ((hlost.others _).mp hother).2 rfl⟩

/-- A key that is a path by itself. -/
def IsPlain (key : String) : Prop := key ≠ "" ∧ '.' ∉ key.toList

theorem coherent_of_isPlain (hstore : store.WellKeyed) (hentry : (MetaKey.text key, id) ∈ store.entries)
    (hplain : IsPlain key) : store.Coherent key id := by
  have hmap := map?_root_of_mem hentry
  have honce := hstore _ _ hmap
  have hholder : store.Holder key [] key store.root store.entries :=
    ⟨pathKeys_of_plain hplain.1 hplain.2, rfl, hmap⟩
  have hget : store.get? key = some id := hholder.get?_eq.trans (Keyed.find?_of_mem honce hentry)
  have hentries := @entries_of_map (store.setMap store.root (Keyed.erase (.text key) store.entries)) _
    (map?_setMap_self hmap _)
  refine ⟨by rw [has, hget]; rfl, by rw [require, hget], _, by rw [remove, hholder.delete_eq hget], ?_, ?_,
    fun other hne => cells_setMap_of_ne hne⟩
  · rw [hentries]
    exact Keyed.lost_erase key store.entries
  · rw [hentries]
    exact Keyed.length_erase honce hentry

/-- Whatever is taken out under a key with a dot, an entry of the root under the key stays. -/
theorem mem_entries_of_remove (hentry : (MetaKey.text key, id) ∈ store.entries) (hdot : '.' ∈ key.toList)
    (h : store.remove key = .ok store') : (MetaKey.text key, id) ∈ store'.entries := by
  have hpath : key ≠ "" := by
    rintro rfl
    simp at hdot
  rw [remove] at h
  cases hdelete : store.delete key with
  | mk taken left =>
    rw [hdelete] at h
    cases taken with
    | none => cases h
    | some v =>
      cases h
      rw [delete] at hdelete
      split at hdelete
      · rename_i there holder last hget hparent
        obtain ⟨before, key', holder', entries, heq, hholder⟩ := (parent_eq_ok_iff hpath).mp hparent
        cases heq
        obtain rfl := (Prod.mk.inj hdelete).2
        have hlast : key ≠ last := by
          rintro rfl
          exact not_dot_of_mem_pathKeys (by rw [hholder.keys]; simp) hdot
        have hroot := map?_root_of_mem hentry
        by_cases hsame : store.root = holder
        · subst hsame
          rw [entries_of_map (map?_setMap_self hroot _), hroot]
          exact Keyed.mem_erase_iff.mpr ⟨hentry, fun heq => hlast (MetaKey.text.inj heq)⟩
        · rw [entries_of_map ((map?_setMap_of_ne hsame).trans hroot)]
          exact hentry
      · cases hdelete

/-- Let a store list a key with an entry.  Then the mapping keeps its promises exactly if the key is not empty and
holds no dot.  The empty key leads to the root, which cannot be taken out, and what is taken out under a key with a
dot is never the entry. -/
theorem coherent_iff (hstore : store.WellKeyed) (hentry : (MetaKey.text key, id) ∈ store.entries) :
    (store.Coherent key id ↔ IsPlain key) ∧
      (key = "" → store.require key = .ok store.root ∧ store.remove key = .error (.noKey key)) ∧
      ('.' ∈ key.toList → ∀ store', store.remove key = .ok store' → (MetaKey.text key, id) ∈ store'.entries) := by
  have hempty : key = "" → store.require key = .ok store.root ∧ store.remove key = .error (.noKey key) := by
    rintro rfl
    exact ⟨rfl, rfl⟩
  refine ⟨⟨fun h => ?_, coherent_of_isPlain hstore hentry⟩, hempty, fun hdot _ => mem_entries_of_remove hentry hdot⟩
  obtain ⟨store', hremove, hgone⟩ := h.not_listed
  refine ⟨fun heq => ?_, fun hdot => hgone id (mem_entries_of_remove hentry hdot hremove)⟩
  rw [(hempty heq).2] at hremove
  cases hremove

/-- Metadata with a dotted key and what the same path leads to. -/
def dotted : Store := ofEntries [("a.b", .string "outer"), ("a", .map [("b", .string "inner")])]

/-- The dotted key is listed, but what is found and taken out under it is another value. -/
theorem not_coherent_dotted : (MetaKey.text "a.b", ⟨0⟩) ∈ dotted.entries ∧ ¬ dotted.Coherent "a.b" ⟨0⟩ ∧
    dotted.require "a.b" = .ok ⟨1⟩ ∧ ∃ store', dotted.remove "a.b" = .ok store' ∧
      (MetaKey.text "a.b", ⟨0⟩) ∈ store'.entries := by
  have hkeyed : dotted.WellKeyed := wellKeyed_ofEntries (.map (by decide) (by
    simpa using ⟨.string _, .map (by decide) (by simpa using .string _)⟩))
  have hentry : (MetaKey.text "a.b", ⟨0⟩) ∈ dotted.entries := List.mem_cons_self
  have hdot : '.' ∈ "a.b".toList := by decide
  obtain ⟨hcoherent, -, hstays⟩ := coherent_iff hkeyed hentry
  obtain ⟨store', hremove⟩ : ∃ store', dotted.remove "a.b" = .ok store' := ⟨_, by rfl⟩
  exact ⟨hentry, fun h => (hcoherent.mp h).2 hdot, by rfl, store', hremove, hstays hdot store' hremove⟩

end Store

end DocFilter
