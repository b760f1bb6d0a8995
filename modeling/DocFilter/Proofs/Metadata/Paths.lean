import DocFilter.Metadata.Store

/-!
# Paths and keys

A path is cut at its dots, so that a path with a dot and any text behind it goes on where the path ended.  The
keys on the way are texts, and a text is the same key as no other one.

* `Text.splitAt_append` and `Text.not_mem_of_mem_splitAt` say how a text is cut, `pathKeys_append` and
  `pathKeys_eq_singleton_iff` what this means for paths.
* `Keyed.find?_put_of_ne` and `Keyed.find?_erase_of_ne` say that an edit under one text leaves the other texts
  alone; `Keyed.Wrote` and `Keyed.Lost` say what it does to the entries in their order.
-/

namespace DocFilter

/-! ## Texts between dots -/

namespace Text

variable {separator : Char} {cs : List Char}

theorem splitAt_ne_nil (separator : Char) (cs : List Char) : splitAt separator cs ≠ [] := by
  induction cs with
  | nil => simp [splitAt]
  | cons c cs _ =>
    rw [splitAt]
    split
    · simp
    · split <;> simp

/-- A character that does not separate goes to the first piece of what follows it. -/
theorem splitAt_cons_of_ne {c : Char} (hc : c ≠ separator) (cs : List Char) :
    ∃ piece pieces, splitAt separator cs = piece :: pieces ∧
      splitAt separator (c :: cs) = (c :: piece) :: pieces := by
  cases h : splitAt separator cs with
  | nil => exact absurd h (splitAt_ne_nil separator cs)
  | cons piece pieces =>
    refine ⟨piece, pieces, rfl, ?_⟩
    rw [splitAt, if_neg hc, h]

/-- A separator between two texts separates their pieces. -/
theorem splitAt_append (separator : Char) (cs ds : List Char) :
    splitAt separator (cs ++ separator :: ds) = splitAt separator cs ++ splitAt separator ds := by
  induction cs with
  | nil => simp [splitAt]
  | cons c cs ih =>
    by_cases hc : c = separator
    · simp [splitAt, hc, ih]
    · obtain ⟨piece, pieces, hcs, hcons⟩ := splitAt_cons_of_ne hc cs
      obtain ⟨piece', pieces', hcs', hcons'⟩ := splitAt_cons_of_ne hc (cs ++ separator :: ds)
      rw [ih, hcs, List.cons_append, List.cons.injEq] at hcs'
      rw [List.cons_append, hcons', hcons, ← hcs'.1, ← hcs'.2]
      rfl

/-- No piece holds a separator. -/
theorem not_mem_of_mem_splitAt {piece : List Char} (h : piece ∈ splitAt separator cs) : separator ∉ piece := by
  induction cs generalizing piece with
  | nil =>
    obtain rfl : piece = [] := by simpa [splitAt] using h
    exact List.not_mem_nil
  | cons c cs ih =>
    by_cases hc : c = separator
    · rw [splitAt, if_pos hc, List.mem_cons] at h
      obtain rfl | h := h
      · exact List.not_mem_nil
      · exact ih h
    · obtain ⟨first, pieces, hcs, hcons⟩ := splitAt_cons_of_ne hc cs
      rw [hcons, List.mem_cons] at h
      obtain rfl | h := h
      · have hfirst : separator ∉ first := ih (by simp [hcs])
        simp [hfirst, Ne.symm hc]
      · exact ih (by simp [hcs, h])

theorem splitAt_of_not_mem (h : separator ∉ cs) : splitAt separator cs = [cs] := by
  induction cs with
  | nil => rfl
  | cons c cs ih =>
    have hc : c ≠ separator := fun heq => h (by simp [heq])
    rw [splitAt, if_neg hc, ih fun hmem => h (by simp [hmem])]

end Text

/-- The texts between the dots of a text. -/
def segments (s : String) : List String := (Text.splitAt '.' s.toList).map String.ofList

theorem segments_ne_nil (s : String) : segments s ≠ [] := by
  simpa [segments] using Text.splitAt_ne_nil '.' s.toList

theorem pathKeys_of_ne {path : String} (h : path ≠ "") : pathKeys path = segments path := by
  rw [pathKeys, if_neg (by simpa using h), segments]

/-- A path with a dot and a text behind it has the keys of the path and then the segments of the text. -/
theorem pathKeys_append {path : String} (h : path ≠ "") (s : String) :
    pathKeys (path ++ "." ++ s) = pathKeys path ++ segments s := by
  have hlist : (path ++ "." ++ s).toList = path.toList ++ '.' :: s.toList := by simp
  have hne : path ++ "." ++ s ≠ "" := fun heq => by
    rw [heq] at hlist
    simp at hlist
  rw [pathKeys_of_ne hne, pathKeys_of_ne h, segments, segments, segments, hlist, Text.splitAt_append,
    List.map_append]

/-- No key of a path holds a dot. -/
theorem not_dot_of_mem_pathKeys {path key : String} (h : key ∈ pathKeys path) : '.' ∉ key.toList := by
  rw [pathKeys] at h
  split at h
  · cases h
  · obtain ⟨piece, hpiece, rfl⟩ := List.mem_map.mp h
    simpa using Text.not_mem_of_mem_splitAt hpiece

/-- The keys of a path end with a last one, unless it is the path of the root. -/
theorem exists_pathKeys_eq {path : String} (h : path ≠ "") : ∃ before key, pathKeys path = before ++ [key] := by
  have hne := segments_ne_nil path
  rw [← pathKeys_of_ne h] at hne
  exact ⟨_, _, (List.dropLast_concat_getLast hne).symm⟩

/-- A text that is not empty and holds no dot is a path of one key, which is the text itself. -/
theorem pathKeys_of_plain {key : String} (hne : key ≠ "") (hdot : '.' ∉ key.toList) : pathKeys key = [key] := by
  rw [pathKeys_of_ne hne, segments, Text.splitAt_of_not_mem hdot, List.map_singleton, String.ofList_toList]

/-! ## Entries under texts -/

theorem MetaKey.same_text_iff {k : MetaKey} {key : String} : k.same (.text key) = true ↔ k = .text key := by
  cases k <;> simp [same]

namespace Keyed

variable {α : Type} {key other : String} {value : α} {entries : Keyed α}

@[simp] theorem find?_nil (key : MetaKey) : find? key ([] : Keyed α) = none := rfl

theorem find?_cons_self (key : String) (value : α) (entries : Keyed α) :
    find? (.text key) ((.text key, value) :: entries) = some value := by
  have hsame : (MetaKey.text key).same (.text key) = true := MetaKey.same_text_iff.mpr rfl
  simp [find?, hsame]

theorem find?_cons_of_ne {k : MetaKey} (h : k ≠ .text key) (value : α) (entries : Keyed α) :
    find? (.text key) ((k, value) :: entries) = find? (.text key) entries := by
  have hsame : k.same (.text key) = false := Bool.eq_false_iff.mpr fun hsame => h (MetaKey.same_text_iff.mp hsame)
  simp [find?, hsame]

/-- The first entry is the one under the text, or the text is looked for behind it. -/
theorem find?_cons_cases (key : String) (k : MetaKey) (value : α) (entries : Keyed α) :
    k = .text key ∧ find? (.text key) ((k, value) :: entries) = some value ∨
      k ≠ .text key ∧ find? (.text key) ((k, value) :: entries) = find? (.text key) entries := by
  by_cases h : k = .text key
  · subst h
    exact .inl ⟨rfl, find?_cons_self key value entries⟩
  · exact .inr ⟨h, find?_cons_of_ne h value entries⟩

theorem find?_eq_none_iff : find? (.text key) entries = none ↔ ∀ entry ∈ entries, entry.1 ≠ .text key := by
  induction entries with
  | nil => simp
  | cons entry entries ih =>
    obtain ⟨k, value⟩ := entry
    rw [List.forall_mem_cons]
    obtain ⟨rfl, hfind⟩ | ⟨hk, hfind⟩ := find?_cons_cases key k value entries
    · simp [hfind]
    · rw [hfind, ih]
      simp [hk]

theorem exists_getElem?_of_find? (h : find? (.text key) entries = some value) :
    ∃ i : Nat, entries[i]? = some (.text key, value) := by
  induction entries with
  | nil => cases h
  | cons entry entries ih =>
    obtain ⟨k, first⟩ := entry
    obtain ⟨rfl, hfind⟩ | ⟨-, hfind⟩ := find?_cons_cases key k first entries
    · rw [hfind] at h
      cases h
      exact ⟨0, rfl⟩
    · obtain ⟨i, hi⟩ := ih (hfind.symm.trans h)
      exact ⟨i + 1, hi⟩

/-- The entries after a value was written: in the place of the entry under the key, or else last. -/
inductive Wrote (key : MetaKey) (value : α) : Keyed α → Keyed α → Prop
  | inPlace {before after : Keyed α} (old : α) (fresh : ∀ entry ∈ before, entry.1 ≠ key) :
      Wrote key value (before ++ (key, old) :: after) (before ++ (key, value) :: after)
  | last {entries : Keyed α} (fresh : ∀ entry ∈ entries, entry.1 ≠ key) :
      Wrote key value entries (entries ++ [(key, value)])

/-- The entries after what is under a key was taken out. -/
structure Lost (key : MetaKey) (entries entries' : Keyed α) : Prop where
  order : entries'.Sublist entries
  others : ∀ entry, entry ∈ entries' ↔ entry ∈ entries ∧ entry.1 ≠ key

theorem put_cons_self (key : String) (old value : α) (entries : Keyed α) :
    put (.text key) value ((.text key, old) :: entries) = (.text key, value) :: entries := by
  rw [put, if_pos (MetaKey.same_text_iff.mpr rfl)]

theorem put_cons_of_ne {k : MetaKey} (h : k ≠ .text key) (old value : α) (entries : Keyed α) :
    put (.text key) value ((k, old) :: entries) = (k, old) :: put (.text key) value entries := by
  rw [put, if_neg fun hsame => h (MetaKey.same_text_iff.mp hsame)]

theorem wrote_put (key : String) (value : α) (entries : Keyed α) :
    Wrote (.text key) value entries (put (.text key) value entries) := by
  induction entries with
  | nil => exact .last (by simp)
  | cons entry entries ih =>
    obtain ⟨k, first⟩ := entry
    by_cases h : k = .text key
    · subst h
      rw [put_cons_self]
      exact @Wrote.inPlace _ _ _ [] entries first (by simp)
    · rw [put_cons_of_ne h]
      generalize put (.text key) value entries = entries' at ih
      cases ih with
      | inPlace old fresh => exact @Wrote.inPlace _ _ _ ((k, first) :: _) _ old (List.forall_mem_cons.mpr ⟨h, fresh⟩)
      | last fresh => exact .last (List.forall_mem_cons.mpr ⟨h, fresh⟩)

theorem find?_put_self (key : String) (value : α) (entries : Keyed α) :
    find? (.text key) (put (.text key) value entries) = some value := by
  induction entries with
  | nil => exact find?_cons_self key value []
  | cons entry entries ih =>
    obtain ⟨k, first⟩ := entry
    by_cases h : k = .text key
    · subst h
      rw [put_cons_self, find?_cons_self]
    · rw [put_cons_of_ne h, find?_cons_of_ne h, ih]

/-- Writing under a text leaves the other texts alone. -/
theorem find?_put_of_ne (h : other ≠ key) (value : α) (entries : Keyed α) :
    find? (.text other) (put (.text key) value entries) = find? (.text other) entries := by
  have hkey : MetaKey.text key ≠ .text other := fun heq => h (MetaKey.text.inj heq).symm
  induction entries with
  | nil => exact find?_cons_of_ne hkey value []
  | cons entry entries ih =>
    obtain ⟨k, first⟩ := entry
    by_cases hk : k = .text key
    · subst hk
      rw [put_cons_self, find?_cons_of_ne hkey, find?_cons_of_ne hkey]
    · rw [put_cons_of_ne hk]
      obtain ⟨rfl, hfind⟩ | ⟨hother, hfind⟩ := find?_cons_cases other k first entries
      · rw [hfind, find?_cons_self]
      · rw [find?_cons_of_ne hother, ih, hfind]

theorem mem_erase_iff {entry : MetaKey × α} :
    entry ∈ erase (.text key) entries ↔ entry ∈ entries ∧ entry.1 ≠ .text key := by
  rw [erase, List.mem_filter, Bool.not_eq_true', Bool.eq_false_iff, ne_eq, MetaKey.same_text_iff]

theorem lost_erase (key : String) (entries : Keyed α) : Lost (.text key) entries (erase (.text key) entries) where
  order := List.filter_sublist
  others := fun _ => mem_erase_iff

theorem erase_cons_self (key : String) (value : α) (entries : Keyed α) :
    erase (.text key) ((.text key, value) :: entries) = erase (.text key) entries :=
  List.filter_cons_of_neg (by simp [MetaKey.same_text_iff.mpr])

theorem erase_cons_of_ne {k : MetaKey} (h : k ≠ .text key) (value : α) (entries : Keyed α) :
    erase (.text key) ((k, value) :: entries) = (k, value) :: erase (.text key) entries := by
  have hsame : ¬ k.same (.text key) = true := fun hsame => h (MetaKey.same_text_iff.mp hsame)
  exact List.filter_cons_of_pos (by simpa using hsame)

theorem erase_eq_self (h : find? (.text key) entries = none) : erase (.text key) entries = entries := by
  rw [find?_eq_none_iff] at h
  rw [erase, List.filter_eq_self]
  intro entry hentry
  rw [Bool.not_eq_true', Bool.eq_false_iff, ne_eq, MetaKey.same_text_iff]
  exact h entry hentry

/-- What is taken out was written for nothing. -/
theorem erase_put (key : String) (value : α) (entries : Keyed α) :
    erase (.text key) (put (.text key) value entries) = erase (.text key) entries := by
  induction entries with
  | nil => exact erase_cons_self key value []
  | cons entry entries ih =>
    obtain ⟨k, first⟩ := entry
    by_cases h : k = .text key
    · subst h
      rw [put_cons_self, erase_cons_self, erase_cons_self]
    · rw [put_cons_of_ne h, erase_cons_of_ne h, erase_cons_of_ne h, ih]

theorem find?_erase_self (key : String) (entries : Keyed α) :
    find? (.text key) (erase (.text key) entries) = none :=
  find?_eq_none_iff.mpr fun _ hentry => (mem_erase_iff.mp hentry).2

/-- Taking out an entry leaves the other texts alone. -/
theorem find?_erase_of_ne (h : other ≠ key) (entries : Keyed α) :
    find? (.text other) (erase (.text key) entries) = find? (.text other) entries := by
  have hkey : MetaKey.text key ≠ .text other := fun heq => h (MetaKey.text.inj heq).symm
  induction entries with
  | nil => rfl
  | cons entry entries ih =>
    obtain ⟨k, first⟩ := entry
    by_cases hk : k = .text key
    · subst hk
      rw [erase_cons_self, find?_cons_of_ne hkey, ih]
    · rw [erase_cons_of_ne hk]
      obtain ⟨rfl, hfind⟩ | ⟨hother, hfind⟩ := find?_cons_cases other k first entries
      · rw [hfind, find?_cons_self]
      · rw [find?_cons_of_ne hother, ih, hfind]

end Keyed

end DocFilter
