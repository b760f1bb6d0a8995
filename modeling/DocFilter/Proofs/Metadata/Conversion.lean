import DocFilter.Proofs.Metadata.Mapping

/-!
# Plain data as metadata

Plain data becomes metadata of four kinds: maps, lists, truth values and texts.  Such metadata, read as plain data,
becomes itself again.  Data that cannot be written out becomes no metadata.

* `Plain.Inside` and `Plain.Stops` say what stands somewhere in plain data and what in it stops the conversion;
  `MetaValue.exists_convert_iff` says that nothing else does.
* `MetaValue.Bare` is metadata of the four kinds.  `MetaValue.convert_toPlain` says that it comes back from plain
  data, and `MetaValue.convert_account` collects what conversion does.
-/

namespace DocFilter

/-! ## Data that cannot be written out -/

namespace Plain

/-- A value stands somewhere in another: it is the other one, or it stands in an item, a key or a value of it. -/
inductive Inside (part : Plain) : Plain → Prop
  | here : Inside part part
  | item {items : List Plain} {item : Plain} (mem : item ∈ items) (inner : Inside part item) :
      Inside part (.list items)
  | member {items : List Plain} {item : Plain} (mem : item ∈ items) (inner : Inside part item) :
      Inside part (.set items)
  | component {items : List Plain} {item : Plain} (mem : item ∈ items) (inner : Inside part item) :
      Inside part (.tuple items)
  | key {entries : List (Plain × Plain)} {entry : Plain × Plain} (mem : entry ∈ entries)
      (inner : Inside part entry.1) : Inside part (.map entries)
  | value {entries : List (Plain × Plain)} {entry : Plain × Plain} (mem : entry ∈ entries)
      (inner : Inside part entry.2) : Inside part (.map entries)

/-- What cannot be written out, and the fault that it is: a whole number with too many digits, and a place that lies
in itself. -/
inductive Stops : Plain → Fault → Prop
  | long {n : Int} (digits : isLong n = true) : Stops (.int n) (.value .longNumber)
  | again (isMap : Bool) : Stops (.again isMap) .endless

variable {part value : Plain} {fault : Fault}

theorem itemObstacles_eq_flatMap (items : List Plain) : itemObstacles items = items.flatMap obstacles := by
  induction items with
  | nil => rfl
  | cons item items ih => rw [itemObstacles, ih, List.flatMap_cons]

theorem entryObstacles_eq_flatMap (entries : List (Plain × Plain)) :
    entryObstacles entries = entries.flatMap fun entry => obstacles entry.1 ++ obstacles entry.2 := by
  induction entries with
  | nil => rfl
  | cons entry entries ih => rw [entryObstacles, ih, List.flatMap_cons]

theorem obstacles_of_stops (h : part.Stops fault) : part.obstacles = [fault] := by
  cases h with
  | long digits => rw [obstacles, if_pos digits]
  | again isMap => rfl

/-- What stops a part stops the whole. -/
theorem Inside.mem_obstacles (h : part.Inside value) (hfault : fault ∈ part.obstacles) :
    fault ∈ value.obstacles := by
  induction h with
  | here => exact hfault
  | item mem _ ih | member mem _ ih | component mem _ ih =>
    rw [obstacles, itemObstacles_eq_flatMap]
    exact List.mem_flatMap.mpr ⟨_, mem, ih⟩
  | key mem _ ih =>
    rw [obstacles, entryObstacles_eq_flatMap]
    exact List.mem_flatMap.mpr ⟨_, mem, List.mem_append_left _ ih⟩
  | value mem _ ih =>
    rw [obstacles, entryObstacles_eq_flatMap]
    exact List.mem_flatMap.mpr ⟨_, mem, List.mem_append_right _ ih⟩

mutual

/-- Only parts of the two kinds stop. -/
theorem exists_stops : ∀ (value : Plain), ∀ fault ∈ value.obstacles,
    ∃ part : Plain, part.Inside value ∧ part.Stops fault
  | .int n, fault, h => by
    rw [obstacles] at h
    split at h
    · rename_i digits
      obtain rfl := List.mem_singleton.mp h
      exact ⟨.int n, .here, .long digits⟩
    · cases h
  | .again isMap, fault, h => by
    obtain rfl := List.mem_singleton.mp h
    exact ⟨_, .here, .again isMap⟩
  | .list items, fault, h => by
    obtain ⟨item, mem, part, inner, hstops⟩ := exists_stops_items items fault h
    exact ⟨part, .item mem inner, hstops⟩
  | .set items, fault, h => by
    obtain ⟨item, mem, part, inner, hstops⟩ := exists_stops_items items fault h
    exact ⟨part, .member mem inner, hstops⟩
  | .tuple items, fault, h => by
    obtain ⟨item, mem, part, inner, hstops⟩ := exists_stops_items items fault h
    exact ⟨part, .component mem inner, hstops⟩
  | .map entries, fault, h => by
    obtain ⟨entry, mem, part, inner | inner, hstops⟩ := exists_stops_entries entries fault h
    · exact ⟨part, .key mem inner, hstops⟩
    · exact ⟨part, .value mem inner, hstops⟩
  | .null, _, h | .bool _, _, h | .float _, _, h | .str _, _, h | .bytes _, _, h | .date _, _, h | .time _, _, h
  | .moment _, _, h => by cases h

theorem exists_stops_items : ∀ (items : List Plain), ∀ fault ∈ itemObstacles items,
    ∃ item ∈ items, ∃ part : Plain, part.Inside item ∧ part.Stops fault
  | [], _, h => by cases h
  | item :: items, fault, h => by
    rw [itemObstacles] at h
    obtain h | h := List.mem_append.mp h
    · exact ⟨item, List.mem_cons_self, exists_stops item fault h⟩
    · obtain ⟨other, mem, hother⟩ := exists_stops_items items fault h
      exact ⟨other, List.mem_cons_of_mem _ mem, hother⟩

theorem exists_stops_entries : ∀ (entries : List (Plain × Plain)), ∀ fault ∈ entryObstacles entries,
    ∃ entry ∈ entries, ∃ part : Plain, (part.Inside entry.1 ∨ part.Inside entry.2) ∧ part.Stops fault
  | [], _, h => by cases h
  | (key, value) :: entries, fault, h => by
    rw [entryObstacles] at h
    obtain h | h := List.mem_append.mp h
    · obtain h | h := List.mem_append.mp h
      · obtain ⟨part, inner, hstops⟩ := exists_stops key fault h
        exact ⟨(key, value), List.mem_cons_self, part, .inl inner, hstops⟩
      · obtain ⟨part, inner, hstops⟩ := exists_stops value fault h
        exact ⟨(key, value), List.mem_cons_self, part, .inr inner, hstops⟩
    · obtain ⟨other, mem, hother⟩ := exists_stops_entries entries fault h
      exact ⟨other, List.mem_cons_of_mem _ mem, hother⟩

end

theorem obstacles_eq_nil_iff : value.obstacles = [] ↔
    ∀ (part : Plain) (fault : Fault), part.Inside value → ¬ part.Stops fault := by
  constructor
  · intro h part fault hinside hstops
    have hmem := hinside.mem_obstacles (obstacles_of_stops hstops ▸ List.mem_singleton_self fault)
    rw [h] at hmem
    cases hmem
  · intro h
    refine List.eq_nil_iff_forall_not_mem.mpr fun fault hfault => ?_
    obtain ⟨part, hinside, hstops⟩ := exists_stops value fault hfault
    exact h part fault hinside hstops

end Plain

/-! ## Metadata from plain data -/

namespace MetaValue

open Plain (ofJsonItems ofJsonEntries obstacles itemObstacles entryObstacles)

variable {m : MetaValue} {j : Json}

theorem convert_eq_ok_iff {value : Plain} : convert value = .ok m ↔ value.obstacles = [] ∧ ofPlain value = m := by
  rw [convert]
  split
  · rename_i h
    simp [h]
  · rename_i h
    simp [h]

/-- Data that becomes no metadata holds something that cannot be written out. -/
theorem stops_of_convert {value : Plain} {fault : Fault} (h : convert value = .error fault) :
    ∃ part : Plain, part.Inside value ∧ part.Stops fault := by
  rw [convert] at h
  split at h
  · cases h
  · rename_i first rest hfaults
    cases h
    exact Plain.exists_stops value fault (hfaults ▸ List.mem_cons_self)

theorem exists_convert_iff {value : Plain} :
    (∃ m, convert value = .ok m) ↔ ∀ (part : Plain) (fault : Fault), part.Inside value → ¬ part.Stops fault := by
  rw [← Plain.obstacles_eq_nil_iff]
  exact ⟨fun ⟨m, h⟩ => (convert_eq_ok_iff.mp h).1, fun h => ⟨_, convert_eq_ok_iff.mpr ⟨h, rfl⟩⟩⟩

/-- Metadata of maps, lists, truth values and texts. -/
inductive Bare : MetaValue → Prop
  | map {entries : List (String × MetaValue)} (below : ∀ entry ∈ entries, Bare entry.2) : Bare (.map entries)
  | list {items : List MetaValue} (below : ∀ item ∈ items, Bare item) : Bare (.list items)
  | bool (b : Bool) : Bare (.bool b)
  | string (s : String) : Bare (.string s)

mutual

theorem bare_ofPlain : ∀ value : Plain, (ofPlain value).Bare
  | .map entries => .map (bare_ofPlainEntries entries [] nofun)
  | .list items | .tuple items => .list (bare_ofPlainItems items)
  | .bool b => .bool b
  | .null | .date _ | .moment _ | .int _ | .float _ | .str _ | .bytes _ | .time _ | .set _ | .again _ => by
    simpa only [ofPlain] using .string _

theorem bare_ofPlainItems : ∀ (items : List Plain), ∀ m ∈ ofPlainItems items, m.Bare
  | [] => nofun
  | item :: items => List.forall_mem_cons.mpr ⟨bare_ofPlain item, bare_ofPlainItems items⟩

theorem bare_ofPlainEntries : ∀ (entries : List (Plain × Plain)) (written : Entries MetaValue),
    (∀ entry ∈ written, entry.2.Bare) → ∀ entry ∈ ofPlainEntries entries written, entry.2.Bare
  | [], _, hbelow => hbelow
  | (key, value) :: entries, written, hbelow => by
    refine bare_ofPlainEntries entries _ fun entry hentry => ?_
    obtain hold | hnew := Entries.mem_of_mem_put hentry
    · exact hbelow entry hold
    · rw [hnew]
      exact bare_ofPlain value

end

/-! ## There and back -/

/-- Entries are written one after the other. -/
theorem ofPlainEntries_eq_update (entries : List (Plain × Plain)) (written : Entries MetaValue) :
    ofPlainEntries entries written =
      Entries.update written (entries.map fun entry => (entry.1.text, ofPlain entry.2)) := by
  induction entries generalizing written with
  | nil => rfl
  | cons entry entries ih => exact ih _

/-- Metadata that is some plain data, from which it comes back. -/
structure Back (m : MetaValue) (j : Json) : Prop where
  plain : m.toPlain = .ok j
  free : obstacles (Plain.ofJson j) = []
  back : ofPlain (Plain.ofJson j) = m

theorem back_items {items : List MetaValue} (h : ∀ item ∈ items, ∃ j, Back item j) :
    ∃ js, itemsToPlain items = .ok js ∧ itemObstacles (ofJsonItems js) = [] ∧
      ofPlainItems (ofJsonItems js) = items := by
  induction items with
  | nil => exact ⟨[], rfl, rfl, rfl⟩
  | cons item items ih =>
    obtain ⟨⟨j, hitem⟩, hitems⟩ := List.forall_mem_cons.mp h
    obtain ⟨js, hplain, hfree, hback⟩ := ih hitems
    refine ⟨j :: js, ?_, ?_, ?_⟩
    · rw [itemsToPlain, hitem.plain, hplain]
      rfl
    · rw [ofJsonItems, itemObstacles, hitem.free, hfree]
      rfl
    · rw [ofJsonItems, ofPlainItems, hitem.back, hback]

theorem back_entries {entries : List (String × MetaValue)} (h : ∀ entry ∈ entries, ∃ j, Back entry.2 j) :
    ∃ js, entriesToPlain entries = .ok js ∧ entryObstacles (ofJsonEntries js) = [] ∧
      (ofJsonEntries js).map (fun entry => (entry.1.text, ofPlain entry.2)) = entries := by
  induction entries with
  | nil => exact ⟨[], rfl, rfl, rfl⟩
  | cons entry entries ih =>
    obtain ⟨⟨j, hentry⟩, hentries⟩ := List.forall_mem_cons.mp h
    obtain ⟨js, hplain, hfree, hback⟩ := ih hentries
    refine ⟨(entry.1, j) :: js, ?_, ?_, ?_⟩
    · rw [entriesToPlain, hentry.plain, hplain]
      rfl
    · rw [ofJsonEntries, entryObstacles, hentry.free, hfree]
      rfl
    · rw [ofJsonEntries, List.map_cons, hentry.back, hback]
      rfl

theorem exists_back (h : m.Bare) (hkeys : m.Distinct) : ∃ j, Back m j := by
  induction h with
  | map _ ih =>
    cases hkeys with
    | map keys below =>
      obtain ⟨js, hplain, hfree, hback⟩ := back_entries fun entry hentry => ih entry hentry (below entry hentry)
      refine ⟨.obj js, by rw [toPlain, hplain]; rfl, by rw [Plain.ofJson, obstacles, hfree], ?_⟩
      rw [Plain.ofJson, ofPlain, ofPlainEntries_eq_update, hback]
      exact congrArg MetaValue.map (Entries.ofWrites_of_nodup keys)
  | list _ ih =>
    cases hkeys with
    | list below =>
      obtain ⟨js, hplain, hfree, hback⟩ := back_items fun item hitem => ih item hitem (below item hitem)
      exact ⟨.arr js, by rw [toPlain, hplain]; rfl, by rw [Plain.ofJson, obstacles, hfree],
        by rw [Plain.ofJson, ofPlain, hback]⟩
  | bool b => exact ⟨.bool b, rfl, rfl, rfl⟩
  | string s => exact ⟨.str s, rfl, rfl, rfl⟩

/-- Metadata of the four kinds comes back from the plain data that it is. -/
theorem convert_toPlain (h : m.Bare) (hkeys : m.Distinct) :
    ∃ j, m.toPlain = .ok j ∧ convert (Plain.ofJson j) = .ok m := by
  obtain ⟨j, hback⟩ := exists_back h hkeys
  exact ⟨j, hback.plain, convert_eq_ok_iff.mpr ⟨hback.free, hback.back⟩⟩

/-- Metadata of maps, lists, truth values and texts comes back from the plain data that it is, with its keys in their
order.  Plain data becomes such metadata exactly if it holds no whole number with too many digits and does not lie in
itself, keys and members of sets included; what it becomes comes back from the plain data that it then is. -/
theorem convert_account (m : MetaValue) (value : Plain) :
    (m.Bare → m.Distinct → ∃ j, m.toPlain = .ok j ∧ convert (Plain.ofJson j) = .ok m) ∧
    ((∃ m, convert value = .ok m) ↔ ∀ (part : Plain) (fault : Fault), part.Inside value → ¬ part.Stops fault) ∧
    (∀ fault, convert value = .error fault → ∃ part : Plain, part.Inside value ∧ part.Stops fault) ∧
    ∀ m, convert value = .ok m →
      m.Bare ∧ m.Distinct ∧ ∃ j, m.toPlain = .ok j ∧ convert (Plain.ofJson j) = .ok m := by
  refine ⟨convert_toPlain, exists_convert_iff, fun fault => stops_of_convert, fun m h => ?_⟩
  have hbare : m.Bare := by
    rw [← (convert_eq_ok_iff.mp h).2]
    exact bare_ofPlain value
  have hkeys := distinct_convert h
  exact ⟨hbare, hkeys, convert_toPlain hbare hkeys⟩

/-- Two keys of which one is the number that the other one is the text of, and a pair. -/
def collidingKeys : Plain :=
  .map [(.int 1, .date ⟨2025, 1, 2⟩), (.null, .tuple [.bool true, .null]), (.str "1", .float (.zero true))]

/-- What becomes of them. -/
def collidedKeys : MetaValue := map [("1", string "-0.0"), ("None", list [bool true, string ""])]

/-- A number of 3601 hexadecimal digits. -/
def hexadecimal : Int := (16 : Int) ^ (36 * 100)

/-- The exponents stay names, for their powers are no numbers to compute with. -/
theorem isLong_hexadecimal : isLong hexadecimal = true := by
  have hpower : ∀ n limit, limit ≤ 43 * n → Nat.pow 10 limit ≤ ((16 : Int) ^ (36 * n)).natAbs := by
    intro n limit hlimit
    calc 10 ^ limit ≤ 10 ^ (43 * n) := Nat.pow_le_pow_right (by decide) hlimit
      _ = (10 ^ 43) ^ n := Nat.pow_mul 10 43 n
      _ ≤ (16 ^ 36) ^ n := Nat.pow_le_pow_left (by decide) n
      _ = 16 ^ (36 * n) := (Nat.pow_mul 16 36 n).symm
      _ = ((16 : Int) ^ (36 * n)).natAbs := (Int.natAbs_pow 16 _).symm
  exact decide_eq_true (hpower 100 digitLimit (by decide))

/-- The two keys become one, and the result comes back.  A number of more than 4300 digits stops the conversion, also
where it is an item. -/
theorem convert_collidingKeys :
    (∃ j, convert collidingKeys = .ok collidedKeys ∧ collidedKeys.toPlain = .ok j ∧
      convert (Plain.ofJson j) = .ok collidedKeys) ∧ ¬ ∃ m, convert (.list [.int hexadecimal]) = .ok m := by
  obtain ⟨-, -, -, hcomesBack⟩ := convert_account collidedKeys collidingKeys
  obtain ⟨-, hconverts, -, -⟩ := convert_account collidedKeys (.list [.int hexadecimal])
  have hfree : collidingKeys.obstacles = [] := by
    have hshort : ¬ isLong 1 = true := not_isLong (by decide)
    simp [collidingKeys, obstacles, itemObstacles, entryObstacles, hshort]
  have hcollided : convert collidingKeys = .ok collidedKeys := convert_eq_ok_iff.mpr ⟨hfree, by rfl⟩
  obtain ⟨-, -, j, hplain, hback⟩ := hcomesBack _ hcollided
  refine ⟨⟨j, hcollided, hplain, hback⟩, fun hok => ?_⟩
  have hinside : (Plain.int hexadecimal).Inside (.list [.int hexadecimal]) := .item List.mem_cons_self .here
  have hstops : (Plain.int hexadecimal).Stops (.value .longNumber) := .long isLong_hexadecimal
  exact hconverts.mp hok _ _ hinside hstops

end MetaValue

end DocFilter
