import DocFilter.Metadata.Store

/-!
# Metadata that is brought into a store

Bringing a value into the cells of a store puts the cell of each part before the cell that refers to it.  What
is read from the last cell is therefore the value, and it stays so when more cells are added.

* `MetaValue.Planted` says what bringing in a value does to the cells, `MetaValue.planted_plant` that it does.
* `Store.read?_ofEntries` says that the root of a new store is read as the map that it was made from.
-/

namespace DocFilter

namespace MetaValue

variable {cells cells' cells'' : Array MetaCell}

/-- The cells that were there are still there. -/
structure Kept (cells cells' : Array MetaCell) : Prop where
  size_le : cells.size ≤ cells'.size
  same : ∀ i < cells.size, cells'[i]? = cells[i]?

theorem Kept.refl (cells : Array MetaCell) : Kept cells cells := ⟨Nat.le_refl _, fun _ _ => rfl⟩

theorem Kept.trans (h : Kept cells cells') (h' : Kept cells' cells'') : Kept cells cells'' where
  size_le := Nat.le_trans h.size_le h'.size_le
  same := by
    intro i hi
    rw [h'.same i (Nat.lt_of_lt_of_le hi h.size_le), h.same i hi]

theorem kept_push (cells : Array MetaCell) (cell : MetaCell) : Kept cells (cells.push cell) where
  size_le := by simp
  same := by
    intro i hi
    rw [Array.getElem?_push, if_neg (by omega)]

/-- Some parts were brought in: they are read as what they were from all cells that keep these, with so much
fuel. -/
structure Planted {α : Type} (cells cells' : Array MetaCell) (read : Array MetaCell → (fuel : Nat) → Option α)
    (value : α) : Prop where
  kept : Kept cells cells'
  reads : ∀ cells'' fuel, Kept cells' cells'' → cells'.size ≤ fuel → read cells'' fuel = some value

/-- One part is brought in after others. -/
theorem Planted.andThen {α β : Type} {read : Array MetaCell → Nat → Option α} {value : α}
    {read' : Array MetaCell → Nat → Option (List β)} {b : α → β} {bs : List β}
    (h : Planted cells cells' read value) (h' : Planted cells' cells'' read' bs) :
    Planted cells cells'' (fun cells fuel => do
      let first ← (read cells fuel).map b
      let rest ← read' cells fuel
      pure (first :: rest)) (b value :: bs) where
  kept := h.kept.trans h'.kept
  reads := by
    intro later fuel hkept hfuel
    rw [h.reads later fuel (h'.kept.trans hkept) (Nat.le_trans h'.kept.size_le hfuel),
      h'.reads later fuel hkept hfuel]
    rfl

/-- A cell is put behind the parts that it refers to. -/
theorem Planted.gather {α : Type} {read : Array MetaCell → Nat → Option α} {value : α} {m : MetaValue}
    (h : Planted cells cells' read value) (cell : MetaCell)
    (hcell : ∀ cells'' fuel id, cells''[id.index]? = some cell → read cells'' fuel = some value →
      readCell cells'' (fuel + 1) id = some m) :
    Planted cells (cells'.push cell) (fun cells'' fuel => readCell cells'' fuel ⟨cells'.size⟩) m where
  kept := h.kept.trans (kept_push cells' cell)
  reads := by
    intro later fuel hkept hfuel
    rw [Array.size_push] at hfuel
    obtain ⟨fuel, rfl⟩ : ∃ rest, fuel = rest + 1 := ⟨fuel - 1, by omega⟩
    have hlast : later[cells'.size]? = some cell := by
      rw [hkept.same cells'.size (by simp), Array.getElem?_push_size]
    exact hcell later fuel ⟨cells'.size⟩ hlast
      (h.reads later fuel ((kept_push cells' cell).trans hkept) (by omega))

theorem planted_nothing (cells : Array MetaCell) : Planted cells cells (fun _ _ => some ()) () :=
  ⟨.refl cells, fun _ _ _ _ => rfl⟩

mutual

/-- A value that is brought in is read from the cell that it got. -/
theorem planted_plant : ∀ (m : MetaValue) (cells : Array MetaCell),
    Planted cells (m.plant cells).2 (fun cells'' fuel => readCell cells'' fuel (m.plant cells).1) m
  | map entries, cells =>
    (planted_plantEntries entries cells).gather (.map (plantEntries entries cells).1)
      fun cells'' fuel id hcell hbelow => by
        rw [readCell, hcell]
        dsimp only
        rw [hbelow]
        rfl
  | list items, cells =>
    (planted_plantItems items cells).gather (.list (plantItems items cells).1)
      fun cells'' fuel id hcell hbelow => by
        rw [readCell, hcell]
        dsimp only
        rw [hbelow]
        rfl
  | bool b, cells => (planted_nothing cells).gather (.bool b) fun _ _ _ hcell _ => by
      rw [readCell, hcell]
  | string s, cells => (planted_nothing cells).gather (.string s) fun _ _ _ hcell _ => by
      rw [readCell, hcell]
  | inlines nodes, cells => (planted_nothing cells).gather (.inlines nodes) fun _ _ _ hcell _ => by
      rw [readCell, hcell]
  | blocks nodes, cells => (planted_nothing cells).gather (.blocks nodes) fun _ _ _ hcell _ => by
      rw [readCell, hcell]

theorem planted_plantItems : ∀ (items : List MetaValue) (cells : Array MetaCell),
    Planted cells (plantItems items cells).2
      (fun cells'' fuel => (plantItems items cells).1.mapM (readCell cells'' fuel)) items
  | [], cells => ⟨.refl cells, fun _ _ _ _ => rfl⟩
  | item :: items, cells => by
    have hboth := (planted_plant item cells).andThen (b := id) (planted_plantItems items (item.plant cells).2)
    simp only [plantItems, List.mapM_cons]
    simpa using hboth

theorem planted_plantEntries : ∀ (entries : List (String × MetaValue)) (cells : Array MetaCell),
    Planted cells (plantEntries entries cells).2
      (fun cells'' fuel => (plantEntries entries cells).1.mapM fun entry =>
        (readCell cells'' fuel entry.2).map (entry.1.written, ·)) entries
  | [], cells => ⟨.refl cells, fun _ _ _ _ => rfl⟩
  | (key, value) :: entries, cells => by
    have hboth := (planted_plant value cells).andThen (b := fun m => (key, m))
      (planted_plantEntries entries (value.plant cells).2)
    simp only [plantEntries, List.mapM_cons]
    exact hboth

end

end MetaValue

/-- The root of a new store is read as the map that the store was made from. -/
theorem Store.read?_ofEntries (entries : List (String × MetaValue)) :
    (ofEntries entries).read? (ofEntries entries).root = some (.map entries) :=
  (MetaValue.planted_plant (.map entries) #[]).reads _ _ (.refl _) (Nat.le_succ _)

end DocFilter
