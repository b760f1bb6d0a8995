import DocFilter.Forest.Walk

/-!
# What an edit changes

Each edit of a forest is a few writes to records, and each write is seen by one of the views only.  This
module says, view by view, what the writes and the edits built from them do, so that no later proof
opens a record.

* Writes: `cell_update`, then one lemma for each write and view.
* Taking a node over: `children_take`, `holder?_take`.
* Edits that may be refused: `remove_eq_ok_iff`, `replace_eq_ok_iff`, `replaceWith_eq_ok_iff` say when
  an edit is done and what it gives.
-/

namespace DocFilter

namespace Forest

variable {f f' : Forest} {n m p c : NodeId}

/-- Whether there is such a node. -/
def Has (f : Forest) (n : NodeId) : Prop := n.index < f.size

instance : Decidable (f.Has n) := inferInstanceAs (Decidable (_ < _))

/-! ## Writes -/

theorem cell_of_not_has (h : ¬ f.Has n) : f.cell n = default := by
  have hnone : f.cells[n.index]? = none := by
    rw [Array.getElem?_eq_none_iff]
    exact Nat.le_of_not_lt h
  rw [cell, hnone]
  rfl

theorem cell_update (change : Cell → Cell) :
    (f.update n change).cell m = if m = n ∧ f.Has n then change (f.cell n) else f.cell m := by
  simp only [update, cell, Array.getElem?_modify]
  by_cases hmn : m = n
  · subst hmn
    by_cases hm : f.Has m
    · have hsome : ∃ c, f.cells[m.index]? = some c := ⟨_, Array.getElem?_eq_getElem hm⟩
      obtain ⟨c, hc⟩ := hsome
      simp [hm, hc]
    · have hnone : f.cells[m.index]? = none := Array.getElem?_eq_none (Nat.le_of_not_lt hm)
      simp [hm, hnone]
  · have hne : n.index ≠ m.index := fun h => hmn (by cases n; cases m; simp_all)
    simp [hmn, hne]

/-- A change that leaves a new record as it is can be made whether or not the node is there. -/
theorem cell_update_of_default {change : Cell → Cell} (h : change default = default) :
    (f.update n change).cell m = if m = n then change (f.cell m) else f.cell m := by
  rw [cell_update]
  by_cases hmn : m = n
  · subst hmn
    by_cases hhas : f.Has m
    · rw [if_pos ⟨rfl, hhas⟩, if_pos rfl]
    · rw [if_neg fun hcase => hhas hcase.2, if_pos rfl, cell_of_not_has hhas, h]
  · rw [if_neg fun hcase => hmn hcase.1, if_neg hmn]

/-- A view that a write does not touch. -/
theorem view_update {α : Type} (view : Cell → α) {change : Cell → Cell}
    (h : ∀ c, view (change c) = view c) :
    view ((f.update n change).cell m) = view (f.cell m) := by
  rw [cell_update]
  split
  · rename_i hm
    rw [h, hm.1]
  · rfl

@[simp] theorem size_update (change : Cell → Cell) : (f.update n change).size = f.size := by
  simp [update, size]

@[simp] theorem size_setChildren (cs : List NodeId) : (f.setChildren n cs).size = f.size :=
  size_update _

@[simp] theorem size_setHolder (h : Option NodeId) : (f.setHolder n h).size = f.size :=
  size_update _

@[simp] theorem size_setReplacement (r : Option NodeId) : (f.setReplacement n r).size = f.size :=
  size_update _

@[simp] theorem has_update (change : Cell → Cell) : (f.update n change).Has m ↔ f.Has m := by
  rw [Has, Has, size_update]

@[simp] theorem has_setChildren (cs : List NodeId) : (f.setChildren n cs).Has m ↔ f.Has m :=
  has_update _

@[simp] theorem has_setHolder (h : Option NodeId) : (f.setHolder n h).Has m ↔ f.Has m :=
  has_update _

@[simp] theorem has_setReplacement (r : Option NodeId) : (f.setReplacement n r).Has m ↔ f.Has m :=
  has_update _

@[simp] theorem kind_setChildren (cs : List NodeId) : (f.setChildren n cs).kind m = f.kind m :=
  view_update (·.kind) fun _ => rfl

@[simp] theorem kind_setHolder (h : Option NodeId) : (f.setHolder n h).kind m = f.kind m :=
  view_update (·.kind) fun _ => rfl

@[simp] theorem kind_setReplacement (r : Option NodeId) :
    (f.setReplacement n r).kind m = f.kind m :=
  view_update (·.kind) fun _ => rfl

@[simp] theorem children_setHolder (h : Option NodeId) :
    (f.setHolder n h).children m = f.children m :=
  view_update (·.children) fun _ => rfl

@[simp] theorem children_setReplacement (r : Option NodeId) :
    (f.setReplacement n r).children m = f.children m :=
  view_update (·.children) fun _ => rfl

@[simp] theorem holder?_setChildren (cs : List NodeId) :
    (f.setChildren n cs).holder? m = f.holder? m :=
  view_update (·.holder) fun _ => rfl

@[simp] theorem holder?_setReplacement (r : Option NodeId) :
    (f.setReplacement n r).holder? m = f.holder? m :=
  view_update (·.holder) fun _ => rfl

@[simp] theorem replacement?_setChildren (cs : List NodeId) :
    (f.setChildren n cs).replacement? m = f.replacement? m :=
  view_update (·.replacement) fun _ => rfl

@[simp] theorem replacement?_setHolder (h : Option NodeId) :
    (f.setHolder n h).replacement? m = f.replacement? m :=
  view_update (·.replacement) fun _ => rfl

theorem children_setChildren (cs : List NodeId) :
    (f.setChildren n cs).children m = if m = n ∧ f.Has n then cs else f.children m := by
  rw [children, setChildren, cell_update]
  split <;> rfl

theorem holder?_setHolder (h : Option NodeId) :
    (f.setHolder n h).holder? m = if m = n ∧ f.Has n then h else f.holder? m := by
  rw [holder?, setHolder, cell_update]
  split <;> rfl

theorem replacement?_setReplacement (r : Option NodeId) :
    (f.setReplacement n r).replacement? m = if m = n ∧ f.Has n then r else f.replacement? m := by
  rw [replacement?, setReplacement, cell_update]
  split <;> rfl

theorem children_of_not_has (h : ¬ f.Has n) : f.children n = [] := by
  rw [children, cell_of_not_has h]
  rfl

theorem replacement?_of_not_has (h : ¬ f.Has n) : f.replacement? n = none := by
  rw [replacement?, cell_of_not_has h]
  rfl

theorem cell_add_of_has {made : Cell} (h : f.Has n) : (f.add made).2.cell n = f.cell n := by
  rw [cell, cell, add, Array.getElem?_push_lt h, Array.getElem?_eq_getElem h]

theorem cell_add_of_eq {made : Cell} (h : n.index = f.size) : (f.add made).2.cell n = made := by
  rw [cell, add, h, size, Array.getElem?_push_size]
  rfl

/-- Writing what is there already changes nothing. -/
theorem update_eq_self {change : Cell → Cell} (h : change (f.cell n) = f.cell n) :
    f.update n change = f := by
  obtain ⟨cells⟩ := f
  have hcells : cells.modify n.index change = cells := by
    refine Array.ext_getElem? fun i => ?_
    rw [Array.getElem?_modify]
    split
    · rename_i hi
      subst hi
      cases hcell : cells[n.index]? with
      | none => rfl
      | some c =>
        rw [cell] at h
        simp only [hcell, Option.getD_some] at h
        simp [h]
    · rfl
  rw [update, hcells]

theorem setReplacement_eq_self {r : Option NodeId} (h : f.replacement? n = r) :
    f.setReplacement n r = f := by
  subst h
  exact update_eq_self rfl

theorem setHolder_eq_self {q : Option NodeId} (h : f.holder? n = q) : f.setHolder n q = f := by
  subst h
  exact update_eq_self rfl

/-! ## Positions -/

theorem isSome_indexOf? : (f.indexOf? p c).isSome ↔ c ∈ f.children p := by
  simp [indexOf?]

theorem indexOf?_eq_none_iff : f.indexOf? p c = none ↔ c ∉ f.children p := by
  rw [← isSome_indexOf?]
  simp

theorem indexOf?_of_split {done rest : List NodeId} (h : f.children p = done ++ c :: rest)
    (hdone : c ∉ done) : f.indexOf? p c = some done.length := by
  rw [indexOf?, h, List.findIdx?_append]
  have hnone : done.findIdx? (· == c) = none := by
    rw [List.findIdx?_eq_none_iff]
    intro d hd
    have hne : d ≠ c := fun hdc => hdone (hdc ▸ hd)
    simpa using hne
  simp [hnone, List.findIdx?_cons]

/-- Leaving out the entry at the position of a node erases the node. -/
theorem eraseIdx_of_indexOf? {i : Nat} (h : f.indexOf? p c = some i) :
    (f.children p).eraseIdx i = (f.children p).erase c := by
  have hi : (f.children p).idxOf? c = some i := h
  rw [List.erase_eq_eraseIdx, hi]

/-- Writing at the position of a node replaces the node. -/
theorem set_of_indexOf? {i : Nat} (h : f.indexOf? p c = some i) :
    (f.children p).set i m = (f.children p).replace c m := by
  rw [indexOf?] at h
  generalize f.children p = cs at h
  induction cs generalizing i with
  | nil => simp at h
  | cons d cs ih =>
    rw [List.findIdx?_cons] at h
    by_cases hd : d = c
    · subst hd
      simp only [beq_self_eq_true, if_true, Option.some.injEq] at h
      subst h
      simp
    · have hdc : (d == c) = false := by simpa using hd
      simp only [hdc, Bool.false_eq_true, if_false, Option.map_eq_some_iff] at h
      obtain ⟨j, hj, rfl⟩ := h
      have hcd : (c == d) = false := by simpa using Ne.symm hd
      rw [List.set_cons_succ, ih hj, List.replace_cons, hcd]

/-! ## Taking a node over -/

@[simp] theorem size_take : (f.take p n).size = f.size := by
  rw [take, adopt]
  split
  · simp
  · split <;> simp

@[simp] theorem replacement?_take : (f.take p n).replacement? m = f.replacement? m := by
  rw [take, adopt]
  split
  · simp
  · split <;> simp

theorem holder?_take : (f.take p n).holder? m = if m = n ∧ f.Has n then some p else f.holder? m := by
  rw [take, adopt]
  split
  · rw [holder?_setHolder]
  · split
    · rw [holder?_setHolder]
    · simp [holder?_setHolder]

theorem children_take :
    (f.take p n).children m =
      if f.holder? n = some m then (f.children m).erase n else f.children m := by
  rw [take, adopt]
  split
  · rename_i hnone
    simp [hnone]
  · rename_i q hq
    split
    · rename_i habsent
      rw [indexOf?_eq_none_iff] at habsent
      by_cases hqm : q = m
      · subst hqm
        simp [hq, List.erase_of_not_mem habsent]
      · simp [hq, hqm]
    · rename_i i hi
      rw [children_setHolder, children_setChildren, eraseIdx_of_indexOf? hi, hq]
      by_cases hmq : m = q
      · subst hmq
        by_cases hhas : f.Has m
        · simp [hhas]
        · simp [hhas, children_of_not_has hhas]
      · have hqm : q ≠ m := Ne.symm hmq
        simp [hmq, hqm]

/-- A node that is taken over leaves the other nodes where they are. -/
theorem mem_children_take (hcn : c ≠ n) :
    c ∈ (f.take p n).children m ↔ c ∈ f.children m := by
  rw [children_take]
  split
  · exact List.mem_erase_of_ne hcn
  · rfl

/-! ## Reaching a child -/

@[simp] theorem size_reach : (Walker.reach f p c).size = f.size := by
  simp [Walker.reach, adopt]

@[simp] theorem kind_reach : (Walker.reach f p c).kind m = f.kind m := by
  simp [Walker.reach, adopt]

@[simp] theorem children_reach : (Walker.reach f p c).children m = f.children m := by
  simp [Walker.reach, adopt]

theorem holder?_reach :
    (Walker.reach f p c).holder? m = if m = c ∧ f.Has c then some p else f.holder? m := by
  rw [Walker.reach, adopt, holder?_setReplacement, holder?_setHolder]

theorem replacement?_reach :
    (Walker.reach f p c).replacement? m = if m = c then none else f.replacement? m := by
  rw [Walker.reach, adopt, replacement?_setReplacement, replacement?_setHolder]
  by_cases hmc : m = c
  · subst hmc
    by_cases hm : f.Has m
    · simp [hm]
    · simp [hm, replacement?_of_not_has hm]
  · simp [hmc]

theorem reach_eq_self (hholder : f.holder? c = some p) (hmark : f.replacement? c = none) :
    Walker.reach f p c = f := by
  rw [Walker.reach, adopt, setHolder_eq_self hholder, setReplacement_eq_self hmark]

/-! ## Edits that may be refused -/

theorem remove_eq_ok_iff :
    f.remove p c = .ok f' ↔
      c ∈ f.children p ∧ f' = (f.setChildren p ((f.children p).erase c)).setHolder c none := by
  rw [remove]
  split
  · rename_i hnone
    rw [indexOf?_eq_none_iff] at hnone
    simp [hnone]
  · rename_i i hi
    have hmem : c ∈ f.children p := isSome_indexOf?.mp (by simp [hi])
    rw [eraseIdx_of_indexOf? hi]
    simp [hmem, eq_comm]

theorem children_of_remove (h : f.remove p c = .ok f') :
    f'.children m = if m = p then (f.children p).erase c else f.children m := by
  obtain ⟨hmem, rfl⟩ := remove_eq_ok_iff.mp h
  have hp : f.Has p := Decidable.byContradiction fun hno => by
    rw [children_of_not_has hno] at hmem
    simp at hmem
  simp [children_setChildren, hp]

theorem size_of_remove (h : f.remove p c = .ok f') : f'.size = f.size := by
  obtain ⟨-, rfl⟩ := remove_eq_ok_iff.mp h
  simp

theorem replacement?_of_remove (h : f.remove p c = .ok f') :
    f'.replacement? m = f.replacement? m := by
  obtain ⟨-, rfl⟩ := remove_eq_ok_iff.mp h
  simp

theorem kind_of_remove (h : f.remove p c = .ok f') : f'.kind m = f.kind m := by
  obtain ⟨-, rfl⟩ := remove_eq_ok_iff.mp h
  simp

/-- A node can take the place of a child if it is another one and climbing from the place comes to the top
without meeting it. -/
structure Fits (f : Forest) (p c n : NodeId) : Prop where
  mem : c ∈ f.children p
  ne_child : n ≠ c
  unmet : f.meets p n = .ok false

/-- Puts a node that fits in the place of a child. -/
def put (f : Forest) (p c n : NodeId) : Forest :=
  let f := f.take p n
  (f.setChildren p ((f.children p).replace c n)).setReplacement c (some n)

theorem replace_eq_ok_iff :
    f.replace p c n = .ok f' ↔
      (c ∈ f.children p ∧ n = c ∧ f' = f) ∨ (f.Fits p c n ∧ f' = f.put p c n) := by
  rw [replace]
  split
  · rename_i hnone
    rw [indexOf?_eq_none_iff] at hnone
    have hno : ¬ f.Fits p c n := fun h => hnone h.mem
    simp [hnone, hno]
  · rename_i i hi
    have hmem : c ∈ f.children p := isSome_indexOf?.mp (by simp [hi])
    split
    · rename_i hnc
      subst hnc
      have hno : ¬ f.Fits p n n := fun h => h.ne_child rfl
      simp [hmem, hno, eq_comm]
    · rename_i hnc
      rcases hmeets : f.meets p n with fault | _ | _
      · have hno : ¬ f.Fits p c n := fun h => by cases hmeets.symm.trans h.unmet
        simp [hnc, hno]
      · have hfits : f.Fits p c n := ⟨hmem, hnc, hmeets⟩
        have hstill : c ∈ (f.take p n).children p := (mem_children_take (Ne.symm hnc)).mpr hmem
        dsimp only
        split
        · rename_i hgone
          rw [indexOf?_eq_none_iff] at hgone
          exact absurd hstill hgone
        · rename_i j hj
          rw [set_of_indexOf? hj]
          simp [hnc, hfits, put, eq_comm]
      · have hno : ¬ f.Fits p c n := fun h => by cases hmeets.symm.trans h.unmet
        simp [hnc, hno]

theorem replaceWith_eq_ok_iff :
    f.replaceWith n m = .ok f' ↔
      ∃ p, f.holder? n = some p ∧ n ∈ f.children p ∧ f.replace p n m = .ok f' := by
  rw [replaceWith]
  split
  · rename_i hnone
    simp [hnone]
  · rename_i p hp
    split
    · rename_i hnone
      rw [indexOf?_eq_none_iff] at hnone
      simp [hp, hnone]
    · rename_i i hi
      have hmem : n ∈ f.children p := isSome_indexOf?.mp (by simp [hi])
      simp [hp, hmem]

/-! ## Putting a node in the place of another -/

@[simp] theorem size_put : (f.put p c n).size = f.size := by
  simp [put]

theorem replacement?_put (hc : f.Has c) :
    (f.put p c n).replacement? m = if m = c then some n else f.replacement? m := by
  have htake : (f.take p n).Has c := by
    rw [Has, size_take]
    exact hc
  simp [put, replacement?_setReplacement, htake]

theorem children_put :
    (f.put p c n).children m =
      if m = p then ((f.take p n).children p).replace c n else (f.take p n).children m := by
  rw [put, children_setReplacement, children_setChildren]
  by_cases hmp : m = p
  · subst hmp
    by_cases hm : (f.take m n).Has m
    · simp [hm]
    · simp [hm, children_of_not_has hm]
  · simp [hmp]

theorem holder?_put : (f.put p c n).holder? m = (f.take p n).holder? m := by
  simp [put]

end Forest

end DocFilter
