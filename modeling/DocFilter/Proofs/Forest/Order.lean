import DocFilter.Proofs.Forest.Cells

/-!
# The order of a tree

Nodes refer to their children by identity, so nothing but a proof says that what lies below a node is a
tree.  `Forest.Lists` is that proof: it unfolds the lists of children and gives the nodes in the order in
which they are written, a node before those below it.  A node that lies below itself has no such order.

* `Forest.Below` is the relation between a node and those below it, itself included.
* `Forest.Lists.mem_iff` says that an order holds exactly the nodes below.
* `Forest.Lists.congr` is the frame property: an order depends on the children of its nodes only.
* `Forest.order?` computes an order.
* `Forest.Strict` says that the order has each node once, and that the nodes exist.
-/

namespace DocFilter

namespace Forest

variable {f f' : Forest} {n m c p : NodeId} {ns ms order order' : List NodeId}

/-! ## Below -/

/-- A node is another one or lies below it. -/
inductive Below (f : Forest) : NodeId → NodeId → Prop where
  | refl (n : NodeId) : Below f n n
  | child {n c m : NodeId} : c ∈ f.children n → Below f c m → Below f n m

theorem Below.trans (hnc : f.Below n c) (hcm : f.Below c m) : f.Below n m := by
  induction hnc with
  | refl => exact hcm
  | child hmem _ ih => exact .child hmem (ih hcm)

theorem Below.of_mem (h : c ∈ f.children n) : f.Below n c := .child h (.refl c)

theorem below_iff : f.Below n m ↔ m = n ∨ ∃ c ∈ f.children n, f.Below c m := by
  constructor
  · intro h
    cases h with
    | refl => exact .inl rfl
    | child hmem h => exact .inr ⟨_, hmem, h⟩
  · rintro (rfl | ⟨c, hmem, h⟩)
    · exact .refl m
    · exact .child hmem h

/-! ## Lists -/

/-- The nodes below some nodes in the order in which they are written. -/
inductive Lists (f : Forest) : List NodeId → List NodeId → Prop where
  | nil : Lists f [] []
  | cons {n : NodeId} {rest inner after : List NodeId} :
      Lists f (f.children n) inner → Lists f rest after → Lists f (n :: rest) (n :: (inner ++ after))

theorem lists_nil_iff : f.Lists [] order ↔ order = [] := by
  constructor
  · intro h
    cases h
    rfl
  · rintro rfl
    exact .nil

theorem lists_cons_iff :
    f.Lists (n :: ns) order ↔
      ∃ inner after, f.Lists (f.children n) inner ∧ f.Lists ns after ∧
        order = n :: (inner ++ after) := by
  constructor
  · intro h
    cases h with
    | cons hinner hafter => exact ⟨_, _, hinner, hafter, rfl⟩
  · rintro ⟨inner, after, hinner, hafter, rfl⟩
    exact .cons hinner hafter

theorem lists_append_iff :
    f.Lists (ns ++ ms) order ↔
      ∃ first second, f.Lists ns first ∧ f.Lists ms second ∧ order = first ++ second := by
  induction ns generalizing order with
  | nil => simp [lists_nil_iff]
  | cons n ns ih =>
    rw [List.cons_append, lists_cons_iff]
    constructor
    · rintro ⟨inner, after, hinner, hafter, rfl⟩
      obtain ⟨first, second, hfirst, hsecond, rfl⟩ := ih.mp hafter
      exact ⟨_, second, .cons hinner hfirst, hsecond, by simp⟩
    · rintro ⟨first, second, hfirst, hsecond, rfl⟩
      obtain ⟨inner, after, hinner, hafter, rfl⟩ := lists_cons_iff.mp hfirst
      exact ⟨inner, after ++ second, hinner, ih.mpr ⟨after, second, hafter, hsecond, rfl⟩, by simp⟩

theorem lists_singleton_iff :
    f.Lists [n] order ↔ ∃ inner, f.Lists (f.children n) inner ∧ order = n :: inner := by
  simp [lists_cons_iff, lists_nil_iff]

theorem Lists.append {first second : List NodeId} (hns : f.Lists ns first)
    (hms : f.Lists ms second) : f.Lists (ns ++ ms) (first ++ second) :=
  lists_append_iff.mpr ⟨first, second, hns, hms, rfl⟩

/-- An order holds the nodes below. -/
theorem Lists.mem_iff (h : f.Lists ns order) : m ∈ order ↔ ∃ n ∈ ns, f.Below n m := by
  induction h with
  | nil => simp
  | @cons n rest inner after _ _ ihinner ihafter =>
    rw [List.mem_cons, List.mem_append, ihinner, ihafter, ← or_assoc, ← below_iff]
    simp

theorem Lists.mem_of_mem (h : f.Lists ns order) (hn : n ∈ ns) : n ∈ order :=
  h.mem_iff.mpr ⟨n, hn, .refl n⟩

theorem Lists.mem_singleton_iff (h : f.Lists [n] order) : m ∈ order ↔ f.Below n m := by
  simp [h.mem_iff]

/-- The children of a listed node are listed. -/
theorem Lists.mem_of_mem_children (h : f.Lists ns order) (hm : m ∈ order)
    (hc : c ∈ f.children m) : c ∈ order := by
  obtain ⟨n, hn, hbelow⟩ := h.mem_iff.mp hm
  exact h.mem_iff.mpr ⟨n, hn, hbelow.trans (.of_mem hc)⟩

/-- An order depends on the children of its nodes only. -/
theorem Lists.congr (h : f.Lists ns order) (hsame : ∀ n ∈ order, f'.children n = f.children n) :
    f'.Lists ns order := by
  induction h with
  | nil => exact .nil
  | @cons n rest inner after _ _ ihinner ihafter =>
    have hn : f'.children n = f.children n := hsame n (by simp)
    refine .cons ?_ (ihafter fun m hm => hsame m (by simp [hm]))
    rw [hn]
    exact ihinner fun m hm => hsame m (by simp [hm])

/-- The nodes themselves are listed in their order. -/
theorem Lists.sublist (h : f.Lists ns order) : ns.Sublist order := by
  induction h with
  | nil => exact .refl _
  | @cons n rest inner after _ _ _ ihafter =>
    exact (ihafter.trans (List.sublist_append_right inner after)).cons_cons n

/-- Nodes have one order only. -/
theorem Lists.unique (h : f.Lists ns order) (h' : f.Lists ns order') : order = order' := by
  induction h generalizing order' with
  | nil => exact (lists_nil_iff.mp h').symm
  | cons _ _ ihinner ihafter =>
    obtain ⟨inner', after', hinner', hafter', rfl⟩ := lists_cons_iff.mp h'
    rw [ihinner hinner', ihafter hafter']

/-- The order of a listed node lies within the order. -/
theorem Lists.exists_own (h : f.Lists ns order) (hm : m ∈ order) :
    ∃ own, f.Lists [m] own ∧ own.Sublist order := by
  induction h with
  | nil => simp at hm
  | @cons n rest inner after hinner _ ihinner ihafter =>
    rcases List.mem_cons.mp hm with rfl | hm
    · refine ⟨m :: inner, lists_singleton_iff.mpr ⟨inner, hinner, rfl⟩, ?_⟩
      exact (List.sublist_append_left inner after).cons_cons m
    · rcases List.mem_append.mp hm with hm | hm
      · obtain ⟨own, hown, hsub⟩ := ihinner hm
        exact ⟨own, hown, (hsub.trans (List.sublist_append_left inner after)).cons n⟩
      · obtain ⟨own, hown, hsub⟩ := ihafter hm
        exact ⟨own, hown, (hsub.trans (List.sublist_append_right inner after)).cons n⟩

/-- The order of the children of a listed node lies within the order. -/
theorem Lists.exists_inner (h : f.Lists ns order) (hm : m ∈ order) :
    ∃ inner, f.Lists (f.children m) inner ∧ inner.Sublist order := by
  obtain ⟨own, hown, hsub⟩ := h.exists_own hm
  obtain ⟨inner, hinner, rfl⟩ := lists_singleton_iff.mp hown
  exact ⟨inner, hinner, (List.sublist_cons_self m inner).trans hsub⟩

/-- Where each node is listed once, no node is held twice by one that is listed. -/
theorem Lists.nodup_children (h : f.Lists ns order) (hnodup : order.Nodup) (hm : m ∈ order) :
    (f.children m).Nodup := by
  obtain ⟨inner, hinner, hsub⟩ := h.exists_inner hm
  exact hnodup.sublist (hinner.sublist.trans hsub)

/-- Where each node is listed once, no node that is held by a listed one stands at the top, and no two listed
ones hold the same. -/
theorem Lists.held_once {q : NodeId} (h : f.Lists ns order) (hnodup : order.Nodup) (hp : p ∈ order)
    (hq : q ∈ order) (hcp : c ∈ f.children p) (hcq : c ∈ f.children q) : c ∉ ns ∧ p = q := by
  induction h generalizing p q with
  | nil => simp at hp
  | @cons n rest inner after hinner hafter ihinner ihafter =>
    rw [List.nodup_cons, List.nodup_append] at hnodup
    obtain ⟨hn, hin, haf, hapart⟩ := hnodup
    have hplace : ∀ m, m ∈ n :: (inner ++ after) → c ∈ f.children m →
        m = n ∧ c ∈ inner ∨ m ∈ inner ∧ c ∈ inner ∨ m ∈ after ∧ c ∈ after := fun m hm hc => by
      rcases List.mem_cons.mp hm with rfl | hm
      · exact .inl ⟨rfl, hinner.mem_of_mem hc⟩
      · exact (List.mem_append.mp hm).elim
          (fun hm => .inr (.inl ⟨hm, hinner.mem_of_mem_children hm hc⟩))
          fun hm => .inr (.inr ⟨hm, hafter.mem_of_mem_children hm hc⟩)
    have htop : c ∉ rest → c ∉ n :: rest := fun hrest hmem => by
      rcases List.mem_cons.mp hmem with rfl | hmem
      · rcases hplace p hp hcp with ⟨-, hc⟩ | ⟨-, hc⟩ | ⟨-, hc⟩ <;> exact hn (by simp [hc])
      · exact hrest hmem
    rcases hplace p hp hcp with ⟨rfl, hc⟩ | ⟨hpin, hc⟩ | ⟨hpaf, hc⟩ <;>
      rcases hplace q hq hcq with ⟨rfl, hc'⟩ | ⟨hqin, hc'⟩ | ⟨hqaf, hc'⟩
    · exact ⟨htop fun hrest => hapart c hc c (hafter.mem_of_mem hrest) rfl, rfl⟩
    · exact absurd hcp (ihinner hin hqin hqin hcq hcq).1
    · exact absurd rfl (hapart c hc c hc')
    · exact absurd hcq (ihinner hin hpin hpin hcp hcp).1
    · have heq := (ihinner hin hpin hqin hcp hcq).2
      exact ⟨htop fun hrest => hapart c hc c (hafter.mem_of_mem hrest) rfl, heq⟩
    · exact absurd rfl (hapart c hc c hc')
    · exact absurd rfl (hapart c hc' c hc)
    · exact absurd rfl (hapart c hc' c hc)
    · obtain ⟨hrest, heq⟩ := ihafter haf hpaf hqaf hcp hcq
      exact ⟨htop hrest, heq⟩

/-- What lies below agrees where the children do. -/
theorem Lists.below_congr (h : f.Lists [n] order)
    (hsame : ∀ m ∈ order, f'.children m = f.children m) : f'.Below n m ↔ f.Below n m := by
  rw [← h.mem_singleton_iff, ← (h.congr hsame).mem_singleton_iff]

/-- The order of some nodes, if it can be had with so much fuel. -/
def order? (f : Forest) : (fuel : Nat) → List NodeId → Option (List NodeId)
  | 0, _ => none
  | _ + 1, [] => some []
  | fuel + 1, n :: ns => do
    let inner ← f.order? fuel (f.children n)
    let after ← f.order? fuel ns
    some (n :: (inner ++ after))

theorem lists_of_order? {fuel : Nat} (h : f.order? fuel ns = some order) : f.Lists ns order := by
  induction fuel generalizing ns order with
  | zero => cases h
  | succ fuel ih =>
    cases ns with
    | nil =>
      cases h
      exact .nil
    | cons n ns =>
      simp only [order?, Option.bind_eq_bind, Option.bind_eq_some_iff] at h
      obtain ⟨inner, hinner, after, hafter, h⟩ := h
      cases h
      exact .cons (ih hinner) (ih hafter)

/-! ## Strict trees -/

/-- The nodes below a node exist and have an order with each of them once. -/
def Strict (f : Forest) (n : NodeId) : Prop :=
  ∃ order, f.Lists [n] order ∧ order.Nodup ∧ ∀ m ∈ order, f.Has m

/-- The top of a strict tree is held by none of its nodes. -/
theorem Strict.not_mem_children (h : f.Strict n) (hm : f.Below n m) : n ∉ f.children m := by
  obtain ⟨order, horder, hnodup, -⟩ := h
  obtain ⟨inner, hinner, rfl⟩ := lists_singleton_iff.mp horder
  intro hmem
  refine (List.nodup_cons.mp hnodup).1 ?_
  rcases List.mem_cons.mp (horder.mem_singleton_iff.mpr hm) with rfl | hm
  · exact hinner.mem_of_mem hmem
  · exact hinner.mem_of_mem_children hm hmem

theorem Strict.has (h : f.Strict n) (hm : f.Below n m) : f.Has m := by
  obtain ⟨order, horder, -, hhas⟩ := h
  exact hhas m (horder.mem_singleton_iff.mpr hm)

theorem Strict.nodup_children (h : f.Strict n) (hm : f.Below n m) : (f.children m).Nodup := by
  obtain ⟨order, horder, hnodup, -⟩ := h
  exact horder.nodup_children hnodup (horder.mem_singleton_iff.mpr hm)

/-- Every node of a strict tree heads one. -/
theorem Strict.of_below (h : f.Strict n) (hm : f.Below n m) : f.Strict m := by
  obtain ⟨order, horder, hnodup, hhas⟩ := h
  obtain ⟨own, hown, hsub⟩ := horder.exists_own (horder.mem_singleton_iff.mpr hm)
  exact ⟨own, hown, hnodup.sublist hsub, fun k hk => hhas k (hsub.subset hk)⟩

/-- No node of a strict tree lies below one of its own children. -/
theorem Strict.not_below_child (h : f.Strict n) (hm : f.Below n m) (hc : c ∈ f.children m) :
    ¬ f.Below c m :=
  fun hback => (h.of_below (hm.trans (.of_mem hc))).not_mem_children hback hc

/-- No two nodes of a strict tree hold the same one. -/
theorem Strict.held_once {q : NodeId} (h : f.Strict n) (hp : f.Below n p) (hq : f.Below n q)
    (hcp : c ∈ f.children p) (hcq : c ∈ f.children q) : p = q := by
  obtain ⟨order, horder, hnodup, -⟩ := h
  exact (horder.held_once hnodup (horder.mem_singleton_iff.mpr hp) (horder.mem_singleton_iff.mpr hq)
    hcp hcq).2

/-- A strict tree stays one where its nodes keep their children and their existence. -/
theorem Strict.congr (h : f.Strict n) (hsame : ∀ m, f.Below n m → f'.children m = f.children m)
    (hgrows : f.size ≤ f'.size) : f'.Strict n := by
  obtain ⟨order, horder, hnodup, hhas⟩ := h
  have hkept := horder.congr fun m hm => hsame m (horder.mem_singleton_iff.mp hm)
  exact ⟨order, hkept, hnodup, fun m hm => Nat.lt_of_lt_of_le (hhas m hm) hgrows⟩

theorem Strict.below_congr (h : f.Strict n)
    (hsame : ∀ m, f.Below n m → f'.children m = f.children m) : f'.Below n m ↔ f.Below n m := by
  obtain ⟨order, horder, -, -⟩ := h
  exact horder.below_congr fun m hm => hsame m (horder.mem_singleton_iff.mp hm)

end Forest

end DocFilter
