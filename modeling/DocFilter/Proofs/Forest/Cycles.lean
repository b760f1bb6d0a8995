import DocFilter.Proofs.Forest.Order
import DocFilter.Proofs.Forest.Planting

/-!
# Cycles

An edit that adds a node to the children of another one moves a whole tree, and nothing but the place it
goes to decides whether the result is a tree again.  Replacing a child asks first whether the new node
holds the place; adding and inserting do not.

* `Forest.Acyclic` says that no node lies below itself, and `Forest.Linked.strict` that this is enough for
  every node to head a strict tree.
* `Forest.Climbs` follows the holders of a node and `Forest.Topped` says that this comes to an end;
  `Forest.meets_eq_true_iff` and `Forest.meets_eq_false_iff` say that the climb of a forest finds what there
  is, however far.
* `Forest.Acyclic.graft_iff` and `Forest.Grafts.topped_iff` say what moving a node does: to the trees, which
  close if the node goes to a place below it, and to the climb, which closes if it goes to a place that
  climbs to it.  A node that was detached may still name a holder, so the second happens without the first.
* `Move.acyclic_iff_not_swallows` is the account for the edits.
-/

namespace DocFilter

namespace Forest

variable {f f' : Forest} {n m p q c a b : NodeId} {ns order path : List NodeId}

/-- No node lies below one of its own children. -/
def Acyclic (f : Forest) : Prop := ∀ n, ∀ c ∈ f.children n, ¬ f.Below c n

/-! ## Strict trees from links -/

/-- Different nodes of a forest are no more than it has. -/
theorem length_le_size (hnodup : ns.Nodup) (hhas : ∀ n ∈ ns, f.Has n) : ns.length ≤ f.size := by
  have hindices : (ns.map NodeId.index).Nodup := by
    refine hnodup.map_on fun a _ b _ hab => ?_
    cases a
    exact congrArg NodeId.mk hab
  have hsub : ns.map NodeId.index ⊆ List.range f.size := fun i hi => by
    obtain ⟨n, hn, rfl⟩ := List.mem_map.mp hi
    exact List.mem_range.mpr (hhas n hn)
  simpa using (hindices.subperm hsub).length_le

theorem lists_of_forall (h : ∀ n ∈ ns, ∃ order, f.Lists [n] order) : ∃ order, f.Lists ns order := by
  induction ns with
  | nil => exact ⟨[], .nil⟩
  | cons n ns ih =>
    rw [List.forall_mem_cons] at h
    obtain ⟨first, hfirst⟩ := h.1
    obtain ⟨second, hsecond⟩ := ih h.2
    exact ⟨first ++ second, hfirst.append hsecond⟩

/-- Going down from node to node, the nodes passed are different ones, so the fuel left is enough. -/
theorem exists_lists_of_path {fuel : Nat} (h : ∀ m, f.Below n m → ∀ c ∈ f.children m, ¬ f.Below c m)
    (hnodup : path.Nodup) (hhas : ∀ p ∈ path, f.Has p) (habove : ∀ p ∈ path, ∃ c ∈ f.children p, f.Below c n)
    (hfuel : f.size < path.length + fuel) : ∃ order, f.Lists [n] order := by
  induction fuel generalizing path n with
  | zero =>
    have hlength := length_le_size hnodup hhas
    omega
  | succ fuel ih =>
    by_cases hn : f.Has n
    · have hnew : n ∉ path := fun hmem => by
        obtain ⟨c, hc, hbelow⟩ := habove n hmem
        exact h n (.refl n) c hc hbelow
      obtain ⟨inner, hinner⟩ : ∃ inner, f.Lists (f.children n) inner := by
        refine lists_of_forall fun c hc => ih ?_ (List.nodup_cons.mpr ⟨hnew, hnodup⟩) ?_ ?_ ?_
        · exact fun m hm => h m (.child hc hm)
        · exact List.forall_mem_cons.mpr ⟨hn, hhas⟩
        · refine List.forall_mem_cons.mpr ⟨⟨c, hc, .refl c⟩, fun p hp => ?_⟩
          obtain ⟨d, hd, hbelow⟩ := habove p hp
          exact ⟨d, hd, hbelow.trans (.of_mem hc)⟩
        · rw [List.length_cons]
          omega
      exact ⟨n :: inner, lists_singleton_iff.mpr ⟨inner, hinner, rfl⟩⟩
    · refine ⟨[n], lists_singleton_iff.mpr ⟨[], ?_, rfl⟩⟩
      rw [children_of_not_has hn]
      exact .nil

/-- Where no node below a top lies below itself, what is below the top has an order. -/
theorem exists_lists (h : ∀ m, f.Below n m → ∀ c ∈ f.children m, ¬ f.Below c m) :
    ∃ order, f.Lists [n] order := by
  have hfuel : f.size < ([] : List NodeId).length + (f.size + 1) := by simp
  exact exists_lists_of_path h .nil (by simp) (by simp) hfuel

theorem Below.eq_or_held (h : f.Below a m) : m = a ∨ ∃ q, f.Below a q ∧ m ∈ f.children q := by
  induction h with
  | refl => exact .inl rfl
  | @child a c m hc hbelow ih =>
    rcases ih with rfl | ⟨q, hq, hm⟩
    · exact .inr ⟨a, .refl a, hc⟩
    · exact .inr ⟨q, .child hc hq, hm⟩

/-- Of two nodes above a third, one is above the other. -/
theorem Linked.below_total (h : f.Linked) (ha : f.Below a m) (hb : f.Below b m) :
    f.Below a b ∨ f.Below b a := by
  induction ha with
  | refl => exact .inr hb
  | @child a c m hc _ ih =>
    rcases ih hb with hcb | hbc
    · exact .inl (.child hc hcb)
    · rcases hbc.eq_or_held with rfl | ⟨q, hbq, hcq⟩
      · exact .inl (.of_mem hc)
      · exact .inr (h.unique hcq hc ▸ hbq)

/-- Two children of a node are not below each other. -/
theorem Linked.siblings_apart (h : f.Linked) (ha : f.Acyclic) (hb : b ∈ f.children p)
    (hc : c ∈ f.children p) (hbc : b ≠ c) : ¬ f.Below b c := by
  intro hbelow
  rcases hbelow.eq_or_held with rfl | ⟨q, hbq, hcq⟩
  · exact hbc rfl
  · exact ha p b hb (h.unique hcq hc ▸ hbq)

theorem Linked.nodup_order (h : f.Linked) (ha : f.Acyclic) (horder : f.Lists ns order)
    (hnodup : ns.Nodup) (hapart : ∀ b ∈ ns, ∀ c ∈ ns, b ≠ c → ¬ f.Below b c) : order.Nodup := by
  induction horder with
  | nil => exact .nil
  | @cons n rest inner after hinner hafter ihinner ihafter =>
    rw [List.nodup_cons] at hnodup
    have hrest : ∀ b ∈ rest, b ≠ n := fun b hb hbn => hnodup.1 (hbn ▸ hb)
    rw [List.nodup_cons, List.mem_append, not_or, List.nodup_append]
    refine ⟨⟨fun hmem => ?_, fun hmem => ?_⟩, ?_, ?_, fun a hin b haf hab => ?_⟩
    · obtain ⟨c, hc, hbelow⟩ := hinner.mem_iff.mp hmem
      exact ha n c hc hbelow
    · obtain ⟨b, hb, hbelow⟩ := hafter.mem_iff.mp hmem
      exact hapart b (by simp [hb]) n (by simp) (hrest b hb) hbelow
    · exact ihinner (h.nodup n) fun b hb c hc => h.siblings_apart ha hb hc
    · exact ihafter hnodup.2 fun b hb c hc => hapart b (by simp [hb]) c (by simp [hc])
    · subst hab
      obtain ⟨c, hc, hcbelow⟩ := hinner.mem_iff.mp hin
      obtain ⟨b, hb, hbbelow⟩ := hafter.mem_iff.mp haf
      rcases h.below_total (.child hc hcbelow) hbbelow with hnb | hbn
      · exact hapart n (by simp) b (by simp [hb]) (hrest b hb).symm hnb
      · exact hapart b (by simp [hb]) n (by simp) (hrest b hb) hbn

/-- Where no node lies below itself and links agree with lists, every node heads a strict tree. -/
theorem Linked.strict (h : f.Linked) (ha : f.Acyclic) (hn : f.Has n) : f.Strict n := by
  obtain ⟨order, horder⟩ : ∃ order, f.Lists [n] order := exists_lists fun m _ => ha m
  refine ⟨order, horder, h.nodup_order ha horder (by simp) ?_, fun m hm => ?_⟩
  · simp +contextual
  · rcases (horder.mem_singleton_iff.mp hm).eq_or_held with rfl | ⟨q, -, hq⟩
    · exact hn
    · exact h.has hq

/-- The top of a strict tree is held by none of its nodes, so strict trees leave no room for a cycle. -/
theorem acyclic_of_strict (h : ∀ n, f.Has n → f.Strict n) : f.Acyclic := by
  intro n c hc hbelow
  by_cases hhas : f.Has c
  · exact (h c hhas).not_mem_children hbelow hc
  · cases hbelow with
    | refl =>
      rw [children_of_not_has hhas] at hc
      cases hc
    | child hd _ =>
      rw [children_of_not_has hhas] at hd
      cases hd

/-! ## Climbing -/

/-- Following the holders of a node comes to another one, or it is that node. -/
inductive Climbs (f : Forest) : NodeId → NodeId → Prop where
  | refl (n : NodeId) : Climbs f n n
  | up {n q m : NodeId} : f.holder? n = some q → Climbs f q m → Climbs f n m

theorem Climbs.trans (hnq : f.Climbs n q) (hqm : f.Climbs q m) : f.Climbs n m := by
  induction hnq with
  | refl => exact hqm
  | up hheld _ ih => exact .up hheld (ih hqm)

theorem Linked.climbs (h : f.Linked) (hbelow : f.Below n m) : f.Climbs m n := by
  induction hbelow with
  | refl => exact .refl _
  | child hc _ ih => exact ih.trans (.up (h.held _ _ hc) (.refl _))

/-- A climb that passes no node twice. -/
inductive Trail (f : Forest) : NodeId → NodeId → List NodeId → Prop where
  | refl (n : NodeId) : Trail f n n []
  | up {n q m : NodeId} {path : List NodeId} : f.holder? n = some q → n ∉ path → Trail f q m path →
      Trail f n m (n :: path)

theorem Trail.from_passed (h : f.Trail n m path) (hq : q ∈ path) : ∃ path, f.Trail q m path := by
  induction h with
  | refl => cases hq
  | @up n r m path hheld hnew htrail ih =>
    rcases List.mem_cons.mp hq with rfl | hq
    · exact ⟨_, .up hheld hnew htrail⟩
    · exact ih hq

theorem Climbs.exists_trail (h : f.Climbs n m) : ∃ path, f.Trail n m path := by
  induction h with
  | refl => exact ⟨[], .refl _⟩
  | @up n q m hheld _ ih =>
    obtain ⟨path, htrail⟩ := ih
    by_cases hpassed : n ∈ path
    · exact htrail.from_passed hpassed
    · exact ⟨n :: path, .up hheld hpassed htrail⟩

theorem has_of_holder? (h : f.holder? n = some q) : f.Has n := by
  by_contra hno
  rw [holder?_of_not_has hno] at h
  cases h

theorem Trail.length_le_size (h : f.Trail n m path) : path.length ≤ f.size := by
  suffices hpath : path.Nodup ∧ ∀ p ∈ path, f.Has p from Forest.length_le_size hpath.1 hpath.2
  induction h with
  | refl => simp
  | up hheld hnew _ ih =>
    exact ⟨List.nodup_cons.mpr ⟨hnew, ih.1⟩, List.forall_mem_cons.mpr ⟨has_of_holder? hheld, ih.2⟩⟩

theorem Trail.meetsWithin {fuel : Nat} (h : f.Trail n m path) (hfuel : path.length < fuel) :
    f.meetsWithin m fuel n = .ok true := by
  induction h generalizing fuel with
  | refl n =>
    obtain ⟨fuel, rfl⟩ := Nat.exists_eq_add_one_of_ne_zero (Nat.ne_of_gt hfuel)
    rw [Forest.meetsWithin, if_pos rfl]
  | @up n q m path hheld _ _ ih =>
    obtain ⟨fuel, rfl⟩ := Nat.exists_eq_add_one_of_ne_zero (Nat.ne_zero_of_lt hfuel)
    rw [Forest.meetsWithin]
    split
    · rfl
    · rw [hheld]
      exact ih (by simpa using hfuel)

theorem climbs_of_meetsWithin {fuel : Nat} (h : f.meetsWithin m fuel n = .ok true) : f.Climbs n m := by
  induction fuel generalizing n with
  | zero => cases h
  | succ fuel ih =>
    rw [meetsWithin] at h
    split at h
    · rename_i heq
      exact heq ▸ .refl n
    · split at h
      · cases h
      · rename_i q hheld
        exact .up hheld (ih h)

/-- Climbing meets a node exactly if it comes to it, however far. -/
theorem meets_eq_true_iff : f.meets n m = .ok true ↔ f.Climbs n m := by
  constructor
  · exact climbs_of_meetsWithin
  · intro h
    obtain ⟨path, htrail⟩ := h.exists_trail
    exact htrail.meetsWithin (Nat.lt_succ_of_le htrail.length_le_size)

/-- Climbing from a node comes to an end. -/
inductive Topped (f : Forest) : NodeId → Prop where
  | top {n : NodeId} : f.holder? n = none → Topped f n
  | under {n q : NodeId} : f.holder? n = some q → Topped f q → Topped f n

theorem Topped.exists_climb (h : f.Topped n) : ∃ m, f.Climbs n m ∧ f.holder? m = none := by
  induction h with
  | top hnone => exact ⟨_, .refl _, hnone⟩
  | under hheld _ ih =>
    obtain ⟨m, hclimbs, hnone⟩ := ih
    exact ⟨m, .up hheld hclimbs, hnone⟩

theorem Trail.meetsWithin_of_top {fuel : Nat} (h : f.Trail n m path) (hnone : f.holder? m = none)
    (hno : ¬ f.Climbs n p) (hfuel : path.length < fuel) : f.meetsWithin p fuel n = .ok false := by
  induction h generalizing fuel with
  | refl n =>
    obtain ⟨fuel, rfl⟩ := Nat.exists_eq_add_one_of_ne_zero (Nat.ne_of_gt hfuel)
    have hne : n ≠ p := fun heq => hno (heq ▸ Climbs.refl n)
    rw [Forest.meetsWithin, if_neg hne, hnone]
  | @up n q m path hheld _ _ ih =>
    obtain ⟨fuel, rfl⟩ := Nat.exists_eq_add_one_of_ne_zero (Nat.ne_zero_of_lt hfuel)
    have hne : n ≠ p := fun heq => hno (heq ▸ Climbs.refl n)
    rw [Forest.meetsWithin, if_neg hne, hheld]
    exact ih hnone (fun hq => hno (.up hheld hq)) (by simpa using hfuel)

theorem topped_of_meetsWithin {fuel : Nat} (h : f.meetsWithin m fuel n = .ok false) : f.Topped n := by
  induction fuel generalizing n with
  | zero => cases h
  | succ fuel ih =>
    rw [meetsWithin] at h
    split at h
    · cases h
    · split at h
      · rename_i hnone
        exact .top hnone
      · rename_i q hheld
        exact .under hheld (ih h)

/-- Climbing meets no such node exactly if it comes to the top without one. -/
theorem meets_eq_false_iff : f.meets n m = .ok false ↔ ¬ f.Climbs n m ∧ f.Topped n := by
  constructor
  · intro h
    refine ⟨fun hclimbs => ?_, topped_of_meetsWithin h⟩
    cases h.symm.trans (meets_eq_true_iff.mpr hclimbs)
  · rintro ⟨hno, htop⟩
    obtain ⟨top, hclimbs, hnone⟩ := htop.exists_climb
    obtain ⟨path, htrail⟩ := hclimbs.exists_trail
    exact htrail.meetsWithin_of_top hnone hno (Nat.lt_succ_of_le htrail.length_le_size)

/-- A climb comes to a node, or to the top without it, or goes round for ever. -/
theorem meets_cases (f : Forest) (n m : NodeId) : (f.meets n m = .ok true ∧ f.Climbs n m) ∨
    (f.meets n m = .ok false ∧ ¬ f.Climbs n m ∧ f.Topped n) ∨
    (∃ fault, f.meets n m = .error fault ∧ ¬ f.Climbs n m ∧ ¬ f.Topped n) := by
  cases hmeets : f.meets n m with
  | ok met =>
    cases met with
    | true => exact .inl ⟨rfl, meets_eq_true_iff.mp hmeets⟩
    | false => exact .inr (.inl ⟨rfl, meets_eq_false_iff.mp hmeets⟩)
  | error fault =>
    have hno : ¬ f.Climbs n m := fun hclimbs => by
      cases hmeets.symm.trans (meets_eq_true_iff.mpr hclimbs)
    refine .inr (.inr ⟨fault, rfl, hno, fun htop => ?_⟩)
    cases hmeets.symm.trans (meets_eq_false_iff.mpr ⟨hno, htop⟩)

/-- A node fits where a child is exactly if it is another one and the climb from the place comes to the top
without it. -/
theorem fits_iff : f.Fits p c n ↔ c ∈ f.children p ∧ n ≠ c ∧ ¬ f.Climbs p n ∧ f.Topped p := by
  rw [← meets_eq_false_iff]
  exact ⟨fun h => ⟨h.mem, h.ne_child, h.unmet⟩, fun ⟨hmem, hchild, hunmet⟩ => ⟨hmem, hchild, hunmet⟩⟩

/-- A climb that ends does not come back. -/
theorem Topped.not_climbs (h : f.Topped n) (hheld : f.holder? n = some q) : ¬ f.Climbs q n := by
  induction h generalizing q with
  | top hnone =>
    rw [hnone] at hheld
    cases hheld
  | @under n r hr _ ih =>
    obtain rfl : r = q := Option.some.inj (hr.symm.trans hheld)
    intro hback
    cases hback with
    | refl => exact ih hr (.refl _)
    | up hs hback => exact ih hs (hback.trans (.up hr (.refl _)))

/-! ## Moving a node -/

/-- The lists of a forest after a node was moved to the children of another one; some other nodes may have
left their lists. -/
structure Grafts (f : Forest) (p n : NodeId) (f' : Forest) : Prop where
  mem : ∀ m, ∀ c ∈ f'.children m, (c ≠ n ∧ c ∈ f.children m) ∨ (c = n ∧ m = p)
  holder : ∀ m, f'.holder? m = if m = n then some p else f.holder? m

theorem Grafts.below (h : f.Grafts p n f') (hbelow : f'.Below a b) :
    f.Below a b ∨ (f.Below a p ∧ f.Below n b) := by
  induction hbelow with
  | refl => exact .inl (.refl _)
  | @child a c b hc _ ih =>
    rcases h.mem a c hc with ⟨-, hold⟩ | ⟨rfl, rfl⟩
    · exact ih.imp (.child hold) fun hover => ⟨.child hold hover.1, hover.2⟩
    · exact .inr ⟨.refl _, ih.elim id And.right⟩

/-- Moving a node to a place that is not below it closes no cycle. -/
theorem Acyclic.graft (ha : f.Acyclic) (h : f.Grafts p n f') (hp : ¬ f.Below n p) : f'.Acyclic := by
  intro m c hc hbelow
  rcases h.mem m c hc with ⟨-, hold⟩ | ⟨rfl, rfl⟩
  · rcases h.below hbelow with hcm | ⟨hcp, hnm⟩
    · exact ha m c hold hcm
    · exact hp (hnm.trans (.child hold hcp))
  · rcases h.below hbelow with hnp | ⟨hnp, -⟩ <;> exact hp hnp

/-- A node that is moved takes all that is below it along. -/
theorem Acyclic.below_of_below (ha : f.Acyclic)
    (hkept : ∀ m, ∀ c ∈ f.children m, c ≠ n → c ∈ f'.children m) (hbelow : f.Below n a)
    (hab : f.Below a b) : f'.Below a b := by
  induction hab with
  | refl => exact .refl _
  | @child a c b hc _ ih =>
    have hcn : c ≠ n := fun heq => ha a c hc (heq ▸ hbelow)
    exact .child (hkept a c hc hcn) (ih (hbelow.trans (.of_mem hc)))

/-- Moving a node into the list of another one, with all else in its place, closes a cycle exactly if the
node goes to a place below it. -/
theorem Acyclic.graft_iff (ha : f.Acyclic) (h : f.Grafts p n f') (hn : n ∈ f'.children p)
    (hkept : ∀ m, ∀ c ∈ f.children m, c ≠ n → c ∈ f'.children m) :
    f'.Acyclic ↔ ¬ f.Below n p :=
  ⟨fun hacyclic hbelow => hacyclic p n hn (ha.below_of_below hkept (.refl n) hbelow), ha.graft h⟩

theorem Grafts.climbs (h : f.Grafts p n f') (hclimbs : f.Climbs a n) : f'.Climbs a n := by
  induction hclimbs with
  | refl => exact .refl _
  | @up a q m hq _ ih =>
    by_cases ham : a = m
    · exact ham ▸ .refl _
    · refine .up ?_ (ih h)
      rw [h.holder, if_neg ham]
      exact hq

theorem Grafts.topped_of_not_climbs (h : f.Grafts p n f') (htop : f.Topped a)
    (hclimbs : ¬ f.Climbs a n) : f'.Topped a := by
  induction htop with
  | @top a hnone =>
    have han : a ≠ n := fun heq => hclimbs (heq ▸ .refl a)
    refine .top ?_
    rw [h.holder, if_neg han]
    exact hnone
  | @under a q hq _ ih =>
    have han : a ≠ n := fun heq => hclimbs (heq ▸ .refl a)
    refine .under ?_ (ih fun hqn => hclimbs (.up hq hqn))
    rw [h.holder, if_neg han]
    exact hq

theorem Grafts.topped (h : f.Grafts p n f') (hp : f'.Topped p) (htop : f.Topped a) : f'.Topped a := by
  have hn : f'.Topped n := .under (by rw [h.holder, if_pos rfl]) hp
  induction htop with
  | @top a hnone =>
    by_cases han : a = n
    · exact han ▸ hn
    · refine .top ?_
      rw [h.holder, if_neg han]
      exact hnone
  | @under a q hq _ ih =>
    by_cases han : a = n
    · exact han ▸ hn
    · refine .under ?_ ih
      rw [h.holder, if_neg han]
      exact hq

/-- Moving a node closes the climb exactly if the node goes to a place that climbs to it. -/
theorem Grafts.topped_iff (h : f.Grafts p n f') (htop : ∀ m, f.Topped m) :
    (∀ m, f'.Topped m) ↔ ¬ f.Climbs p n := by
  constructor
  · intro hafter hclimbs
    exact (hafter n).not_climbs (by rw [h.holder, if_pos rfl]) (h.climbs hclimbs)
  · intro hclimbs m
    exact h.topped (h.topped_of_not_climbs (htop p) hclimbs) (htop m)

/-! ## The edits -/

/-- A node that was taken over and put into the list of its new holder is moved, and all else stays. -/
theorem Linked.grafts_place {cs : List NodeId} (h : f.Linked) (hp : f.Has p) (hn : f.Has n)
    (hperm : cs.Perm (n :: (f.take p n).children p)) :
    f.Grafts p n ((f.take p n).setChildren p cs) ∧ n ∈ ((f.take p n).setChildren p cs).children p ∧
      ∀ m, ∀ c ∈ f.children m, c ≠ n → c ∈ ((f.take p n).setChildren p cs).children m := by
  have hlist : ∀ m, ((f.take p n).setChildren p cs).children m =
      if m = p then cs else (f.take p n).children m := fun m => by
    have hhas : (f.take p n).Has p := by rwa [Has, size_take]
    simp [children_setChildren, hhas]
  refine ⟨⟨fun m c hc => ?_, fun m => ?_⟩, ?_, fun m c hc hcn => ?_⟩
  · rw [hlist] at hc
    by_cases hcn : c = n
    · subst hcn
      refine .inr ⟨rfl, Decidable.byContradiction fun hmp => ?_⟩
      rw [if_neg hmp] at hc
      exact h.not_mem_take hc
    · refine .inl ⟨hcn, ?_⟩
      split at hc
      · rename_i hmp
        subst hmp
        exact (mem_children_take hcn).mp (List.mem_of_ne_of_mem hcn (hperm.subset hc))
      · exact (mem_children_take hcn).mp hc
  · simp [holder?_take, hn]
  · rw [hlist, if_pos rfl]
    exact hperm.mem_iff.mpr (by simp)
  · rw [hlist]
    have htaken := (mem_children_take (p := p) hcn).mpr hc
    split
    · rename_i hmp
      subst hmp
      exact hperm.mem_iff.mpr (List.mem_cons_of_mem n htaken)
    · exact htaken

theorem Linked.grafts_put (h : f.Linked) (hn : f.Has n) (hfits : f.Fits p c n) :
    f.Grafts p n (f.put p c n) where
  mem := fun m d hd => by
    rw [children_put] at hd
    have hmem : c ∈ (f.take p n).children p := (mem_children_take hfits.ne_child.symm).mpr hfits.mem
    by_cases hdn : d = n
    · subst hdn
      refine .inr ⟨rfl, Decidable.byContradiction fun hmp => ?_⟩
      rw [if_neg hmp] at hd
      exact h.not_mem_take hd
    · refine .inl ⟨hdn, ?_⟩
      split at hd
      · rename_i hmp
        subst hmp
        have hold := List.mem_of_ne_of_mem hdn ((perm_replace hmem).subset hd)
        exact (mem_children_take hdn).mp (List.mem_of_mem_erase hold)
      · exact (mem_children_take hdn).mp hd
  holder := fun m => by simp [holder?_put, holder?_take, hn]

/-- Nothing was closed on the way to another forest: not the trees, not the climb. -/
structure Open (f f' : Forest) : Prop where
  trees : f.Acyclic → f'.Acyclic
  climb : (∀ m, f.Topped m) → ∀ m, f'.Topped m

theorem Open.refl (f : Forest) : f.Open f := ⟨id, id⟩

/-- A replacement that is done closes nothing. -/
theorem Linked.replace_open (h : f.Linked) (hn : f.Has n) (hreplace : f.replace p c n = .ok f') :
    f.Open f' := by
  rcases replace_eq_ok_iff.mp hreplace with ⟨-, -, rfl⟩ | ⟨hfits, rfl⟩
  · exact .refl f'
  · have hgrafts : f.Grafts p n (f.put p c n) := h.grafts_put hn hfits
    have hclimbs : ¬ f.Climbs p n := (fits_iff.mp hfits).2.2.1
    exact ⟨fun ha => ha.graft hgrafts fun hbelow => hclimbs (h.climbs hbelow),
      fun htop => (hgrafts.topped_iff htop).mpr hclimbs⟩

theorem Linked.replaceWith_open (h : f.Linked) (hm : f.Has m)
    (hreplace : f.replaceWith n m = .ok f') : f.Open f' := by
  obtain ⟨p, -, -, hreplace⟩ := replaceWith_eq_ok_iff.mp hreplace
  exact h.replace_open hm hreplace

end Forest

namespace Move

open Forest

variable {f : Forest}

/-- An edit that adds, inserts or replaces nodes that there are. -/
def Edits (f : Forest) : Move → Prop
  | append parent n => f.Has parent ∧ f.Has n
  | prepend parent n => f.Has parent ∧ f.Has n
  | insert parent _ n => f.Has parent ∧ f.Has n
  | replace parent child new => f.Has parent ∧ f.Has child ∧ f.Has new
  | replaceWith n new => f.Has n ∧ f.Has new
  | _ => False

/-- A move adds a node to the children of one below it, itself included. -/
def Swallows (f : Forest) : Move → Prop
  | append parent n => f.Below n parent
  | prepend parent n => f.Below n parent
  | insert parent _ n => f.Below n parent
  | _ => False

/-- A move adds a node to the children of one that climbs to it, itself included. -/
def Rounds (f : Forest) : Move → Prop
  | append parent n => f.Climbs parent n
  | prepend parent n => f.Climbs parent n
  | insert parent _ n => f.Climbs parent n
  | _ => False

theorem Edits.apt {move : Move} (h : move.Edits f) : move.Apt f := by
  cases move with
  | append parent n => exact h.2
  | prepend parent n => exact h.2
  | insert parent index n => exact h.2
  | replace parent child new => exact h.2.2
  | replaceWith n new => exact h.2
  | _ => exact h.elim

/-- Adding and inserting are done in any case, and close what they are told to close. -/
theorem place_iff {f' : Forest} {p n : NodeId} {cs : List NodeId} (hf : f.Linked) (ha : f.Acyclic)
    (hp : f.Has p) (hn : f.Has n) (hperm : cs.Perm (n :: (f.take p n).children p))
    (hact : f' = (f.take p n).setChildren p cs) :
    (f'.Acyclic ↔ ¬ f.Below n p) ∧
      ((∀ m, f.Topped m) → ((∀ m, f'.Topped m) ↔ ¬ f.Climbs p n)) := by
  subst hact
  obtain ⟨hgrafts, hmem, hkept⟩ := hf.grafts_place hp hn hperm
  exact ⟨ha.graft_iff hgrafts hmem hkept, hgrafts.topped_iff⟩

/-- What an edit closes: the trees exactly if it adds a node to one below it, and the climb to the top
exactly if it adds a node to one that climbs to it. -/
theorem closes_iff {move : Move} (hf : f.Linked) (ha : f.Acyclic) (hedit : move.Edits f) :
    ((move.act f).Acyclic ↔ ¬ move.Swallows f) ∧
      ((∀ m, f.Topped m) → ((∀ m, (move.act f).Topped m) ↔ ¬ move.Rounds f)) := by
  have hinsert : ∀ parent index n, f.Has parent ∧ f.Has n →
      ((f.insert parent index n).Acyclic ↔ ¬ f.Below n parent) ∧
        ((∀ m, f.Topped m) → ((∀ m, (f.insert parent index n).Topped m) ↔ ¬ f.Climbs parent n)) :=
    fun parent index n h =>
      place_iff hf ha h.1 h.2 (List.perm_insertIdx n _ (insertionPoint_le index _)) rfl
  cases move with
  | append parent n =>
    exact place_iff hf ha hedit.1 hedit.2 (List.perm_append_singleton n _) rfl
  | prepend parent n => exact hinsert parent 0 n hedit
  | insert parent index n => exact hinsert parent index n hedit
  | replace parent child new =>
    have hopen : f.Open ((replace parent child new).act f) :=
      toOption_getD (.refl f) fun f' h => hf.replace_open hedit.2.2 h
    exact ⟨iff_of_true (hopen.trees ha) id, fun htop => iff_of_true (hopen.climb htop) id⟩
  | replaceWith n new =>
    have hopen : f.Open ((replaceWith n new).act f) :=
      toOption_getD (.refl f) fun f' h => hf.replaceWith_open hedit.2 h
    exact ⟨iff_of_true (hopen.trees ha) id, fun htop => iff_of_true (hopen.climb htop) id⟩
  | _ => exact hedit.elim

/-- In a forest of strict trees with links that agree with the lists, an edit leaves every node to head a
strict tree, none of them below one of its own children, exactly if it does not add a node to the children
of one below it.  If climbing from every node came to an end, it still does exactly if the edit does not
add a node to the children of one that climbs to it; this is more to ask, as a detached node may name a
holder.  A replacement is refused or does no harm. -/
theorem acyclic_iff_not_swallows {move : Move} (hf : f.Linked) (hstrict : ∀ n, f.Has n → f.Strict n)
    (hedit : move.Edits f) :
    ((∀ n, ∀ c ∈ (move.act f).children n, ¬ (move.act f).Below c n) ↔ ¬ move.Swallows f) ∧
      ((∀ n, (move.act f).Has n → (move.act f).Strict n) ↔ ¬ move.Swallows f) ∧
      ((∀ n, f.Topped n) → ((∀ n, (move.act f).Topped n) ↔ ¬ move.Rounds f)) := by
  obtain ⟨htrees, hclimb⟩ := closes_iff hf (acyclic_of_strict hstrict) hedit
  have hlinked : (move.act f).Linked := linked_act move hedit.apt hf
  refine ⟨htrees, ⟨fun h => htrees.mp (acyclic_of_strict h), fun h n hn => ?_⟩, hclimb⟩
  exact hlinked.strict (htrees.mpr h) hn

/-- A paragraph with an emphasised word. -/
def emphasised : Forest :=
  history [.readTree (.node .para [] [.node .emph [] [.node .str [("text", .data (.str "word"))] []]])]

theorem strict_emphasised {n : NodeId} (hn : emphasised.Has n) : emphasised.Strict n := by
  have hword : emphasised.order? 5 [⟨0⟩] = some [⟨0⟩] := by decide
  have hemph : emphasised.order? 5 [⟨1⟩] = some [⟨1⟩, ⟨0⟩] := by decide
  have hpara : emphasised.order? 5 [⟨2⟩] = some [⟨2⟩, ⟨1⟩, ⟨0⟩] := by decide
  match n, hn with
  | ⟨0⟩, _ => exact ⟨_, lists_of_order? hword, by decide, by decide⟩
  | ⟨1⟩, _ => exact ⟨_, lists_of_order? hemph, by decide, by decide⟩
  | ⟨2⟩, _ => exact ⟨_, lists_of_order? hpara, by decide, by decide⟩
  | ⟨i + 3⟩, hn => exact absurd hn (Nat.not_lt.mpr (Nat.le_add_left 3 i))

/-- A paragraph that is added to the children of its own emphasis lies below itself. -/
theorem swallowed_emphasised :
    ¬ ∀ n, ∀ c ∈ ((append ⟨1⟩ ⟨2⟩).act emphasised).children n,
      ¬ ((append ⟨1⟩ ⟨2⟩).act emphasised).Below c n := by
  have hlinked : emphasised.Linked := (planted_plant _).linked linked_empty
  have hedit : (append ⟨1⟩ ⟨2⟩).Edits emphasised := ⟨by decide, by decide⟩
  have hswallows : (append ⟨1⟩ ⟨2⟩).Swallows emphasised := .of_mem (by decide)
  intro hacyclic
  exact (acyclic_iff_not_swallows hlinked (fun _ => strict_emphasised) hedit).1.mp hacyclic hswallows

end Move

end DocFilter
