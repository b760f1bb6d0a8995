import DocFilter.Proofs.Forest.Cycles

/-!
# The node around a node

The parent of a node, as documents have it, is the nearest node above it that is not a part.  A forest finds it
by following the records of the holders; this module says when that gives the node that the lists of children
tell.

* `Forest.Encloses` is the relation that the lists tell.
* `Forest.exists_encloses` says that each node of a tree has one around it, unless it is the root.
* `Forest.Encloses.parent_eq` says that the records lead there if those of the nodes on the way do.
-/

namespace DocFilter

namespace Forest

variable {f f' : Forest} {root n m p q c : NodeId} {known : NodeId → Prop}

/-- A node is the nearest one above another that is not a part. -/
inductive Encloses (f : Forest) (p : NodeId) : NodeId → Prop where
  | child {n : NodeId} : n ∈ f.children p → ¬ (f.kind p).isPart → Encloses f p n
  | through {q n : NodeId} : n ∈ f.children q → (f.kind q).isPart → Encloses f p q → Encloses f p n

theorem Encloses.not_part (h : f.Encloses p n) : ¬ (f.kind p).isPart := by
  induction h with
  | child _ hpart => exact hpart
  | through _ _ _ ih => exact ih

/-- A node lies below a child of the one around it. -/
theorem Encloses.exists_child (h : f.Encloses p n) : ∃ c ∈ f.children p, f.Below c n := by
  induction h with
  | child hmem _ => exact ⟨_, hmem, .refl _⟩
  | through hmem _ _ ih =>
    obtain ⟨c, hc, hbelow⟩ := ih
    exact ⟨c, hc, hbelow.trans (.of_mem hmem)⟩

theorem Encloses.leads (h : f.Encloses p n) : f.Below p n := by
  obtain ⟨c, hc, hbelow⟩ := h.exists_child
  exact .child hc hbelow

/-- The relation depends on the children and the kinds of the tree. -/
theorem Encloses.congr (h : f.Encloses p n) (hp : f.Below root p)
    (hchildren : ∀ m, f.Below root m → f'.children m = f.children m)
    (hkind : ∀ m, f.Below root m → f'.kind m = f.kind m) : f'.Encloses p n := by
  induction h with
  | child hmem hpart => exact .child (by rwa [hchildren p hp]) (by rwa [hkind p hp])
  | @through q n hmem hpart henclosed ih =>
    have hq : f.Below root q := hp.trans henclosed.leads
    exact .through (by rwa [hchildren q hq]) (by rwa [hkind q hq]) ih

/-- What is below a node is the node itself, or has a node around it there, or is below it through parts only,
the node included. -/
theorem Below.enclosed (h : f.Below n m) : m = n ∨ (∃ p, f.Below n p ∧ f.Encloses p m) ∨
    (f.kind n).isPart ∧ ∀ p, f.Encloses p n → f.Encloses p m := by
  induction h with
  | refl => exact .inl rfl
  | @child n c m hc _ ih =>
    by_cases hpart : (f.kind n).isPart
    · rcases ih with rfl | ⟨p, hp, hencloses⟩ | ⟨-, hthrough⟩
      · exact .inr (.inr ⟨hpart, fun p hp => .through hc hpart hp⟩)
      · exact .inr (.inl ⟨p, .child hc hp, hencloses⟩)
      · exact .inr (.inr ⟨hpart, fun p hp => hthrough p (.through hc hpart hp)⟩)
    · rcases ih with rfl | ⟨p, hp, hencloses⟩ | ⟨-, hthrough⟩
      · exact .inr (.inl ⟨n, .refl n, .child hc hpart⟩)
      · exact .inr (.inl ⟨p, .child hc hp, hencloses⟩)
      · exact .inr (.inl ⟨n, .refl n, hthrough n (.child hc hpart)⟩)

/-- Below a node that is not a part, every other node has one around it. -/
theorem exists_encloses (hroot : ¬ (f.kind root).isPart) (hn : f.Below root n) (hne : n ≠ root) :
    ∃ p, f.Below root p ∧ f.Encloses p n := by
  rcases hn.enclosed with heq | henclosed | ⟨hpart, -⟩
  · exact absurd heq hne
  · exact henclosed
  · exact absurd hpart hroot

/-- Some nodes of a tree record the node whose list they stand in, and so do the nodes above them. -/
def Records (f : Forest) (root : NodeId) (known : NodeId → Prop) : Prop :=
  ∀ q m, f.Below root q → m ∈ f.children q → known m → f.holder? m = some q ∧ known q

/-- A search for the parent does not fail in any way other than that it never ends. -/
theorem endless_of_parent {fault : Fault} (h : f.parent n = .error fault) : fault = .endless := by
  suffices hwithin : ∀ fuel n, f.parentWithin fuel n = .error fault → fault = .endless from hwithin _ _ h
  intro fuel
  induction fuel with
  | zero =>
    rintro n ⟨⟩
    rfl
  | succ fuel ih =>
    intro n hfails
    rw [parentWithin] at hfails
    split at hfails
    · cases hfails
    · split at hfails
      · exact ih _ hfails
      · cases hfails

/-- The records lead to the node around in as many steps as there are nodes on the way, and these are different
ones. -/
theorem Encloses.exists_path (h : f.Encloses p n) (hstrict : f.Strict root) (hp : f.Below root p)
    (hrecords : f.Records root known) (hn : known n) : ∃ path : List NodeId, path.Nodup ∧
      (∀ m ∈ path, f.Below root m ∧ f.Below m n) ∧
      ∀ fuel, path.length ≤ fuel → f.parentWithin fuel n = .ok (some p) := by
  induction h with
  | @child n hmem hpart =>
    have hheld := (hrecords p n hp hmem hn).1
    refine ⟨[n], by simp, ?_, fun fuel hfuel => ?_⟩
    · rw [List.forall_mem_singleton]
      exact ⟨hp.trans (.of_mem hmem), .refl n⟩
    · obtain ⟨fuel, rfl⟩ := Nat.exists_eq_add_one_of_ne_zero (Nat.ne_of_gt hfuel)
      rw [parentWithin, hheld]
      exact if_neg hpart
  | @through q n hmem hpart henclosed ih =>
    have hq : f.Below root q := hp.trans henclosed.leads
    obtain ⟨hheld, hknown⟩ := hrecords q n hq hmem hn
    obtain ⟨path, hnodup, hbelow, hpath⟩ := ih hknown
    have hnew : n ∉ path := fun hn => hstrict.not_below_child hq hmem (hbelow n hn).2
    refine ⟨n :: path, List.nodup_cons.mpr ⟨hnew, hnodup⟩, ?_, fun fuel hfuel => ?_⟩
    · rw [List.forall_mem_cons]
      exact ⟨⟨hq.trans (.of_mem hmem), .refl n⟩,
        fun m hm => ⟨(hbelow m hm).1, (hbelow m hm).2.trans (.of_mem hmem)⟩⟩
    · rw [List.length_cons] at hfuel
      obtain ⟨fuel, rfl⟩ := Nat.exists_eq_add_one_of_ne_zero (Nat.ne_zero_of_lt hfuel)
      rw [parentWithin, hheld]
      exact (if_pos hpart).trans (hpath fuel (Nat.le_of_succ_le_succ hfuel))

/-- Where the records agree with the lists, the parent of a node is the node around it. -/
theorem Encloses.parent_eq (h : f.Encloses p n) (hstrict : f.Strict root) (hp : f.Below root p)
    (hrecords : f.Records root known) (hn : known n) : f.parent n = .ok (some p) := by
  obtain ⟨path, hnodup, hbelow, hpath⟩ := h.exists_path hstrict hp hrecords hn
  have hlength : path.length ≤ f.size := length_le_size hnodup fun m hm => hstrict.has (hbelow m hm).1
  exact hpath _ (Nat.le_succ_of_le hlength)

/-- Where the records agree with the lists, only the node around a node is its parent. -/
theorem parent_eq_some_iff (hstrict : f.Strict root) (hroot : ¬ (f.kind root).isPart)
    (hrecords : f.Records root known) (hn : f.Below root n) (hne : n ≠ root) (hknown : known n) :
    f.parent n = .ok (some p) ↔ f.Below root p ∧ f.Encloses p n := by
  constructor
  · intro hparent
    obtain ⟨q, hq, hencloses⟩ := exists_encloses hroot hn hne
    rw [hencloses.parent_eq hstrict hq hrecords hknown] at hparent
    cases hparent
    exact ⟨hq, hencloses⟩
  · rintro ⟨hp, hencloses⟩
    exact hencloses.parent_eq hstrict hp hrecords hknown

end Forest

end DocFilter
