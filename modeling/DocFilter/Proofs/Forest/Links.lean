import DocFilter.Proofs.Forest.Cells
import Mathlib.Data.List.Nodup

/-!
# Forests whose links agree with their lists

A node records the node that holds it, and the lists of children record it a second time.  Edits look at
the record to find the list that a node has to leave, so they go wrong as soon as a node stands in a list
that its record does not name.

* `Forest.Linked` is the agreement: a child names the node that it stands below, and no list has a node
  twice.  The record of a node that stands in no list is free, it may name a node that once held it.
* `Forest.Linked.not_mem_take` says that a node that is taken over stands in no list any more, wherever its
  record pointed.
* `Forest.Linked.setChildren` is the one argument for a new list; each edit is an instance of it.
-/

namespace DocFilter

namespace Forest

variable {f f' : Forest} {n m p q c : NodeId} {index : Int}

/-- Each node that stands in a list of children names the node whose list that is, and stands in the list
once. -/
structure Linked (f : Forest) : Prop where
  held : ∀ p c, c ∈ f.children p → f.holder? c = some p
  nodup : ∀ p, (f.children p).Nodup

theorem holder?_of_not_has (h : ¬ f.Has n) : f.holder? n = none := by
  rw [holder?, cell_of_not_has h]
  rfl

theorem Linked.has (h : f.Linked) (hc : c ∈ f.children p) : f.Has c := by
  by_contra hno
  have hheld := h.held p c hc
  rw [holder?_of_not_has hno] at hheld
  cases hheld

/-- No node stands in two lists. -/
theorem Linked.unique (h : f.Linked) (hp : c ∈ f.children p) (hq : c ∈ f.children q) : p = q :=
  Option.some.inj ((h.held p c hp).symm.trans (h.held q c hq))

/-- A forest with the lists of a linked one is linked if the nodes in the lists name the same nodes. -/
theorem Linked.congr (h : f.Linked) (hchildren : ∀ m, f'.children m = f.children m)
    (hholder : ∀ m c, c ∈ f.children m → f'.holder? c = f.holder? c) : f'.Linked where
  held := fun m c hc => by
    rw [hchildren] at hc
    rw [hholder m c hc, h.held m c hc]
  nodup := fun m => by
    rw [hchildren]
    exact h.nodup m

/-! ## New lists -/

/-- A node may get any list of nodes that name it already. -/
theorem Linked.setChildren {cs : List NodeId} (h : f.Linked)
    (hheld : ∀ c ∈ cs, f.holder? c = some p) (hnodup : cs.Nodup) : (f.setChildren p cs).Linked where
  held := fun m c hc => by
    rw [holder?_setChildren]
    rw [children_setChildren] at hc
    split at hc
    · rename_i hm
      rw [hm.1]
      exact hheld c hc
    · exact h.held m c hc
  nodup := fun m => by
    rw [children_setChildren]
    split
    · exact hnodup
    · exact h.nodup m

/-- The record of a node that stands in no list is free. -/
theorem Linked.setHolder {holder : Option NodeId} (h : f.Linked) (hn : ∀ m, n ∉ f.children m) :
    (f.setHolder n holder).Linked := by
  refine h.congr (fun m => children_setHolder holder) fun m c hc => ?_
  have hcn : c ≠ n := fun heq => hn m (heq ▸ hc)
  rw [holder?_setHolder, if_neg fun hcase => hcn hcase.1]

theorem Linked.setReplacement {r : Option NodeId} (h : f.Linked) : (f.setReplacement n r).Linked :=
  h.congr (fun _ => children_setReplacement r) fun _ _ _ => holder?_setReplacement r

/-! ## Taking a node over -/

/-- A node that is taken over stands in no list any more: the only list that it can stand in is the one
that its record names. -/
theorem Linked.not_mem_take (h : f.Linked) : n ∉ (f.take p n).children m := by
  rw [children_take]
  split
  · exact (h.nodup m).not_mem_erase
  · rename_i hother
    exact fun hmem => hother (h.held m n hmem)

theorem Linked.take (h : f.Linked) : (f.take p n).Linked where
  held := fun m c hc => by
    have hcn : c ≠ n := fun heq => h.not_mem_take (heq ▸ hc)
    rw [holder?_take, if_neg fun hcase => hcn hcase.1]
    exact h.held m c ((mem_children_take hcn).mp hc)
  nodup := fun m => by
    rw [children_take]
    split
    · exact (h.nodup m).erase n
    · exact h.nodup m

/-- After a node was taken over, its new holder can have it anywhere in its list. -/
theorem Linked.place_taken {cs : List NodeId} (h : f.Linked) (hn : f.Has n)
    (hperm : cs.Perm (n :: (f.take p n).children p)) : ((f.take p n).setChildren p cs).Linked := by
  refine h.take.setChildren (fun c hc => ?_) ?_
  · rcases List.mem_cons.mp (hperm.subset hc) with rfl | hc
    · rw [holder?_take, if_pos ⟨rfl, hn⟩]
    · exact h.take.held p c hc
  · rw [hperm.nodup_iff, List.nodup_cons]
    exact ⟨h.not_mem_take, h.take.nodup p⟩

/-! ## Edits -/

theorem insertionPoint_le (index : Int) (length : Nat) : insertionPoint index length ≤ length := by
  rw [insertionPoint]
  split <;> omega

theorem Linked.append (h : f.Linked) (hn : f.Has n) : (f.append p n).Linked := by
  refine h.place_taken hn ?_
  exact List.perm_append_singleton n _

theorem Linked.insert (h : f.Linked) (hn : f.Has n) : (f.insert p index n).Linked := by
  refine h.place_taken hn ?_
  exact List.perm_insertIdx n _ (insertionPoint_le index _)

theorem Linked.prepend (h : f.Linked) (hn : f.Has n) : (f.prepend p n).Linked := h.insert hn

theorem Linked.remove (h : f.Linked) (hremove : f.remove p c = .ok f') : f'.Linked := by
  obtain ⟨hmem, rfl⟩ := remove_eq_ok_iff.mp hremove
  have hless : (f.setChildren p ((f.children p).erase c)).Linked :=
    h.setChildren (fun d hd => h.held p d (List.mem_of_mem_erase hd)) ((h.nodup p).erase c)
  refine hless.setHolder fun m hm => ?_
  rw [children_setChildren] at hm
  split at hm
  · exact (h.nodup p).not_mem_erase hm
  · rename_i hother
    obtain rfl : p = m := h.unique hmem hm
    refine hother ⟨rfl, Decidable.byContradiction fun hno => ?_⟩
    rw [children_of_not_has hno] at hm
    cases hm

theorem perm_replace {cs : List NodeId} (hc : c ∈ cs) : (cs.replace c n).Perm (n :: cs.erase c) := by
  induction cs with
  | nil => cases hc
  | cons d cs ih =>
    by_cases hcd : c = d
    · subst hcd
      simp
    · have hne : (c == d) = false := by simpa using hcd
      have hdc : (d == c) = false := by simpa using Ne.symm hcd
      have hmem : c ∈ cs := by simpa [hcd] using hc
      rw [List.replace_cons, hne, List.erase_cons, hdc]
      exact ((ih hmem).cons d).trans (.swap n d _)

theorem Linked.put (h : f.Linked) (hn : f.Has n) (hc : c ∈ f.children p) (hnc : n ≠ c) :
    (f.put p c n).Linked := by
  have hmem : c ∈ (f.take p n).children p := (mem_children_take (Ne.symm hnc)).mpr hc
  refine Linked.setReplacement (h.take.setChildren (fun d hd => ?_) ?_)
  · rcases List.mem_cons.mp ((perm_replace hmem).subset hd) with rfl | hd
    · rw [holder?_take, if_pos ⟨rfl, hn⟩]
    · exact h.take.held p d (List.mem_of_mem_erase hd)
  · rw [(perm_replace hmem).nodup_iff, List.nodup_cons]
    exact ⟨fun hmem => h.not_mem_take (List.mem_of_mem_erase hmem), (h.take.nodup p).erase c⟩

theorem Linked.replace (h : f.Linked) (hn : f.Has n) (hreplace : f.replace p c n = .ok f') :
    f'.Linked := by
  rcases replace_eq_ok_iff.mp hreplace with ⟨-, -, rfl⟩ | ⟨hfits, rfl⟩
  · exact h
  · exact h.put hn hfits.mem hfits.ne_child

theorem Linked.replaceWith (h : f.Linked) (hm : f.Has m) (hreplace : f.replaceWith n m = .ok f') :
    f'.Linked := by
  obtain ⟨p, -, -, hreplace⟩ := replaceWith_eq_ok_iff.mp hreplace
  exact h.replace hm hreplace

/-! ## Walking -/

/-- A walker makes a child name the node that it was reached through, which it names already. -/
theorem Linked.reach (h : f.Linked) (hc : c ∈ f.children p) : (Walker.reach f p c).Linked := by
  refine h.congr (fun m => children_reach) fun m d hd => ?_
  rw [holder?_reach]
  split
  · rename_i hcase
    obtain ⟨rfl, -⟩ := hcase
    exact (h.held p d hc).symm
  · rfl

end Forest

end DocFilter
