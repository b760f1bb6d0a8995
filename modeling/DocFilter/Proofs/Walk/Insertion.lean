import DocFilter.Proofs.Forest.Links
import DocFilter.Proofs.Walk.Scan
import Mathlib.Data.List.Nodup

/-!
# Insertions between two steps of a walk

Between two steps of a walk nodes may be added to the children of any node of the tree.  A node that goes
in front of the index of a frame moves the children behind it up, past the index, so that the last child
that the frame has gone past lies ahead once more.

* `Forest.countAbove` counts, and `Forest.Lists.count_eq` says that an order has a node as often as there are
  nodes at or above it.
* `Walker.Grown` is one addition to a tree: `Walker.Grown.strict` and `Walker.Grown.below_iff` say what it
  does to the tree.
* `Walker.setBack` are the nodes that come to lie ahead again.  `Walker.Comes` says what an addition makes of nodes
  that lie ahead, and `Walker.Grown.agenda` that it makes this of what the frames have ahead.
-/

namespace DocFilter

namespace Forest

variable {f f' : Forest} {n m p x s : NodeId} {ns ms order : List NodeId}

/-! ## How many are above -/

open Classical in
/-- How many of some nodes are a node or have it below them. -/
noncomputable def countAbove (f : Forest) (ns : List NodeId) (m : NodeId) : Nat :=
  ns.countP fun n => decide (f.Below n m)

@[simp] theorem countAbove_nil : f.countAbove [] m = 0 := rfl

@[simp] theorem countAbove_append :
    f.countAbove (ns ++ ms) m = f.countAbove ns m + f.countAbove ms m := List.countP_append

theorem countAbove_cons : f.countAbove (n :: ns) m = f.countAbove [n] m + f.countAbove ns m := by
  rw [← countAbove_append]
  rfl

theorem countAbove_perm (h : ns.Perm ms) : f.countAbove ns m = f.countAbove ms m := h.countP_eq _

theorem countAbove_congr (h : ∀ n ∈ ns, f'.Below n p ↔ f.Below n m) :
    f'.countAbove ns p = f.countAbove ns m :=
  List.countP_congr fun n hn => by simpa using h n hn

theorem countAbove_eq_zero_iff : f.countAbove ns m = 0 ↔ ∀ n ∈ ns, ¬ f.Below n m := by
  simp [countAbove, List.countP_eq_zero]

theorem countAbove_le_length : f.countAbove ns m ≤ ns.length := List.countP_le_length

theorem countAbove_singleton_of_below (h : f.Below n m) : f.countAbove [n] m = 1 := by
  simp [countAbove, h]

theorem countAbove_singleton_of_not_below (h : ¬ f.Below n m) : f.countAbove [n] m = 0 := by
  simp [countAbove, h]

/-- An order has a node as often as there are nodes at or above it. -/
theorem Lists.count_eq (h : f.Lists ns order) (hstrict : ∀ n ∈ ns, f.Strict n) :
    order.count m = f.countAbove ns m := by
  induction ns generalizing order with
  | nil => simp [lists_nil_iff.mp h]
  | cons n ns ih =>
    obtain ⟨own, after, hown, hafter, rfl⟩ := lists_append_iff.mp (show f.Lists ([n] ++ ns) order from h)
    obtain ⟨once, honce, hnodup, -⟩ := hstrict n (by simp)
    obtain rfl := hown.unique honce
    rw [List.count_append, ih hafter fun k hk => hstrict k (by simp [hk]), countAbove_cons]
    by_cases hbelow : f.Below n m
    · rw [countAbove_singleton_of_below hbelow,
        List.count_eq_one_of_mem hnodup (hown.mem_singleton_iff.mpr hbelow)]
    · rw [countAbove_singleton_of_not_below hbelow,
        List.count_eq_zero_of_not_mem fun hmem => hbelow (hown.mem_singleton_iff.mp hmem)]

end Forest

namespace Walker

open Forest

variable {f f' f'' : Forest} {root n m p x s : NodeId} {ns order xs pre post : List NodeId}
  {frames : List Frame}

/-! ## One addition -/

/-- A node is added to the children of another one. -/
inductive Adds (f : Forest) (p x : NodeId) : Forest → Prop where
  | append : Adds f p x (f.append p x)
  | prepend : Adds f p x (f.prepend p x)
  | insert (index : Int) : Adds f p x (f.insert p index x)

/-- A node heads a strict tree without a node of the tree below the root. -/
structure Apart (f : Forest) (root x : NodeId) : Prop where
  strict : f.Strict x
  disjoint : ∀ m, f.Below x m → ¬ f.Below root m

/-- One list of a tree has one more node, after some children and before the others. -/
structure Grown (f f' : Forest) (root p x : NodeId) (pre post : List NodeId) : Prop where
  place : f.Below root p
  apart : Apart f root x
  held : f.children p = pre ++ post
  holds : f'.children p = pre ++ x :: post
  others : ∀ m, (f.Below root m ∨ f.Below x m) → m ≠ p → f'.children m = f.children m
  has : ∀ m, f'.Has m ↔ f.Has m
  kind : ∀ m, f'.kind m = f.kind m
  mark : ∀ m, f'.replacement? m = f.replacement? m

theorem kind_take : (f.take p n).kind m = f.kind m := by
  rw [take, adopt]
  split
  · simp
  · split <;> simp

theorem Apart.children_take (hx : Apart f root x) (hm : f.Below root m ∨ f.Below x m) :
    (f.take p x).children m = f.children m := by
  have habsent : x ∉ f.children m := by
    rcases hm with hm | hm
    · exact fun hmem => hx.disjoint x (.refl x) (hm.trans (.of_mem hmem))
    · exact hx.strict.not_mem_children hm
  rw [Forest.children_take]
  split
  · exact List.erase_of_not_mem habsent
  · rfl

/-- A node that is taken over goes to a place in the list of its holder. -/
theorem Apart.grown (hp : f.Below root p) (hx : Apart f root x) (hhas : f.Has p)
    (hheld : f.children p = pre ++ post) :
    Grown f ((f.take p x).setChildren p (pre ++ x :: post)) root p x pre post where
  place := hp
  apart := hx
  held := hheld
  holds := by
    have hhas' : (f.take p x).Has p := by rwa [Has, size_take]
    rw [children_setChildren, if_pos ⟨rfl, hhas'⟩]
  others := fun m hm hmp => by
    rw [children_setChildren, if_neg fun hcase => hmp hcase.1, hx.children_take hm]
  has := fun m => by simp [Has]
  kind := fun m => by rw [kind_setChildren, kind_take]
  mark := fun m => by simp

theorem exists_insertIdx_split {k : Nat} (h : k ≤ ns.length) :
    ∃ pre post, ns = pre ++ post ∧ ns.insertIdx k x = pre ++ x :: post := by
  induction ns generalizing k with
  | nil =>
    obtain rfl : k = 0 := by simpa using h
    exact ⟨[], [], rfl, rfl⟩
  | cons n ns ih =>
    cases k with
    | zero => exact ⟨[], n :: ns, rfl, rfl⟩
    | succ k =>
      obtain ⟨pre, post, hns, hins⟩ := ih (by simpa using h)
      exact ⟨n :: pre, post, by rw [hns]; rfl, by rw [List.insertIdx_succ_cons, hins]; rfl⟩

theorem Adds.grown (h : Adds f p x f') (hstrict : f.Strict root) (hp : f.Below root p)
    (hx : Apart f root x) : ∃ pre post, Grown f f' root p x pre post := by
  have hkept : (f.take p x).children p = f.children p := hx.children_take (.inl hp)
  have hhas : f.Has p := hstrict.has hp
  have hinsert : ∀ index, ∃ pre post, Grown f (f.insert p index x) root p x pre post := fun index => by
    obtain ⟨pre, post, hheld, hholds⟩ :=
      exists_insertIdx_split (x := x) (insertionPoint_le index (f.children p).length)
    refine ⟨pre, post, ?_⟩
    rw [Forest.insert, place, hkept, hholds]
    exact hx.grown hp hhas hheld
  cases h with
  | append =>
    refine ⟨f.children p, [], ?_⟩
    rw [Forest.append, hkept]
    exact hx.grown hp hhas (by simp)
  | prepend => exact hinsert 0
  | insert index => exact hinsert index

/-! ## The tree -/

theorem Grown.not_mem (h : Grown f f' root p x pre post) (hm : f.Below root m) : x ∉ f.children m :=
  fun hmem => h.apart.disjoint x (.refl x) (hm.trans (.of_mem hmem))

/-- The tree that was added is as it was. -/
theorem Grown.lists_own (h : Grown f f' root p x pre post) (hxs : f.Lists [x] xs) : f'.Lists [x] xs := by
  refine hxs.congr fun m hm => ?_
  have hbelow : f.Below x m := hxs.mem_singleton_iff.mp hm
  exact h.others m (.inr hbelow) fun heq => h.apart.disjoint m hbelow (heq ▸ h.place)

theorem Grown.below_own (h : Grown f f' root p x pre post) (hs : f.Below x s) :
    f'.Below s m ↔ f.Below s m := by
  refine (h.apart.strict.of_below hs).below_congr fun m hm => ?_
  exact h.others m (.inr (hs.trans hm)) fun heq => h.apart.disjoint m (hs.trans hm) (heq ▸ h.place)

/-- An order has the nodes of the added tree as often as the node that they were added to. -/
theorem Grown.lists (h : Grown f f' root p x pre post) (hxs : f.Lists [x] xs)
    (horder : f.Lists ns order) (htree : ∀ m ∈ order, f.Below root m) :
    ∃ order', f'.Lists ns order' ∧ ∀ m, order'.count m = order.count m + order.count p * xs.count m := by
  induction horder with
  | nil => exact ⟨[], .nil, by simp⟩
  | @cons n rest inner after hinner hafter ihinner ihafter =>
    obtain ⟨inner', hinner', hin⟩ := ihinner fun m hm => htree m (by simp [hm])
    obtain ⟨after', hafter', haf⟩ := ihafter fun m hm => htree m (by simp [hm])
    by_cases hnp : n = p
    · subst hnp
      rw [h.held] at hinner'
      obtain ⟨first, second, hfirst, hsecond, rfl⟩ := lists_append_iff.mp hinner'
      have hown : f'.Lists ([x] ++ post) (xs ++ second) := (h.lists_own hxs).append hsecond
      refine ⟨n :: ((first ++ (xs ++ second)) ++ after'), .cons ?_ hafter', fun m => ?_⟩
      · rw [h.holds]
        exact hfirst.append hown
      · have hinm := hin m
        have hafm := haf m
        simp only [List.count_append, List.count_cons, beq_self_eq_true, if_true, Nat.add_mul,
          Nat.one_mul] at hinm hafm ⊢
        omega
    · refine ⟨n :: (inner' ++ after'), .cons ?_ hafter', fun m => ?_⟩
      · rw [h.others n (.inl (htree n (by simp))) hnp]
        exact hinner'
      · have hne : (n == p) = false := by simpa using hnp
        simp only [List.count_append, List.count_cons, hin, haf, hne, Bool.false_eq_true, if_false,
          Nat.add_zero, Nat.add_mul]
        omega

/-- The tree has the nodes of the added tree in addition. -/
theorem Grown.exists_order (h : Grown f f' root p x pre post) (hxs : f.Lists [x] xs)
    (horder : f.Lists [root] order) (hnodup : order.Nodup) :
    ∃ order', f'.Lists [root] order' ∧ order'.Perm (order ++ xs) := by
  obtain ⟨order', horder', hcount⟩ :=
    h.lists hxs horder fun m hm => horder.mem_singleton_iff.mp hm
  refine ⟨order', horder', List.perm_iff_count.mpr fun m => ?_⟩
  have hp : order.count p = 1 :=
    List.count_eq_one_of_mem hnodup (horder.mem_singleton_iff.mpr h.place)
  rw [hcount, hp, Nat.one_mul, List.count_append]

theorem Grown.strict (h : Grown f f' root p x pre post) (hstrict : f.Strict root) :
    f'.Strict root := by
  obtain ⟨order, horder, hnodup, hhas⟩ := hstrict
  obtain ⟨xs, hxs, hxsnodup, hxshas⟩ := h.apart.strict
  obtain ⟨order', horder', hperm⟩ := h.exists_order hxs horder hnodup
  refine ⟨order', horder', hperm.nodup_iff.mpr ?_, fun m hm => (h.has m).mpr ?_⟩
  · refine List.nodup_append.mpr ⟨hnodup, hxsnodup, fun a ha b hb hab => ?_⟩
    exact h.apart.disjoint b (hxs.mem_singleton_iff.mp hb) (horder.mem_singleton_iff.mp (hab ▸ ha))
  · exact (List.mem_append.mp (hperm.subset hm)).elim (hhas m) (hxshas m)

/-- What was added lies below the node that it was added to, and all else as before. -/
theorem Grown.below_iff (h : Grown f f' root p x pre post) (hstrict : f.Strict root)
    (hs : f.Below root s) : f'.Below s m ↔ f.Below s m ∨ f.Below s p ∧ f.Below x m := by
  obtain ⟨own, hown, -, -⟩ := hstrict.of_below hs
  obtain ⟨xs, hxs, -, -⟩ := h.apart.strict
  obtain ⟨own', hown', hcount⟩ :=
    h.lists hxs hown fun k hk => hs.trans (hown.mem_singleton_iff.mp hk)
  rw [← hown'.mem_singleton_iff, ← hown.mem_singleton_iff, ← hown.mem_singleton_iff,
    ← hxs.mem_singleton_iff]
  rw [← List.count_pos_iff, hcount, Nat.add_pos_iff_pos_or_pos, Nat.pos_iff_ne_zero,
    Nat.pos_iff_ne_zero, Nat.mul_ne_zero_iff, ← Nat.pos_iff_ne_zero, ← Nat.pos_iff_ne_zero,
    ← Nat.pos_iff_ne_zero, List.count_pos_iff, List.count_pos_iff, List.count_pos_iff]

/-- The nodes of the tree are those before and those of the added tree. -/
theorem Grown.below_root_iff (h : Grown f f' root p x pre post) (hstrict : f.Strict root) :
    f'.Below root m ↔ f.Below root m ∨ f.Below x m := by
  simp [h.below_iff hstrict (.refl root), h.place]

theorem Grown.countAbove_old (h : Grown f f' root p x pre post) (hstrict : f.Strict root)
    (hns : ∀ s ∈ ns, f.Below root s) (hm : f.Below root m) :
    f'.countAbove ns m = f.countAbove ns m := by
  refine countAbove_congr fun s hs => ?_
  have hnew : ¬ f.Below x m := fun hbelow => h.apart.disjoint m hbelow hm
  simp [h.below_iff hstrict (hns s hs), hnew]

/-- A node that was added lies below those that the node lies below that it was added to. -/
theorem Grown.countAbove_new (h : Grown f f' root p x pre post) (hstrict : f.Strict root)
    (hns : ∀ s ∈ ns, f.Below root s) (hm : f.Below x m) :
    f'.countAbove ns m = f.countAbove ns p := by
  refine countAbove_congr fun s hs => ?_
  have hold : ¬ f.Below s m := fun hbelow => h.apart.disjoint m hm ((hns s hs).trans hbelow)
  simp [h.below_iff hstrict (hns s hs), hold, hm]

/-! ## The frames -/

/-- The children that a frame had gone past and that lie ahead of it now. -/
def returned (f f' : Forest) (frame : Frame) : List NodeId :=
  (unreached f' frame).filter (· ∈ (f.children frame.node).take frame.index)

/-- The nodes that lie ahead once more: the innermost frame finds the place of the node that was handed out
last, the other ones keep their indexes. -/
def setBack (f f' : Forest) (frames : List Frame) : List NodeId := frames.tail.flatMap (returned f f')

theorem filter_unreached {i : Nat} (hnodup : (f.children p).Nodup) :
    (unreached f ⟨p, i⟩).filter (· ∈ (f.children p).take i) = [] := by
  rw [← List.take_append_drop i (f.children p), List.nodup_append'] at hnodup
  rw [unreached, List.filter_eq_nil_iff]
  intro c hc
  simpa using fun hback => hnodup.2.2 hback hc

theorem returned_of_eq {frame : Frame} (h : f'.children frame.node = f.children frame.node)
    (hnodup : (f.children frame.node).Nodup) : returned f f' frame = [] := by
  rw [returned, unreached, h]
  exact filter_unreached hnodup

/-- What an addition makes of nodes that lie ahead: they are as before, but that a child of the node that was added
to may come back; or the node that was added is one of them, and then the one that it was added to is in some
places. -/
inductive Comes (f : Forest) (p x : NodeId) (places back before after : List NodeId) : Prop where
  | back (one : back.length ≤ 1) (children : ∀ s ∈ back, s ∈ f.children p) (perm : after.Perm (back ++ before))
  | new (none : back = []) (place : p ∈ places) (perm : after.Perm (x :: before))

section Comes

variable {places places' back before after : List NodeId}

theorem Comes.same (places before : List NodeId) : Comes f p x places [] before before :=
  .back (Nat.zero_le 1) (List.forall_mem_nil _) (.refl _)

theorem Comes.mono (h : Comes f p x places back before after) (hplaces : places ⊆ places') :
    Comes f p x places' back before after := by
  cases h with
  | back one children perm => exact .back one children perm
  | new none place perm => exact .new none (hplaces place) perm

/-- Other nodes may be ahead in front of those. -/
theorem Comes.behind (h : Comes f p x places back before after) (front : List NodeId) :
    Comes f p x places back (front ++ before) (front ++ after) := by
  cases h with
  | back one children perm =>
    exact .back one children ((perm.append_left front).trans (List.perm_append_comm_assoc _ _ _))
  | new none place perm => exact .new none place ((perm.append_left front).trans List.perm_middle)

/-- Other nodes may be ahead behind those. -/
theorem Comes.inFront (h : Comes f p x places back before after) (rest : List NodeId) :
    Comes f p x places back (before ++ rest) (after ++ rest) := by
  cases h with
  | back one children perm =>
    refine .back one children ?_
    rw [← List.append_assoc]
    exact perm.append_right rest
  | new none place perm => exact .new none place (perm.append_right rest)

end Comes

/-- A child more. -/
theorem Grown.comes_children (h : Grown f f' root p x pre post) :
    Comes f p x [p] [] (f.children p) (f'.children p) := by
  rw [h.held, h.holds]
  exact .new rfl List.mem_cons_self List.perm_middle

/-- A node goes in front of the index of a frame, and a child comes back, or behind it. -/
theorem Grown.unreached_place {i : Nat} (h : Grown f f' root p x pre post) (hstrict : f.Strict root)
    (hi : i ≤ (f.children p).length) :
    Comes f p x [p] (returned f f' ⟨p, i⟩) (unreached f ⟨p, i⟩) (unreached f' ⟨p, i⟩) := by
  have hrest : (unreached f ⟨p, i⟩).filter (· ∈ (f.children p).take i) = [] :=
    filter_unreached (hstrict.nodup_children h.place)
  rcases Nat.lt_or_ge pre.length i with hfront | hbehind
  · obtain ⟨j, rfl⟩ : ∃ j, i = j + 1 := ⟨i - 1, by omega⟩
    have hback : unreached f' ⟨p, j + 1⟩ = (f.children p)[j] :: unreached f ⟨p, j + 1⟩ := by
      rw [unreached, unreached, ← List.drop_eq_getElem_cons hi, h.holds, h.held]
      have hj : j + 1 - pre.length = (j - pre.length) + 1 := by omega
      simp [List.drop_append, hj, List.drop_eq_nil_of_le (by omega : pre.length ≤ j + 1),
        List.drop_eq_nil_of_le (by omega : pre.length ≤ j)]
    have hpast : (f.children p)[j] ∈ (f.children p).take (j + 1) :=
      List.mem_take_iff_getElem.mpr ⟨j, by omega, rfl⟩
    have hone : returned f f' ⟨p, j + 1⟩ = [(f.children p)[j]] := by
      rw [returned, hback, List.filter_cons_of_pos (by simpa using hpast), hrest]
    rw [hone, hback]
    exact .back (Nat.le_refl 1) (List.forall_mem_singleton.mpr (List.getElem_mem _)) (.refl _)
  · have hbehind' : (unreached f' ⟨p, i⟩).Perm (x :: unreached f ⟨p, i⟩) := by
      rw [unreached, unreached, h.holds, h.held, List.drop_append_of_le_length hbehind,
        List.drop_append_of_le_length hbehind]
      exact List.perm_middle
    have hx : x ∉ (f.children p).take i := fun hmem => h.not_mem h.place (List.mem_of_mem_take hmem)
    refine .new (List.Perm.eq_nil ?_) List.mem_cons_self hbehind'
    have hfilter := hbehind'.filter (· ∈ (f.children p).take i)
    rwa [List.filter_cons_of_neg (by simpa using hx), hrest] at hfilter

/-- A frame whose node did not get the addition is as it was. -/
theorem Grown.unreached_other {frame : Frame} (h : Grown f f' root p x pre post)
    (hstrict : f.Strict root) (hframe : f.Below root frame.node) (hne : frame.node ≠ p) :
    returned f f' frame = [] ∧ unreached f' frame = unreached f frame := by
  have hsame : f'.children frame.node = f.children frame.node := h.others _ (.inl hframe) hne
  exact ⟨returned_of_eq hsame (hstrict.nodup_children hframe), by rw [unreached, unreached, hsame]⟩

theorem Grown.agenda_other (h : Grown f f' root p x pre post) (hstrict : f.Strict root)
    (hplaces : ∀ frame ∈ frames, f.Below root frame.node) (hother : p ∉ frames.map Frame.node) :
    frames.flatMap (returned f f') = [] ∧ agenda f' frames = agenda f frames := by
  have hframe : ∀ frame ∈ frames, returned f f' frame = [] ∧ unreached f' frame = unreached f frame :=
    fun frame hframe => h.unreached_other hstrict (hplaces frame hframe)
      fun heq => hother (heq ▸ List.mem_map_of_mem hframe)
  refine ⟨List.flatMap_eq_nil_iff.mpr fun frame hmem => (hframe frame hmem).1, ?_⟩
  rw [agenda, agenda]
  exact List.flatMap_congr fun frame hmem => (hframe frame hmem).2

/-- Frames of different nodes have those ahead of them that come back, or the node that was added, if it
was added to the node of a frame. -/
theorem Grown.agenda (h : Grown f f' root p x pre post) (hstrict : f.Strict root)
    (hnodup : (frames.map Frame.node).Nodup) (hplaces : ∀ frame ∈ frames, f.Below root frame.node)
    (hindex : ∀ frame ∈ frames, frame.index ≤ (f.children frame.node).length) :
    Comes f p x (frames.map Frame.node) (frames.flatMap (returned f f')) (agenda f frames) (agenda f' frames) := by
  induction frames with
  | nil => exact .same _ _
  | cons frame frames ih =>
    rw [List.map_cons, List.nodup_cons] at hnodup
    rw [List.forall_mem_cons] at hplaces hindex
    have hcons : ∀ g : Forest, Walker.agenda g (frame :: frames) =
        unreached g frame ++ Walker.agenda g frames := fun _ => List.flatMap_cons
    rw [List.flatMap_cons, hcons, hcons]
    by_cases hframe : frame.node = p
    · obtain ⟨hnone, hsame⟩ := h.agenda_other hstrict hplaces.2 (hframe ▸ hnodup.1)
      rw [hnone, hsame, List.append_nil]
      obtain ⟨q, i⟩ := frame
      obtain rfl : q = p := hframe
      exact ((h.unreached_place hstrict hindex.1).mono (by simp)).inFront _
    · obtain ⟨hback, hahead⟩ := h.unreached_other hstrict hplaces.1 hframe
      rw [hback, hahead, List.nil_append]
      exact ((ih hnodup.2 hplaces.2 hindex.2).mono (List.subset_cons_self _ _)).behind _

end Walker

end DocFilter
