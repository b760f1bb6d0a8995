import DocFilter.Proofs.Filter.Recursion
import DocFilter.Proofs.Forest.Replacement
import DocFilter.Proofs.Walk.Path

/-!
# What a visit may do

A visit may rework what lies below its node, and then leave the node where it is, remove it, or put
another one in its place.  This module says what that does to the place where the walk stands.

* `Filter.Local` is such a visit: `Filter.Reworked` says what it may do below the node, `Filter.Moved`
  what it may do with the node.
* `Filter.Stands` is the invariant of a run when a node has been entered: the frames are the path to the
  node, which bears no mark, and the chain of replacements from the node that the walker handed out last
  meets no other child of the innermost frame's node.
* `Filter.Left` is what a visit makes of that, and `Filter.Stands.left` says that each local visit does.
-/

namespace DocFilter

namespace Filter

open Forest Walker

variable {f f₁ f' : Forest} {root x x₀ r p m : NodeId} {w : Walker} {frames outer : List Frame}

/-! ## Local visits -/

/-- What a visit may do before it moves its node: the rest of the tree keeps its children, the node keeps
its holder and bears no mark, and a node that is marked now and was not, or otherwise, is marked with a
new one. -/
structure Reworked (root x : NodeId) (f f' : Forest) : Prop where
  grows : f.size ≤ f'.size
  outside : ∀ m, Outside f root x m → f'.children m = f.children m
  holder : f'.holder? x = f.holder? x
  unmarked : f'.replacement? x = none
  marks : ∀ m, f.Has m → f'.replacement? m = f.replacement? m ∨
    ∃ z, f'.replacement? m = some z ∧ ¬ f.Has z
  fresh : ∀ m z, ¬ f.Has m → f'.replacement? m = some z → ¬ f.Has z

/-- What a visit may do with its node in the end, where `f` is the forest before the visit. -/
inductive Moved (root x : NodeId) (f f₁ : Forest) : Forest → Prop where
  /-- The node stays, with a strict tree below it. -/
  | stays : f₁.Strict x → (∀ m, f₁.Below x m → ¬ Outside f root x m) → Moved root x f f₁ f₁
  /-- The node is removed from its holder. -/
  | removed {p : NodeId} {f' : Forest} :
      f₁.holder? x = some p → f₁.remove p x = .ok f' → Moved root x f f₁ f'
  /-- Another node is put in its place, with a strict tree below it in which the node itself and those
  below it may occur. -/
  | replaced {r : NodeId} {f' : Forest} :
      r ≠ x → f₁.Strict r → (∀ m, f₁.Below r m → ¬ Outside f root x m) →
      f₁.replaceWith x r = .ok f' → Moved root x f f₁ f'

/-- A visit that changes what lies below its node and then moves the node at most once.  It does not take away
all visits, as the last one is for the loop to write over. -/
structure Local {σ : Type} (root x : NodeId) (c c' : Context σ) : Prop where
  listed : c'.history ≠ #[]
  moved : ∃ f₁, Reworked root x c.forest f₁ ∧ Moved root x c.forest f₁ c'.forest

/-- A visit may leave everything as it is. -/
theorem Reworked.refl (hmark : f.replacement? x = none) : Reworked root x f f where
  grows := Nat.le_refl _
  outside := fun _ _ => rfl
  holder := rfl
  unmarked := hmark
  marks := fun _ _ => .inl rfl
  fresh := fun m z hm hz => by
    rw [replacement?_of_not_has hm] at hz
    cases hz

/-- A visit may make a node. -/
theorem Reworked.add {made : Cell} (hstrict : f.Strict root) (hx : f.Has x)
    (hmark : f.replacement? x = none) (hmade : made.replacement = none) :
    Reworked root x f (f.add made).2 where
  grows := by simp [size, Forest.add]
  outside := fun m hm => congrArg Cell.children (cell_add_of_has (hstrict.has hm.1))
  holder := congrArg Cell.holder (cell_add_of_has hx)
  unmarked := (congrArg Cell.replacement (cell_add_of_has hx)).trans hmark
  marks := fun m hm => .inl (congrArg Cell.replacement (cell_add_of_has hm))
  fresh := fun m z hm hz => by
    have hnone : (f.add made).2.replacement? m = none := by
      by_cases hnew : m.index = f.size
      · rw [replacement?, cell_add_of_eq hnew, hmade]
      · refine replacement?_of_not_has fun hhas => ?_
        rw [Has, size, Forest.add, Array.size_push] at hhas
        rw [Has, size] at hm
        rw [size] at hnew
        omega
    rw [hnone] at hz
    cases hz

/-! ## Where a run stands -/

/-- A run has entered the node `x` at its place; the walker handed out `x₀` last, which is `x` or was
replaced in its place. -/
structure Stands (root : NodeId) (w : Walker) (f : Forest) (x₀ x : NodeId) : Prop where
  started : w.started
  root_eq : w.root = root
  pending : w.pending = some x₀
  strict : f.Strict root
  path : Path f root w.frames x
  unmarked : f.replacement? x = none
  held : f.holder? x = place w.frames
  at_root : w.frames = [] → x₀ = root
  not_root : w.frames ≠ [] → x₀ ≠ root
  tame : ∀ p, place w.frames = some p → ∀ k, f.follow k x₀ ∈ f.children p → f.follow k x₀ = x

/-- The node has been removed from the node whose children the innermost frame walks, and the chain from
the node that the walker handed out last leads to none of those that are left. -/
structure Removed (root : NodeId) (w : Walker) (f : Forest) (x₀ x : NodeId) (f' : Forest)
    (p : NodeId) (i : Nat) (outer : List Frame) : Prop where
  frames : w.frames = ⟨p, i + 1⟩ :: outer
  strict : f'.Strict root
  unmarked : f'.replacement? x = none
  not_mem : x ∉ f'.children p
  between : Walker.Between f' root (⟨p, i⟩ :: outer)
  rest : unreached f' ⟨p, i⟩ = unreached f ⟨p, i + 1⟩
  outer_rest : ∀ frame ∈ outer, unreached f' frame = unreached f frame
  away : ∀ k, f'.follow k x₀ ∉ f'.children p

/-- What a visit makes of it.  What the frames have still to reach stays the same. -/
inductive Left (root : NodeId) (w : Walker) (f : Forest) (x₀ x : NodeId) (f' : Forest) : Prop where
  | stays : (∀ frame ∈ w.frames, unreached f' frame = unreached f frame) →
      Stands root w f' x₀ x → Left root w f x₀ x f'
  | removed {p : NodeId} {i : Nat} {outer : List Frame} :
      Removed root w f x₀ x f' p i outer → Left root w f x₀ x f'
  | replaced {r : NodeId} :
      f'.replacement? x = some r → r ≠ x →
      (∀ frame ∈ w.frames, unreached f' frame = unreached f frame) →
      (f'.replacement? r = none → Stands root w f' x₀ r) → Left root w f x₀ x f'

/-- A node that bears no mark after a visit stays or was removed. -/
theorem Left.rests (h : Left root w f x₀ x f') (hmark : f'.replacement? x = none) :
    ((∀ frame ∈ w.frames, unreached f' frame = unreached f frame) ∧ Stands root w f' x₀ x) ∨
      ∃ p i outer, Removed root w f x₀ x f' p i outer := by
  cases h with
  | stays hsame hstands => exact .inl ⟨hsame, hstands⟩
  | removed hremoved => exact .inr ⟨_, _, _, hremoved⟩
  | replaced hsome =>
    rw [hsome] at hmark
    cases hmark

/-- A node that bears a mark after a visit had another one put in its place. -/
theorem Left.gives_way (h : Left root w f x₀ x f') (hmark : f'.replacement? x = some r) :
    (∀ frame ∈ w.frames, unreached f' frame = unreached f frame) ∧
      (f'.replacement? r = none → Stands root w f' x₀ r) := by
  cases h with
  | stays _ hstands =>
    rw [hstands.unmarked] at hmark
    cases hmark
  | removed hremoved =>
    rw [hremoved.unmarked] at hmark
    cases hmark
  | replaced hsome _ hsame hstands =>
    rw [hsome] at hmark
    cases hmark
    exact ⟨hsame, hstands⟩

/-! ## Chains of replacements during a visit -/

/-- Reworking leaves a chain as it is or turns it to new nodes. -/
theorem Reworked.follow (h : Reworked root x f f') (n : NodeId) (k : Nat) :
    f'.follow k n = f.follow k n ∨ ¬ f.Has (f'.follow k n) := by
  induction k with
  | zero => exact .inl rfl
  | succ k ih =>
    rw [follow_last, follow_last]
    rcases ih with heq | hnew
    · rw [heq]
      by_cases hhas : f.Has (f.follow k n)
      · rcases h.marks _ hhas with hsame | ⟨z, hz, hnew⟩
        · exact .inl (by rw [hsame])
        · exact .inr (by rw [hz]; exact hnew)
      · cases hz : f'.replacement? (f.follow k n) with
        | none => exact .inr (by rw [Option.getD_none]; exact hhas)
        | some z => exact .inr (h.fresh _ z hhas hz)
    · cases hz : f'.replacement? (f'.follow k n) with
      | none => exact .inr hnew
      | some z => exact .inr (h.fresh _ z hnew hz)

/-- Where a node gets an unmarked one in its place, a chain stays as it is or comes to the new node. -/
theorem follow_of_mark {n : NodeId}
    (hmark : ∀ m, f'.replacement? m = if m = x then some r else f₁.replacement? m)
    (hr : f'.replacement? r = none) (k : Nat) :
    f'.follow k n = r ∨ ∃ j, f'.follow k n = f₁.follow j n := by
  induction k with
  | zero => exact .inr ⟨0, rfl⟩
  | succ k ih =>
    rw [follow_last]
    rcases ih with heq | ⟨j, heq⟩
    · exact .inl (by rw [heq, hr]; rfl)
    · rw [heq, hmark]
      split
      · exact .inl rfl
      · exact .inr ⟨j + 1, (follow_last j).symm⟩

theorem follow_of_remove {n p : NodeId} (h : f₁.remove p x = .ok f') (k : Nat) :
    f'.follow k n = f₁.follow k n :=
  follow_congr fun _ _ => replacement?_of_remove h

/-! ## The innermost frame -/

/-- The node that has been entered among the children of the innermost frame's node. -/
structure Seat (root : NodeId) (w : Walker) (f : Forest) (x p : NodeId) (done rest : List NodeId)
    (outer : List Frame) : Prop where
  frames : w.frames = ⟨p, done.length + 1⟩ :: outer
  path : Path f root outer p
  children : f.children p = done ++ x :: rest
  nodup : (done ++ x :: rest).Nodup
  held : f.holder? x = some p
  outside : Outside f root x p

theorem Stands.seat (h : Stands root w f x₀ x) (hframes : w.frames ≠ []) :
    ∃ p done rest outer, Seat root w f x p done rest outer := by
  have hpath := h.path
  have hheld := h.held
  generalize hw : w.frames = frames at hpath hheld
  cases hpath with
  | root => exact absurd hw hframes
  | @child outer p _ done rest houter hchildren =>
    refine ⟨p, done, rest, outer, hw, houter, hchildren, ?_, hheld, ?_⟩
    · rw [← hchildren]
      exact h.strict.nodup_children houter.leads
    · have hmem : (⟨p, done.length + 1⟩ : Frame) ∈ w.frames := by simp [hw]
      exact h.path.outside h.strict hmem

section Seat

variable {done rest : List NodeId}

theorem Seat.not_mem (seat : Seat root w f x p done rest outer) : x ∉ done ∧ x ∉ rest := by
  have hnodup := List.nodup_append.mp seat.nodup
  refine ⟨fun hx => hnodup.2.2 x hx x (by simp) rfl, (List.nodup_cons.mp hnodup.2.1).1⟩

theorem Seat.unreached_eq (seat : Seat root w f x p done rest outer) :
    unreached f ⟨p, done.length + 1⟩ = rest := by
  simp [unreached, seat.children, List.drop_append]

/-- A frame that has gone past the nodes in front of the rest has the rest to reach. -/
theorem unreached_of_split {before : List NodeId} (h : f.children p = before ++ rest) :
    unreached f ⟨p, before.length⟩ = rest := by
  simp [unreached, h]

/-- The frames above the innermost one have to reach what they had to reach. -/
theorem Seat.unreached_outer {mid : List NodeId} {frame : Frame}
    (seat : Seat root w f x p done rest outer) (hgraft : Graft f f' root p x done rest mid)
    (hstrict : f.Strict root) (hframe : frame ∈ outer) :
    unreached f' frame = unreached f frame := by
  rw [unreached, unreached, hgraft.children_outer hstrict seat.path hframe]

/-- All frames have to reach what they had to reach, if one node takes the place. -/
theorem Seat.unreached_all {frame : Frame} (seat : Seat root w f x p done rest outer)
    (hgraft : Graft f f' root p x done rest [r]) (hstrict : f.Strict root)
    (hframe : frame ∈ w.frames) : unreached f' frame = unreached f frame := by
  rw [seat.frames] at hframe
  rcases List.mem_cons.mp hframe with rfl | hframe
  · have hholds : f'.children p = (done ++ [r]) ++ rest := hgraft.holds
    have hlength : (done ++ [r]).length = done.length + 1 := by simp
    rw [seat.unreached_eq, ← hlength]
    exact unreached_of_split hholds
  · exact seat.unreached_outer hgraft hstrict hframe

/-- The path leads to the node that takes the place. -/
theorem Seat.path_after (seat : Seat root w f x p done rest outer)
    (hgraft : Graft f f' root p x done rest [r]) (hstrict : f.Strict root) :
    Path f' root w.frames r := by
  have hchildren : f'.children p = done ++ r :: rest := by
    rw [hgraft.holds]
    simp
  rw [seat.frames]
  exact .child (hgraft.path hstrict seat.path) hchildren

/-! ## The three ways to leave a node -/

/-- After reworking, chains still meet no other child. -/
theorem Stands.tame_reworked (h : Stands root w f x₀ x) (seat : Seat root w f x p done rest outer)
    (hre : Reworked root x f f₁) (k : Nat) (hk : f₁.follow k x₀ ∈ done ++ x :: rest) :
    f₁.follow k x₀ = x := by
  have hmem : f₁.follow k x₀ ∈ f.children p := by rwa [seat.children]
  have hbelow : f.Below root (f₁.follow k x₀) := seat.outside.1.trans (.of_mem hmem)
  rcases hre.follow x₀ k with heq | hnew
  · rw [heq]
    exact h.tame p (by rw [place, seat.frames]; rfl) k (by rwa [← heq])
  · exact absurd (h.strict.has hbelow) hnew

theorem Stands.left_stays (h : Stands root w f x₀ x) (hre : Reworked root x f f')
    (hstrict : f'.Strict x) (hin : ∀ m, f'.Below x m → ¬ Outside f root x m) :
    Left root w f x₀ x f' := by
  by_cases hframes : w.frames = []
  · have hpath := h.path
    rw [hframes] at hpath
    cases hpath
    refine .stays (by simp [hframes]) { h with
      strict := hstrict
      path := by rw [hframes]; exact .root
      unmarked := hre.unmarked
      held := hre.holder.trans h.held
      tame := by simp [hframes, place] }
  · obtain ⟨p, done, rest, outer, seat⟩ := h.seat hframes
    obtain ⟨order, horder, hnodup, hhas⟩ := hstrict
    have hgraft : Graft f f' root p x done rest [x] := {
      held := seat.children
      holds := by
        rw [hre.outside p seat.outside, seat.children]
        simp
      around := fun m hm _ => hre.outside m hm
      grows := fun m hm => Nat.lt_of_lt_of_le hm hre.grows
      strict := ⟨order, horder, hnodup, fun m hm =>
        ⟨hhas m hm, hin m (horder.mem_singleton_iff.mp hm)⟩⟩ }
    refine .stays (fun _ hframe => seat.unreached_all hgraft h.strict hframe) { h with
      strict := hgraft.strict_root h.strict seat.path
      path := seat.path_after hgraft h.strict
      unmarked := hre.unmarked
      held := hre.holder.trans h.held
      tame := ?_ }
    intro q hq k hk
    have hqp : p = q := by simpa [place, seat.frames] using hq
    rw [← hqp, hre.outside p seat.outside, seat.children] at hk
    exact h.tame_reworked seat hre k hk

theorem Stands.removed {q : NodeId} (h : Stands root w f x₀ x) (hre : Reworked root x f f₁)
    (hholder : f₁.holder? x = some q) (hremove : f₁.remove q x = .ok f') :
    ∃ i outer, Removed root w f x₀ x f' q i outer := by
  have hheld : some q = place w.frames := by rw [← hholder, hre.holder, h.held]
  have hframes : w.frames ≠ [] := fun hnil => by
    rw [hnil] at hheld
    cases hheld
  obtain ⟨p, done, rest, outer, seat⟩ := h.seat hframes
  obtain rfl : q = p := by simpa [place, seat.frames] using hheld
  have hchildren : f'.children q = done ++ rest := by
    rw [children_of_remove hremove, if_pos rfl, hre.outside q seat.outside, seat.children,
      List.erase_append_right _ seat.not_mem.1, List.erase_cons_head]
  have hgraft : Graft f f' root q x done rest [] := {
    held := seat.children
    holds := by simp [hchildren]
    around := fun m hm hmq => by
      rw [children_of_remove hremove, if_neg hmq]
      exact hre.outside m hm
    grows := fun m hm => by
      rw [Has, size_of_remove hremove]
      exact Nat.lt_of_lt_of_le hm hre.grows
    strict := ⟨[], .nil, .nil, by simp⟩ }
  refine ⟨done.length, outer, {
    frames := seat.frames
    strict := hgraft.strict_root h.strict seat.path
    unmarked := (replacement?_of_remove hremove).trans hre.unmarked
    not_mem := by simp [hchildren, seat.not_mem]
    between := ⟨hgraft.path h.strict seat.path, by simp [hchildren]⟩
    rest := by
      rw [seat.unreached_eq]
      exact unreached_of_split hchildren
    outer_rest := fun _ hframe => seat.unreached_outer hgraft h.strict hframe
    away := fun k hk => ?_ }⟩
  rw [follow_of_remove hremove, hchildren] at hk
  have hx := h.tame_reworked seat hre k (by
    simp only [List.mem_append, List.mem_cons] at hk ⊢
    exact hk.imp_right .inr)
  rw [hx] at hk
  simp [seat.not_mem] at hk

/-- A node that takes the seat comes from elsewhere, so no node that stays gives it up. -/
theorem Stands.children_put (h : Stands root w f x₀ x) (hre : Reworked root x f f₁)
    (hstrict : f₁.Strict r) (hin : ∀ m, f₁.Below r m → ¬ Outside f root x m) (hrx : r ≠ x)
    (hm : Outside f root x m ∨ f₁.Below r m) (hmp : m ≠ p) :
    (f₁.put p x r).children m = f₁.children m := by
  have hnot : r ∉ f₁.children m := by
    rcases hm with hout | hbelow
    · intro hmem
      rw [hre.outside m hout] at hmem
      exact hin r (.refl r) (h.path.outside_child h.strict hout hmem hrx)
    · exact hstrict.not_mem_children hbelow
  rw [Forest.children_put, if_neg hmp, children_take]
  split
  · exact List.erase_of_not_mem hnot
  · rfl

theorem Seat.children_put (seat : Seat root w f x p done rest outer) (h : Stands root w f x₀ x)
    (hre : Reworked root x f f₁) (hin : ∀ m, f₁.Below r m → ¬ Outside f root x m) (hrx : r ≠ x) :
    (f₁.put p x r).children p = done ++ r :: rest := by
  have hheld : f₁.children p = done ++ x :: rest := by
    rw [hre.outside p seat.outside, seat.children]
  have hnot : r ∉ f₁.children p := fun hmem => by
    rw [hre.outside p seat.outside] at hmem
    exact hin r (.refl r) (h.path.outside_child h.strict seat.outside hmem hrx)
  have htake : (f₁.take p r).children p = done ++ x :: rest := by
    rw [children_take, ← hheld]
    split
    · exact List.erase_of_not_mem hnot
    · rfl
  rw [Forest.children_put, if_pos rfl, htake, List.replace_append_right seat.not_mem.1,
    List.replace_cons_self]

/-- Putting a node in the place is a change at the end of the path. -/
theorem Seat.graft_put (seat : Seat root w f x p done rest outer) (h : Stands root w f x₀ x)
    (hre : Reworked root x f f₁) (hstrict : f₁.Strict r)
    (hin : ∀ m, f₁.Below r m → ¬ Outside f root x m) (hrx : r ≠ x) :
    Graft f (f₁.put p x r) root p x done rest [r] := by
  obtain ⟨order, horder, hnodup, hhas⟩ := hstrict
  have hnotout : ∀ m ∈ order, ¬ Outside f root x m := fun m hm =>
    hin m (horder.mem_singleton_iff.mp hm)
  have hlists : (f₁.put p x r).Lists [r] order := by
    refine horder.congr fun m hm => ?_
    have hmp : m ≠ p := fun heq => hnotout m hm (heq ▸ seat.outside)
    exact h.children_put hre ⟨order, horder, hnodup, hhas⟩ hin hrx
      (.inr (horder.mem_singleton_iff.mp hm)) hmp
  exact {
    held := seat.children
    holds := by
      rw [seat.children_put h hre hin hrx]
      simp
    around := fun m hm hmp => by
      rw [h.children_put hre ⟨order, horder, hnodup, hhas⟩ hin hrx (.inl hm) hmp]
      exact hre.outside m hm
    grows := fun m hm => by
      rw [Has, size_put]
      exact Nat.lt_of_lt_of_le hm hre.grows
    strict := ⟨order, hlists, hnodup, fun m hm => ⟨by
      rw [Has, size_put]
      exact hhas m hm, hnotout m hm⟩⟩ }

/-- A node is put where the walk says that the present one is. -/
theorem Stands.put (h : Stands root w f x₀ x) (hre : Reworked root x f f₁) (hrx : r ≠ x)
    (hreplace : f₁.replaceWith x r = .ok f') :
    ∃ p done rest outer, Seat root w f x p done rest outer ∧ f' = f₁.put p x r := by
  obtain ⟨q, hholder, -, hreplace⟩ := replaceWith_eq_ok_iff.mp hreplace
  have hheld : some q = place w.frames := by rw [← hholder, hre.holder, h.held]
  have hframes : w.frames ≠ [] := fun hnil => by
    rw [hnil] at hheld
    cases hheld
  obtain ⟨p, done, rest, outer, seat⟩ := h.seat hframes
  obtain rfl : q = p := by simpa [place, seat.frames] using hheld
  refine ⟨q, done, rest, outer, seat, ?_⟩
  rcases replace_eq_ok_iff.mp hreplace with ⟨-, heq, -⟩ | ⟨-, hput⟩
  · exact absurd heq hrx
  · exact hput

theorem Stands.left_replaced (h : Stands root w f x₀ x) (hre : Reworked root x f f₁)
    (hrx : r ≠ x) (hstrict : f₁.Strict r) (hin : ∀ m, f₁.Below r m → ¬ Outside f root x m)
    (hreplace : f₁.replaceWith x r = .ok f') : Left root w f x₀ x f' := by
  obtain ⟨q, done, rest, outer, seat, rfl⟩ := h.put hre hrx hreplace
  have hheld : some q = place w.frames := seat.held.symm.trans h.held
  have hx : f₁.Has x := Nat.lt_of_lt_of_le (h.strict.has h.path.leads) hre.grows
  have hmark : ∀ m, (f₁.put q x r).replacement? m = if m = x then some r else f₁.replacement? m :=
    fun _ => replacement?_put hx
  have hgraft := seat.graft_put h hre hstrict hin hrx
  refine .replaced (by rw [hmark, if_pos rfl]) hrx
    (fun _ hframe => seat.unreached_all hgraft h.strict hframe) fun hr => { h with
      strict := hgraft.strict_root h.strict seat.path
      path := seat.path_after hgraft h.strict
      unmarked := hr
      held := by
        rw [holder?_put, holder?_take, if_pos ⟨rfl, hstrict.has (.refl r)⟩, hheld]
      tame := ?_ }
  intro p hp k hk
  obtain rfl : q = p := by simpa [place, seat.frames] using hp
  rcases follow_of_mark (n := x₀) hmark hr k with heq | ⟨j, heq⟩
  · exact heq
  · rw [heq, seat.children_put h hre hin hrx, List.mem_append, List.mem_cons] at hk
    by_cases hjr : f₁.follow j x₀ = r
    · rw [heq, hjr]
    · have hold : f₁.follow j x₀ ∈ done ∨ f₁.follow j x₀ ∈ rest :=
        hk.imp_right fun hk => hk.resolve_left hjr
      have hjx := h.tame_reworked seat hre j (by
        rw [List.mem_append, List.mem_cons]
        exact hold.imp_right .inr)
      rw [hjx] at hold
      exact absurd hold (not_or.mpr seat.not_mem)

/-- What a local visit makes of the place where the walk stands. -/
theorem Stands.left {σ : Type} {c c' : Context σ} (h : Stands root w c.forest x₀ x)
    (hlocal : Local root x c c') : Left root w c.forest x₀ x c'.forest := by
  obtain ⟨f₁, hre, hmoved⟩ := hlocal.moved
  generalize c'.forest = f' at hmoved
  cases hmoved with
  | stays hstrict hin => exact h.left_stays hre hstrict hin
  | removed hholder hremove =>
    obtain ⟨i, outer, hremoved⟩ := h.removed hre hholder hremove
    exact .removed hremoved
  | replaced hrx hstrict hin hreplace => exact h.left_replaced hre hrx hstrict hin hreplace

end Seat

end Filter

end DocFilter
