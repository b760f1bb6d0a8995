import DocFilter.Proofs.Forest.Effects
import DocFilter.Proofs.Forest.Replacement

/-!
# Forests with a history

What can happen to a forest: documents are read and nodes are made, edits are tried, and walkers are
asked for their next node.  A refused edit leaves the forest as it is.

Which of these moves can close a circle of replacements?  Reading, making, adding, inserting and removing
do not touch the marks, and a walker only drops some.  What is left is a node that takes the place of
another one whose mark was not dropped since it was itself the one put in place: swapping back.

* `Quiet` says of an effect that it leaves the marks alone; reading a document is `Quiet`.
* `Walker.next_clears` says what a walker does to the marks.
* `Move.settled_iff_not_closes` is the step, `Move.history_settled_iff` the whole history, and
  `Move.history_swapBack` a history that closes a circle.
-/

namespace DocFilter

namespace Forest

variable {f f' : Forest} {n m p c : NodeId}

/-! ## Reading and making -/

/-- An effect that leaves every mark of replacement as it is. -/
def Quiet {α : Type} (x : StateM Forest α) : Prop :=
  ∀ f n, (x f).2.replacement? n = f.replacement? n

theorem lasting_marks : Lasting fun f f' => ∀ n, f'.replacement? n = f.replacement? n where
  refl _ _ := rfl
  trans h h' n := (h' n).trans (h n)

theorem replacement?_add (cell : Cell) (hcell : cell.replacement = none) :
    (f.add cell).2.replacement? n = f.replacement? n := by
  rw [replacement?, replacement?, Forest.cell, Forest.cell, add, Array.getElem?_push]
  split
  · rename_i hn
    have hnone : f.cells[n.index]? = none := Array.getElem?_eq_none (by omega)
    rw [hnone]
    exact hcell
  · rfl

theorem replacement?_adoptAll (cs : List NodeId) :
    (f.adoptAll p cs).replacement? n = f.replacement? n := by
  induction cs generalizing f with
  | nil => rfl
  | cons c cs ih =>
    have hstep : f.adoptAll p (c :: cs) = (f.adopt p c).adoptAll p cs := rfl
    rw [hstep, ih, adopt, replacement?_setHolder]

theorem quiet_fold (linked : Bool) (t : Tree) : Quiet (t.fold (plantNode linked)) := by
  induction t using Tree.induct with
  | node kind payload children hpayload hchildren =>
    rw [Tree.fold_node]
    refine lasting_marks.bind (lasting_marks.payload hpayload) fun payload => ?_
    refine lasting_marks.bind (lasting_marks.list hchildren) fun children => ?_
    have hadd : Quiet (modifyGet fun f : Forest =>
        f.add { kind := kind, children := children, payload := payload }) :=
      fun f n => replacement?_add _ rfl
    refine lasting_marks.bind hadd fun n => ?_
    cases linked with
    | false => exact lasting_marks.pure n
    | true =>
      have hadopt : Quiet (modify fun f : Forest => f.adoptAll n children) :=
        fun f m => replacement?_adoptAll children
      exact lasting_marks.bind hadopt fun _ => lasting_marks.pure n

theorem replacement?_plant (t : Tree) : (f.plant t).2.replacement? n = f.replacement? n :=
  quiet_fold true t f n

theorem replacement?_addDocument (cs : List NodeId) (data : DocumentData) :
    (f.addDocument cs data).2.replacement? n = f.replacement? n := by
  rw [addDocument, replacement?_adoptAll]
  exact replacement?_add _ rfl

theorem replacement?_plantDocument (d : Document) :
    (f.plantDocument d).2.replacement? n = f.replacement? n := by
  have hread : Quiet (d.blocks.mapM (Tree.fold (plantNode true))) :=
    lasting_marks.mapM fun t _ => quiet_fold true t
  exact (replacement?_addDocument _ _).trans (hread f n)

end Forest

/-! ## Walking -/

/-- The forest after a step of a walk; a step that runs out of fuel leaves none. -/
def Visit.forest? : Visit → Option Forest
  | node _ _ f => some f
  | finished _ f => some f
  | exhausted => none

namespace Walker

open Forest

theorem clears_reach (f : Forest) (p c : NodeId) : f.Clears (reach f p c) := by
  intro n
  rw [replacement?_reach]
  split
  · exact .inr rfl
  · exact .inl rfl

theorem advance_clears {w : Walker} {fuel : Nat} {frames : List Frame} {f f' : Forest}
    (h : (w.advance fuel frames f).forest? = some f') : f.Clears f' := by
  induction fuel generalizing frames f with
  | zero => cases h
  | succ fuel ih =>
    cases frames with
    | nil =>
      cases h
      exact .refl _
    | cons frame rest =>
      rw [advance] at h
      dsimp only at h
      split at h
      · exact ih h
      · rename_i child _
        split at h
        · exact (clears_reach f frame.node child).trans (ih h)
        · cases h
          exact clears_reach f frame.node child

/-- A walker drops marks of replacement and sets none. -/
theorem next_clears {w : Walker} {fuel : Nat} {f f' : Forest}
    (h : (w.next fuel f).forest? = some f') : f.Clears f' := by
  rw [next] at h
  split at h
  · cases h
    exact .refl f
  · split at h
    · exact advance_clears h
    · split at h
      · exact advance_clears h
      · cases h

end Walker

/-! ## Moves -/

/-- What can happen to a forest. -/
inductive Move where
  /-- A document is read. -/
  | readDocument (d : Document)
  /-- A tree is read. -/
  | readTree (t : Tree)
  /-- A node is made. -/
  | make (kind : Kind) (payload : Payload NodeId) (children : List NodeId)
  /-- The root of a document is made. -/
  | makeDocument (children : List NodeId) (data : DocumentData)
  | append (parent n : NodeId)
  | prepend (parent n : NodeId)
  | insert (parent : NodeId) (index : Int) (n : NodeId)
  | remove (parent child : NodeId)
  | replace (parent child new : NodeId)
  | replaceWith (n new : NodeId)
  /-- A walker, wherever it stands, is asked for its next node. -/
  | walk (w : Walker) (fuel : Nat)

namespace Move

open Forest

variable {f : Forest}

/-- The forest after a move. -/
def act (f : Forest) : Move → Forest
  | readDocument d => (f.plantDocument d).2
  | readTree t => (f.plant t).2
  | make kind payload children => (f.addLoose kind payload children).2
  | makeDocument children data => (f.addDocument children data).2
  | append parent n => f.append parent n
  | prepend parent n => f.prepend parent n
  | insert parent index n => f.insert parent index n
  | remove parent child => (f.remove parent child).toOption.getD f
  | replace parent child new => (f.replace parent child new).toOption.getD f
  | replaceWith n new => (f.replaceWith n new).toOption.getD f
  | walk w fuel => (w.next fuel f).forest?.getD f

/-- The forest after a history that begins with nothing. -/
def history (moves : List Move) : Forest := moves.foldl act {}

/-- The place of a child is taken by a node whose own chain of replacements leads to the child. -/
structure Circles (f : Forest) (parent child new : NodeId) : Prop where
  has : f.Has child
  fits : f.Fits parent child new
  leads : f.Leads new child

/-- A move puts a node in the place of one that the node itself was replaced by, directly or through
others, with no walker having come by in between. -/
def Closes (f : Forest) : Move → Prop
  | replace parent child new => Circles f parent child new
  | replaceWith n new => ∃ parent, f.holder? n = some parent ∧ Circles f parent n new
  | _ => False

/-! ## One move -/

theorem replacement?_act_replace {parent child new n : NodeId}
    (h : ¬ (f.Has child ∧ f.Fits parent child new)) :
    ((replace parent child new).act f).replacement? n = f.replacement? n := by
  rw [act]
  cases hr : f.replace parent child new with
  | error e => rfl
  | ok f' =>
    rcases replace_eq_ok_iff.mp hr with ⟨-, -, rfl⟩ | ⟨hfits, rfl⟩
    · rfl
    · have hno : ¬ f.Has child := fun hhas => h ⟨hhas, hfits⟩
      have htake : ¬ (f.take parent new).Has child := by rwa [Has, size_take]
      simp [Except.toOption, put, replacement?_setReplacement, htake]

theorem act_replace_settled_iff {parent child new : NodeId} (h : f.Settled) :
    ((replace parent child new).act f).Settled ↔ ¬ Circles f parent child new := by
  by_cases hdone : f.Has child ∧ f.Fits parent child new
  · obtain ⟨hhas, hfits⟩ := hdone
    have hact : (replace parent child new).act f = f.put parent child new := by
      rw [act, replace_eq_ok_iff.mpr (.inr ⟨hfits, rfl⟩)]
      rfl
    rw [hact, h.mark_iff fun m => replacement?_put hhas]
    exact ⟨fun hno hcircles => hno hcircles.leads, fun hno hleads => hno ⟨hhas, hfits, hleads⟩⟩
  · have hkept : f.Clears ((replace parent child new).act f) :=
      fun n => .inl (replacement?_act_replace hdone)
    have hno : ¬ Circles f parent child new := fun hcircles => hdone ⟨hcircles.has, hcircles.fits⟩
    exact iff_of_true (h.of_clears hkept) hno

/-- Putting a node where another one is means replacing the child of its holder. -/
theorem act_replaceWith (n new : NodeId) :
    (replaceWith n new).act f = match f.holder? n with
      | none => f
      | some parent => (replace parent n new).act f := by
  rw [act, Forest.replaceWith]
  cases f.holder? n with
  | none => rfl
  | some parent =>
    cases hi : f.indexOf? parent n with
    | none => simp [act, Forest.replace, hi, Except.toOption]
    | some i => simp [act, hi]

theorem act_replaceWith_settled_iff {n new : NodeId} (h : f.Settled) :
    ((replaceWith n new).act f).Settled ↔ ¬ Closes f (replaceWith n new) := by
  rw [act_replaceWith, Closes]
  cases hp : f.holder? n with
  | none => simp [h]
  | some parent => simpa using act_replace_settled_iff h

theorem clears_remove (f : Forest) (parent child : NodeId) :
    f.Clears ((remove parent child).act f) := by
  intro n
  rw [act]
  cases hr : f.remove parent child with
  | error e => exact .inl rfl
  | ok f' =>
    obtain ⟨-, rfl⟩ := remove_eq_ok_iff.mp hr
    exact .inl (by simp [Except.toOption])

theorem clears_walk (f : Forest) (w : Walker) (fuel : Nat) : f.Clears ((walk w fuel).act f) := by
  rw [act]
  cases hv : (w.next fuel f).forest? with
  | none => exact .refl f
  | some f' => exact Walker.next_clears hv

/-- A move that sets no mark keeps a forest settled. -/
theorem settled_iff_of_clears {f' : Forest} (h : f.Settled) (hclears : f.Clears f') :
    f'.Settled ↔ ¬ False :=
  iff_of_true (h.of_clears hclears) id

/-- A move keeps a forest settled exactly if it does not close a circle. -/
theorem settled_iff_not_closes (move : Move) (h : f.Settled) :
    (move.act f).Settled ↔ ¬ move.Closes f := by
  cases move with
  | readDocument d => exact settled_iff_of_clears h fun n => .inl (replacement?_plantDocument d)
  | readTree t => exact settled_iff_of_clears h fun n => .inl (replacement?_plant t)
  | make kind payload children =>
    exact settled_iff_of_clears h fun _ => .inl (replacement?_add _ rfl)
  | makeDocument children data =>
    exact settled_iff_of_clears h fun n => .inl (replacement?_addDocument children data)
  | append parent n =>
    exact settled_iff_of_clears h fun m => .inl (by simp [act, Forest.append])
  | prepend parent n =>
    exact settled_iff_of_clears h fun m => .inl (by simp [act, Forest.prepend, Forest.insert, place])
  | insert parent index n =>
    exact settled_iff_of_clears h fun m => .inl (by simp [act, Forest.insert, place])
  | remove parent child => exact settled_iff_of_clears h (clears_remove f parent child)
  | replace parent child new => exact act_replace_settled_iff h
  | replaceWith n new => exact act_replaceWith_settled_iff h
  | walk w fuel => exact settled_iff_of_clears h (clears_walk f w fuel)

/-! ## Histories -/

theorem settled_empty : ({} : Forest).Settled := fun _ =>
  .of_none (replacement?_of_not_has fun h => Nat.not_lt_zero _ h)

theorem history_concat (moves : List Move) (move : Move) :
    history (moves ++ [move]) = move.act (history moves) := by
  rw [history, List.foldl_append]
  rfl

/-- A history without a move that closes a circle leaves a settled forest. -/
theorem settled_history {moves : List Move}
    (h : ∀ past move, past ++ [move] <+: moves → ¬ move.Closes (history past)) :
    (history moves).Settled := by
  induction moves using List.reverseRecOn with
  | nil => exact settled_empty
  | append_singleton past move ih =>
    have hpast : (history past).Settled :=
      ih fun earlier m hm => h earlier m (hm.trans (List.prefix_append past [move]))
    rw [history_concat, settled_iff_not_closes move hpast]
    exact h past move (List.prefix_refl _)

/-- All through a history following replacements comes to an end from every node, at the node that is
computed as the final replacement, exactly if no move of the history closes a circle. -/
theorem history_settled_iff (moves : List Move) :
    (∀ past, past <+: moves → ∀ n, (history past).Ends n ∧
        (history past).replacement? ((history past).finalReplacement n) = none) ↔
      ∀ past move, past ++ [move] <+: moves → ¬ move.Closes (history past) := by
  constructor
  · intro h past move hprefix
    have hpast : (history past).Settled := fun n =>
      (h past ((List.prefix_append past [move]).trans hprefix) n).1
    have hnow : (move.act (history past)).Settled := fun n => by
      rw [← history_concat]
      exact (h _ hprefix n).1
    exact (settled_iff_not_closes move hpast).mp hnow
  · intro h past hprefix n
    have hsettled : (history past).Settled :=
      settled_history fun earlier move hm => h earlier move (hm.trans hprefix)
    exact ⟨hsettled n, hsettled.replacement?_finalReplacement n⟩

/-- A paragraph is read, its word is replaced by a new one, and then put back. -/
def swapBack : List Move :=
  [.readTree (.node .para [] [.node .str [("text", .data (.str "old"))] []]),
    .make .str [("text", .data (.str "new"))] [],
    .replace ⟨1⟩ ⟨0⟩ ⟨2⟩,
    .replace ⟨1⟩ ⟨2⟩ ⟨0⟩]

/-- Putting a node back where it was replaced closes a circle. -/
theorem history_swapBack :
    ¬ (∀ past, past <+: swapBack → ∀ n, (history past).Ends n ∧
      (history past).replacement? ((history past).finalReplacement n) = none) := by
  rw [history_settled_iff]
  intro h
  have hcircles : Circles (history (swapBack.take 3)) ⟨1⟩ ⟨2⟩ ⟨0⟩ :=
    ⟨by decide, ⟨by decide, by decide, rfl⟩, ⟨1, by decide⟩⟩
  exact h (swapBack.take 3) (.replace ⟨1⟩ ⟨2⟩ ⟨0⟩) (List.prefix_refl _) hcircles

end Move

end DocFilter
