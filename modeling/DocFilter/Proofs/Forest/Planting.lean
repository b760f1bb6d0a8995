import DocFilter.Proofs.Forest.History
import DocFilter.Proofs.Forest.Links

/-!
# Nodes that are brought into a forest

Reading a tree brings its nodes into a forest one by one, from the bottom up.  All of them are new, and
those that were brought in last stand in no list yet, so that the next node can become their holder.

* `Forest.Planted` says what bringing in some nodes does to a linked forest, `Forest.Planted.gather` that a
  node may be put on top of them.
* `Forest.Sows` says of an effect that it brings in nodes like this, and `Forest.sows_fold` that reading a
  tree does.
* `Move.linked_act` is the step and `Move.history_no_sharing` the history: whatever is read, made without
  children, edited and walked, no node ever stands in two places.
-/

namespace DocFilter

namespace Forest

variable {f f' f'' : Forest} {n m p c : NodeId} {ns ms : List NodeId}

/-! ## Adding a node -/

theorem cell_add (made : Cell) :
    (f.add made).2.cell m = if m.index = f.size then made else f.cell m := by
  split
  · rename_i hm
    exact cell_add_of_eq hm
  · rename_i hm
    by_cases hhas : f.Has m
    · exact cell_add_of_has hhas
    · have hno : ¬ (f.add made).2.Has m := by
        simp only [Has, size, add, Array.size_push] at hhas hm ⊢
        omega
      rw [cell_of_not_has hno, cell_of_not_has hhas]

theorem has_add (made : Cell) : (f.add made).2.Has m ↔ f.Has m ∨ m.index = f.size := by
  simp only [Has, size, add, Array.size_push]
  omega

theorem adoptAll_cons : f.adoptAll p (c :: ns) = (f.adopt p c).adoptAll p ns := rfl

@[simp] theorem has_adoptAll : (f.adoptAll p ns).Has m ↔ f.Has m := by
  induction ns generalizing f with
  | nil => rfl
  | cons c ns ih => rw [adoptAll_cons, ih, adopt, has_setHolder]

@[simp] theorem children_adoptAll : (f.adoptAll p ns).children m = f.children m := by
  induction ns generalizing f with
  | nil => rfl
  | cons c ns ih => rw [adoptAll_cons, ih, adopt, children_setHolder]

theorem holder?_adoptAll :
    (f.adoptAll p ns).holder? m = if m ∈ ns ∧ f.Has m then some p else f.holder? m := by
  induction ns generalizing f with
  | nil => simp [adoptAll]
  | cons c ns ih =>
    simp only [adoptAll_cons, ih, adopt, holder?_setHolder, has_setHolder]
    by_cases hmc : m = c
    · subst hmc
      by_cases hm : f.Has m <;> simp [hm]
    · simp [hmc]

theorem cell_adoptAll_of_not_mem (h : m ∉ ns) : (f.adoptAll p ns).cell m = f.cell m := by
  induction ns generalizing f with
  | nil => rfl
  | cons c ns ih =>
    rw [List.mem_cons, not_or] at h
    rw [adoptAll_cons, ih h.2, adopt, setHolder, cell_update, if_neg fun hcase => h.1 hcase.1]

/-! ## Bringing nodes in -/

/-- Some nodes were brought into a forest, maybe with others below them: the nodes that were there are
untouched, those below a new node are new, and where links agreed with lists they still do, with the
nodes brought in standing in no list yet. -/
structure Planted (f : Forest) (ns : List NodeId) (f' : Forest) : Prop where
  kept : ∀ m, f.Has m → f'.Has m ∧ f'.cell m = f.cell m
  fresh : ∀ n ∈ ns, ¬ f.Has n ∧ f'.Has n
  below : ∀ m, ¬ f.Has m → ∀ c ∈ f'.children m, ¬ f.Has c
  nodup : ns.Nodup
  linked : f.Linked → f'.Linked
  loose : f.Linked → ∀ n ∈ ns, ∀ m, n ∉ f'.children m

theorem Planted.refl (f : Forest) : f.Planted [] f where
  kept := fun _ hm => ⟨hm, rfl⟩
  fresh := by simp
  below := fun m hm c hc => by
    rw [children_of_not_has hm] at hc
    cases hc
  nodup := .nil
  linked := id
  loose := by simp

theorem Planted.children_of_has (h : f.Planted ns f') (hm : f.Has m) :
    f'.children m = f.children m := by
  rw [children, children, (h.kept m hm).2]

/-- What one effect after another brings in stands side by side. -/
theorem Planted.trans (h : f.Planted ns f') (h' : f'.Planted ms f'') : f.Planted (ns ++ ms) f'' where
  kept := fun m hm => by
    obtain ⟨hm', hcell⟩ := h.kept m hm
    obtain ⟨hm'', hcell'⟩ := h'.kept m hm'
    exact ⟨hm'', hcell'.trans hcell⟩
  fresh := List.forall_mem_append.mpr
    ⟨fun n hn => ⟨(h.fresh n hn).1, (h'.kept n (h.fresh n hn).2).1⟩,
      fun n hn => ⟨fun hold => (h'.fresh n hn).1 (h.kept n hold).1, (h'.fresh n hn).2⟩⟩
  below := fun m hm c hc hold => by
    by_cases hm' : f'.Has m
    · rw [h'.children_of_has hm'] at hc
      exact h.below m hm c hc hold
    · exact h'.below m hm' c hc (h.kept c hold).1
  nodup := by
    refine List.nodup_append.mpr ⟨h.nodup, h'.nodup, fun a ha b hb hab => ?_⟩
    exact (h'.fresh b hb).1 (hab ▸ (h.fresh a ha).2)
  linked := fun hlinked => h'.linked (h.linked hlinked)
  loose := fun hlinked => by
    refine List.forall_mem_append.mpr ⟨fun n hn m hmem => ?_, h'.loose (h.linked hlinked)⟩
    by_cases hm' : f'.Has m
    · rw [h'.children_of_has hm'] at hmem
      exact h.loose hlinked n hn m hmem
    · exact h'.below m hm' n hmem (h.fresh n hn).2

/-- Not every node that was brought in need be spoken of. -/
theorem Planted.forget (h : f.Planted ns f') : f.Planted [] f' :=
  { h with fresh := by simp, loose := by simp, nodup := .nil }

/-- The list of each node after one was put on top of some others. -/
theorem children_gather {made : Cell} :
    ((f.add made).2.adoptAll p ns).children m =
      if m.index = f.size then made.children else f.children m := by
  rw [children_adoptAll, children, cell_add, children]
  split <;> rfl

/-- A node can be put on top of those brought in. -/
theorem Planted.gather {made : Cell} (h : f.Planted ns f') (hmade : made.children = ns) :
    f.Planted [⟨f'.size⟩] ((f'.add made).2.adoptAll ⟨f'.size⟩ ns) where
  kept := fun m hm => by
    obtain ⟨hm', hcell⟩ := h.kept m hm
    have hmem : m ∉ ns := fun hmem => (h.fresh m hmem).1 hm
    rw [has_adoptAll, has_add, cell_adoptAll_of_not_mem hmem, cell_add_of_has hm']
    exact ⟨.inl hm', hcell⟩
  fresh := by
    rw [List.forall_mem_singleton, has_adoptAll, has_add]
    exact ⟨fun hold => Nat.lt_irrefl _ (h.kept _ hold).1, .inr rfl⟩
  below := fun m hm c hc => by
    rw [children_gather, hmade] at hc
    split at hc
    · exact (h.fresh c hc).1
    · exact h.below m hm c hc
  nodup := by simp
  linked := fun hlinked => by
    refine ⟨fun p c hc => ?_, fun p => ?_⟩
    · rw [children_gather, hmade] at hc
      rw [holder?_adoptAll]
      split at hc
      · rename_i hp
        rw [if_pos ⟨hc, (has_add made).mpr (.inl (h.fresh c hc).2)⟩]
        exact congrArg some (congrArg NodeId.mk hp.symm)
      · have hnot : c ∉ ns := fun hmem => h.loose hlinked c hmem p hc
        rw [if_neg fun hcase => hnot hcase.1, holder?, cell_add_of_has ((h.linked hlinked).has hc)]
        exact (h.linked hlinked).held p c hc
    · rw [children_gather, hmade]
      split
      · exact h.nodup
      · exact (h.linked hlinked).nodup p
  loose := fun hlinked => by
    rw [List.forall_mem_singleton]
    intro m hmem
    rw [children_gather, hmade] at hmem
    split at hmem
    · exact Nat.lt_irrefl _ (h.fresh _ hmem).2
    · exact Nat.lt_irrefl _ ((h.linked hlinked).has hmem)

/-! ## Effects that bring nodes in -/

/-- An effect that brings nodes in, among them those that its result speaks of. -/
def Sows {α : Type} (x : StateM Forest α) (nodes : α → List NodeId) : Prop :=
  ∀ f : Forest, f.Planted (nodes (x f).1) (x f).2

/-- An effect that brings in nodes and gives the node on top. -/
abbrev SowsOne (x : StateM Forest NodeId) : Prop := Sows x fun n => [n]

theorem lasting_planted : Lasting fun f f' => f.Planted [] f' where
  refl := .refl
  trans h h' := h.trans h'

theorem Sows.forget {α : Type} {x : StateM Forest α} {nodes : α → List NodeId} (h : Sows x nodes) :
    Sows x fun _ => [] := fun f => (h f).forget

/-- Nodes that are brought in one after another. -/
theorem Sows.mapM {α : Type} {g : α → StateM Forest NodeId} {xs : List α} (h : ∀ a ∈ xs, SowsOne (g a)) :
    Sows (xs.mapM g) id := by
  induction xs with
  | nil => exact fun f => .refl f
  | cons a xs ih =>
    rw [List.mapM_cons]
    intro f
    exact (h a (by simp) f).trans (ih (fun c hc => h c (by simp [hc])) _)

/-- Reading a tree brings its nodes in, its root on top. -/
theorem sows_fold (t : Tree) : SowsOne (t.fold (plantNode true)) := by
  induction t using Tree.induct with
  | node kind payload children hpayload hchildren =>
    rw [Tree.fold_node]
    intro f
    have hinside := lasting_planted.payload (fun t ht => (hpayload t ht).forget) f
    have hbelow : Sows ((children.map (Tree.fold (plantNode true))).mapM id) id :=
      .mapM (List.forall_mem_map.mpr hchildren)
    exact hinside.trans ((hbelow _).gather rfl)

theorem planted_plant (t : Tree) : f.Planted [(f.plant t).1] (f.plant t).2 := sows_fold t f

theorem planted_plantDocument (d : Document) :
    f.Planted [(f.plantDocument d).1] (f.plantDocument d).2 := by
  have hread : Sows (d.blocks.mapM (Tree.fold (plantNode true))) id :=
    .mapM fun t _ => sows_fold t
  exact (hread f).gather rfl

/-- A node that is made without children stands on top of nothing. -/
theorem planted_add {made : Cell} (h : made.children = []) : f.Planted [⟨f.size⟩] (f.add made).2 :=
  (Planted.refl f).gather h

end Forest

/-! ## Walking -/

namespace Walker

open Forest

theorem advance_linked {w : Walker} {fuel : Nat} {frames : List Frame} {f f' : Forest}
    (hf : f.Linked) (h : (w.advance fuel frames f).forest? = some f') : f'.Linked := by
  induction fuel generalizing frames f with
  | zero => cases h
  | succ fuel ih =>
    cases frames with
    | nil =>
      cases h
      exact hf
    | cons frame rest =>
      rw [advance] at h
      dsimp only at h
      split at h
      · exact ih hf h
      · rename_i child hchild
        have hreach : (reach f frame.node child).Linked := hf.reach (List.mem_of_getElem? hchild)
        split at h
        · exact ih hreach h
        · cases h
          exact hreach

theorem next_linked {w : Walker} {fuel : Nat} {f f' : Forest} (hf : f.Linked)
    (h : (w.next fuel f).forest? = some f') : f'.Linked := by
  rw [next] at h
  split at h
  · cases h
    exact hf
  · split at h
    · exact advance_linked hf h
    · split at h
      · exact advance_linked hf h
      · cases h

end Walker

/-! ## Histories -/

namespace Move

open Forest

variable {f : Forest}

/-- A move that makes nodes without children and moves nodes that there are. -/
def Apt (f : Forest) : Move → Prop
  | make _ _ children => children = []
  | makeDocument children _ => children = []
  | append _ n => f.Has n
  | prepend _ n => f.Has n
  | insert _ _ n => f.Has n
  | replace _ _ new => f.Has new
  | replaceWith _ new => f.Has new
  | _ => True

instance : (move : Move) → Decidable (move.Apt f)
  | make _ _ children => inferInstanceAs (Decidable (children = []))
  | makeDocument children _ => inferInstanceAs (Decidable (children = []))
  | append _ n | prepend _ n | insert _ _ n => inferInstanceAs (Decidable (f.Has n))
  | replace _ _ new | replaceWith _ new => inferInstanceAs (Decidable (f.Has new))
  | readDocument _ | readTree _ | remove _ _ | walk _ _ => .isTrue trivial

/-- What holds before an edit that may be refused and after it was done holds in any case. -/
theorem toOption_getD {ε : Type} {P : Forest → Prop} {result : Except ε Forest} (hf : P f)
    (h : ∀ f', result = .ok f' → P f') : P (result.toOption.getD f) := by
  cases hresult : result with
  | error e => exact hf
  | ok f' => exact h f' hresult

/-- Links that agree with the lists do so after a move as well. -/
theorem linked_act (move : Move) (hapt : move.Apt f) (hf : f.Linked) : (move.act f).Linked := by
  cases move with
  | readDocument d => exact (planted_plantDocument d).linked hf
  | readTree t => exact (planted_plant t).linked hf
  | make kind payload children =>
    obtain rfl : children = [] := hapt
    exact (planted_add rfl).linked hf
  | makeDocument children data =>
    obtain rfl : children = [] := hapt
    exact (planted_add rfl).linked hf
  | append parent n => exact hf.append hapt
  | prepend parent n => exact hf.prepend hapt
  | insert parent index n => exact hf.insert hapt
  | remove parent child => exact toOption_getD hf fun f' h => hf.remove h
  | replace parent child new => exact toOption_getD hf fun f' h => hf.replace hapt h
  | replaceWith n new => exact toOption_getD hf fun f' h => hf.replaceWith hapt h
  | walk w fuel =>
    rw [act]
    cases hv : (w.next fuel f).forest? with
    | none => exact hf
    | some f' => exact Walker.next_linked hf hv

theorem linked_empty : ({} : Forest).Linked := by
  have hnone : ∀ m, ({} : Forest).children m = [] :=
    fun m => children_of_not_has fun h => Nat.not_lt_zero _ h
  exact ⟨fun p c hc => by simp [hnone] at hc, fun p => by simp [hnone]⟩

theorem linked_history {moves : List Move}
    (h : ∀ past move, past ++ [move] <+: moves → move.Apt (history past)) :
    (history moves).Linked := by
  induction moves using List.reverseRecOn with
  | nil => exact linked_empty
  | append_singleton past move ih =>
    rw [history_concat]
    refine linked_act move (h past move (List.prefix_refl _)) (ih fun earlier m hm => ?_)
    exact h earlier m (hm.trans (List.prefix_append past [move]))

/-- After documents and trees were read, nodes were made without children, and all these were moved, taken
out, replaced and walked, whether or not an edit was refused, a list has no node twice, and a node that
stands in a list names its holder and stands in no other list. -/
theorem history_no_sharing (moves : List Move)
    (h : ∀ past move, past ++ [move] <+: moves → move.Apt (history past)) (p : NodeId) :
    ((history moves).children p).Nodup ∧ ∀ c ∈ (history moves).children p,
      (history moves).holder? c = some p ∧ ∀ q, c ∈ (history moves).children q → q = p := by
  have hlinked : (history moves).Linked := linked_history h
  exact ⟨hlinked.nodup p, fun c hc => ⟨hlinked.held p c hc, fun q hq => hlinked.unique hq hc⟩⟩

/-- The first word of a paragraph is replaced, and comes back at the end of the paragraph while it still
names the paragraph as its holder. -/
def comesBack : List Move :=
  [.readTree (.node .para [] [.node .str [("text", .data (.str "old"))] [], .node .space [] []]),
    .make .str [("text", .data (.str "new"))] [],
    .replace ⟨2⟩ ⟨0⟩ ⟨3⟩,
    .append ⟨2⟩ ⟨0⟩]

/-- A node that was replaced can come back, and stands in the list once. -/
theorem history_comesBack :
    (history comesBack).children ⟨2⟩ = [⟨3⟩, ⟨1⟩, ⟨0⟩] ∧
      ((history comesBack).children ⟨2⟩).Nodup ∧ ∀ c ∈ (history comesBack).children ⟨2⟩,
        (history comesBack).holder? c = some ⟨2⟩ ∧
          ∀ q, c ∈ (history comesBack).children q → q = ⟨2⟩ := by
  refine ⟨by decide, history_no_sharing comesBack (fun past move h => ?_) ⟨2⟩⟩
  obtain ⟨rest, h⟩ := h
  rcases past with _ | ⟨_, _ | ⟨_, _ | ⟨_, _ | ⟨_, past⟩⟩⟩⟩ <;>
    simp only [comesBack, List.cons_append, List.nil_append, List.cons.injEq] at h
  · obtain ⟨rfl, -⟩ := h
    decide
  · obtain ⟨rfl, rfl, -⟩ := h
    decide
  · obtain ⟨rfl, rfl, rfl, -⟩ := h
    decide
  · obtain ⟨rfl, rfl, rfl, rfl, -⟩ := h
    decide
  · simp at h

end Move

end DocFilter
