import DocFilter.Proofs.Forest.Cycles
import DocFilter.Proofs.Walk.Preorder

/-!
# The node after an edited one

Between two requests a walk stands at the node that it handed out last, and has not looked at the children of
the node yet.  Its innermost frame says whose list the node came from, and that the index is just behind it.
Whatever happens to this list and below the node until the next request, the walk looks for the place of the
node anew: its replacement is found somewhere, or it is gone and what followed has moved up.

* `Walker.Reached` are the states between two requests, with edits of any kind on the way.
  `Walker.Scans.at_child` and `Walker.Reached.place` say where a walk stands in them.
* `Walker.GoesOn` says what a request is answered with: the first node of an order that is no part.
  `Walker.OnTrees.goesOn` is the step, over what the frames have ahead of them after the edits.
* `Walker.Reached.successor` is the result for every state and all edits.
-/

namespace DocFilter

/-- What a request is answered with: a node, or that there is none.  There is no answer if the fuel runs out. -/
def Visit.answer? : Visit → Option (Option NodeId)
  | .node n _ _ => some (some n)
  | .finished _ _ => some none
  | .exhausted => none

namespace Walker

open Forest

variable {f f' g g' : Forest} {w w' : Walker} {root n m p x : NodeId} {fuel : Nat} {frames outer : List Frame}
  {ns order : List NodeId}

/-! ## The trees of a walk -/

/-- The tree of a walk is strict, and so are the trees of its frames.  These lie in the tree of the walk, unless
one was taken out of it while the walk was inside. -/
structure OnTrees (w : Walker) (f : Forest) : Prop where
  root : f.Strict w.root
  frames : ∀ frame ∈ w.frames, f.Strict frame.node

theorem onTrees_of_below (hstrict : f.Strict w.root) (hframes : ∀ frame ∈ w.frames, f.Below w.root frame.node) :
    OnTrees w f where
  root := hstrict
  frames := fun frame hframe => hstrict.of_below (hframes frame hframe)

/-- The frames of the search for the next node have strict trees as well. -/
theorem OnTrees.descend (h : OnTrees w f) (x : NodeId) :
    ∀ frame ∈ (w.descend f x).frames, f.Strict frame.node := by
  by_cases hroot : x = w.root
  · rw [descend_root hroot, hroot]
    exact List.forall_mem_cons.mpr ⟨h.root, h.frames⟩
  · cases hframes : w.frames with
    | nil => simp [Walker.descend, hroot, hframes]
    | cons frame outer =>
      obtain ⟨hp, houter⟩ := List.forall_mem_cons.mp (hframes ▸ h.frames)
      rw [descend_frames hroot hframes]
      cases hindex : f.indexOf? frame.node (f.finalReplacement x) with
      | none => exact List.forall_mem_cons.mpr ⟨hp, houter⟩
      | some j =>
        have hmem : f.finalReplacement x ∈ f.children frame.node := isSome_indexOf?.mp (by simp [hindex])
        dsimp only
        split
        · exact List.forall_mem_cons.mpr ⟨hp, houter⟩
        · refine List.forall_mem_cons.mpr ⟨?_, List.forall_mem_cons.mpr ⟨hp, houter⟩⟩
          exact hp.of_below (.of_mem hmem)

/-- What is ahead of frames with strict trees has an order. -/
theorem exists_agenda_of_strict (h : ∀ frame ∈ frames, f.Strict frame.node) :
    ∃ order, f.Lists (agenda f frames) order := by
  refine lists_of_forall fun c hc => ?_
  obtain ⟨frame, hframe, hc⟩ := List.mem_flatMap.mp hc
  obtain ⟨order, horder, -, -⟩ := (h frame hframe).of_below (.of_mem (List.mem_of_mem_drop hc))
  exact ⟨order, horder⟩

/-! ## States between two requests -/

/-- A walk has been asked for nodes, and the last one has just been handed out.  Between the requests anything
may have happened to the forest, as long as the walk was on strict trees at each of them. -/
inductive Reached (root : NodeId) : Walker → Forest → NodeId → Prop where
  | start {f f' : Forest} {w : Walker} {n : NodeId} {fuel : Nat} :
      f.Strict root → (Walker.of root).next fuel f = .node n w f' → Reached root w f' n
  | turn {f g g' : Forest} {w w' : Walker} {n m : NodeId} {fuel : Nat} :
      Reached root w f n → OnTrees w g → w.next fuel g = .node m w' g' → Reached root w' g' m

/-- The search behind a request that was answered with a node. -/
theorem scans_of_next (hstarted : w.started) (hpending : w.pending = some x)
    (h : w.next fuel f = .node n w' f') :
    Scans (w.descend f x).frames f (some (n, w'.frames)) f' ∧ w'.root = w.root := by
  by_cases hready : x = w.root ∨ f.settles x
  · rw [next_of_pending hstarted hpending hready] at h
    obtain ⟨found, f'', hscans, heq⟩ := scans_of_advance (by rw [h]; simp)
    rw [h] at heq
    cases found with
    | none => cases heq
    | some found =>
      cases heq
      exact ⟨hscans, root_descend⟩
  · rw [not_or] at hready
    rw [next_of_unsettled hstarted hpending hready.1 hready.2] at h
    cases h

/-- A search over strict trees stops just behind the place of the node that it finds, and the node records whose
list that is. -/
theorem Scans.at_child {frames' : List Frame} (h : Scans frames f (some (n, frames')) f')
    (hstrict : ∀ frame ∈ frames, f.Strict frame.node) :
    ∃ p i outer, frames' = ⟨p, i + 1⟩ :: outer ∧ (f'.children p)[i]? = some n ∧ f'.holder? n = some p := by
  obtain ⟨-, p, i, outer, rfl, hat, hheld⟩ := h.found
  have hp : f.Strict p :=
    h.places (fun _ hm _ hc => hm.of_below (.of_mem hc)) hstrict ⟨p, i + 1⟩ (by simp)
  refine ⟨p, i, outer, rfl, ?_, hheld (hp.has (.of_mem (List.mem_of_getElem? hat)))⟩
  rw [h.children]
  exact hat

/-- Where a walk stands between two requests. -/
theorem Reached.place (h : Reached root w f n) :
    w.started ∧ w.root = root ∧ w.pending = some n ∧ (n = root ∨
      ∃ p i outer, w.frames = ⟨p, i + 1⟩ :: outer ∧ (f.children p)[i]? = some n ∧ f.holder? n = some p) := by
  induction h with
  | start _ hnext =>
    rw [next_start] at hnext
    cases hnext
    exact ⟨rfl, rfl, rfl, .inl rfl⟩
  | turn _ htrees hnext ih =>
    obtain ⟨hstarted, hroot, hpending, -⟩ := ih
    obtain ⟨hstarted', hpending', -⟩ := arrived_of_next hstarted hnext
    obtain ⟨hscans, hroot'⟩ := scans_of_next hstarted hpending hnext
    exact ⟨hstarted', hroot'.trans hroot, hpending', .inr (hscans.at_child (htrees.descend _))⟩

/-! ## The answer to the next request -/

/-- A walk goes on with some nodes: whatever the fuel, if it is enough, the next request is answered with the
first node of their order that is no part, or the walk is at its end if there is none. -/
def GoesOn (w : Walker) (f : Forest) (ns : List NodeId) : Prop :=
  ∃ order, f.Lists ns order ∧
    ∃ enough, ∀ fuel ≥ enough, (w.next fuel f).answer? = some (f.walked order).head?

/-- What a search finds is the first node of the order that is no part. -/
theorem Scans.first {found : Found} (h : Scans frames f found f') (horder : f.Lists (agenda f frames) order) :
    found.map Prod.fst = (f.walked order).head? := by
  cases found with
  | none => rw [walked_of_parts (h.all_parts horder), Option.map_none, List.head?_nil]
  | some found =>
    obtain ⟨parts, inner, after, rfl, hparts, hn, -⟩ := h.split horder
    rw [walked_split hparts hn]
    rfl

/-- A walk goes on with what its frames have ahead of them once the node that was handed out last was looked
up. -/
theorem OnTrees.goesOn (h : OnTrees w f) (hstarted : w.started) (hpending : w.pending = some x)
    (hsettles : f.settles x) : GoesOn w f (agenda f (w.descend f x).frames) := by
  obtain ⟨order, horder⟩ := exists_agenda_of_strict (h.descend x)
  obtain ⟨found, f', hscans⟩ := exists_scans horder
  obtain ⟨enough, hsearch⟩ := advance_of_scans hscans
  refine ⟨order, horder, enough, fun fuel hfuel => ?_⟩
  rw [next_of_pending hstarted hpending (.inr hsettles), hsearch fuel hfuel, ← hscans.first horder]
  cases found <;> rfl

/-- The successor of a node, whatever was done since it was handed out.  The walk came from a list and stands
just behind the node there; the node records the holder of the list.  Let the forest then be any other one in
which the walk is on strict trees and the replacements of the node come to an end.  If the last of them stands in
the list, the walk goes on with its children, then with its siblings after it, and then with the children that
the outer frames have still to reach.  If it does not, and the list is as it was without the node, the walk goes
on with the siblings that followed the node, and then with those children. -/
theorem Reached.successor (h : Reached root w f n) (hn : n ≠ root) :
    ∃ p done rest outer, w.frames = ⟨p, done.length + 1⟩ :: outer ∧ f.holder? n = some p ∧
      f.children p = done ++ n :: rest ∧ ∀ g, OnTrees w g → g.settles n →
        (∀ before after, g.children p = before ++ g.finalReplacement n :: after →
          GoesOn w g (g.children (g.finalReplacement n) ++ (after ++ agenda g outer))) ∧
        (g.finalReplacement n ∉ g.children p → g.children p = done ++ rest →
          GoesOn w g (rest ++ agenda g outer)) := by
  obtain ⟨hstarted, hroot, hpending, hplace⟩ := h.place
  obtain ⟨p, i, outer, hframes, hat, hheld⟩ := hplace.resolve_left hn
  have hlength : ((f.children p).take i).length = i :=
    List.length_take_of_le (Nat.le_of_lt (List.getElem?_eq_some_iff.mp hat).1)
  refine ⟨p, (f.children p).take i, unreached f ⟨p, i + 1⟩, outer, by rw [hlength, hframes], hheld,
    children_split hat, fun g htrees hsettles => ?_⟩
  have hgoes := htrees.goesOn hstarted hpending hsettles
  have hnroot : n ≠ w.root := hroot.symm ▸ hn
  constructor
  · intro before after hchildren
    have hp : g.Strict p := htrees.frames ⟨p, i + 1⟩ (by simp [hframes])
    have hnodup : (g.children p).Nodup := hp.nodup_children (.refl p)
    rw [hchildren, List.nodup_middle, List.nodup_cons, List.mem_append, not_or] at hnodup
    rwa [agenda_descend hnroot hframes hchildren hnodup.1.1] at hgoes
  · intro hgone hchildren
    rw [agenda_descend_gone hnroot hframes hgone, hchildren] at hgoes
    rwa [List.drop_left' hlength] at hgoes

/-- A paragraph of three words. -/
def threeWords : Forest :=
  Move.history [.make .str [("text", .data (.str "a"))] [], .make .str [("text", .data (.str "b"))] [],
    .make .str [("text", .data (.str "c"))] [], .make .para [] [⟨0⟩, ⟨1⟩, ⟨2⟩]]

/-- A walk that has handed out the first of the words. -/
def atFirst : Walker := { root := ⟨3⟩, frames := [⟨⟨3⟩, 1⟩], pending := some ⟨0⟩, started := true }

theorem reached_atFirst : Reached ⟨3⟩ atFirst (reach threeWords ⟨3⟩ ⟨0⟩) ⟨0⟩ := by
  have hstrict : threeWords.Strict ⟨3⟩ :=
    ⟨_, lists_of_order? (by decide : threeWords.order? 5 [⟨3⟩] = some [⟨3⟩, ⟨0⟩, ⟨1⟩, ⟨2⟩]), by decide, by decide⟩
  have hfirst : (Walker.of ⟨3⟩).next 0 threeWords =
      .node ⟨3⟩ { root := ⟨3⟩, started := true, pending := some ⟨3⟩ } threeWords := rfl
  have hsecond : Walker.next { root := ⟨3⟩, started := true, pending := some ⟨3⟩ } 2 threeWords =
      .node ⟨0⟩ atFirst (reach threeWords ⟨3⟩ ⟨0⟩) := rfl
  exact .turn (.start hstrict hfirst) ⟨hstrict, by simp⟩ hsecond

/-- The paragraph after the word gave way to an emphasis of another one, with a word in front of it. -/
def emphasisFirst : Forest :=
  [Move.make .str [("text", .data (.str "d"))] [], .make .emph [] [⟨4⟩], .replace ⟨3⟩ ⟨0⟩ ⟨5⟩,
    .make .str [("text", .data (.str "e"))] [], .prepend ⟨3⟩ ⟨6⟩].foldl Move.act (reach threeWords ⟨3⟩ ⟨0⟩)

/-- The paragraph after the word was removed. -/
def twoLeft : Forest := (Move.remove ⟨3⟩ ⟨0⟩).act (reach threeWords ⟨3⟩ ⟨0⟩)

/-- From the word that gave way to an emphasis the walk goes on with the word inside, not with that in front; from
the word that was removed, with the next one. -/
theorem successor_atFirst :
    (emphasisFirst.children ⟨3⟩ = [⟨6⟩, ⟨5⟩, ⟨1⟩, ⟨2⟩] ∧
        ∃ enough, ∀ fuel ≥ enough, (atFirst.next fuel emphasisFirst).answer? = some (some ⟨4⟩)) ∧
      twoLeft.children ⟨3⟩ = [⟨1⟩, ⟨2⟩] ∧
        ∃ enough, ∀ fuel ≥ enough, (atFirst.next fuel twoLeft).answer? = some (some ⟨1⟩) := by
  obtain ⟨p, done, rest, outer, hframes, -, hchildren, hgoes⟩ := reached_atFirst.successor (by decide)
  obtain ⟨⟨rfl, rfl⟩, rfl⟩ : (⟨3⟩ = p ∧ done = []) ∧ outer = [] := by simpa [atFirst] using hframes
  obtain rfl : [⟨1⟩, ⟨2⟩] = rest := congrArg List.tail hchildren
  have htrees : ∀ {g : Forest}, g.Strict ⟨3⟩ → OnTrees atFirst g := fun h =>
    onTrees_of_below h (by simp [atFirst, Below.refl])
  constructor
  · have horder : emphasisFirst.Lists [⟨3⟩] [⟨3⟩, ⟨6⟩, ⟨5⟩, ⟨4⟩, ⟨1⟩, ⟨2⟩] :=
      lists_of_order? (by decide : emphasisFirst.order? 8 [⟨3⟩] = _)
    obtain ⟨hreplaced, -⟩ := hgoes emphasisFirst (htrees ⟨_, horder, by decide, by decide⟩) (by decide)
    obtain ⟨order, hlists, hanswer⟩ := hreplaced [⟨6⟩] [⟨1⟩, ⟨2⟩] (by decide)
    obtain rfl := hlists.unique (lists_of_order? (by decide : emphasisFirst.order? 8 _ = some [⟨4⟩, ⟨1⟩, ⟨2⟩]))
    exact ⟨by decide, hanswer⟩
  · have horder : twoLeft.Lists [⟨3⟩] [⟨3⟩, ⟨1⟩, ⟨2⟩] := lists_of_order? (by decide : twoLeft.order? 8 [⟨3⟩] = _)
    obtain ⟨-, hgone⟩ := hgoes twoLeft (htrees ⟨_, horder, by decide, by decide⟩) (by decide)
    obtain ⟨order, hlists, hanswer⟩ := hgone (by decide) (by decide)
    obtain rfl := hlists.unique (lists_of_order? (by decide : twoLeft.order? 8 _ = some [⟨1⟩, ⟨2⟩]))
    exact ⟨by decide, hanswer⟩

end Walker

end DocFilter
