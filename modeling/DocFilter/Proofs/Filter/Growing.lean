import DocFilter.Proofs.Filter.Calls
import DocFilter.Proofs.Forest.History
import DocFilter.Proofs.Walk.Growing

/-!
# Filter runs that add nodes

A run whose rules do nothing but make nodes and add them to the tree visits the nodes that a walk over the
growing tree hands out.

* `Filter.Grows` is such a run, and `Filter.Grows.walks` says that it is such a walk.
* `Filter.Grows.returns` says that the run comes to an end if no node that was there at the beginning is set
  back and the rules add so many nodes for each of them.
* `Filter.handed_out_of_growing` puts the account of walks and runs together, and
  `Filter.handed_out_twoParagraphs` is a walk that hands a paragraph out twice.
-/

namespace DocFilter

namespace Walker

open Forest

variable {f f' f₀ : Forest} {root m : NodeId} {w : Walker} {frames : List Frame}
  {order seen added back : List NodeId}

/-- Making and adding nodes leaves the marks of a tree alone. -/
theorem Inserts.mark (h : Inserts root frames f added back f') (hstrict : f.Strict root)
    (hm : f.Below root m) : f'.replacement? m = f.replacement? m := by
  induction h with
  | nil => rfl
  | @make f f₁ f₂ _ _ hextends _ ih =>
    have hcell : ∀ m, f.Below root m → f₁.cell m = f.cell m := fun m hm =>
      hextends.kept m (hstrict.has hm)
    have hsame : ∀ m, f.Below root m → f₁.children m = f.children m := fun m hm =>
      congrArg Cell.children (hcell m hm)
    rw [ih (hstrict.congr hsame hextends.grows) ((hstrict.below_congr hsame).mpr hm)]
    exact congrArg Cell.replacement (hcell m hm)
  | add hp hx _ hadds _ ih =>
    obtain ⟨pre, post, hgrown⟩ := hadds.grown hstrict hp hx
    rw [ih (hgrown.strict hstrict) ((hgrown.below_root_iff hstrict).mpr (.inl hm)), hgrown.mark]

theorem extends_add (made : Cell) : Extends f (f.add made).2 where
  grows := by simp [size, add]
  kept := fun _ hm => cell_add_of_has hm

/-- What a walk over a growing tree comes to.  A node that was there at the beginning is handed out once, and
once more for each time that it or a node above it was set back. -/
structure Fares (f₀ : Forest) (root : NodeId) (order : List NodeId) (w : Walker) (f : Forest)
    (seen added back : List NodeId) : Prop where
  at_most : ∀ m ∈ order, seen.count m ≤ 1 + f.countAbove back m
  bounded : seen.length ≤ (1 + back.length) * (order.length + added.length)
  few : ∀ k, (∀ s ∈ back, s ∉ order) → added.length ≤ k * seen.countP (· ∈ order) →
    seen.length ≤ (1 + k * order.length) * (order.length + k * order.length)
  onward : ∃ enough, (∃ n w' f', f.Below root n ∧ ∀ fuel ≥ enough, w.next fuel f = .node n w' f') ∨
    ∃ w' f', (∀ fuel ≥ enough, w.next fuel f = .finished w' f') ∧
      ∀ m ∈ order, ¬ (f₀.kind m).isPart → seen.count m = 1 + f.countAbove back m

theorem Grows.fares (horder : f₀.Lists [root] order) (hstrict : f₀.Strict root)
    (h : Grows f₀ root w f seen added back) : Fares f₀ root order w f seen added back := by
  obtain ⟨parts, htally⟩ := h.tally horder hstrict
  refine ⟨fun m hm => ?_, htally.length_le, fun k => htally.length_le_of_few, htally.onward⟩
  have hcount := htally.count_eq m hm
  rw [meetings, List.count_append] at hcount
  omega

end Walker

namespace Filter

open Forest Walker

variable {σ : Type} {rules : List (Selector × Rule σ)} {root n : NodeId} {c₀ c c' : Context σ}
  {w w' : Walker} {steps k : Nat} {order seen added back : List NodeId}

/-- A run in which the rules make nodes and add them to the tree.  The lists are the nodes visited, added and
set back so far. -/
inductive Grows (rules : List (Selector × Rule σ)) (root : NodeId) (c₀ : Context σ) :
    Walker → Context σ → (seen added back : List NodeId) → Prop where
  | start : Grows rules root c₀ (.of root) c₀ [] [] []
  | turn {steps : Nat} {w w' : Walker} {n : NodeId} {c c' c'' : Context σ}
      {seen added back added' back' : List NodeId} :
      Grows rules root c₀ w c seen added back → (next steps w seen.getLast?).run c = (.ok (some n, w'), c') →
      (dispatch n rules).run c' = (.ok false, c'') →
      Inserts root w'.frames c'.forest added' back' c''.forest →
      Grows rules root c₀ w' c'' (seen ++ [n]) (added ++ added') (back ++ back')

/-- All through a run the rules do not fail, and they end the run or do nothing but make nodes and add them to
the tree. -/
def Growing (rules : List (Selector × Rule σ)) (root : NodeId) (c₀ : Context σ) : Prop :=
  ∀ w c seen added back steps n w' c', Grows rules root c₀ w c seen added back →
    (next steps w seen.getLast?).run c = (.ok (some n, w'), c') →
    ∃ halted c'', (dispatch n rules).run c' = (.ok halted, c'') ∧
      (halted = false → ∃ added' back', Inserts root w'.frames c'.forest added' back' c''.forest)

/-- A run that adds nodes only is a walk over a growing tree, and no node that it is at bears a mark. -/
theorem Grows.walks (hstrict : c₀.forest.Strict root)
    (hmark : c₀.forest.replacement? root = none) (h : Grows rules root c₀ w c seen added back) :
    Walker.Grows c₀.forest root w c.forest seen added back ∧ c.forest.replacement? root = none ∧
      ∀ x, seen.getLast? = some x → c.forest.replacement? x = none := by
  obtain ⟨order, horder, -, -⟩ := id hstrict
  induction h with
  | start => exact ⟨.start, hmark, by simp⟩
  | @turn steps w w' n c c' c'' _ _ _ _ _ _ hnext _ hinserts ih =>
    obtain ⟨hwalk, hroot, hunmarked⟩ := ih
    rw [next_of_unmarked hunmarked] at hnext
    cases hvisit : w.next steps c.forest with
    | finished => rw [hvisit] at hnext; cases hnext
    | exhausted => rw [hvisit] at hnext; cases hnext
    | node n' v f' =>
      rw [hvisit] at hnext
      cases hnext
      obtain ⟨parts, htally⟩ := hwalk.tally horder hstrict
      obtain ⟨parts', htally'⟩ := htally.next hvisit
      have hroot' : f'.replacement? root = none := by
        have hclears : c.forest.Clears f' := next_clears (by rw [hvisit]; rfl)
        rcases hclears root with heq | hnone
        · exact heq.trans hroot
        · exact hnone
      have hn : f'.replacement? n = none := by
        rcases htally.unmarked hvisit with rfl | hnone
        · exact hroot'
        · exact hnone
      have hbelow : f'.Below root n := htally'.met n (by simp)
      refine ⟨hwalk.turn hvisit hinserts, ?_, fun x hx => ?_⟩
      · exact (hinserts.mark htally'.strict (.refl root)).trans hroot'
      · obtain rfl : n = x := by simpa using hx
        exact (hinserts.mark htally'.strict hbelow).trans hn

/-- A run comes to its end if no node that was there is set back and the rules add so many nodes for each of
them that it visits: every turn brings the run nearer to the bound for such walks. -/
theorem Grows.returns (horder : c₀.forest.Lists [root] order) (hstrict : c₀.forest.Strict root)
    (hmark : c₀.forest.replacement? root = none)
    (hgrowing : Growing rules root c₀)
    (hfew : ∀ w c seen added back, Grows rules root c₀ w c seen added back →
      (∀ s ∈ back, s ∉ order) ∧ added.length ≤ k * seen.countP (· ∈ order))
    (h : Grows rules root c₀ w c seen added back) :
    ∃ enough, ∀ steps ≥ enough, ∀ visits ≥ enough, ∀ visited, ∃ outcome c',
      (visitAll rules steps visits visited w seen.getLast?).run c = (.ok outcome, c') := by
  induction hleft : (1 + k * order.length) * (order.length + k * order.length) - seen.length
    using Nat.strongRecOn generalizing w c seen added back with
  | _ left ih =>
    subst hleft
    obtain ⟨hwalk, -, hunmarked⟩ := h.walks hstrict hmark
    obtain ⟨enough, honward⟩ := (hwalk.fares horder hstrict).onward
    rcases honward with ⟨n, w', f', -, hnext⟩ | ⟨w', f', hfinished, -⟩
    · have hturn : ∀ steps ≥ enough, (next steps w seen.getLast?).run c =
          (.ok (some n, w'), entering n (inForest f' c)) := fun steps hsteps => by
        rw [next_of_unmarked hunmarked, hnext steps hsteps]
        rfl
      obtain ⟨halted, c'', hdispatch, hadds⟩ :=
        hgrowing w c seen added back enough n w' _ h (hturn enough (Nat.le_refl _))
      cases halted with
      | true =>
        refine ⟨enough + 1, fun steps hsteps visits hvisits visited => ?_⟩
        obtain ⟨visits, rfl⟩ : ∃ rest, visits = rest + 1 := ⟨visits - 1, by omega⟩
        refine ⟨⟨true, visited + 1⟩, c'', ?_⟩
        rw [run_visitAll, hturn steps (by omega)]
        dsimp only
        rw [hdispatch]
      | false =>
        obtain ⟨added', back', hinserts⟩ := hadds rfl
        have hlater := h.turn (hturn enough (Nat.le_refl _)) hdispatch hinserts
        obtain ⟨hback, hadded⟩ := hfew _ _ _ _ _ hlater
        have hbound := ((hlater.walks hstrict hmark).1.fares horder hstrict).few k hback hadded
        rw [List.length_append, List.length_singleton] at hbound
        obtain ⟨enough', hrest⟩ :=
          ih _ (by rw [List.length_append, List.length_singleton]; omega) hlater rfl
        refine ⟨max enough enough' + 1, fun steps hsteps visits hvisits visited => ?_⟩
        obtain ⟨visits, rfl⟩ : ∃ rest, visits = rest + 1 := ⟨visits - 1, by omega⟩
        obtain ⟨outcome, c', hrun⟩ := hrest steps (by omega) visits (by omega) (visited + 1)
        rw [List.getLast?_concat] at hrun
        refine ⟨outcome, c', ?_⟩
        rw [run_visitAll, hturn steps (by omega)]
        dsimp only
        rw [hdispatch]
        exact hrun
    · refine ⟨enough + 1, fun steps hsteps visits hvisits visited => ?_⟩
      obtain ⟨visits, rfl⟩ : ∃ rest, visits = rest + 1 := ⟨visits - 1, by omega⟩
      refine ⟨⟨false, visited⟩, inForest f' c, ?_⟩
      rw [run_visitAll, next_of_unmarked hunmarked, hfinished steps (by omega)]
      rfl

theorem apply_returns {filter : Filter σ} (hcompile : compile filter.rules = .ok rules)
    (hvisits : ∃ enough, ∀ steps ≥ enough, ∀ visits ≥ enough, ∀ visited, ∃ outcome c',
      (visitAll rules steps visits visited (.of c₀.document) none).run c₀ = (.ok outcome, c')) :
    ∃ enough, ∀ fuel ≥ enough, ∃ outcome c', (filter.apply fuel).run c₀ = (.ok outcome, c') := by
  obtain ⟨enough, hvisits⟩ := hvisits
  refine ⟨enough, fun fuel hfuel => ?_⟩
  obtain ⟨outcome, c', hrun⟩ := hvisits fuel hfuel fuel hfuel 0
  refine ⟨outcome, c'.settleMetadata c₀.document, ?_⟩
  rw [run_apply, hcompile]
  dsimp only
  rw [hrun]

/-- A walk over a strict tree to which nodes are added between the steps hands out a node that was there at
the beginning once, and once more for each time that it or a node above it was set back; the walk goes on or
finishes, and its length is bounded.  A filter run whose rules add nodes only visits the nodes of such a walk,
and it comes to its end if nothing that was there is set back and the rules add so many nodes for each node
that was there. -/
theorem handed_out_of_growing (horder : c₀.forest.Lists [c₀.document] order)
    (hstrict : c₀.forest.Strict c₀.document) (hmark : c₀.forest.replacement? c₀.document = none) :
    (∀ w f seen added back, Walker.Grows c₀.forest c₀.document w f seen added back →
      Fares c₀.forest c₀.document order w f seen added back) ∧
    (∀ w c seen added back, Grows rules c₀.document c₀ w c seen added back →
      Walker.Grows c₀.forest c₀.document w c.forest seen added back ∧
        ∀ steps, (next steps w seen.getLast?).run c = arriving c (w.next steps c.forest)) ∧
    ∀ (filter : Filter σ) (k : Nat), compile filter.rules = .ok rules → Growing rules c₀.document c₀ →
      (∀ w c seen added back, Grows rules c₀.document c₀ w c seen added back →
        (∀ s ∈ back, s ∉ order) ∧ added.length ≤ k * seen.countP (· ∈ order)) →
      ∃ enough, ∀ fuel ≥ enough, ∃ outcome c', (filter.apply fuel).run c₀ = (.ok outcome, c') := by
  refine ⟨fun w f seen added back h => h.fares horder hstrict, fun w c seen added back h => ?_,
    fun filter k hcompile hgrowing hfew => apply_returns hcompile
      (Grows.start.returns horder hstrict hmark hgrowing hfew)⟩
  obtain ⟨hwalk, -, hunmarked⟩ := h.walks hstrict hmark
  exact ⟨hwalk, fun steps => next_of_unmarked hunmarked⟩

/-- Two paragraphs with one inline each. -/
def twoParagraphs : Context Unit :=
  begin { blocks := [.node .para [] [.node .space [] []], .node .para [] [.node .space [] []]] } "" ()

theorem lists_twoParagraphs :
    twoParagraphs.forest.Lists [⟨4⟩] [⟨4⟩, ⟨1⟩, ⟨0⟩, ⟨3⟩, ⟨2⟩] := by
  have horder : twoParagraphs.forest.order? 9 [⟨4⟩] = some [⟨4⟩, ⟨1⟩, ⟨0⟩, ⟨3⟩, ⟨2⟩] := by decide
  exact lists_of_order? horder

theorem strict_twoParagraphs : twoParagraphs.forest.Strict ⟨4⟩ :=
  ⟨_, lists_twoParagraphs, by decide, by decide⟩

/-- A walker over the two paragraphs that has handed out a node. -/
def strolling (n : NodeId) (frames : List Frame) : Walker :=
  { root := ⟨4⟩, started := true, pending := some n, frames := frames }

/-- The two paragraphs, with a third one that was made. -/
def beside : Forest := (twoParagraphs.forest.addLoose .para [] []).2

/-- The three paragraphs, the new one in front. -/
def inFront : Forest := beside.prepend ⟨4⟩ ⟨5⟩

theorem apart_beside : Apart beside ⟨4⟩ ⟨5⟩ := by
  have htree : beside.order? 9 [⟨4⟩] = some [⟨4⟩, ⟨1⟩, ⟨0⟩, ⟨3⟩, ⟨2⟩] := by decide
  have hown : beside.order? 9 [⟨5⟩] = some [⟨5⟩] := by decide
  refine ⟨⟨_, lists_of_order? hown, by decide, by decide⟩, fun m hm hroot => ?_⟩
  have hm := (lists_of_order? hown).mem_singleton_iff.mpr hm
  have hroot := (lists_of_order? htree).mem_singleton_iff.mpr hroot
  rw [List.mem_singleton.mp hm] at hroot
  revert hroot
  decide

/-- A new paragraph is put in front of the others when the first inline is handed out. -/
theorem inserts_inFront :
    Inserts ⟨4⟩ [⟨⟨1⟩, 1⟩, ⟨⟨4⟩, 1⟩] twoParagraphs.forest [⟨5⟩] [⟨1⟩] inFront := by
  have hown : beside.order? 9 [⟨5⟩] = some [⟨5⟩] := by decide
  have hback : setBack beside inFront [⟨⟨1⟩, 1⟩, ⟨⟨4⟩, 1⟩] = [⟨1⟩] := by decide
  have hadd : Inserts ⟨4⟩ [⟨⟨1⟩, 1⟩, ⟨⟨4⟩, 1⟩] beside ([⟨5⟩] ++ []) (setBack beside inFront _ ++ [])
      inFront := .add (.refl _) apart_beside (lists_of_order? hown) .prepend (.nil _)
  rw [hback] at hadd
  exact .make (extends_add _) hadd

/-- The first paragraph is set back, and it is handed out twice with its inline. -/
theorem grows_twoParagraphs : ∃ w, Walker.Grows twoParagraphs.forest ⟨4⟩ w inFront
    [⟨4⟩, ⟨1⟩, ⟨0⟩, ⟨1⟩, ⟨0⟩, ⟨3⟩, ⟨2⟩] [⟨5⟩] [⟨1⟩] := by
  have hopening : (Walker.of ⟨4⟩).next 9 twoParagraphs.forest =
      .node ⟨4⟩ (strolling ⟨4⟩ []) twoParagraphs.forest := next_start
  have hfirst : (strolling ⟨4⟩ []).next 9 twoParagraphs.forest =
      .node ⟨1⟩ (strolling ⟨1⟩ [⟨⟨4⟩, 1⟩]) twoParagraphs.forest := rfl
  have hinline : (strolling ⟨1⟩ [⟨⟨4⟩, 1⟩]).next 9 twoParagraphs.forest =
      .node ⟨0⟩ (strolling ⟨0⟩ [⟨⟨1⟩, 1⟩, ⟨⟨4⟩, 1⟩]) twoParagraphs.forest := rfl
  have hagain : (strolling ⟨0⟩ [⟨⟨1⟩, 1⟩, ⟨⟨4⟩, 1⟩]).next 9 inFront =
      .node ⟨1⟩ (strolling ⟨1⟩ [⟨⟨4⟩, 2⟩]) inFront := rfl
  have hthere : (strolling ⟨1⟩ [⟨⟨4⟩, 2⟩]).next 9 inFront =
      .node ⟨0⟩ (strolling ⟨0⟩ [⟨⟨1⟩, 1⟩, ⟨⟨4⟩, 2⟩]) inFront := rfl
  have hsecond : (strolling ⟨0⟩ [⟨⟨1⟩, 1⟩, ⟨⟨4⟩, 2⟩]).next 9 inFront =
      .node ⟨3⟩ (strolling ⟨3⟩ [⟨⟨4⟩, 3⟩]) inFront := rfl
  have hlast : (strolling ⟨3⟩ [⟨⟨4⟩, 3⟩]).next 9 inFront =
      .node ⟨2⟩ (strolling ⟨2⟩ [⟨⟨3⟩, 1⟩, ⟨⟨4⟩, 3⟩]) inFront := rfl
  have hroot : Walker.Grows twoParagraphs.forest ⟨4⟩ (strolling ⟨4⟩ []) twoParagraphs.forest [⟨4⟩] [] [] :=
    Walker.Grows.start.turn hopening (.nil _)
  have hopen := (hroot.turn hfirst (.nil _)).turn hinline inserts_inFront
  have hback := (hopen.turn hagain (.nil _)).turn hthere (.nil _)
  exact ⟨_, (hback.turn hsecond (.nil _)).turn hlast (.nil _)⟩

/-- A paragraph put in front of the present one from within makes the walk hand that one out again. -/
theorem handed_out_twoParagraphs :
    ∃ w, Walker.Grows twoParagraphs.forest ⟨4⟩ w inFront
        [⟨4⟩, ⟨1⟩, ⟨0⟩, ⟨1⟩, ⟨0⟩, ⟨3⟩, ⟨2⟩] [⟨5⟩] [⟨1⟩] ∧
      Fares twoParagraphs.forest ⟨4⟩ [⟨4⟩, ⟨1⟩, ⟨0⟩, ⟨3⟩, ⟨2⟩] w inFront
        [⟨4⟩, ⟨1⟩, ⟨0⟩, ⟨1⟩, ⟨0⟩, ⟨3⟩, ⟨2⟩] [⟨5⟩] [⟨1⟩] := by
  obtain ⟨w, hgrows⟩ := grows_twoParagraphs
  exact ⟨w, hgrows, (@handed_out_of_growing Unit [] twoParagraphs _ lists_twoParagraphs
    strict_twoParagraphs rfl).1 _ _ _ _ _ hgrows⟩

end Filter

end DocFilter
