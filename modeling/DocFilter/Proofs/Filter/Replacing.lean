import DocFilter.Proofs.Filter.Calls
import DocFilter.Proofs.Filter.Refinement
import DocFilter.Proofs.Walk.Preorder

/-!
# The history of a run that replaces

A node that is put in the place of the present one takes over its position in the history, and a node that
the walk goes on to gets a new one.  So the positions are those of the tree as it is in the end, as long as
the marks of replacement lead the run.

* `Filter.Replacing` is a visit that leaves its node where it is or puts another one in its place.
* `Filter.Covers` says that a history has the nodes of an order but for parts.
* `Filter.Entered` is the invariant when a node has been entered: the positions before the last one are those
  of the nodes in front of it.  `Filter.Placed.onward` is the step from one visit to the next.
* `Filter.replacements` counts the visits that put another node in the place of theirs.
* `Filter.history_is_walk_iff` is the result on whole runs.
-/

namespace DocFilter

namespace Filter

open Forest Walker

variable {σ : Type} {f f' : Forest} {root r n x x₀ p : NodeId}
  {order before after seen history : List NodeId} {rules : List (Selector × Rule σ)} {steps fuel : Nat}
  {w w' : Walker} {c c' d c₀ : Context σ}

/-! ## Visits that replace -/

/-- A local visit that does not remove its node; no node changes its kind. -/
structure Replacing (root x : NodeId) (c c' : Context σ) : Prop extends Local root x c c' where
  remains : c'.forest.replacement? x = none → gone c'.forest (c.forest.holder? x) x = false
  history : c'.history = c.history
  kind : ∀ n, c.forest.Has n → c'.forest.kind n = c.forest.kind n

/-- A visit that replaces nothing leaves the split of the order where it is. -/
theorem Stands.flanked_of_unmarked (h : Stands root w c.forest x₀ x) (hvisit : Replacing root x c c')
    (hflanked : Flanked c.forest root w.frames x before after) (hmark : c'.forest.replacement? x = none) :
    Flanked c'.forest root w.frames x before after := by
  obtain ⟨f₁, hre, hmoved⟩ := hvisit.moved
  have hremains := hvisit.remains hmark
  generalize c'.forest = f' at hmoved hmark hremains
  cases hmoved with
  | stays => exact hflanked.congr fun m hm => hre.outside m (hflanked.outside h.strict hm)
  | removed hholder hremove =>
    obtain ⟨i, outer, hremoved⟩ := h.removed hre hholder hremove
    rw [h.held, hremoved.gone_eq] at hremains
    cases hremains
  | replaced hrx hstrict hin hreplace =>
    obtain ⟨q, done, rest, outer, seat, rfl⟩ := h.put hre hrx hreplace
    have hx : f₁.Has x := Nat.lt_of_lt_of_le (h.strict.has h.path.leads) hre.grows
    rw [replacement?_put hx, if_pos rfl] at hmark
    cases hmark

/-- A visit that replaces puts the other node where the present one was. -/
theorem Stands.flanked_of_marked (h : Stands root w c.forest x₀ x) (hvisit : Replacing root x c c')
    (hflanked : Flanked c.forest root w.frames x before after) (hmark : c'.forest.replacement? x = some r) :
    Flanked c'.forest root w.frames r before after := by
  obtain ⟨f₁, hre, hmoved⟩ := hvisit.moved
  generalize c'.forest = f' at hmoved hmark
  cases hmoved with
  | stays =>
    rw [hre.unmarked] at hmark
    cases hmark
  | removed hholder hremove =>
    rw [replacement?_of_remove hremove, hre.unmarked] at hmark
    cases hmark
  | replaced hrx hstrict hin hreplace =>
    obtain ⟨q, done, rest, outer, seat, rfl⟩ := h.put hre hrx hreplace
    have hx : f₁.Has x := Nat.lt_of_lt_of_le (h.strict.has h.path.leads) hre.grows
    rw [replacement?_put hx, if_pos rfl] at hmark
    cases hmark
    rw [seat.frames] at hflanked ⊢
    exact hflanked.graft (seat.graft_put h hre hstrict hin hrx) h.strict

/-! ## The positions so far -/

/-- A history has the nodes of an order, in order, and only parts are missing. -/
structure Covers (f : Forest) (history order : List NodeId) : Prop where
  sublist : history.Sublist order
  all : ∀ m ∈ order, ¬ (f.kind m).isPart → m ∈ history

theorem Covers.nil : Covers f [] [] := ⟨.slnil, by simp⟩

theorem Covers.congr (h : Covers f history order) (hkind : ∀ m ∈ order, f'.kind m = f.kind m) :
    Covers f' history order :=
  ⟨h.sublist, fun m hm hpart => h.all m hm (by rwa [← hkind m hm])⟩

/-- A node gets the next position, and the parts after it get none. -/
theorem Covers.push {parts : List NodeId} (h : Covers f history order)
    (hparts : ∀ m ∈ parts, (f.kind m).isPart) : Covers f (history ++ [x]) (order ++ x :: parts) where
  sublist := h.sublist.append (List.singleton_sublist.mpr List.mem_cons_self)
  all := fun m hm hpart => by
    rcases List.mem_append.mp hm with hm | hm
    · exact List.mem_append_left _ (h.all m hm hpart)
    · rcases List.mem_cons.mp hm with rfl | hm
      · simp
      · exact absurd (hparts m hm) hpart

/-- Where no part has a position, the history is the walk. -/
theorem Covers.eq_walked_iff (h : Covers f history order) (hnodup : order.Nodup) :
    history = f.walked order ↔ ∀ m ∈ history, ¬ (f.kind m).isPart := by
  refine ⟨fun heq m hm => (mem_walked.mp (heq ▸ hm)).2, fun hnone => ?_⟩
  have hsub : history.Sublist (f.walked order) := by
    have hfilter := h.sublist.filter fun m => !(f.kind m).isPart
    rwa [List.filter_eq_self.mpr (by simpa using hnone)] at hfilter
  refine hsub.eq_of_length_le ?_
  refine (List.subperm_of_subset (hnodup.filter _) fun m hm => ?_).length_le
  obtain ⟨hmem, hpart⟩ := mem_walked.mp hm
  exact h.all m hmem hpart

/-! ## From one visit to the next -/

/-- A node has been entered, and the positions before its own are those of the nodes in front of it. -/
structure Entered (root : NodeId) (w : Walker) (c : Context σ) (x₀ x : NodeId)
    (before after seen : List NodeId) : Prop where
  stands : Stands root w c.forest x₀ x
  flanked : Flanked c.forest root w.frames x before after
  history : c.history.toList = seen ++ [x]
  covers : Covers c.forest seen before

/-- A node has been entered with the positions as they should be. -/
def Placed (root : NodeId) (w : Walker) (c : Context σ) (x : NodeId) : Prop :=
  ∃ x₀ before after seen, Entered root w c x₀ x before after seen

/-- The history has the nodes of the tree but for parts. -/
def Written (root : NodeId) (c : Context σ) : Prop :=
  ∃ order, c.forest.Lists [root] order ∧ order.Nodup ∧ Covers c.forest c.history.toList order

/-- How many nodes a visit put in the place of its own: one or none. -/
def swapped (f : Forest) (x : NodeId) : Nat := if (f.replacement? x).isSome then 1 else 0

/-- The nodes in front of a node that was entered keep their kinds. -/
theorem Entered.covers_after (h : Entered root w c x₀ x before after seen) (hvisit : Replacing root x c c') :
    Covers c'.forest seen before := by
  refine h.covers.congr fun m hm => hvisit.kind m (h.stands.strict.has ?_)
  exact (h.flanked.outside h.stands.strict (List.mem_append_left _ hm)).1

/-- A node that was put in the place takes over the position. -/
theorem Entered.onward_replaced (h : Entered root w c x₀ x before after seen)
    (hvisit : Replacing root x c c') (hguides : Guides w c'.forest x)
    (hmark : c'.forest.replacement? x = some r) :
    ∃ d, Loops w (some x) c' (some (r, w)) d ∧ Entered root w d x₀ r before after seen ∧
      d.history.size = c'.history.size := by
  have honward : Onward [] root w c.forest x c' (some (r, w)) (takingOver r c') :=
    h.stands.onward_replaced hvisit.toLocal hmark
  have hr := hguides.replaced r hmark
  have hforest : (takingOver r c').forest = c'.forest := setReplacement_eq_self hr
  obtain ⟨-, hstands⟩ := (h.stands.left hvisit.toLocal).gives_way hmark
  have hhistory : c'.history.toList = seen ++ [x] := (congrArg Array.toList hvisit.history).trans h.history
  refine ⟨_, honward.loops hguides, ?_, ?_⟩
  · exact {
      stands := by
        rw [hforest]
        exact hstands hr
      flanked := by
        rw [hforest]
        exact h.stands.flanked_of_marked hvisit h.flanked hmark
      history := by simp [takingOver, hhistory]
      covers := by
        rw [hforest]
        exact h.covers_after hvisit }
  · have hsize : c'.history.size = seen.length + 1 := by
      rw [← Array.length_toList, hhistory, List.length_append]
      rfl
    simp [takingOver, hsize]

/-- A node that the walk goes on to gets a new position, or the walk is over and the history has all. -/
theorem Entered.onward_searched (h : Entered root w c x₀ x before after seen)
    (hvisit : Replacing root x c c') (hguides : Guides w c'.forest x)
    (hmark : c'.forest.replacement? x = none) :
    (∃ d, Loops w (some x) c' none d ∧ Written root d ∧ d.history = c'.history) ∨
      ∃ n w' d, Loops w (some x) c' (some (n, w')) d ∧ Placed root w' d n ∧
        d.history.size = c'.history.size + 1 := by
  have hleft := h.stands.left hvisit.toLocal
  have hstays := hvisit.remains hmark
  rw [h.stands.held] at hstays
  have hstands := hleft.stands hmark hstays
  have hflanked := h.stands.flanked_of_unmarked hvisit h.flanked hmark
  have hcovers := h.covers_after hvisit
  have hhistory : c'.history.toList = seen ++ [x] := (congrArg Array.toList hvisit.history).trans h.history
  obtain ⟨order, horder, hnodup, -⟩ := id hstands.strict
  obtain ⟨inner, hinner, -⟩ := horder.exists_inner (horder.mem_singleton_iff.mpr hflanked.path.leads)
  obtain rfl := horder.unique (hflanked.lists_root hinner)
  obtain ⟨found, f'', hscans⟩ := hstands.path.between_enter.exists_scans hstands.strict
  have hscans' := hleft.scans_descend h.stands hmark
    (fun hg hp => hguides.comes hmark hg hp x₀ h.stands.pending) (by rwa [hstands.course_eq])
  have hloops := loops_of_scans hmark h.stands.started h.stands.pending
    (.inr (hguides.settled hmark x₀ h.stands.pending)) hscans'
  cases found with
  | none =>
    refine .inl ⟨_, hloops, ⟨_, horder.congr fun m _ => hscans.children m, hnodup, ?_⟩, rfl⟩
    have hall := hcovers.push (x := x) (hscans.parts_behind hflanked hinner)
    rw [← hhistory] at hall
    exact hall.congr fun m _ => hscans.kind m
  | some found =>
    obtain ⟨n, frames'⟩ := found
    obtain ⟨parts, inner', after', -, hparts, -, -, hflanked'⟩ :=
      hscans.flanked hflanked hinner hstands.strict
    refine .inr ⟨n, _, _, hloops, ⟨n, before ++ x :: parts, after', seen ++ [x], ?_⟩, Array.size_push n⟩
    exact {
      stands := stands_of_scans hscans hstands.path.between_enter hstands.strict hstands.started
        hstands.root_eq
      flanked := hflanked'
      history := by
        rw [← hhistory]
        exact Array.toList_push
      covers := (hcovers.push hparts).congr fun m _ => hscans.kind m }

/-- After each visit the run goes on to a node, with a new position unless another one was put in the place of
the last one, or it is over and the history has all. -/
theorem Placed.onward (h : Placed root w c x) (hvisit : Replacing root x c c')
    (hguides : Guides w c'.forest x) :
    (∃ d, Loops w (some x) c' none d ∧ Written root d ∧ d.history = c'.history ∧ swapped c'.forest x = 0) ∨
      ∃ n w' d, Loops w (some x) c' (some (n, w')) d ∧ Placed root w' d n ∧
        d.history.size + swapped c'.forest x = c'.history.size + 1 := by
  obtain ⟨x₀, before, after, seen, hentered⟩ := h
  cases hmark : c'.forest.replacement? x with
  | none =>
    have hswapped : swapped c'.forest x = 0 := by simp [swapped, hmark]
    rw [hswapped]
    obtain ⟨d, hloops, hwritten, hsame⟩ | hnext := hentered.onward_searched hvisit hguides hmark
    · exact .inl ⟨d, hloops, hwritten, hsame, rfl⟩
    · exact .inr hnext
  | some r =>
    have hswapped : swapped c'.forest x = 1 := by simp [swapped, hmark]
    obtain ⟨d, hloops, hlater, hsize⟩ := hentered.onward_replaced hvisit hguides hmark
    exact .inr ⟨r, w, d, hloops, ⟨x₀, before, after, seen, hlater⟩, by rw [hswapped, hsize]⟩

/-! ## Whole runs -/

/-- How many visits of a run put another node in the place of theirs. -/
def replacements (rules : List (Selector × Rule σ)) (steps : Nat) :
    (fuel : Nat) → Walker → (current : Option NodeId) → Context σ → Nat
  | 0, _, _, _ => 0
  | fuel + 1, w, current, c => match (next steps w current).run c with
    | (.ok (some n, w), c) => match (dispatch n rules).run c with
      | (.ok false, c) => swapped c.forest n + replacements rules steps fuel w (some n) c
      | _ => 0
    | _ => 0

/-- From each visit on, a run that returns leaves the history of the tree, and each of its visits made a
position or took one over. -/
theorem Placed.written {visited total : Nat} (h : Placed root w c x) (hturn : Turns rules root c₀ w x c c')
    (hvisits : ∀ w n c c', Turns rules root c₀ w n c c' → Replacing root n c c')
    (hguides : ∀ w n c c', Turns rules root c₀ w n c c' → Guides w c'.forest n)
    (hrun : (visitAll rules steps fuel visited w (some x)).run c' = (.ok ⟨false, total⟩, d)) :
    Written root d ∧ total + c'.history.size =
      visited + d.history.size + swapped c'.forest x + replacements rules steps fuel w (some x) c' := by
  induction fuel generalizing w c x c' visited with
  | zero => cases hrun
  | succ fuel ih =>
    have honward := h.onward (hvisits _ _ _ _ hturn) (hguides _ _ _ _ hturn)
    obtain ⟨w'', hnext, rfl⟩ | ⟨n, w', e, e', hnext, hdispatch, hrest⟩ := visitAll_unhalted hrun
    · obtain ⟨d', ⟨enough, henough⟩, hwritten, hsame, hswapped⟩ | ⟨n, w', d', ⟨enough, henough⟩, -⟩ := honward
      · obtain ⟨w', hlast⟩ := henough enough (Nat.le_refl _)
        obtain ⟨-, rfl⟩ := next_unique hnext hlast
        refine ⟨hwritten, ?_⟩
        rw [replacements, hnext, hswapped, hsame]
        rfl
      · cases (next_unique hnext (henough enough (Nat.le_refl _))).1
    · obtain ⟨d', hloops, -⟩ | ⟨m, v, d', hloops, hplaced, hsize⟩ := honward
      · cases (hloops.eq_of_next hnext).1
      · obtain ⟨heq, rfl⟩ := hloops.eq_of_next hnext
        cases heq
        have hlater : Turns rules root c₀ w' n d' e' := .later hturn hnext hdispatch
        obtain ⟨hwritten, hcount⟩ := ih hplaced hlater hrest
        refine ⟨hwritten, ?_⟩
        rw [(hvisits _ _ _ _ hlater).history] at hcount
        rw [replacements, hnext]
        dsimp only
        rw [hdispatch]
        dsimp only
        omega

theorem children_settleMetadata (root : NodeId) (c : Context σ) (n : NodeId) :
    (c.settleMetadata root).forest.children n = c.forest.children n := by
  rw [Forest.children, cell_settleMetadata]
  split <;> rfl

theorem kind_settleMetadata (root : NodeId) (c : Context σ) (n : NodeId) :
    (c.settleMetadata root).forest.kind n = c.forest.kind n := by
  rw [Forest.kind, cell_settleMetadata]
  split <;> rfl

/-- If each visit of a run over a strict tree is local and leaves its node where it is or puts another one in
its place, and the marks of replacement lead the run at each turn, as they do where only nodes that bear no
mark are put in a place, then the history that the run leaves is, node for node, the walk over the tree that
it leaves, exactly if no part was put in a place; and there are as many visits as positions and visits that
replaced. -/
theorem history_is_walk_iff {visited : Nat} (filter : Filter σ) (hcompile : compile filter.rules = .ok rules)
    (hstrict : c₀.forest.Strict c₀.document) (hheld : c₀.forest.holder? c₀.document = none)
    (hmark : c₀.forest.replacement? c₀.document = none) (hhistory : c₀.history = #[])
    (hvisits : ∀ w n c c', Turns rules c₀.document c₀ w n c c' → Replacing c₀.document n c c')
    (hguides : ∀ w n c c', Turns rules c₀.document c₀ w n c c' → Guides w c'.forest n)
    (hrun : (filter.apply fuel).run c₀ = (.ok ⟨false, visited⟩, c)) :
    ∃ order, c.forest.Lists [c₀.document] order ∧
      (c.history.toList = c.forest.walked order ↔ ∀ n ∈ c.history.toList, ¬ (c.forest.kind n).isPart) ∧
      visited = c.history.size + replacements rules fuel fuel (.of c₀.document) none c₀ := by
  have hbegin : Placed c₀.document (opened c₀.document) (entering c₀.document c₀) c₀.document :=
    ⟨c₀.document, [], [], [], {
      stands := stands_begin hstrict hheld hmark
      flanked := .root
      history := by simp [entering, hhistory]
      covers := .nil }⟩
  rw [run_apply, hcompile] at hrun
  dsimp only at hrun
  rcases hloop : (visitAll rules fuel fuel 0 (.of c₀.document) none).run c₀ with ⟨e | outcome, d⟩
  · rw [hloop] at hrun
    cases hrun
  · rw [hloop] at hrun
    cases hrun
    obtain ⟨fuel, rfl⟩ : ∃ k, fuel = k + 1 := by
      cases fuel with
      | zero => cases hloop
      | succ fuel => exact ⟨fuel, rfl⟩
    have hopened : (next fuel (.of c₀.document) none).run c₀ =
        (.ok (some c₀.document, opened c₀.document), entering c₀.document c₀) := next_begin
    obtain ⟨w', hfinished, -⟩ | ⟨n, w', e, c', hfirst, hdispatch, hrest⟩ := visitAll_unhalted hloop
    · cases (next_unique hfinished hopened).1
    · obtain ⟨hfound, rfl⟩ := next_unique hfirst hopened
      cases hfound
      have hturn := Turns.first hfirst hdispatch
      obtain ⟨⟨order, horder, hnodup, hcovers⟩, hcount⟩ := hbegin.written hturn hvisits hguides hrest
      rw [(hvisits _ _ _ _ hturn).history] at hcount
      refine ⟨order, horder.congr fun m _ => children_settleMetadata c₀.document d m, ?_, ?_⟩
      · exact (hcovers.congr fun m _ => kind_settleMetadata c₀.document d m).eq_walked_iff hnodup
      · have hone : (entering c₀.document c₀).history.size = 1 := by simp [entering, hhistory]
        have hsame : (d.settleMetadata c₀.document).history = d.history := rfl
        rw [replacements, hfirst]
        dsimp only
        rw [hdispatch, hsame]
        dsimp only
        omega

/-! ## A line that is put into a quote -/

/-- Puts a line right below the document into a quote. -/
def enclose : Action Unit := fun n => do
  let c ← get
  match c.forest.parent n with
  | .ok (some p) =>
    if c.forest.kind n = .horizontalRule ∧ p = c.document then quote n else pure .proceed
  | _ => pure .proceed

/-- A rule that puts each line right below the document into a quote. -/
def enclosing : Filter Unit where
  rules := [⟨.str "Block", enclose⟩]

/-- The rule with its selector. -/
def enclosingRules : List (Selector × Rule Unit) := [(⟨"Block", .block, []⟩, ⟨.str "Block", enclose⟩)]

/-- The walker while it hands out what is in the quote. -/
def underQuote : Walker :=
  { root := ⟨1⟩, frames := [⟨⟨2⟩, 1⟩, ⟨⟨1⟩, 1⟩], pending := some ⟨0⟩, started := true }

/-- The line has been entered once more, in its quote. -/
def inQuote : Context Unit := entering ⟨0⟩ (reaching ⟨2⟩ ⟨0⟩ atQuote)

theorem turns_enclosing {w : Walker} {n : NodeId} {c c' : Context Unit}
    (h : Turns enclosingRules ⟨1⟩ lined w n c c') :
    (n = ⟨1⟩ ∧ c = entering ⟨1⟩ lined ∧ c' = c ∧ w = opened ⟨1⟩) ∨
      (n = ⟨0⟩ ∧ c = atLine ∧ c' = quoted ∧ w = underDocument) ∨
      (n = ⟨2⟩ ∧ c = atQuote ∧ c' = c ∧ w = underDocument) ∨
      (n = ⟨0⟩ ∧ c = inQuote ∧ c' = c ∧ w = underQuote) := by
  induction h with
  | first hnext hdispatch =>
    have hroot : (dispatch ⟨1⟩ enclosingRules).run (entering ⟨1⟩ lined) =
        (.ok false, entering ⟨1⟩ lined) := rfl
    rw [next_begin] at hnext
    cases hnext
    rw [hroot] at hdispatch
    cases hdispatch
    exact .inl ⟨rfl, rfl, rfl, rfl⟩
  | later _ hnext hdispatch ih =>
    rcases ih with ⟨rfl, rfl, rfl, rfl⟩ | ⟨rfl, rfl, rfl, rfl⟩ | ⟨rfl, rfl, rfl, rfl⟩ | ⟨rfl, rfl, rfl, rfl⟩
    · have hline : (next 9 (opened ⟨1⟩) (some ⟨1⟩)).run (entering ⟨1⟩ lined) =
          (.ok (some ⟨0⟩, underDocument), atLine) := rfl
      have hquote : (dispatch ⟨0⟩ enclosingRules).run atLine = (.ok false, quoted) := rfl
      exact .inr (.inl (turn_unique hnext hdispatch hline hquote))
    · have hquote : (next 9 underDocument (some ⟨0⟩)).run quoted =
          (.ok (some ⟨2⟩, underDocument), atQuote) := rfl
      have hpass : (dispatch ⟨2⟩ enclosingRules).run atQuote = (.ok false, atQuote) := rfl
      obtain ⟨rfl, rfl, rfl, rfl⟩ := turn_unique hnext hdispatch hquote hpass
      exact .inr (.inr (.inl ⟨rfl, rfl, rfl, rfl⟩))
    · have hagain : (next 9 underDocument (some ⟨2⟩)).run atQuote =
          (.ok (some ⟨0⟩, underQuote), inQuote) := rfl
      have hpass : (dispatch ⟨0⟩ enclosingRules).run inQuote = (.ok false, inQuote) := rfl
      obtain ⟨rfl, rfl, rfl, rfl⟩ := turn_unique hnext hdispatch hagain hpass
      exact .inr (.inr (.inr ⟨rfl, rfl, rfl, rfl⟩))
    · have hlast : ∃ w', (next 9 underQuote (some ⟨0⟩)).run inQuote = (.ok (none, w'), inQuote) := ⟨_, rfl⟩
      obtain ⟨w', hlast⟩ := hlast
      cases (next_unique hnext hlast).1

/-- The visits are local, and no node changes its kind. -/
theorem replacing_enclosing {w : Walker} {n : NodeId} {c c' : Context Unit}
    (h : Turns enclosingRules ⟨1⟩ lined w n c c') : Replacing ⟨1⟩ n c c' := by
  have hquote : atQuote.forest.order? 9 [⟨2⟩] = some [⟨2⟩, ⟨0⟩] := by decide
  have hline : inQuote.forest.order? 9 [⟨0⟩] = some [⟨0⟩] := by decide
  rcases turns_enclosing h with ⟨rfl, rfl, rfl, -⟩ | ⟨rfl, rfl, rfl, -⟩ | ⟨rfl, rfl, rfl, -⟩ |
    ⟨rfl, rfl, rfl, -⟩
  · exact { local_lined with
      remains := fun _ => rfl
      history := rfl
      kind := fun _ _ => rfl }
  · exact { local_quoted with
      remains := fun hmark => by cases hmark
      history := rfl
      kind := fun m hm => by
        have hm : m.index < 2 := hm
        obtain ⟨_ | _ | i⟩ := m
        · rfl
        · rfl
        · exact absurd (show i + 1 + 1 < 2 from hm) (by omega) }
  · exact {
      listed := by decide
      moved := ⟨_, .refl rfl, .stays ⟨_, lists_of_order? hquote, by decide, by decide⟩
        fun _ hm hout => hout.2 hm⟩
      remains := fun _ => rfl
      history := rfl
      kind := fun _ _ => rfl }
  · exact {
      listed := by decide
      moved := ⟨_, .refl rfl, .stays ⟨_, lists_of_order? hline, by decide, by decide⟩
        fun _ hm hout => hout.2 hm⟩
      remains := fun _ => rfl
      history := rfl
      kind := fun _ _ => rfl }

/-- The marks lead the run: the line to the quote, and to itself again once it was met in the quote. -/
theorem guides_enclosing {w : Walker} {n : NodeId} {c c' : Context Unit}
    (h : Turns enclosingRules ⟨1⟩ lined w n c c') : Guides w c'.forest n := by
  refine h.guides_of_steady rfl fun w n c c' hturn => ?_
  rcases turns_enclosing hturn with ⟨rfl, rfl, rfl, -⟩ | ⟨rfl, rfl, rfl, -⟩ | ⟨rfl, rfl, rfl, -⟩ |
    ⟨rfl, rfl, rfl, -⟩
  · exact ⟨fun _ _ _ hr => hr, fun _ hr => by cases hr⟩
  · refine ⟨fun m r hm hr => ?_, fun r hr => ?_⟩
    · have hhas : atLine.forest.Has m := by
        by_contra hno
        rw [replacement?_of_not_has hno] at hr
        cases hr
      have hlt : m.index < 2 := hhas
      obtain ⟨_ | _ | i⟩ := m
      · cases hr
      · cases hr
      · exact absurd (show i + 1 + 1 < 2 from hlt) (by omega)
    · cases hr
      rfl
  · exact ⟨fun _ _ _ hr => hr, fun _ hr => by cases hr⟩
  · exact ⟨fun _ _ _ hr => hr, fun _ hr => by cases hr⟩

/-- The run visits the document, the line, the quote and the line in the quote: four visits, three positions,
and one replacement. -/
theorem history_enclosing : lined.forest.Strict ⟨1⟩ ∧
    (∀ w n c c', Turns enclosingRules ⟨1⟩ lined w n c c' → Replacing ⟨1⟩ n c c' ∧ Guides w c'.forest n) ∧
    ∃ c, (enclosing.apply 9).run lined = (.ok ⟨false, 4⟩, c) ∧ c.history = #[⟨1⟩, ⟨2⟩, ⟨0⟩] ∧
      ∃ order, c.forest.Lists [⟨1⟩] order ∧
        (c.history.toList = c.forest.walked order ↔ ∀ n ∈ c.history.toList, ¬ (c.forest.kind n).isPart) ∧
        4 = c.history.size + replacements enclosingRules 9 9 (.of ⟨1⟩) none lined := by
  refine ⟨strict_lined, fun w n c c' h => ⟨replacing_enclosing h, guides_enclosing h⟩,
    inQuote.settleMetadata ⟨1⟩, rfl,
    rfl, ?_⟩
  exact history_is_walk_iff enclosing rfl strict_lined rfl rfl rfl
    (fun _ _ _ _ h => replacing_enclosing h) (fun _ _ _ _ h => guides_enclosing h) rfl

end Filter

end DocFilter
