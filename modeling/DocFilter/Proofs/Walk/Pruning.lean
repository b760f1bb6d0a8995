import DocFilter.Proofs.Walk.Removal

/-!
# Walking a tree that is pruned

A walk in which nodes that were handed out are removed between two steps: the present one, those before
it, and those above it.

* `Walker.Prunes` is such a walk, with an account of what was handed out, removed and passed over.
* `Walker.Account` is the invariant: every node of the tree was handed out, or is a part that was passed
  through, or has still to be reached, or lies below a node that was passed over or removed.
* `Walker.Account.turn` is the step and `Walker.Prunes.handed_out_once_iff` the walk: it comes to an end, and
  then it has handed out a node once, unless the node lies below one that was passed over or removed.
-/

namespace DocFilter

namespace Walker

open Forest

variable {f f' f'' f₀ : Forest} {w w' : Walker} {x n m root : NodeId} {fuel : Nat}
  {seen removed passed rs order parts todo skipped : List NodeId}

/-! ## The walk -/

/-- A walk in which nodes that were handed out are removed between two steps.  The lists are the nodes
handed out, removed and passed over so far. -/
inductive Prunes (f₀ : Forest) (root : NodeId) :
    Walker → Forest → (seen removed passed : List NodeId) → Prop where
  | start : Prunes f₀ root (.of root) f₀ [] [] []
  | turn {w w' : Walker} {f f' f'' : Forest} {n : NodeId} {fuel : Nat}
      {seen removed passed rs : List NodeId} :
      Prunes f₀ root w f seen removed passed → w.next fuel f = .node n w' f' →
      Removes (seen ++ [n]) f' rs f'' →
      Prunes f₀ root w' f'' (seen ++ [n]) (removed ++ rs) (passed ++ passedOver f' f'' n w'.frames)

/-! ## The account -/

/-- Where a walk over a pruned tree stands once `x` was handed out and nodes were removed: the nodes of
the tree are those handed out, the parts passed through, those still to be reached, those below a node
that was passed over, and those below a removed one. -/
structure Account (f₀ : Forest) (root : NodeId) (order : List NodeId) (w : Walker) (f : Forest)
    (x : NodeId) (seen removed passed parts todo skipped : List NodeId) : Prop where
  started : w.started
  root_eq : w.root = root
  pending : w.pending = some x
  ready : x = root ∨ f.replacement? x = none
  root_seen : root ∈ seen
  kinds : ∀ m, f.kind m = f₀.kind m
  shrinks : ∀ m, (f.children m).Sublist (f₀.children m)
  places : ∀ frame ∈ (w.descend f x).frames, frame.node ∈ order
  untouched : ∀ m ∈ todo, f.children m = f₀.children m
  lists : f₀.Lists (agenda f (w.descend f x).frames) todo
  lists_passed : f₀.Lists passed skipped
  are_parts : ∀ m ∈ parts, (f₀.kind m).isPart
  nodup : (seen ++ parts ++ todo ++ skipped).Nodup
  subset : ∀ m ∈ seen ++ parts ++ todo ++ skipped, m ∈ order
  covers : ∀ m ∈ order, m ∈ seen ++ parts ++ todo ++ skipped ∨ ∃ r ∈ removed, f₀.Below r m

/-- The walk has handed out its root. -/
theorem Account.start (horder : f₀.Lists [root] order) (hnodup : order.Nodup)
    (h : Removes [root] f₀ rs f) :
    ∃ todo, Account f₀ root order { root := root, started := true, pending := some root } f root
      [root] rs [] [] todo [] := by
  obtain ⟨inner, hinner, rfl⟩ := lists_singleton_iff.mp horder
  have hroot : root ∉ inner := (List.nodup_cons.mp hnodup).1
  have hnew : ∀ m ∈ inner, m ∉ [root] := by
    intro m hm hmem
    rw [List.mem_singleton] at hmem
    exact hroot (hmem ▸ hm)
  have hsame : f.children root = f₀.children root :=
    h.children_eq fun c hc => hnew c (hinner.mem_of_mem hc)
  have hframes : ({ root := root, started := true, pending := some root } : Walker).descend f root =
      { root := root, started := true, pending := some root, frames := [⟨root, 0⟩] } := by
    simp [descend]
  refine ⟨inner, ?_⟩
  exact {
    started := rfl
    root_eq := rfl
    pending := rfl
    ready := .inl rfl
    root_seen := by simp
    kinds := h.kind
    shrinks := h.children_sublist
    places := by simp [hframes]
    untouched := fun m hm => h.children_eq fun c hc => hnew c (hinner.mem_of_mem_children hm hc)
    lists := by
      rw [hframes, agenda_enter, hsame]
      simpa [agenda] using hinner
    lists_passed := .nil
    are_parts := by simp
    nodup := by simpa using hnodup
    subset := by simp
    covers := fun m hm => .inl (by simpa using hm) }

/-- What the walker has when it hands out the next node: the order of what was to be reached, split at
that node. -/
structure Arrival (f₀ : Forest) (root : NodeId) (order : List NodeId) (w : Walker) (f : Forest)
    (n : NodeId) (todo passing inner after : List NodeId) : Prop where
  started : w.started
  root_eq : w.root = root
  pending : w.pending = some n
  unmarked : f.replacement? n = none
  kinds : ∀ m, f.kind m = f₀.kind m
  shrinks : ∀ m, (f.children m).Sublist (f₀.children m)
  places : ∀ frame ∈ w.frames, frame.node ∈ order
  innermost : ∃ p i outer, w.frames = ⟨p, i + 1⟩ :: outer ∧ (f.children p)[i]? = some n
  untouched : ∀ m ∈ todo, f.children m = f₀.children m
  split : todo = passing ++ n :: (inner ++ after)
  are_parts : ∀ m ∈ passing, (f₀.kind m).isPart
  lists_inner : f₀.Lists (f₀.children n) inner
  lists_after : f₀.Lists (agenda f w.frames) after

/-- The search for the next node over what is still to be reached. -/
theorem Account.scan (h : Account f₀ root order w f x seen removed passed parts todo skipped)
    (fuel : Nat) : w.next fuel f =
      ({ w.descend f x with pending := none }).advance fuel (w.descend f x).frames f := by
  refine next_of_pending h.started h.pending ?_
  rcases h.ready with hroot | hnone
  · exact .inl (hroot.trans h.root_eq.symm)
  · exact .inr (settles_of_none hnone)

theorem Account.lists_now (h : Account f₀ root order w f x seen removed passed parts todo skipped) :
    f.Lists (agenda f (w.descend f x).frames) todo :=
  h.lists.congr h.untouched

theorem Account.arrival (horder : f₀.Lists [root] order)
    (h : Account f₀ root order w f x seen removed passed parts todo skipped)
    (hnext : w.next fuel f = .node n w' f') :
    ∃ passing inner after, Arrival f₀ root order w' f' n todo passing inner after := by
  rw [h.scan fuel] at hnext
  obtain ⟨found, g, hscans, hfound⟩ := scans_of_advance (by rw [hnext]; simp)
  rw [hnext] at hfound
  cases found with
  | none => cases hfound
  | some found =>
    obtain ⟨n', frames⟩ := found
    cases hfound
    obtain ⟨passing, inner, after, hsplit, hparts, -, hinner, hafter⟩ := hscans.account h.lists_now
    obtain ⟨hmark, p, i, outer, hframes, hat, -⟩ := hscans.found
    have huntouched : ∀ m ∈ todo, f₀.children m = f.children m := fun m hm =>
      (h.untouched m hm).symm
    have hn : f.children n = f₀.children n := h.untouched n (by simp [hsplit])
    refine ⟨passing, inner, after, ?_⟩
    exact {
      started := by simpa using h.started
      root_eq := by simpa using h.root_eq
      pending := rfl
      unmarked := hmark
      kinds := fun m => (hscans.kind m).trans (h.kinds m)
      shrinks := fun m => by
        rw [hscans.children]
        exact h.shrinks m
      places := hscans.places
        (fun m hm c hc => horder.mem_of_mem_children hm ((h.shrinks m).subset hc)) h.places
      innermost := ⟨p, i, outer, hframes, by rw [hscans.children]; exact hat⟩
      untouched := fun m hm => (hscans.children m).trans (h.untouched m hm)
      split := hsplit
      are_parts := fun m hm => by
        rw [← h.kinds]
        exact hparts m hm
      lists_inner := by
        rw [← hn]
        exact hinner.congr fun m hm => huntouched m (by simp [hsplit, hm])
      lists_after := hafter.congr fun m hm => huntouched m (by simp [hsplit, hm]) }

/-- A node that is handed out stands in the order, and was not handed out before. -/
theorem Account.fresh (h : Account f₀ root order w f x seen removed passed parts todo skipped)
    (hn : n ∈ todo) : n ∈ order ∧ n ∉ seen := by
  refine ⟨h.subset n (by simp [hn]), fun hseen => ?_⟩
  have hnodup := h.nodup
  rw [List.append_assoc, List.append_assoc, List.nodup_append'] at hnodup
  exact hnodup.2.2 hseen (by simp [hn])

/-- What comes after a node that is handed out was not handed out. -/
theorem Account.new (h : Account f₀ root order w f x seen removed passed parts todo skipped)
    {passing inner after : List NodeId} (hsplit : todo = passing ++ n :: (inner ++ after)) :
    ∀ m ∈ inner ++ after, m ∉ seen ++ [n] := by
  intro m hm hseen
  have honce := List.nodup_iff_count_le_one.mp h.nodup m
  have hlater := List.count_pos_iff.mpr hm
  have hearlier := List.count_pos_iff.mpr hseen
  rw [hsplit] at honce
  simp only [List.count_append, List.count_cons, List.count_nil] at honce hlater hearlier
  omega

theorem Arrival.untouched_after {passing inner after : List NodeId}
    (a : Arrival f₀ root order w f n todo passing inner after) (hremoves : Removes seen f rs f')
    (hnew : ∀ m ∈ inner ++ after, m ∉ seen) (hm : m ∈ inner ++ after) :
    f'.children m = f₀.children m := by
  have hsame : f.children m = f₀.children m := a.untouched m (by
    rw [a.split]
    exact List.mem_append_right _ (List.mem_cons_of_mem _ hm))
  rw [← hsame]
  refine hremoves.children_eq fun c hc => hnew c ?_
  rw [hsame] at hc
  exact (a.lists_inner.append a.lists_after).mem_of_mem_children hm hc

/-- What is scheduled after removals, and what is passed over. -/
theorem Arrival.schedule {passing inner after : List NodeId} (horder : f₀.Lists [root] order)
    (hnodup : order.Nodup) (a : Arrival f₀ root order w f n todo passing inner after)
    (hroot : n ≠ root) (hremoves : Removes seen f rs f')
    (hnew : ∀ m ∈ inner ++ after, m ∉ seen) :
    ∃ first here rest, f₀.Lists (passedOver f f' n w.frames) first ∧
      f₀.Lists (agenda f' (w.descend f' n).frames) (here ++ rest) ∧ (first ++ rest).Perm after ∧
      (here = inner ∨ here = [] ∧ n ∈ rs) := by
  obtain ⟨p, i, outer, hframes, hat⟩ := a.innermost
  have hp : p ∈ order := a.places ⟨p, i + 1⟩ (by simp [hframes])
  have honce : (f.children p).Nodup := (horder.nodup_children hnodup hp).sublist (a.shrinks p)
  have hagenda : ∀ c ∈ agenda f w.frames, c ∉ seen := fun c hc =>
    hnew c (List.mem_append_right _ (a.lists_after.mem_of_mem hc))
  have hmark : f'.replacement? n = none := (hremoves.replacement? n).trans a.unmarked
  have hscheduled := hremoves.agenda_descend (by rwa [a.root_eq]) hframes hat honce hmark hagenda
  have hskips := a.lists_after
  rw [agenda_eq_skips f f' n] at hskips
  obtain ⟨first, rest, hfirst, hrest, hperm⟩ := lists_skips hskips
  rw [hscheduled]
  by_cases hstays : n ∈ f'.children p
  · have hheld : f.children n = f₀.children n := a.untouched n (by simp [a.split])
    have hkept : f'.children n = f₀.children n := by
      rw [← hheld]
      refine hremoves.children_eq fun c hc => hnew c (List.mem_append_left _ ?_)
      rw [hheld] at hc
      exact a.lists_inner.mem_of_mem hc
    rw [if_pos hstays, hkept]
    exact ⟨first, inner, rest, hfirst, a.lists_inner.append hrest, hperm, .inl rfl⟩
  · rw [if_neg hstays]
    have hgone : n ∈ rs := hremoves.mem_of_gone (List.mem_of_getElem? hat) hstays
    exact ⟨first, [], rest, hfirst, hrest, hperm, .inr ⟨rfl, hgone⟩⟩

/-- Nothing is lost: a node that had still to be reached is handed out or passed through or passed over
or has still to be reached, or it lies below the node that was handed out and removed. -/
theorem Account.covers_turn
    (h : Account f₀ root order w f x seen removed passed parts todo skipped)
    {passing inner after first here rest : List NodeId}
    (hsplit : todo = passing ++ n :: (inner ++ after))
    (hinner : f₀.Lists (f₀.children n) inner)
    (hperm : ∀ m, first.count m + rest.count m = after.count m)
    (hhere : here = inner ∨ here = [] ∧ n ∈ rs) (hm : m ∈ order) :
    m ∈ seen ++ [n] ++ (parts ++ passing) ++ (here ++ rest) ++ (skipped ++ first) ∨
      ∃ r ∈ removed ++ rs, f₀.Below r m := by
  rcases h.covers m hm with hold | ⟨r, hr, hbelow⟩
  · have hafter := hperm m
    by_cases hgone : n ∈ rs ∧ m ∈ inner
    · obtain ⟨c, hc, hbelow⟩ := hinner.mem_iff.mp hgone.2
      exact .inr ⟨n, by simp [hgone.1], .child hc hbelow⟩
    · have hcount : here.count m = inner.count m := by
        rcases hhere with rfl | ⟨rfl, hn⟩
        · rfl
        · have hnot : m ∉ inner := fun hmem => hgone ⟨hn, hmem⟩
          simp [List.count_eq_zero_of_not_mem hnot]
      refine .inl ?_
      rw [← List.count_pos_iff] at hold ⊢
      rw [hsplit] at hold
      simp only [List.count_append, List.count_cons, List.count_nil] at hold ⊢
      omega
  · exact .inr ⟨r, by simp [hr], hbelow⟩

/-- One more node is handed out, and nodes are removed. -/
theorem Account.turn (horder : f₀.Lists [root] order) (hnodup : order.Nodup)
    (h : Account f₀ root order w f x seen removed passed parts todo skipped)
    (hnext : w.next fuel f = .node n w' f') (hremoves : Removes (seen ++ [n]) f' rs f'') :
    ∃ parts' todo' skipped', Account f₀ root order w' f'' n (seen ++ [n]) (removed ++ rs)
      (passed ++ passedOver f' f'' n w'.frames) parts' todo' skipped' := by
  obtain ⟨passing, inner, after, a⟩ := h.arrival horder hnext
  have hn : n ∈ todo := by simp [a.split]
  have hroot : n ≠ root := fun heq => (h.fresh hn).2 (heq ▸ h.root_seen)
  have hnew := h.new a.split
  obtain ⟨first, here, rest, hfirst, hlists, hperm, hhere⟩ :=
    a.schedule horder hnodup hroot hremoves hnew
  have hmark : f''.replacement? n = none := (hremoves.replacement? n).trans a.unmarked
  have hperm : ∀ m, first.count m + rest.count m = after.count m := fun m => by
    rw [← List.count_append, hperm.count_eq]
  have hinner : ∀ m, here.count m ≤ inner.count m := fun m => by
    rcases hhere with rfl | ⟨rfl, -⟩
    · exact Nat.le_refl _
    · simp
  have hcount : ∀ m, (seen ++ [n] ++ (parts ++ passing) ++ (here ++ rest) ++
      (skipped ++ first)).count m ≤ (seen ++ parts ++ todo ++ skipped).count m := fun m => by
    have := hperm m
    have := hinner m
    simp only [a.split, List.count_append, List.count_cons, List.count_nil]
    omega
  refine ⟨parts ++ passing, here ++ rest, skipped ++ first, ?_⟩
  exact {
    started := a.started
    root_eq := a.root_eq
    pending := a.pending
    ready := .inr hmark
    root_seen := by simp [h.root_seen]
    kinds := fun m => (hremoves.kind m).trans (a.kinds m)
    shrinks := fun m => (hremoves.children_sublist m).trans (a.shrinks m)
    places := by
      obtain ⟨p, i, outer, hframes, -⟩ := a.innermost
      intro frame hframe
      rcases mem_descend_frames (by rwa [a.root_eq]) hframes hmark hframe with heq | ⟨old, hold, heq⟩
      · rw [heq]
        exact (h.fresh hn).1
      · rw [← heq]
        exact a.places old hold
    untouched := fun m hm => a.untouched_after hremoves hnew (by
      have hmpos := List.count_pos_iff.mpr hm
      have := hperm m
      have := hinner m
      rw [← List.count_pos_iff]
      simp only [List.count_append] at hmpos ⊢
      omega)
    lists := hlists
    lists_passed := h.lists_passed.append hfirst
    are_parts := fun m hm => (List.mem_append.mp hm).elim (h.are_parts m) (a.are_parts m)
    nodup := List.nodup_iff_count_le_one.mpr fun m =>
      (hcount m).trans (List.nodup_iff_count_le_one.mp h.nodup m)
    subset := fun m hm => h.subset m
      (List.count_pos_iff.mp ((List.count_pos_iff.mpr hm).trans_le (hcount m)))
    covers := fun m hm => h.covers_turn a.split a.lists_inner hperm hhere hm }

/-! ## Every walk -/

/-- A walk with removals either stands at its beginning or has an account. -/
theorem Prunes.account (horder : f₀.Lists [root] order) (hnodup : order.Nodup)
    (h : Prunes f₀ root w f seen removed passed) :
    (w = .of root ∧ f = f₀ ∧ seen = [] ∧ removed = [] ∧ passed = []) ∨
      ∃ x parts todo skipped, Account f₀ root order w f x seen removed passed parts todo skipped := by
  induction h with
  | start => exact .inl ⟨rfl, rfl, rfl, rfl, rfl⟩
  | @turn w w' f f' f'' n fuel seen removed passed rs _ hnext hremoves ih =>
    refine .inr ⟨n, ?_⟩
    rcases ih with ⟨rfl, rfl, rfl, rfl, rfl⟩ | ⟨x, parts, todo, skipped, haccount⟩
    · rw [next_start] at hnext
      cases hnext
      obtain ⟨todo, haccount⟩ := Account.start horder hnodup hremoves
      exact ⟨[], todo, [], haccount⟩
    · exact haccount.turn horder hnodup hnext hremoves

/-- A walk that has handed out all it can has handed out a node once, unless the node lies below one that
was passed over or removed. -/
theorem Account.count_eq_one_iff
    (h : Account f₀ root order w f x seen removed passed parts todo skipped)
    (hdone : ∀ m ∈ todo, (f.kind m).isPart) (hm : m ∈ order) (hpart : ¬ (f₀.kind m).isPart)
    (hremoved : ∀ r ∈ removed, ¬ f₀.Below r m) :
    seen.count m = 1 ↔ ∀ s ∈ passed, ¬ f₀.Below s m := by
  have honce := List.nodup_iff_count_le_one.mp h.nodup m
  simp only [List.count_append] at honce
  have hparts : m ∉ parts := fun hmem => hpart (h.are_parts m hmem)
  have htodo : m ∉ todo := fun hmem => hpart (h.kinds m ▸ hdone m hmem)
  have hskipped : m ∈ skipped ↔ ∃ s ∈ passed, f₀.Below s m := h.lists_passed.mem_iff
  constructor
  · intro hcount s hs hbelow
    have hmem := List.count_pos_iff.mpr (hskipped.mpr ⟨s, hs, hbelow⟩)
    omega
  · intro hpassed
    have hnot : m ∉ skipped := fun hmem => by
      obtain ⟨s, hs, hbelow⟩ := hskipped.mp hmem
      exact hpassed s hs hbelow
    rcases h.covers m hm with hmem | ⟨r, hr, hbelow⟩
    · have hseen : m ∈ seen := by simpa [hparts, htodo, hnot] using hmem
      have hpos := List.count_pos_iff.mpr hseen
      omega
    · exact absurd hbelow (hremoved r hr)

/-- With enough fuel the next step of a walk with removals hands out a node of the tree that was not
handed out before, or it finishes. -/
theorem Account.next (horder : f₀.Lists [root] order)
    (h : Account f₀ root order w f x seen removed passed parts todo skipped) :
    ∃ enough, ∀ fuel ≥ enough,
      (∃ n w' f', w.next fuel f = .node n w' f' ∧ n ∈ order ∧ n ∉ seen) ∨
        ∃ w' f', w.next fuel f = .finished w' f' ∧ ∀ m ∈ todo, (f.kind m).isPart := by
  obtain ⟨found, f', hscans⟩ := exists_scans h.lists_now
  obtain ⟨enough, hfuel⟩ := advance_of_scans hscans
  refine ⟨enough, fun fuel hle => ?_⟩
  have hnext := h.scan fuel
  rw [hfuel fuel hle] at hnext
  cases found with
  | none => exact .inr ⟨_, _, hnext, hscans.account h.lists_now⟩
  | some found =>
    obtain ⟨n, frames⟩ := found
    obtain ⟨passing, inner, after, a⟩ := h.arrival horder hnext
    have hn : n ∈ todo := by simp [a.split]
    exact .inl ⟨n, _, _, hnext, (h.fresh hn).1, (h.fresh hn).2⟩

/-- A walk over a strict tree in which nodes that were handed out are removed between the steps hands out
no node twice and comes to an end.  Then it has handed out a node that is neither removed nor below a
removed one, and is no part, exactly if the node is not and does not lie below a node that the walk passed
over. -/
theorem Prunes.handed_out_once_iff (hstrict : f₀.Strict root)
    (h : Prunes f₀ root w f seen removed passed) :
    seen.Nodup ∧ (∀ m ∈ seen, f₀.Below root m) ∧
      ∃ enough, ∀ fuel ≥ enough,
        (∃ n w' f', w.next fuel f = .node n w' f' ∧ f₀.Below root n ∧ n ∉ seen) ∨
          ∃ w' f', w.next fuel f = .finished w' f' ∧
            ∀ m, f₀.Below root m → ¬ (f₀.kind m).isPart → (∀ r ∈ removed, ¬ f₀.Below r m) →
              (seen.count m = 1 ↔ ∀ s ∈ passed, ¬ f₀.Below s m) := by
  obtain ⟨order, horder, hnodup, -⟩ := hstrict
  rcases h.account horder hnodup with ⟨rfl, rfl, rfl, rfl, rfl⟩ | ⟨x, parts, todo, skipped, a⟩
  · refine ⟨.nil, by simp, 0, fun fuel _ => .inl ⟨root, _, _, next_start, .refl root, by simp⟩⟩
  · have honce := a.nodup
    rw [List.append_assoc, List.append_assoc] at honce
    refine ⟨(List.nodup_append'.mp honce).1, ?_, ?_⟩
    · intro m hm
      exact horder.mem_singleton_iff.mp (a.subset m (by simp [hm]))
    · obtain ⟨enough, hfuel⟩ := a.next horder
      refine ⟨enough, fun fuel hle => ?_⟩
      rcases hfuel fuel hle with ⟨n, w', f', hnext, hn, hfresh⟩ | ⟨w', f', hnext, hdone⟩
      · exact .inl ⟨n, w', f', hnext, horder.mem_singleton_iff.mp hn, hfresh⟩
      · refine .inr ⟨w', f', hnext, fun m hm hpart hremoved => ?_⟩
        exact a.count_eq_one_iff hdone (horder.mem_singleton_iff.mpr hm) hpart hremoved

/-- Three paragraphs with one inline each. -/
def threeParagraphs : Forest :=
  (({} : Forest).plantDocument
    { blocks := [.node .para [] [.node .space [] []], .node .para [] [.node .space [] []],
        .node .para [] [.node .space [] []]] }).2

theorem strict_threeParagraphs : threeParagraphs.Strict ⟨6⟩ := by
  have horder : threeParagraphs.order? 9 [⟨6⟩] =
      some [⟨6⟩, ⟨1⟩, ⟨0⟩, ⟨3⟩, ⟨2⟩, ⟨5⟩, ⟨4⟩] := by decide
  exact ⟨_, lists_of_order? horder, by decide, by decide⟩

/-- The first paragraph is removed when its inline is handed out, and the second one is passed over. -/
theorem prunes_threeParagraphs :
    ∃ w f, Prunes threeParagraphs ⟨6⟩ w f [⟨6⟩, ⟨1⟩, ⟨0⟩, ⟨5⟩, ⟨4⟩] [⟨1⟩] [⟨3⟩] := by
  have hstart : Prunes threeParagraphs ⟨6⟩ (.of ⟨6⟩) threeParagraphs [] [] [] := .start
  have hroot := hstart.turn (show Walker.next _ 1 _ = .node ⟨6⟩ _ _ from rfl) (.nil _)
  have hfirst := hroot.turn (show Walker.next _ 9 _ = .node ⟨1⟩ _ _ from rfl) (.nil _)
  have hinline := hfirst.turn (show Walker.next _ 9 _ = .node ⟨0⟩ _ _ from rfl)
    (.cons (p := ⟨6⟩) (r := ⟨1⟩) (by decide) rfl rfl (.nil _))
  have hlast := hinline.turn (show Walker.next _ 9 _ = .node ⟨5⟩ _ _ from rfl) (.nil _)
  exact ⟨_, _, hlast.turn (show Walker.next _ 9 _ = .node ⟨4⟩ _ _ from rfl) (.nil _)⟩

/-- Removing a paragraph from within makes the walk pass over the next one. -/
theorem handed_out_threeParagraphs :
    ∃ w f, Prunes threeParagraphs ⟨6⟩ w f [⟨6⟩, ⟨1⟩, ⟨0⟩, ⟨5⟩, ⟨4⟩] [⟨1⟩] [⟨3⟩] ∧
      ∃ enough, ∀ fuel ≥ enough,
        (∃ n w' f', w.next fuel f = .node n w' f' ∧ threeParagraphs.Below ⟨6⟩ n ∧
          n ∉ [⟨6⟩, ⟨1⟩, ⟨0⟩, ⟨5⟩, ⟨4⟩]) ∨
          ∃ w' f', w.next fuel f = .finished w' f' ∧
            ∀ m, threeParagraphs.Below ⟨6⟩ m → ¬ (threeParagraphs.kind m).isPart →
              (∀ r ∈ [⟨1⟩], ¬ threeParagraphs.Below r m) →
              (List.count m [⟨6⟩, ⟨1⟩, ⟨0⟩, ⟨5⟩, ⟨4⟩] = 1 ↔
                ∀ s ∈ [⟨3⟩], ¬ threeParagraphs.Below s m) := by
  obtain ⟨w, f, hprunes⟩ := prunes_threeParagraphs
  exact ⟨w, f, hprunes, (Prunes.handed_out_once_iff strict_threeParagraphs hprunes).2.2⟩

end Walker

end DocFilter
