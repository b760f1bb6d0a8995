import DocFilter.Proofs.Walk.Ahead

/-!
# Walking a tree that grows

A walk in which nodes are added between two steps, to the children of the present node, of the nodes above
it, or of any other node of the tree.

* `Walker.Grows` is such a walk, with an account of the nodes handed out, added and set back.
* `Walker.Tally` is the invariant: a node is met once, and once more for each time that it or a node above it
  was set back.  `Walker.Tally.next` and `Walker.Tally.add` are the steps, `Walker.Grows.tally` the walk.
* `Walker.Tally.onward`, `Walker.Tally.length_le` and `Walker.Tally.length_le_of_few` say what follows: the
  walk goes on or finishes, and how many nodes it has handed out.
-/

namespace DocFilter

namespace Walker

open Forest

variable {f f' f'' f₀ : Forest} {w w' : Walker} {root n m p x s : NodeId} {fuel : Nat}
  {order xs pre post seen added back parts : List NodeId} {frames : List Frame}

/-! ## The walk -/

/-- There are more nodes, and the old ones are as they were. -/
structure Extends (f f' : Forest) : Prop where
  grows : f.size ≤ f'.size
  kept : ∀ m, f.Has m → f'.cell m = f.cell m

/-- Nodes are made, and trees apart from the tree are added to nodes of the tree, in some places.  The lists
are the nodes that were added, and those that come back to lie ahead of the frames. -/
inductive Inserts (root : NodeId) (frames : List Frame) :
    Forest → (added back : List NodeId) → Forest → Prop where
  | nil (f : Forest) : Inserts root frames f [] [] f
  | make {f f' f'' : Forest} {added back : List NodeId} : Extends f f' →
      Inserts root frames f' added back f'' → Inserts root frames f added back f''
  | add {f f' f'' : Forest} {p x : NodeId} {xs added back : List NodeId} : f.Below root p →
      Apart f root x → f.Lists [x] xs → Adds f p x f' → Inserts root frames f' added back f'' →
      Inserts root frames f (xs ++ added) (setBack f f' frames ++ back) f''

/-- A walk in which nodes are made and added between two steps.  The lists are the nodes handed out, added
and set back so far. -/
inductive Grows (f₀ : Forest) (root : NodeId) :
    Walker → Forest → (seen added back : List NodeId) → Prop where
  | start : Grows f₀ root (.of root) f₀ [] [] []
  | turn {w w' : Walker} {f f' f'' : Forest} {n : NodeId} {fuel : Nat}
      {seen added back added' back' : List NodeId} :
      Grows f₀ root w f seen added back → w.next fuel f = .node n w' f' →
      Inserts root w'.frames f' added' back' f'' →
      Grows f₀ root w' f'' (seen ++ [n]) (added ++ added') (back ++ back')

/-! ## The account -/

/-- How often a node was met and has still to be met. -/
noncomputable def meetings (w : Walker) (f : Forest) (seen parts : List NodeId) (m : NodeId) : Nat :=
  (seen ++ parts).count m + f.countAbove (ahead w f) m

/-- Where a walk over a growing tree stands: a node that was there at the beginning is met once, and once
more for each time that it or a node above it was set back, and a node that was added is not met more often
than that. -/
structure Tally (f₀ : Forest) (root : NodeId) (order : List NodeId) (w : Walker) (f : Forest)
    (seen added back parts : List NodeId) : Prop where
  strict : f.Strict root
  standing : Standing f root w seen parts
  met : ∀ m ∈ seen ++ parts, f.Below root m
  are_parts : ∀ m ∈ parts, (f.kind m).isPart
  kinds : ∀ m ∈ order, f.kind m = f₀.kind m
  first : ∀ m ∈ order, f.Below root m
  upward : ∀ m ∈ order, ∀ s, f.Below root s → f.Below s m → s ∈ order
  back_below : ∀ s ∈ back, f.Below root s
  count_eq : ∀ m ∈ order, meetings w f seen parts m = 1 + f.countAbove back m
  count_le : ∀ m, f.Below root m → meetings w f seen parts m ≤ 1 + f.countAbove back m
  size : ∃ whole, f.Lists [root] whole ∧ whole.length = order.length + added.length
  back_le : back.length ≤ added.length

theorem Tally.start (horder : f₀.Lists [root] order) (hstrict : f₀.Strict root) :
    Tally f₀ root order (.of root) f₀ [] [] [] [] := by
  have hmeetings : ∀ m, f₀.Below root m → meetings (.of root) f₀ [] [] m = 1 := fun m hm => by
    have hahead : ahead (.of root) f₀ = [root] := rfl
    rw [meetings, hahead, countAbove_singleton_of_below hm]
    rfl
  exact {
    strict := hstrict
    standing := .start rfl rfl rfl
    met := by simp
    are_parts := by simp
    kinds := fun _ _ => rfl
    first := fun m hm => horder.mem_singleton_iff.mp hm
    upward := fun m hm s hs _ => horder.mem_singleton_iff.mpr hs
    back_below := by simp
    count_eq := fun m hm => by simp [hmeetings m (horder.mem_singleton_iff.mp hm)]
    count_le := fun m hm => by simp [hmeetings m hm]
    size := ⟨order, horder, rfl⟩
    back_le := Nat.le_refl _ }

/-- The account stands where the tree is as it was and every node is met as often. -/
theorem Tally.congr {seen' parts' : List NodeId} (h : Tally f₀ root order w f seen added back parts)
    (hsame : ∀ m, f.Below root m → f'.children m = f.children m)
    (hkind : ∀ m, f.Below root m → f'.kind m = f.kind m) (hgrows : f.size ≤ f'.size)
    (hstanding : Standing f' root w' seen' parts') (hmet : ∀ m ∈ seen' ++ parts', f.Below root m)
    (hparts : ∀ m ∈ parts', (f.kind m).isPart)
    (hmeetings : (∀ ns : List NodeId, (∀ s ∈ ns, f.Below root s) → ∀ m,
        f'.countAbove ns m = f.countAbove ns m) →
      ∀ m, meetings w' f' seen' parts' m = meetings w f seen parts m) :
    Tally f₀ root order w' f' seen' added back parts' := by
  have hbelow : ∀ s, f.Below root s → ∀ m, f'.Below s m ↔ f.Below s m := fun s hs m =>
    (h.strict.of_below hs).below_congr fun k hk => hsame k (hs.trans hk)
  have hroot : ∀ m, f'.Below root m ↔ f.Below root m := hbelow root (.refl root)
  have hcount : ∀ ns : List NodeId, (∀ s ∈ ns, f.Below root s) → ∀ m,
      f'.countAbove ns m = f.countAbove ns m := fun ns hns m =>
    countAbove_congr fun s hs => hbelow s (hns s hs) m
  obtain ⟨whole, hwhole, hsize⟩ := h.size
  exact {
    strict := h.strict.congr hsame hgrows
    standing := hstanding
    met := fun m hm => (hroot m).mpr (hmet m hm)
    are_parts := fun m hm => by
      rw [hkind m (hmet m (List.mem_append_right seen' hm))]
      exact hparts m hm
    kinds := fun m hm => (hkind m (h.first m hm)).trans (h.kinds m hm)
    first := fun m hm => (hroot m).mpr (h.first m hm)
    upward := fun m hm s hs hsm =>
      have hs := (hroot s).mp hs
      h.upward m hm s hs ((hbelow s hs m).mp hsm)
    back_below := fun s hs => (hroot s).mpr (h.back_below s hs)
    count_eq := fun m hm => by rw [hmeetings hcount, hcount back h.back_below, h.count_eq m hm]
    count_le := fun m hm => by
      rw [hmeetings hcount, hcount back h.back_below]
      exact h.count_le m ((hroot m).mp hm)
    size := ⟨whole, hwhole.congr fun m hm => hsame m (hwhole.mem_singleton_iff.mp hm), hsize⟩
    back_le := h.back_le }

/-- Nodes that are made are no matter. -/
theorem Tally.make (h : Tally f₀ root order w f seen added back parts) (hextends : Extends f f') :
    Tally f₀ root order w f' seen added back parts := by
  have hcell : ∀ m, f.Below root m → f'.cell m = f.cell m := fun m hm =>
    hextends.kept m (h.strict.has hm)
  have hsame : ∀ m, f.Below root m → f'.children m = f.children m := fun m hm =>
    congrArg Cell.children (hcell m hm)
  obtain ⟨hstanding, hahead⟩ := h.standing.congr h.strict hsame fun m hm =>
    congrArg Cell.replacement (hcell m hm)
  refine h.congr hsame (fun m hm => congrArg Cell.kind (hcell m hm)) hextends.grows hstanding h.met
    h.are_parts fun hcount m => ?_
  rw [meetings, meetings, hahead, hcount _ fun s => h.standing.ahead_below h.strict]

section Add

variable {met back : List NodeId}

/-- A node that was there has those above it as before, and none of them is new. -/
theorem Comes.meetings_old (h : Comes f p x met back (ahead w f) (ahead w f'))
    (hgrown : Grown f f' root p x pre post) (hstrict : f.Strict root) (hahead : ∀ s ∈ ahead w f, f.Below root s)
    (hm : f.Below root m) : meetings w f' seen parts m = meetings w f seen parts m + f'.countAbove back m := by
  rw [meetings, meetings]
  cases h with
  | back _ _ perm =>
    rw [countAbove_perm perm, countAbove_append, hgrown.countAbove_old hstrict hahead hm]
    omega
  | new none _ perm =>
    have hnew : ¬ f'.Below x m := fun hbelow =>
      hgrown.apart.disjoint m ((hgrown.below_own (.refl x)).mp hbelow) hm
    rw [none, countAbove_perm perm, countAbove_cons, countAbove_singleton_of_not_below hnew,
      hgrown.countAbove_old hstrict hahead hm]
    simp

/-- A node that is new has still to be met as often as the one that it was added to, and once more if that was met
and the new one is ahead. -/
theorem Comes.meetings_new (h : Comes f p x (seen ++ parts) back (ahead w f) (ahead w f'))
    (hgrown : Grown f f' root p x pre post) (hstrict : f.Strict root) (hahead : ∀ s ∈ ahead w f, f.Below root s)
    (hmet : ∀ m ∈ seen ++ parts, f.Below root m) (hm : f.Below x m) :
    meetings w f' seen parts m ≤ meetings w f seen parts p + f'.countAbove back m := by
  have hunmet : (seen ++ parts).count m = 0 :=
    List.count_eq_zero.mpr fun hmem => hgrown.apart.disjoint m hm (hmet m hmem)
  rw [meetings, meetings, hunmet]
  cases h with
  | back _ _ perm =>
    rw [countAbove_perm perm, countAbove_append, hgrown.countAbove_new hstrict hahead hm]
    omega
  | new none place perm =>
    have honce : 0 < (seen ++ parts).count p := List.count_pos_iff.mpr place
    have hown : f'.Below x m := (hgrown.below_own (.refl x)).mpr hm
    rw [none, countAbove_perm perm, countAbove_cons, countAbove_singleton_of_below hown,
      hgrown.countAbove_new hstrict hahead hm]
    simp only [countAbove_nil]
    omega

theorem Comes.length_le {before after : List NodeId} (h : Comes f p x met back before after) : back.length ≤ 1 := by
  cases h with
  | back one _ _ => exact one
  | new none _ _ => simp [none]

theorem Comes.below {before after : List NodeId} (h : Comes f p x met back before after)
    (hgrown : Grown f f' root p x pre post) : ∀ s ∈ back, f.Below root s := by
  cases h with
  | back _ children _ => exact fun s hs => hgrown.place.trans (.of_mem (children s hs))
  | new none _ _ => simp [none]

end Add

/-- A node that was there is met once more if it comes back, and a new one as often as the node that it was
added to has still to be met, and once more if that was met and the new one is ahead. -/
theorem Tally.add (h : Tally f₀ root order w f seen added back parts)
    (hgrown : Grown f f' root p x pre post) (hxs : f.Lists [x] xs) :
    Tally f₀ root order w f' seen (added ++ xs) (back ++ setBack f f' w.frames) parts := by
  have hroot : ∀ m, f'.Below root m ↔ f.Below root m ∨ f.Below x m := fun m =>
    hgrown.below_root_iff h.strict
  have hahead : ∀ s ∈ ahead w f, f.Below root s := fun s => h.standing.ahead_below h.strict
  have hcomes := h.standing.ahead_grown h.strict hgrown
  obtain ⟨whole, hwhole, hsize⟩ := h.size
  exact {
    strict := hgrown.strict h.strict
    standing := h.standing.grown hgrown
    met := fun m hm => (hroot m).mpr (.inl (h.met m hm))
    are_parts := fun m hm => by
      rw [hgrown.kind]
      exact h.are_parts m hm
    kinds := fun m hm => (hgrown.kind m).trans (h.kinds m hm)
    first := fun m hm => (hroot m).mpr (.inl (h.first m hm))
    upward := fun m hm s hs hsm => by
      have hfirst := h.first m hm
      rcases (hroot s).mp hs with hs | hs
      · rcases (hgrown.below_iff h.strict hs).mp hsm with hsm | ⟨-, hxm⟩
        · exact h.upward m hm s hs hsm
        · exact absurd hfirst (hgrown.apart.disjoint m hxm)
      · have hxm : f.Below x m := hs.trans ((hgrown.below_own hs).mp hsm)
        exact absurd hfirst (hgrown.apart.disjoint m hxm)
    back_below := fun s hs =>
      (hroot s).mpr (.inl ((List.mem_append.mp hs).elim (h.back_below s) (hcomes.below hgrown s)))
    count_eq := fun m hm => by
      rw [hcomes.meetings_old hgrown h.strict hahead (h.first m hm), h.count_eq m hm, countAbove_append,
        hgrown.countAbove_old h.strict h.back_below (h.first m hm), Nat.add_assoc]
    count_le := fun m hm => by
      rw [countAbove_append]
      rcases (hroot m).mp hm with hm | hm
      · rw [hcomes.meetings_old hgrown h.strict hahead hm, hgrown.countAbove_old h.strict h.back_below hm]
        have := h.count_le m hm
        omega
      · rw [hgrown.countAbove_new h.strict h.back_below hm]
        have := hcomes.meetings_new hgrown h.strict hahead h.met hm
        have := h.count_le p hgrown.place
        omega
    size := by
      obtain ⟨own, hown, hnodup, -⟩ := h.strict
      obtain rfl := hwhole.unique hown
      obtain ⟨whole', hwhole', hperm⟩ := hgrown.exists_order hxs hwhole hnodup
      refine ⟨whole', hwhole', ?_⟩
      rw [hperm.length_eq, List.length_append, List.length_append, hsize, Nat.add_assoc]
    back_le := by
      have hx : 0 < xs.length := List.length_pos_of_mem (hxs.mem_singleton_iff.mpr (.refl x))
      rw [List.length_append, List.length_append]
      exact Nat.add_le_add h.back_le (hcomes.length_le.trans hx) }

/-- All that happens between two steps. -/
theorem Tally.inserts {added' back' : List NodeId}
    (h : Tally f₀ root order w f seen added back parts)
    (hinserts : Inserts root w.frames f added' back' f') :
    Tally f₀ root order w f' seen (added ++ added') (back ++ back') parts := by
  induction hinserts generalizing added back with
  | nil => simpa using h
  | make hextends _ ih => exact ih (h.make hextends)
  | add hp hx hxs hadds _ ih =>
    obtain ⟨pre, post, hgrown⟩ := hadds.grown h.strict hp hx
    rw [← List.append_assoc, ← List.append_assoc]
    exact ih (h.add hgrown hxs)

/-! ## The next node -/

/-- What is met at a node and below it. -/
theorem countAbove_children (hstrict : f.Strict root) :
    f.countAbove [root] m = [root].count m + f.countAbove (f.children root) m := by
  obtain ⟨order, horder, hnodup, hhas⟩ := id hstrict
  obtain ⟨inner, hinner, rfl⟩ := lists_singleton_iff.mp horder
  rw [← horder.count_eq fun n hn => List.mem_singleton.mp hn ▸ hstrict,
    ← hinner.count_eq fun c hc => hstrict.of_below (.of_mem hc), ← List.count_append]
  rfl

/-- A walk that has handed out its root. -/
theorem Tally.open (h : Tally f₀ root order (.of root) f [] added back []) :
    Tally f₀ root order { root := root, started := true, pending := some root } f [root] added back
      [] := by
  refine h.congr (fun _ _ => rfl) (fun _ _ => rfl) (Nat.le_refl _)
    (.present root rfl rfl rfl (.inl rfl) .root (by simp)) (by simp [Below.refl]) (by simp)
    fun _ m => ?_
  have hbefore : ahead (.of root) f = [root] := rfl
  have hnow : ahead { root := root, started := true, pending := some root } f = f.children root :=
    ahead_root rfl rfl rfl
  rw [meetings, meetings, hbefore, hnow, countAbove_children h.strict]
  simp

/-- A node that is handed out, and the parts that were passed through, are met, and the rest lies ahead. -/
theorem Tally.arrive (h : Tally f₀ root order w f seen added back parts) (hstarted : w.started)
    (hroot : w.root = root) (hpending : w.pending = some x)
    (hmark : x = root ∨ f.replacement? x = none) (hdescent : Descent f root w.frames x)
    (hmet : ∀ y ∈ x :: w.frames.map Frame.node, y ∈ seen ++ parts)
    (hscans : Scans (w.descend f x).frames f (some (n, frames)) f') :
    ∃ passing, Tally f₀ root order { w.descend f x with frames := frames, pending := some n } f'
      (seen ++ [n]) added back (parts ++ passing) := by
  obtain ⟨hpoised, hplaces⟩ := hdescent.schedule h.strict hroot hmark
  have hframes : ∀ frame ∈ (w.descend f x).frames, f.Below root frame.node :=
    fun _ => hpoised.below_of_mem
  have hahead_below : ∀ s ∈ ahead w f, f.Below root s := fun s => h.standing.ahead_below h.strict
  have hnow : ahead w f = agenda f (w.descend f x).frames := by rw [ahead, hpending]
  obtain ⟨whole, hwhole, -⟩ := h.size
  obtain ⟨todo, htodo⟩ := exists_agenda hwhole hframes
  obtain ⟨passing, inner, after, hsplit, hparts, -, hinner, hafter, hentered⟩ := hscans.split htodo
  have hunmarked := hscans.found.1
  have hsame : ∀ m, f'.children m = f.children m := hscans.children
  have hfound : Descent f' root frames n := hscans.descent hpoised
  have hleads : Descent f root frames n := hfound.congr fun m _ => (hsame m).symm
  have htodo_below : ∀ m ∈ todo, f.Below root m := fun m hm => by
    obtain ⟨s, hs, hbelow⟩ := htodo.mem_iff.mp hm
    exact (hahead_below s (hnow ▸ hs)).trans hbelow
  have hlater : ahead { w.descend f x with frames := frames, pending := some n } f' =
      f.children n ++ agenda f' frames := hscans.ahead_found hpoised h.strict (by simpa using hroot) rfl rfl
  have hlater_below : ∀ s ∈ f.children n ++ agenda f' frames, f.Below root s := fun s hs => by
    refine htodo_below s ?_
    have hmem := (hinner.append hafter).mem_of_mem hs
    simp [hsplit, List.mem_append.mp hmem]
  refine ⟨passing, h.congr (fun m _ => hsame m) (fun m _ => hscans.kind m) hscans.size.ge
    (.present n (by simpa using hstarted) (by simpa using hroot) rfl (.inr hunmarked) hfound ?_) ?_ ?_
    fun hcount m => ?_⟩
  · refine List.forall_mem_cons.mpr ⟨by simp, List.forall_mem_map.mpr fun frame hframe => ?_⟩
    rcases hentered frame hframe with ⟨old, hold, heq⟩ | hpassed
    · have hknown := hmet _ (hplaces old hold)
      rw [heq, List.mem_append] at hknown
      rcases hknown with hknown | hknown <;> simp [hknown]
    · simp [hpassed]
  · intro m hm
    simp only [List.mem_append, List.mem_singleton] at hm
    rcases hm with (hm | rfl) | (hm | hm)
    · exact h.met m (by simp [hm])
    · exact hleads.leads
    · exact h.met m (by simp [hm])
    · exact htodo_below m (by simp [hsplit, hm])
  · exact fun m hm => (List.mem_append.mp hm).elim (h.are_parts m) (hparts m)
  · have hbefore := htodo.count_eq (m := m) fun s hs => h.strict.of_below (hahead_below s (hnow ▸ hs))
    have hafterwards := (hinner.append hafter).count_eq (m := m)
      fun s hs => h.strict.of_below (hlater_below s hs)
    rw [meetings, meetings, hlater, hcount _ hlater_below, hnow, ← hbefore, ← hafterwards, hsplit]
    simp only [List.count_append, List.count_cons, List.count_nil]
    omega

/-- One more node is handed out. -/
theorem Tally.next (h : Tally f₀ root order w f seen added back parts)
    (hnext : w.next fuel f = .node n w' f') :
    ∃ parts', Tally f₀ root order w' f' (seen ++ [n]) added back parts' := by
  cases h.standing with
  | start hw hseen hparts =>
    subst hw hseen hparts
    rw [next_start] at hnext
    cases hnext
    exact ⟨[], h.open⟩
  | present x hstarted hroot hpending hmark hdescent hmet =>
    rw [scan_next hstarted hroot hpending hmark] at hnext
    obtain ⟨found, g, hscans, hfound⟩ := scans_of_advance (by rw [hnext]; simp)
    rw [hnext] at hfound
    cases found with
    | none => cases hfound
    | some found =>
      cases hfound
      obtain ⟨passing, harrived⟩ := h.arrive hstarted hroot hpending hmark hdescent hmet hscans
      exact ⟨_, harrived⟩

/-- A node that is handed out bears no mark, unless it is the root. -/
theorem Tally.unmarked (h : Tally f₀ root order w f seen added back parts)
    (hnext : w.next fuel f = .node n w' f') : n = root ∨ f'.replacement? n = none := by
  cases h.standing with
  | start hw _ _ =>
    subst hw
    rw [next_start] at hnext
    cases hnext
    exact .inl rfl
  | present x hstarted _ _ _ _ _ => exact .inr (arrived_of_next hstarted hnext).2.2

/-- Every walk over a growing tree has an account. -/
theorem Grows.tally (horder : f₀.Lists [root] order) (hstrict : f₀.Strict root)
    (h : Grows f₀ root w f seen added back) : ∃ parts, Tally f₀ root order w f seen added back parts := by
  induction h with
  | start => exact ⟨[], .start horder hstrict⟩
  | turn _ hnext hinserts ih =>
    obtain ⟨parts, htally⟩ := ih
    obtain ⟨parts', htally'⟩ := htally.next hnext
    exact ⟨parts', htally'.inserts hinserts⟩

/-! ## What a walk comes to -/

/-- A walk that has handed out all it can has handed out a node that was there once, and once more for each
time that it or a node above it was set back. -/
theorem Tally.count_of_done (h : Tally f₀ root order w f seen added back parts)
    (hdone : ∀ m, f.Below root m → ¬ (f.kind m).isPart → f.countAbove (ahead w f) m = 0)
    (hm : m ∈ order) (hpart : ¬ (f₀.kind m).isPart) : seen.count m = 1 + f.countAbove back m := by
  have hkind : ¬ (f.kind m).isPart := by rwa [h.kinds m hm]
  have hparts : parts.count m = 0 := List.count_eq_zero.mpr fun hmem => hkind (h.are_parts m hmem)
  have hcount := h.count_eq m hm
  rw [meetings, hdone m (h.first m hm) hkind, List.count_append, hparts] at hcount
  exact hcount

/-- With enough fuel a walk over a growing tree hands out one more node, or it finishes. -/
theorem Tally.onward (h : Tally f₀ root order w f seen added back parts) :
    ∃ enough, (∃ n w' f', f.Below root n ∧ ∀ fuel ≥ enough, w.next fuel f = .node n w' f') ∨
      ∃ w' f', (∀ fuel ≥ enough, w.next fuel f = .finished w' f') ∧
        ∀ m ∈ order, ¬ (f₀.kind m).isPart → seen.count m = 1 + f.countAbove back m := by
  cases h.standing with
  | start hw hseen hparts =>
    subst hw
    exact ⟨0, .inl ⟨root, _, _, .refl root, fun fuel _ => next_start⟩⟩
  | present x hstarted hroot hpending hmark hdescent hmet =>
    obtain ⟨hpoised, -⟩ := hdescent.schedule h.strict hroot hmark
    have hnow : ahead w f = agenda f (w.descend f x).frames := by rw [ahead, hpending]
    obtain ⟨whole, hwhole, -⟩ := h.size
    obtain ⟨todo, htodo⟩ := exists_agenda hwhole fun _ => hpoised.below_of_mem
    obtain ⟨found, f', hscans⟩ := exists_scans htodo
    obtain ⟨enough, henough⟩ := advance_of_scans hscans
    have hnext : ∀ fuel ≥ enough, w.next fuel f =
        ({ w.descend f x with pending := none } : Walker).visit found f' := fun fuel hfuel => by
      rw [scan_next hstarted hroot hpending hmark, henough fuel hfuel]
    have hbelow : ∀ m ∈ todo, f.Below root m := fun m hm => by
      obtain ⟨s, hs, hsm⟩ := htodo.mem_iff.mp hm
      exact (h.standing.ahead_below h.strict (hnow ▸ hs)).trans hsm
    cases found with
    | none =>
      refine ⟨enough, .inr ⟨_, _, hnext, fun m hm hpart => h.count_of_done (fun k hk hkind => ?_) hm hpart⟩⟩
      rw [hnow, countAbove_eq_zero_iff]
      exact fun s hs hsk => hkind (hscans.all_parts htodo k (htodo.mem_iff.mpr ⟨s, hs, hsk⟩))
    | some found =>
      obtain ⟨passing, inner, after, hsplit, -⟩ := hscans.split htodo
      exact ⟨enough, .inl ⟨found.1, _, _, hbelow _ (by simp [hsplit]), hnext⟩⟩

/-- As many nodes have been handed out as the tree has, and as many again for each that was set back, at
most. -/
theorem Tally.length_le (h : Tally f₀ root order w f seen added back parts) :
    seen.length ≤ (1 + back.length) * (order.length + added.length) := by
  obtain ⟨whole, hwhole, hsize⟩ := h.size
  obtain ⟨own, hown, hnodup, -⟩ := h.strict
  obtain rfl := hwhole.unique hown
  have hsub : seen.Subperm (List.replicate (1 + back.length) whole).flatten := by
    refine List.subperm_ext_iff.mpr fun m hm => ?_
    have hbelow : f.Below root m := h.met m (by simp [hm])
    have hcount := h.count_le m hbelow
    have hback : f.countAbove back m ≤ back.length := countAbove_le_length
    rw [meetings, List.count_append] at hcount
    rw [List.count_flatten, List.map_replicate, List.sum_replicate_nat,
      List.count_eq_one_of_mem hnodup (hwhole.mem_singleton_iff.mpr hbelow)]
    omega
  have hlength := hsub.length_le
  rwa [List.length_flatten, List.map_replicate, List.sum_replicate_nat, hsize] at hlength

/-- If no node that was there at the beginning is set back, each of them is handed out once at most, and
there is a bound for walks that add so many nodes for each of them that they hand out. -/
theorem Tally.length_le_of_few {k : Nat} (h : Tally f₀ root order w f seen added back parts)
    (hback : ∀ s ∈ back, s ∉ order) (hfew : added.length ≤ k * seen.countP (· ∈ order)) :
    seen.length ≤ (1 + k * order.length) * (order.length + k * order.length) := by
  have honce : (seen.filter (· ∈ order)).Nodup := by
    rw [List.nodup_iff_count_le_one]
    intro m
    by_cases hm : m ∈ order
    · have hnone : f.countAbove back m = 0 := countAbove_eq_zero_iff.mpr fun s hs hsm =>
        hback s hs (h.upward m hm s (h.back_below s hs) hsm)
      have hcount := h.count_eq m hm
      have hfilter := (List.filter_sublist (p := (· ∈ order)) (l := seen)).count_le m
      rw [meetings, List.count_append, hnone] at hcount
      omega
    · have hnot : m ∉ seen.filter (· ∈ order) := by simp [hm]
      rw [List.count_eq_zero.mpr hnot]
      exact Nat.zero_le 1
  have hseen : seen.countP (· ∈ order) ≤ order.length := by
    rw [List.countP_eq_length_filter]
    exact (honce.subperm fun m hm => by simpa using (List.mem_filter.mp hm).2).length_le
  have hadded : added.length ≤ k * order.length := hfew.trans (Nat.mul_le_mul_left k hseen)
  exact h.length_le.trans (Nat.mul_le_mul (Nat.add_le_add_left (h.back_le.trans hadded) 1)
    (Nat.add_le_add_left hadded order.length))

end Walker

end DocFilter
