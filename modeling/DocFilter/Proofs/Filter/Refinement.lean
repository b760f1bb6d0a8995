import DocFilter.Proofs.Filter.Turn

/-!
# The loop and the recursion

A filter run is meant to visit what the recursion visits.  It does so exactly as long as the marks of
replacement lead it there.

* `Filter.Turns` are the turns of a run.
* `Filter.Turns.guides_of_steady` says that the marks lead the loop if no visit marks another old node anew and
  none puts a marked node in the place.
* `Filter.Agrees` and `Filter.Meets` say that after a turn the loop goes on as the recursion does, for so many
  visits; `Filter.agrees_of_guides` and `Filter.Turns.meets` are the two inductions over a run.
* `Filter.runs_as_recursion_iff` is the comparison of whole runs.
-/

namespace DocFilter

namespace Filter

open Forest Walker

variable {σ : Type} {rules : List (Selector × Rule σ)} {steps visits : Nat} {f : Forest}
  {root x x₀ n : NodeId} {w w' : Walker} {c₀ c c' d d' : Context σ}
  {out : Option (NodeId × Walker)} {current : Option NodeId}

/-- A run comes to dispatch a node, with that walker, and the rules take the first context to the second
one and let the run go on. -/
inductive Turns (rules : List (Selector × Rule σ)) (root : NodeId) (c₀ : Context σ) :
    Walker → NodeId → Context σ → Context σ → Prop where
  | first {steps : Nat} {w : Walker} {n : NodeId} {c c' : Context σ} :
      (next steps (.of root) none).run c₀ = (.ok (some n, w), c) →
      (dispatch n rules).run c = (.ok false, c') → Turns rules root c₀ w n c c'
  | later {steps : Nat} {w w' : Walker} {x n : NodeId} {c c' d d' : Context σ} :
      Turns rules root c₀ w x c c' → (next steps w (some x)).run c' = (.ok (some n, w'), d) →
      (dispatch n rules).run d = (.ok false, d') → Turns rules root c₀ w' n d d'

/-! ## The beginning -/

/-- The walker that has handed out its root. -/
def opened (root : NodeId) : Walker := { root := root, started := true, pending := some root }

theorem next_begin :
    (next steps (.of root) none).run c₀ = (.ok (some root, opened root), entering root c₀) := by
  have hmark : ∀ x, none = some x → c₀.forest.replacement? x = none := fun _ hnone => by cases hnone
  rw [next_of_unmarked hmark, next_start]
  rfl

theorem stands_begin (hstrict : c₀.forest.Strict root) (hheld : c₀.forest.holder? root = none)
    (hmark : c₀.forest.replacement? root = none) :
    Stands root (opened root) (entering root c₀).forest root root where
  started := rfl
  root_eq := rfl
  pending := rfl
  strict := hstrict
  path := .root
  unmarked := hmark
  held := hheld
  at_root := fun _ => rfl
  not_root := fun hno => absurd rfl hno
  tame := fun p hp => by cases hp

/-! ## The next turn -/

/-- A run with more steps goes on in the same way. -/
theorem next_stable {found : Option NodeId × Walker} (h : (next steps w current).run c = (.ok found, d)) :
    ∃ enough, ∀ more ≥ enough, (next more w current).run c = (.ok found, d) := by
  obtain ⟨x, r, rfl, hmark⟩ | hmark := marked_or current c.forest
  · refine ⟨0, fun more _ => ?_⟩
    rw [next_of_replaced hmark] at h ⊢
    exact h
  · rw [next_of_unmarked hmark] at h
    have hfuel : w.next steps c.forest ≠ .exhausted := fun hno => by
      rw [hno] at h
      cases h
    obtain ⟨enough, henough⟩ := Walker.next_stable hfuel
    refine ⟨enough, fun more hmore => ?_⟩
    rw [next_of_unmarked hmark, henough more hmore, h]

/-- Two runs that both have steps enough go on in the same way. -/
theorem next_unique {found found' : Option NodeId × Walker} {more : Nat}
    (h : (next steps w current).run c = (.ok found, d)) (h' : (next more w current).run c = (.ok found', d')) :
    found = found' ∧ d = d' := by
  obtain ⟨enough, henough⟩ := next_stable h
  obtain ⟨enough', henough'⟩ := next_stable h'
  have hsame := (henough (max enough enough') (by omega)).symm.trans
    (henough' (max enough enough') (by omega))
  cases hsame
  exact ⟨rfl, rfl⟩

/-- A turn comes to one node and leaves one context. -/
theorem turn_unique {m : NodeId} {v : Walker} {e e' : Context σ} {more : Nat}
    (hnext : (next steps w current).run c = (.ok (some n, w'), d))
    (hdispatch : (dispatch n rules).run d = (.ok false, d'))
    (hnext' : (next more w current).run c = (.ok (some m, v), e))
    (hdispatch' : (dispatch m rules).run e = (.ok false, e')) : n = m ∧ d = e ∧ d' = e' ∧ w' = v := by
  obtain ⟨hfound, rfl⟩ := next_unique hnext hnext'
  cases hfound
  rw [hdispatch] at hdispatch'
  cases hdispatch'
  exact ⟨rfl, rfl, rfl, rfl⟩

/-- What the loop comes to is what it does come to. -/
theorem Loops.eq_of_next (h : Loops w current c' out d)
    (hnext : (next steps w current).run c' = (.ok (some n, w'), d')) : out = some (n, w') ∧ d = d' := by
  cases out with
  | none =>
    obtain ⟨enough, henough⟩ := h
    obtain ⟨w'', hnone⟩ := henough enough (Nat.le_refl _)
    have hsame := (next_unique hnext hnone).1
    cases hsame
  | some out =>
    obtain ⟨enough, henough⟩ := h
    obtain ⟨hsame, rfl⟩ := next_unique hnext (henough enough (Nat.le_refl _))
    cases hsame
    exact ⟨rfl, rfl⟩

/-! ## Visits that leave marks alone -/

/-- A visit that changes the mark of no other node, and puts only a node in the place that bears none. -/
structure Steady (x : NodeId) (f f' : Forest) : Prop where
  kept : ∀ m r, m ≠ x → f.replacement? m = some r → f'.replacement? m = some r
  unmarked : ∀ r, f'.replacement? x = some r → f'.replacement? r = none

/-- The chain from the node that the walker handed out last leads to the present one, which bears no
mark. -/
def Chained (w : Walker) (f : Forest) (x : NodeId) : Prop :=
  f.replacement? x = none ∧ ∃ x₀, w.pending = some x₀ ∧ f.Leads x₀ x

theorem Chained.guides {f' : Forest} (h : Chained w f x) (hsteady : Steady x f f') :
    Guides w f' x := by
  obtain ⟨-, x₀, hpending, hleads⟩ := h
  have hlast : f'.replacement? x = none → ∀ y, w.pending = some y →
      f'.settles y ∧ f'.finalReplacement y = x := by
    intro hmark y hy
    rw [hpending] at hy
    cases hy
    exact (hleads.of_kept hsteady.kept).finalReplacement hmark
  exact {
    replaced := hsteady.unmarked
    settled := fun hmark y hy => (hlast hmark y hy).1
    comes := fun hmark _ _ y hy => (hlast hmark y hy).2 }

/-- One turn: the chain leads to the next node. -/
theorem Chained.next {steps : Nat} (h : Chained w c.forest x) (hstarted : w.started)
    (hsteady : Steady x c.forest c'.forest)
    (hnext : (next steps w (some x)).run c' = (.ok (some n, w'), d)) :
    w'.started ∧ Chained w' d.forest n := by
  obtain ⟨-, x₀, hpending, hleads⟩ := h
  cases hmark : c'.forest.replacement? x with
  | none =>
    rw [next_of_current hmark] at hnext
    cases hwalk : w.next steps c'.forest with
    | node m v f =>
      rw [hwalk] at hnext
      cases hnext
      obtain ⟨hstarted', hlast, hnone⟩ := arrived_of_next hstarted hwalk
      exact ⟨hstarted', hnone, _, hlast, 0, rfl⟩
    | finished v f =>
      rw [hwalk] at hnext
      cases hnext
    | exhausted =>
      rw [hwalk] at hnext
      cases hnext
  | some r =>
    have hr := hsteady.unmarked r hmark
    have hfinal := finalReplacement_of_some hmark hr
    rw [next_of_replaced hmark, hfinal] at hnext
    split at hnext
    · cases hnext
    · split at hnext
      · cases hnext
      · cases hnext
        obtain ⟨k, hk⟩ := hleads.of_kept hsteady.kept
        refine ⟨hstarted, hr, x₀, hpending, k + 1, ?_⟩
        rw [follow_last, hk, hmark]
        rfl

/-- A run in which no visit marks another old node anew, and none puts a marked node in the place, is led
by the marks at each turn. -/
theorem Turns.guides_of_steady (hmark : c₀.forest.replacement? root = none)
    (hsteady : ∀ w n c c', Turns rules root c₀ w n c c' → Steady n c.forest c'.forest)
    (h : Turns rules root c₀ w x c c') : Guides w c'.forest x := by
  have hchained : w.started ∧ Chained w c.forest x := by
    induction h with
    | first hnext _ =>
      rw [next_begin] at hnext
      cases hnext
      exact ⟨rfl, hmark, root, rfl, 0, rfl⟩
    | later hturn hnext _ ih => exact ih.2.next ih.1 (hsteady _ _ _ _ hturn) hnext
  exact hchained.2.guides (hsteady _ _ _ _ h)

/-! ## From the marks to the runs -/

/-- With enough steps and fuel the loop goes on after a turn as the recursion does, for so many visits. -/
def Agrees (rules : List (Selector × Rule σ)) (visits : Nat) (w : Walker) (x : NodeId)
    (c c' : Context σ) : Prop :=
  ∃ enough, ∀ steps ≥ enough, ∀ fuel ≥ enough, ∀ tasks, Funded c.forest enough w.frames tasks →
    trail rules steps visits w (some x) c' =
      (proceed rules fuel visits (place w.frames) x c').andThen visits (resume rules tasks)

/-- The loop agrees with a recursion that finishes. -/
theorem Onward.agrees_finished (h : Onward rules root w c.forest x c' none d)
    (hguides : Guides w c'.forest x) : Agrees rules visits w x c c' := by
  obtain ⟨enough, hloops⟩ := h.loops hguides
  obtain ⟨cost, hproceeds⟩ := h.proceeds
  refine ⟨max enough cost, fun steps hsteps fuel hfuel tasks hfunded => ?_⟩
  obtain ⟨w', hnone⟩ := hloops steps (by omega)
  rw [trail_of_none hnone, hproceeds fuel visits tasks (by omega) (hfunded.weaken (by omega))]

/-- Without visits the loop and the recursion stop in front of the next node. -/
theorem Onward.agrees_no_visits (h : Onward rules root w c.forest x c' (some (n, w')) d)
    (hguides : Guides w c'.forest x) : Agrees rules 0 w x c c' := by
  obtain ⟨enough, hloops⟩ := h.loops hguides
  obtain ⟨cost, hproceeds⟩ := h.proceeds
  refine ⟨max enough cost, fun steps hsteps fuel hfuel tasks hfunded => ?_⟩
  obtain ⟨fuel', tasks', -, -, heq⟩ :=
    hproceeds 0 fuel 0 tasks (by omega) (hfunded.weaken (by omega))
  rw [heq, trail_no_visits (hloops steps (by omega)), visit_no_visits, Trail.andThen_cut]

/-- One turn: the loop agrees with the recursion if it does after the next turn. -/
theorem Onward.agrees (h : Onward rules root w c.forest x c' (some (n, w')) d)
    (hguides : Guides w c'.forest x)
    (hnext : ∀ d', (dispatch n rules).run d = (.ok false, d') → Agrees rules visits w' n d d') :
    Agrees rules (visits + 1) w x c c' := by
  obtain ⟨enough, hloops⟩ := h.loops hguides
  obtain ⟨cost, hproceeds⟩ := h.proceeds
  obtain ⟨rest, hrest⟩ : ∃ rest, ∀ d', (dispatch n rules).run d = (.ok false, d') →
      ∀ steps ≥ rest, ∀ fuel ≥ rest, ∀ tasks, Funded d.forest rest w'.frames tasks →
        trail rules steps visits w' (some n) d' =
          (proceed rules fuel visits (place w'.frames) n d').andThen visits (resume rules tasks) := by
    by_cases hfalse : ∃ d', (dispatch n rules).run d = (.ok false, d')
    · obtain ⟨d', hd'⟩ := hfalse
      obtain ⟨rest, hrest⟩ := hnext d' hd'
      refine ⟨rest, fun d'' hd'' => ?_⟩
      rw [hd'] at hd''
      cases hd''
      exact hrest
    · exact ⟨0, fun d' hd' => absurd ⟨d', hd'⟩ hfalse⟩
  refine ⟨max enough (rest + 1 + cost), fun steps hsteps fuel hfuel tasks hfunded => ?_⟩
  obtain ⟨fuel', tasks', hfuel', hfunded', heq⟩ :=
    hproceeds (rest + 1) fuel (visits + 1) tasks (by omega) (hfunded.weaken (by omega))
  obtain ⟨fuel', rfl⟩ : ∃ k, fuel' = k + 1 := ⟨fuel' - 1, by omega⟩
  rw [heq, trail_of_some (hloops steps (by omega)), visit_succ, dispatched_andThen]
  refine dispatched_congr fun d' hd' => ?_
  exact hrest d' hd' steps (by omega) fuel' (by omega) tasks' (hfunded'.weaken (by omega))

/-- If the marks lead the loop at each turn, then it agrees with the recursion after each turn, for any
number of visits. -/
theorem agrees_of_guides
    (hlocal : ∀ w n c c', Turns rules root c₀ w n c c' → Local root n c c')
    (hguides : ∀ w n c c', Turns rules root c₀ w n c c' → Guides w c'.forest n)
    (hturn : Turns rules root c₀ w x c c') (hstands : Stands root w c.forest x₀ x) :
    Agrees rules visits w x c c' := by
  induction visits generalizing w x x₀ c c' with
  | zero =>
    obtain ⟨_ | ⟨n, w'⟩, d, honward⟩ := hstands.onward (hlocal _ _ _ _ hturn)
    · exact honward.agrees_finished (hguides _ _ _ _ hturn)
    · exact honward.agrees_no_visits (hguides _ _ _ _ hturn)
  | succ visits ih =>
    obtain ⟨_ | ⟨n, w'⟩, d, honward⟩ := hstands.onward (hlocal _ _ _ _ hturn)
    · exact honward.agrees_finished (hguides _ _ _ _ hturn)
    · have hguide := hguides _ _ _ _ hturn
      obtain ⟨enough, hloops⟩ := honward.loops hguide
      obtain ⟨y₀, hstands'⟩ := honward.stands hguide n w' rfl
      refine honward.agrees hguide fun d' hd' => ?_
      exact ih (.later hturn (hloops enough (Nat.le_refl _)) hd') hstands'

/-! ## From the runs to the marks -/

/-- With enough steps the loop goes on after a turn as the recursion does with some fuel, and that as large
as one wants. -/
def Meets (rules : List (Selector × Rule σ)) (visits : Nat) (w : Walker) (x : NodeId)
    (c c' : Context σ) : Prop :=
  ∀ least, ∃ enough, ∀ steps ≥ enough, ∃ fuel ≥ least, ∃ tasks,
    Funded c.forest least w.frames tasks ∧
      trail rules steps visits w (some x) c' =
        (proceed rules fuel visits (place w.frames) x c').andThen visits (resume rules tasks)

/-- A loop that finishes at once has found no node. -/
theorem next_of_finished (h : trail rules steps (visits + 1) w current c = ⟨[], .finished c'⟩) :
    ∃ w' d, (next steps w current).run c = (.ok (none, w'), d) := by
  rcases hnext : (next steps w current).run c with ⟨e | ⟨_ | n, w'⟩, d⟩
  · rw [trail_of_error hnext] at h
    cases h
  · exact ⟨w', d, rfl⟩
  · have hhead := congrArg (·.seen.head?) h
    simp only [trail_of_some hnext, head_dispatched] at hhead
    cases hhead

/-- The first node of a trail is the one that the walker finds. -/
theorem next_of_head (h : (trail rules steps (visits + 1) w current c).seen.head? = some n) :
    ∃ w' d, (next steps w current).run c = (.ok (some n, w'), d) := by
  rcases hnext : (next steps w current).run c with ⟨e | ⟨_ | m, w'⟩, d⟩
  · rw [trail_of_error hnext] at h
    cases h
  · rw [trail_of_none hnext] at h
    cases h
  · rw [trail_of_some hnext, head_dispatched] at h
    cases h
    exact ⟨w', d, rfl⟩

/-- One visit more tells whether the marks lead the loop. -/
theorem Onward.guides (h : Onward rules root w c.forest x c' out d) (hmeets : Meets rules 1 w x c c') :
    Guides w c'.forest x := by
  by_contra hno
  obtain ⟨enough, hstrays⟩ := h.strays hno
  have hproceeds := h.proceeds
  cases out with
  | none =>
    obtain ⟨cost, hproceeds⟩ := hproceeds
    obtain ⟨enough', henough'⟩ := hmeets cost
    obtain ⟨fuel, hfuel, tasks, hfunded, heq⟩ := henough' (max enough enough') (by omega)
    rw [hproceeds fuel 1 tasks hfuel hfunded] at heq
    obtain ⟨w', d', hnext⟩ := next_of_finished heq
    exact hstrays _ (by omega) none w' d' hnext rfl
  | some out =>
    obtain ⟨n, w'⟩ := out
    obtain ⟨cost, hproceeds⟩ := hproceeds
    obtain ⟨enough', henough'⟩ := hmeets (1 + cost)
    obtain ⟨fuel, hfuel, tasks, hfunded, heq⟩ := henough' (max enough enough') (by omega)
    obtain ⟨fuel', tasks', hfuel', -, hvisit⟩ := hproceeds 1 fuel 1 tasks hfuel hfunded
    obtain ⟨fuel', rfl⟩ : ∃ k, fuel' = k + 1 := ⟨fuel' - 1, by omega⟩
    rw [hvisit, visit_succ] at heq
    obtain ⟨w'', d', hnext⟩ := next_of_head (heq ▸ Trail.head_andThen _ head_dispatched)
    exact hstrays _ (by omega) (some n) w'' d' hnext rfl

/-- One turn: the loop meets the recursion after the next turn too. -/
theorem Onward.meets (h : Onward rules root w c.forest x c' (some (n, w')) d)
    (hguides : Guides w c'.forest x) (hmeets : Meets rules (visits + 1) w x c c')
    (hd' : (dispatch n rules).run d = (.ok false, d')) : Meets rules visits w' n d d' := by
  intro least
  obtain ⟨enough, hloops⟩ := h.loops hguides
  obtain ⟨cost, hproceeds⟩ := h.proceeds
  obtain ⟨enough', henough'⟩ := hmeets (least + 1 + cost)
  refine ⟨max enough enough', fun steps hsteps => ?_⟩
  obtain ⟨fuel, hfuel, tasks, hfunded, heq⟩ := henough' steps (by omega)
  obtain ⟨fuel', tasks', hfuel', hfunded', hvisit⟩ :=
    hproceeds (least + 1) fuel (visits + 1) tasks hfuel hfunded
  obtain ⟨fuel', rfl⟩ : ∃ k, fuel' = k + 1 := ⟨fuel' - 1, by omega⟩
  rw [hvisit, trail_of_some (hloops steps (by omega)), visit_succ, dispatched_andThen] at heq
  exact ⟨fuel', by omega, tasks', hfunded'.weaken (by omega), onward_of_dispatched hd' heq⟩

/-- If whole runs agree, then at each turn the loop stands where it should and meets the recursion. -/
theorem Turns.meets (hbegin : ∃ x₀, Stands root (opened root) (entering root c₀).forest x₀ root)
    (hlocal : ∀ w n c c', Turns rules root c₀ w n c c' → Local root n c c')
    (hruns : ∀ visits, ∃ enough, ∀ steps ≥ enough, ∀ fuel ≥ enough,
      trail rules steps visits (.of root) none c₀ =
        visit rules fuel visits none root (entering root c₀))
    (h : Turns rules root c₀ w x c c') :
    (∃ x₀, Stands root w c.forest x₀ x) ∧ ∀ visits, Meets rules visits w x c c' := by
  induction h with
  | first hnext hdispatch =>
    rw [next_begin] at hnext
    cases hnext
    refine ⟨hbegin, fun visits least => ?_⟩
    obtain ⟨enough, henough⟩ := hruns (visits + 1)
    refine ⟨enough, fun steps hsteps => ⟨max enough least, by omega, [], .nil, ?_⟩⟩
    have heq := henough steps hsteps (max enough least + 1) (by omega)
    rw [trail_of_some (next_begin), visit_succ] at heq
    rw [andThen_resume_nil]
    exact onward_of_dispatched hdispatch heq
  | later hturn hnext hdispatch ih =>
    obtain ⟨⟨x₀, hstands⟩, hmeets⟩ := ih
    obtain ⟨out, d, honward⟩ := hstands.onward (hlocal _ _ _ _ hturn)
    have hguides := honward.guides (hmeets 1)
    obtain ⟨rfl, rfl⟩ := (honward.loops hguides).eq_of_next hnext
    exact ⟨honward.stands hguides _ _ rfl,
      fun visits => honward.meets hguides (hmeets (visits + 1)) hdispatch⟩

/-! ## Whole runs -/

/-- If the marks lead the loop at each turn of a run, then whole runs agree. -/
theorem trail_eq_visit (hstands : Stands root (opened root) (entering root c₀).forest x₀ root)
    (hlocal : ∀ w n c c', Turns rules root c₀ w n c c' → Local root n c c')
    (hguides : ∀ w n c c', Turns rules root c₀ w n c c' → Guides w c'.forest n) :
    ∃ enough, ∀ steps ≥ enough, ∀ fuel ≥ enough,
      trail rules steps visits (.of root) none c₀ =
        visit rules fuel visits none root (entering root c₀) := by
  cases visits with
  | zero =>
    refine ⟨0, fun steps _ fuel _ => ?_⟩
    rw [trail_no_visits (next_begin), visit_no_visits]
  | succ visits =>
    by_cases hfalse : ∃ c', (dispatch root rules).run (entering root c₀) = (.ok false, c')
    · obtain ⟨c', hc'⟩ := hfalse
      have hfirst : (next 0 (.of root) none).run c₀ = (.ok (some root, opened root), entering root c₀) :=
        next_begin
      have hagrees : Agrees rules visits (opened root) root (entering root c₀) c' :=
        agrees_of_guides hlocal hguides (.first hfirst hc') hstands
      obtain ⟨enough, henough⟩ := hagrees
      refine ⟨enough + 1, fun steps hsteps fuel hfuel => ?_⟩
      obtain ⟨fuel, rfl⟩ : ∃ k, fuel = k + 1 := ⟨fuel - 1, by omega⟩
      rw [trail_of_some (next_begin), visit_succ, dispatched_of_false hc',
        dispatched_of_false hc', henough steps (by omega) fuel (by omega) [] .nil,
        andThen_resume_nil]
      rfl
    · refine ⟨1, fun steps _ fuel hfuel => ?_⟩
      obtain ⟨fuel, rfl⟩ : ∃ k, fuel = k + 1 := ⟨fuel - 1, by omega⟩
      rw [trail_of_some (next_begin), visit_succ]
      exact dispatched_congr fun c' hc' => absurd ⟨c', hc'⟩ hfalse

/-- A filter run over a strict tree, with local visits, dispatches what the recursion dispatches and ends as
it does, on every prefix, exactly if the marks of replacement lead it there at each turn. -/
theorem runs_as_recursion_iff (hstrict : c₀.forest.Strict root)
    (hheld : c₀.forest.holder? root = none) (hmark : c₀.forest.replacement? root = none)
    (hlocal : ∀ w n c c', Turns rules root c₀ w n c c' → Local root n c c') :
    (∀ visits, ∃ enough, ∀ steps ≥ enough, ∀ fuel ≥ enough,
      trail rules steps visits (.of root) none c₀ =
          visit rules fuel visits none root (entering root c₀) ∧
        ∀ out, result? 0 (visit rules fuel visits none root (entering root c₀)) = some out →
          (visitAll rules steps (visits + 1) 0 (.of root) none).run c₀ = out) ↔
      ∀ w n c c', Turns rules root c₀ w n c c' → Guides w c'.forest n := by
  have hbegin := stands_begin hstrict hheld hmark
  constructor
  · intro hruns w n c c' hturn
    obtain ⟨⟨x₀, hstands⟩, hmeets⟩ := hturn.meets ⟨root, hbegin⟩ hlocal fun visits => by
      obtain ⟨enough, henough⟩ := hruns visits
      exact ⟨enough, fun steps hsteps fuel hfuel => (henough steps hsteps fuel hfuel).1⟩
    obtain ⟨out, d, honward⟩ := hstands.onward (hlocal _ _ _ _ hturn)
    exact honward.guides (hmeets 1)
  · intro hguides visits
    obtain ⟨enough, henough⟩ := trail_eq_visit hbegin hlocal hguides
    refine ⟨enough, fun steps hsteps fuel hfuel => ?_⟩
    have heq := henough steps hsteps fuel hfuel
    exact ⟨heq, fun out hout => visitAll_of_trail (by rw [heq, hout])⟩

/-! ## A node that is taken out of its wrapper -/

/-- Puts a node into a quote. -/
def quote : Action Unit := fun n => do
  modify fun c =>
    let (made, f) := c.forest.addLoose .blockQuote [] [n]
    { c with forest := (f.replaceWith n made).toOption.getD f }
  pure .proceed

/-- Puts what is in a quote in its place. -/
def unquote : Action Unit := fun n => do
  modify fun c =>
    let inside := (c.forest.children n).headD n
    { c with forest := (c.forest.replaceWith n inside).toOption.getD c.forest }
  pure .proceed

/-- Rules that quote each horizontal line and take out of each quote what is in it. -/
def quoting : List (Selector × Rule Unit) :=
  [(⟨"HorizontalRule", .kind .horizontalRule, []⟩, ⟨.null, quote⟩),
    (⟨"BlockQuote", .kind .blockQuote, []⟩, ⟨.null, unquote⟩)]

/-- A document with a line in it, before it is filtered. -/
def lined : Context Unit := begin { blocks := [.node .horizontalRule [] []] } "" ()

/-- The walker while it hands out what is directly below the document. -/
def underDocument : Walker :=
  { root := ⟨1⟩, frames := [⟨⟨1⟩, 1⟩], pending := some ⟨0⟩, started := true }

/-- The line has been entered. -/
def atLine : Context Unit := entering ⟨0⟩ (entering ⟨1⟩ lined)

/-- The line has been put into a quote. -/
def quoted : Context Unit := ((dispatch ⟨0⟩ quoting).run atLine).2

/-- The quote has been entered. -/
def atQuote : Context Unit := takingOver ⟨2⟩ quoted

/-- The line has been put in the place of its quote. -/
def unquoted : Context Unit := ((dispatch ⟨2⟩ quoting).run atQuote).2

theorem turns_quoting {w : Walker} {n : NodeId} {c c' : Context Unit}
    (h : Turns quoting ⟨1⟩ lined w n c c') :
    (n = ⟨1⟩ ∧ c = entering ⟨1⟩ lined ∧ c' = c ∧ w = opened ⟨1⟩) ∨
      (n = ⟨0⟩ ∧ c = atLine ∧ c' = quoted ∧ w = underDocument) ∨
      (n = ⟨2⟩ ∧ c = atQuote ∧ c' = unquoted ∧ w = underDocument) := by
  induction h with
  | first hnext hdispatch =>
    have hroot : (dispatch ⟨1⟩ quoting).run (entering ⟨1⟩ lined) =
        (.ok false, entering ⟨1⟩ lined) := rfl
    rw [next_begin] at hnext
    cases hnext
    rw [hroot] at hdispatch
    cases hdispatch
    exact .inl ⟨rfl, rfl, rfl, rfl⟩
  | later _ hnext hdispatch ih =>
    rcases ih with ⟨rfl, rfl, rfl, rfl⟩ | ⟨rfl, rfl, rfl, rfl⟩ | ⟨rfl, rfl, rfl, rfl⟩
    · have hline : (next 9 (opened ⟨1⟩) (some ⟨1⟩)).run (entering ⟨1⟩ lined) =
          (.ok (some ⟨0⟩, underDocument), atLine) := rfl
      have hquote : (dispatch ⟨0⟩ quoting).run atLine = (.ok false, quoted) := rfl
      exact .inr (.inl (turn_unique hnext hdispatch hline hquote))
    · have hquote : (next 9 underDocument (some ⟨0⟩)).run quoted =
          (.ok (some ⟨2⟩, underDocument), atQuote) := rfl
      have hunquote : (dispatch ⟨2⟩ quoting).run atQuote = (.ok false, unquoted) := rfl
      exact .inr (.inr (turn_unique hnext hdispatch hquote hunquote))
    · cases hnext

theorem strict_lined : lined.forest.Strict ⟨1⟩ := by
  have horder : lined.forest.order? 9 [⟨1⟩] = some [⟨1⟩, ⟨0⟩] := by decide
  exact ⟨_, lists_of_order? horder, by decide, by decide⟩

/-- At the document nothing is done. -/
theorem local_lined : Local ⟨1⟩ ⟨1⟩ (entering ⟨1⟩ lined) (entering ⟨1⟩ lined) :=
  ⟨by simp [entering], _, .refl rfl, .stays strict_lined fun _ hm hout => hout.2 hm⟩

/-- Quoting a line is a local visit. -/
theorem local_quoted : Local ⟨1⟩ ⟨0⟩ atLine quoted := by
  have horder : lined.forest.order? 9 [⟨1⟩] = some [⟨1⟩, ⟨0⟩] := by decide
  let made : Forest := (atLine.forest.addLoose .blockQuote [] [⟨0⟩]).2
  have hmade : made.order? 9 [⟨2⟩] = some [⟨2⟩, ⟨0⟩] := by decide
  have hin : ∀ m, made.Below ⟨2⟩ m → ¬ Outside atLine.forest ⟨1⟩ ⟨0⟩ m := by
    intro m hm hout
    have hmem := (lists_of_order? horder).mem_singleton_iff.mpr hout.1
    have hquote := (lists_of_order? hmade).mem_singleton_iff.mpr hm
    simp only [List.mem_cons, List.not_mem_nil, or_false] at hmem hquote
    rcases hquote with rfl | rfl
    · simp at hmem
    · exact hout.2 (.refl _)
  exact ⟨by decide, made, .add strict_lined (by decide) rfl rfl,
    .replaced (by decide) ⟨_, lists_of_order? hmade, by decide, by decide⟩ hin rfl⟩

/-- Quoting a line and taking it out again are local visits. -/
theorem local_quoting {w : Walker} {n : NodeId} {c c' : Context Unit}
    (h : Turns quoting ⟨1⟩ lined w n c c') : Local ⟨1⟩ n c c' := by
  rcases turns_quoting h with ⟨rfl, rfl, rfl, -⟩ | ⟨rfl, rfl, rfl, -⟩ | ⟨rfl, rfl, rfl, -⟩
  · exact local_lined
  · exact local_quoted
  · have hline : atQuote.forest.order? 9 [⟨0⟩] = some [⟨0⟩] := by decide
    have hin : ∀ m, atQuote.forest.Below ⟨0⟩ m → ¬ Outside atQuote.forest ⟨1⟩ ⟨2⟩ m := by
      intro m hm hout
      have hmem := (lists_of_order? hline).mem_singleton_iff.mpr hm
      rw [List.mem_singleton] at hmem
      rw [hmem] at hout
      exact hout.2 (.of_mem (by decide))
    exact ⟨by decide, _, .refl rfl,
      .replaced (by decide) ⟨_, lists_of_order? hline, by decide, by decide⟩ hin rfl⟩

/-- The recursion visits the line once more after its quote, and the loop does not: the line that is put in the place
of its quote is still marked as replaced by it. -/
theorem quoting_strays :
    lined.forest.Strict ⟨1⟩ ∧ (∀ w n c c', Turns quoting ⟨1⟩ lined w n c c' → Local ⟨1⟩ n c c') ∧
      ¬ ∀ visits, ∃ enough, ∀ steps ≥ enough, ∀ fuel ≥ enough,
        trail quoting steps visits (.of ⟨1⟩) none lined =
            visit quoting fuel visits none ⟨1⟩ (entering ⟨1⟩ lined) ∧
          ∀ out, result? 0 (visit quoting fuel visits none ⟨1⟩ (entering ⟨1⟩ lined)) = some out →
            (visitAll quoting steps (visits + 1) 0 (.of ⟨1⟩) none).run lined = out := by
  have horder : lined.forest.order? 9 [⟨1⟩] = some [⟨1⟩, ⟨0⟩] := by decide
  have hstrict : lined.forest.Strict ⟨1⟩ := ⟨_, lists_of_order? horder, by decide, by decide⟩
  refine ⟨hstrict, fun _ _ _ _ => local_quoting, fun hruns => ?_⟩
  have hguides := (runs_as_recursion_iff hstrict rfl rfl fun _ _ _ _ => local_quoting).mp hruns
  have hroot : Turns quoting ⟨1⟩ lined (opened ⟨1⟩) ⟨1⟩ (entering ⟨1⟩ lined) (entering ⟨1⟩ lined) :=
    .first (show (next 9 (.of ⟨1⟩) none).run lined = _ from next_begin) rfl
  have hline : Turns quoting ⟨1⟩ lined underDocument ⟨0⟩ atLine quoted :=
    .later hroot (show (next 9 (opened ⟨1⟩) (some ⟨1⟩)).run _ = _ from rfl) rfl
  have hquote : Turns quoting ⟨1⟩ lined underDocument ⟨2⟩ atQuote unquoted :=
    .later hline (show (next 9 underDocument (some ⟨0⟩)).run _ = _ from rfl) rfl
  have hmark := (hguides _ _ _ _ hquote).replaced ⟨0⟩ rfl
  cases hmark

end Filter

end DocFilter
