import DocFilter.Proofs.Filter.Visit

/-!
# One turn of a run

After a visit the loop asks for the next node, and the recursion goes on to a node of its own.  Both look
at the marks of replacement, at the frames and at the children, but not in the same way.

* `Filter.Guides` says that the marks lead the loop where the recursion goes.
* `Filter.Proceeds`, `Filter.Loops` and `Filter.Strays` say what the recursion and the loop come to.
* `Filter.course` are the frames from which both search, if no other node was put in the place.
* `Filter.Stands.onward` is the step: after each local visit the recursion comes to something, and the loop
  comes to the same if the marks lead it there, and to something else if they do not.
-/

namespace DocFilter

namespace Filter

open Forest Walker

variable {σ : Type} {rules : List (Selector × Rule σ)} {steps : Nat} {f f' f'' : Forest}
  {root x x₀ r n p : NodeId} {w w' : Walker} {frames frames' : List Frame} {c c' d : Context σ}
  {found : Found} {current : Option NodeId}

/-- The marks after a visit lead the loop where the recursion goes.  A node that was put in the place of
the present one was not replaced itself; if none was put there, then the chain from the node that the
walker handed out last comes to an end, and to the present node if that one is where it was.  A part may
be met again, since it is passed through. -/
structure Guides (w : Walker) (f : Forest) (x : NodeId) : Prop where
  replaced : ∀ r, f.replacement? x = some r → f.replacement? r = none
  settled : f.replacement? x = none → ∀ x₀, w.pending = some x₀ → f.settles x₀
  comes : f.replacement? x = none → gone f (place w.frames) x = false → ¬ (f.kind x).isPart →
    ∀ x₀, w.pending = some x₀ → f.finalReplacement x₀ = x

/-! ## What the loop and the recursion come to -/

/-- The recursion comes to a node, where the walk would have that walker, or finishes. -/
def Proceeds (rules : List (Selector × Rule σ)) (w : Walker) (f : Forest) (x : NodeId)
    (c' : Context σ) : Option (NodeId × Walker) → Context σ → Prop
  | none, d => ∃ cost, ∀ fuel visits tasks, cost ≤ fuel → Funded f cost w.frames tasks →
      (proceed rules fuel visits (place w.frames) x c').andThen visits (resume rules tasks) =
        ⟨[], .finished d⟩
  | some (n, w'), d => ∃ cost, ∀ least fuel visits tasks, least + cost ≤ fuel →
      Funded f (least + cost) w.frames tasks →
      ∃ fuel' tasks', least ≤ fuel' ∧ Funded d.forest least w'.frames tasks' ∧
        (proceed rules fuel visits (place w.frames) x c').andThen visits (resume rules tasks) =
          (visit rules fuel' visits (place w'.frames) n d).andThen visits (resume rules tasks')

/-- The loop comes from a node, if there was one, to a node with a walker, or finishes, if it has enough steps. -/
def Loops (w : Walker) (current : Option NodeId) (c' : Context σ) : Option (NodeId × Walker) → Context σ → Prop
  | none, d => ∃ enough, ∀ steps ≥ enough, ∃ w', (next steps w current).run c' = (.ok (none, w'), d)
  | some (n, w'), d => ∃ enough, ∀ steps ≥ enough, (next steps w current).run c' = (.ok (some n, w'), d)

/-- The loop comes from a node to another one, or finishes alone, or fails. -/
def Strays (w : Walker) (x : NodeId) (c' : Context σ) (out : Option (NodeId × Walker)) : Prop :=
  ∃ enough, ∀ steps ≥ enough, ∀ found w' d, (next steps w (some x)).run c' = (.ok (found, w'), d) →
    found ≠ out.map (·.1)

/-- What comes after a turn. -/
structure Onward (rules : List (Selector × Rule σ)) (root : NodeId) (w : Walker) (f : Forest)
    (x : NodeId) (c' : Context σ) (out : Option (NodeId × Walker)) (d : Context σ) : Prop where
  proceeds : Proceeds rules w f x c' out d
  loops : Guides w c'.forest x → Loops w (some x) c' out d
  stands : Guides w c'.forest x → ∀ n w', out = some (n, w') → ∃ x₀, Stands root w' d.forest x₀ n
  strays : ¬ Guides w c'.forest x → Strays w x c' out

/-! ## Asking for the next node -/

/-- The present node has a mark, or there is none that the loop would follow. -/
theorem marked_or (current : Option NodeId) (f : Forest) :
    (∃ x r, current = some x ∧ f.replacement? x = some r) ∨ ∀ x, current = some x → f.replacement? x = none := by
  refine or_iff_not_imp_left.mpr fun hmarked x hcurrent => ?_
  exact Option.eq_none_iff_forall_ne_some.mpr fun r hr => hmarked ⟨x, r, hcurrent, hr⟩

theorem next_of_replaced (hmark : c.forest.replacement? x = some r) :
    (next steps w (some x)).run c =
      if !c.forest.settles x then (.error (.fault .endless), c)
      else if c.history.isEmpty then (.error (.fault .index), c)
      else
        (.ok (some (c.forest.finalReplacement x), w),
          { c with
            current := some (c.forest.finalReplacement x)
            history := c.history.pop.push (c.forest.finalReplacement x) }) := by
  have hfilter : ((some x).filter fun n => (c.forest.replacement? n).isSome) = some x := by
    simp [Option.filter, hmark]
  rw [next, run_bind, run_get]
  dsimp only
  rw [hfilter]
  dsimp only
  split
  · rfl
  · split <;> rfl

/-- Where the chain of replacements ends and there are visits, the loop comes to its end. -/
theorem next_of_settled (hmark : c.forest.replacement? x = some r) (hsettles : c.forest.settles x)
    (hlisted : c.history ≠ #[]) :
    (next steps w (some x)).run c =
      (.ok (some (c.forest.finalReplacement x), w),
        { c with
          current := some (c.forest.finalReplacement x)
          history := c.history.pop.push (c.forest.finalReplacement x) }) := by
  rw [next_of_replaced hmark, if_neg (by simp [hsettles]), if_neg (by simpa using hlisted)]

/-- What a walk gives, as a run has it. -/
def arriving (c : Context σ) : Visit → Except Failure (Option NodeId × Walker) × Context σ
  | .node n w f => (.ok (some n, w), entering n (inForest f c))
  | .finished w f => (.ok (none, w), inForest f c)
  | .exhausted => (.error (.fault .endless), c)

theorem next_of_unmarked (hmark : ∀ x, current = some x → c.forest.replacement? x = none) :
    (next steps w current).run c = arriving c (w.next steps c.forest) := by
  have hfilter : (current.filter fun n => (c.forest.replacement? n).isSome) = none := by
    cases current with
    | none => rfl
    | some x => simp [Option.filter, hmark x rfl]
  rw [next, run_bind, run_get]
  dsimp only
  rw [hfilter]
  dsimp only
  cases w.next steps c.forest <;> rfl

theorem next_of_current (hmark : c.forest.replacement? x = none) :
    (next steps w (some x)).run c = arriving c (w.next steps c.forest) := by
  refine next_of_unmarked fun y hy => ?_
  cases hy
  exact hmark

/-! ## Searching on -/

/-- The frames from which the search for the next node goes on, if no other node was put in the place of
the present one. -/
def course (w : Walker) (f : Forest) (x : NodeId) : List Frame :=
  if gone f (place w.frames) x then match w.frames with
    | [] => []
    | frame :: outer => ⟨frame.node, frame.index - 1⟩ :: outer
  else ⟨x, 0⟩ :: w.frames

/-- The node that has been entered is where it is. -/
theorem Stands.gone_eq (h : Stands root w f x₀ x) : gone f (place w.frames) x = false := by
  have hpath := h.path
  generalize w.frames = frames at hpath
  cases hpath with
  | root => rfl
  | child _ hchildren => simp [place, gone, hchildren]

theorem Stands.course_eq (h : Stands root w f x₀ x) : course w f x = ⟨x, 0⟩ :: w.frames := by
  rw [course, h.gone_eq]
  rfl

theorem Removed.gone_eq {i : Nat} {outer : List Frame} (h : Removed root w f x₀ x f' p i outer) :
    gone f' (place w.frames) x = true := by
  simp [h.frames, place, gone, h.not_mem]

theorem Removed.course_eq {i : Nat} {outer : List Frame}
    (h : Removed root w f x₀ x f' p i outer) : course w f' x = ⟨p, i⟩ :: outer := by
  rw [course, h.gone_eq, h.frames]
  rfl

/-- What the recursion has still to do after a turn, if no other node was put in the place. -/
theorem Left.resume (hleft : Left root w f x₀ x c'.forest) (hmark : c'.forest.replacement? x = none)
    {least fuel : Nat} {tasks : List Task} (hfuel : least ≤ fuel)
    (hfunded : Funded f least w.frames tasks) :
    ∃ tasks', Funded c'.forest least (course w c'.forest x) tasks' ∧
      ∀ visits, (proceed rules fuel visits (place w.frames) x c').andThen visits (resume rules tasks) =
        Filter.resume rules tasks' visits c' := by
  rcases hleft.rests hmark with ⟨hsame, hstands⟩ | ⟨p, i, outer, hremoved⟩
  · refine ⟨⟨fuel, x, c'.forest.children x⟩ :: tasks, ?_, fun visits => ?_⟩
    · rw [hstands.course_eq]
      exact .cons ⟨x, 0⟩ hfuel (hfunded.congr hsame)
    · rw [proceed, hmark]
      simp only [hstands.gone_eq]
      rfl
  · refine ⟨tasks, ?_, fun visits => ?_⟩
    · rw [hremoved.course_eq]
      rw [hremoved.frames] at hfunded
      cases hfunded with
      | cons _ hfuel houter =>
        rw [← hremoved.rest]
        exact .cons ⟨p, i⟩ hfuel (houter.congr hremoved.outer_rest)
    · rw [proceed, hmark]
      simp only [hremoved.gone_eq]
      rfl

theorem Left.strict (hleft : Left root w f x₀ x f') (hmark : f'.replacement? x = none) :
    f'.Strict root := by
  rcases hleft.rests hmark with ⟨-, hstands⟩ | ⟨p, i, outer, hremoved⟩
  · exact hstands.strict
  · exact hremoved.strict

theorem Left.between (hleft : Left root w f x₀ x f') (hmark : f'.replacement? x = none) :
    Walker.Between f' root (course w f' x) := by
  rcases hleft.rests hmark with ⟨-, hstands⟩ | ⟨p, i, outer, hremoved⟩
  · rw [hstands.course_eq]
    exact hstands.path.between_enter
  · rw [hremoved.course_eq]
    exact hremoved.between

/-- The node that a search finds, with the walker then. -/
def arrival (w : Walker) : Found → Option (NodeId × Walker)
  | none => none
  | some (n, frames) => some (n, { w with frames := frames, pending := some n })

/-- A context in which a search is over. -/
def searched (c : Context σ) (f : Forest) : Found → Context σ
  | none => inForest f c
  | some (n, _) => entering n (inForest f c)

/-- A search stands at the node that it finds. -/
theorem stands_of_scans (hscans : Scans frames f (some (n, frames')) f')
    (hbetween : Walker.Between f root frames) (hstrict : f.Strict root) (hstarted : w.started)
    (hroot : w.root = root) :
    Stands root { w with frames := frames', pending := some n } f' n n := by
  have hpath := hscans.path hbetween
  have hstrict' : f'.Strict root := hstrict.congr (fun m _ => hscans.children m) (by rw [hscans.size])
  obtain ⟨hmark, p, i, outer, rfl, hat, hholder⟩ := hscans.found
  have hn : n ∈ f'.children p := by
    rw [hscans.children]
    exact List.mem_of_getElem? hat
  have hp : f'.Below root p := hpath.below_of_mem (by simp : (⟨p, i + 1⟩ : Frame) ∈ _)
  have hhas : f.Has n := by
    have h := hstrict'.has hpath.leads
    rwa [Has, hscans.size] at h
  exact {
    started := hstarted
    root_eq := hroot
    pending := rfl
    strict := hstrict'
    path := hpath
    unmarked := hmark
    held := hholder hhas
    at_root := fun hnil => by cases hnil
    not_root := fun _ heq => hstrict'.not_mem_children hp (heq ▸ hn)
    tame := fun _ _ k _ => follow_of_none hmark k }

/-- What comes after a turn that put no other node in the place: the recursion goes on to what the search
finds. -/
theorem Left.proceeds (hleft : Left root w f x₀ x c'.forest)
    (hmark : c'.forest.replacement? x = none)
    (hscans : Scans (course w c'.forest x) c'.forest found f'') :
    Proceeds rules w f x c' (arrival w found) (searched c' f'' found) := by
  obtain ⟨cost, hcost⟩ := resume_of_scans rules hscans
  cases found with
  | none =>
    refine ⟨cost, fun fuel visits tasks hfuel hfunded => ?_⟩
    obtain ⟨tasks', hfunded', heq⟩ := hleft.resume hmark hfuel hfunded
    rw [heq]
    exact hcost 0 visits tasks' c' rfl (hfunded'.weaken (by omega))
  | some found =>
    obtain ⟨n, frames'⟩ := found
    refine ⟨cost, fun least fuel visits tasks hfuel hfunded => ?_⟩
    obtain ⟨tasks', hfunded', heq⟩ := hleft.resume hmark hfuel hfunded
    obtain ⟨fuel', tasks'', hfuel', hfunded'', hnext⟩ := hcost least visits tasks' c' rfl hfunded'
    exact ⟨fuel', tasks'', hfuel', hfunded'', by rw [heq, hnext]; rfl⟩

/-- With enough steps the loop goes on to what a search from the scheduled frames finds. -/
theorem loops_of_scans (hmark : c'.forest.replacement? x = none)
    (hstarted : w.started) (hpending : w.pending = some x₀)
    (hready : x₀ = w.root ∨ c'.forest.settles x₀)
    (hscans : Scans (w.descend c'.forest x₀).frames c'.forest found f'') :
    Loops w (some x) c' (arrival w found) (searched c' f'' found) := by
  obtain ⟨enough, henough⟩ := advance_of_scans hscans
  cases found with
  | none =>
    refine ⟨enough, fun steps hsteps => ?_⟩
    rw [next_of_current hmark, next_of_pending hstarted hpending hready,
      henough steps hsteps]
    exact ⟨_, rfl⟩
  | some found =>
    obtain ⟨n, frames'⟩ := found
    refine ⟨enough, fun steps hsteps => ?_⟩
    rw [next_of_current hmark, next_of_pending hstarted hpending hready,
      henough steps hsteps]
    simp [Walker.visit, arriving, searched]

/-! ## Where the loop goes -/

/-- The frames of a node that stays where it is, when the chain from the node handed out last ends there. -/
theorem Seat.descend_frames {done rest : List NodeId} {outer : List Frame}
    (seat : Seat root w f x p done rest outer) (hroot : x₀ ≠ w.root)
    (hfinal : f.finalReplacement x₀ = x) :
    (w.descend f x₀).frames =
      if (f.children x).isEmpty then w.frames else ⟨x, 0⟩ :: w.frames := by
  have hindex := indexOf?_of_split seat.children seat.not_mem.1
  rw [Walker.descend_frames hroot seat.frames, hfinal, hindex, seat.frames]

/-- The frames of a node that stays where it is, when the chain leads elsewhere: the node will be reached
again. -/
theorem Seat.descend_frames_of_ne {done rest : List NodeId} {outer : List Frame}
    (seat : Seat root w f x p done rest outer) (h : Stands root w f x₀ x) (hroot : x₀ ≠ w.root)
    (hfinal : f.finalReplacement x₀ ≠ x) :
    (w.descend f x₀).frames = ⟨p, done.length⟩ :: outer := by
  have hnone : f.indexOf? p (f.finalReplacement x₀) = none := by
    rw [indexOf?_eq_none_iff]
    intro hmem
    exact hfinal (h.tame p (by rw [place, seat.frames]; rfl) f.size hmem)
  rw [Walker.descend_frames hroot seat.frames, hnone]
  rfl

theorem Seat.at_done {done rest : List NodeId} {outer : List Frame}
    (seat : Seat root w f x p done rest outer) : (f.children p)[done.length]? = some x := by
  simp [seat.children]

theorem Seat.reach_eq {done rest : List NodeId} {outer : List Frame}
    (seat : Seat root w f x p done rest outer) (h : Stands root w f x₀ x) : reach f p x = f :=
  reach_eq_self seat.held h.unmarked

/-- Without frames the present node is the root. -/
theorem Stands.eq_root (h : Stands root w f x₀ x) (hframes : w.frames = []) : x = root := by
  have hpath := h.path
  rw [hframes] at hpath
  cases hpath
  rfl

theorem Stands.ne_walker_root (h : Stands root w f x₀ x) (hframes : w.frames ≠ []) :
    x₀ ≠ w.root := by
  rw [h.root_eq]
  exact h.not_root hframes

/-- The chain from the root ends, as the root is not replaced. -/
theorem Stands.settles_of_root (h : Stands root w f x₀ x) (hmark : f'.replacement? x = none)
    (hroot : x₀ = w.root) : f'.settles x₀ := by
  have hframes : w.frames = [] := by
    by_contra hno
    exact h.ne_walker_root hno hroot
  rw [h.eq_root hframes] at hmark
  rw [h.at_root hframes]
  exact settles_of_none hmark

/-- The search of the recursion is one from the frames that the loop schedules, if the marks lead there. -/
theorem Left.scans_descend (hleft : Left root w f x₀ x f') (h : Stands root w f x₀ x)
    (hmark : f'.replacement? x = none)
    (hcomes : gone f' (place w.frames) x = false → ¬ (f'.kind x).isPart → f'.finalReplacement x₀ = x)
    (hscans : Scans (course w f' x) f' found f'') : Scans (w.descend f' x₀).frames f' found f'' := by
  rcases hleft.rests hmark with ⟨-, hstands⟩ | ⟨p, i, outer, hremoved⟩
  · rw [hstands.course_eq] at hscans
    by_cases hframes : w.frames = []
    · rw [h.eq_root hframes] at hscans
      rw [h.at_root hframes, descend_root h.root_eq.symm]
      exact hscans
    · have hroot := h.ne_walker_root hframes
      obtain ⟨p, done, rest, outer, seat⟩ := hstands.seat hframes
      by_cases hfinal : f'.finalReplacement x₀ = x
      · rw [seat.descend_frames hroot hfinal]
        exact scans_enter hscans
      · have hpart : (f'.kind x).isPart := by
          by_contra hno
          exact hfinal (hcomes hstands.gone_eq hno)
        rw [seat.descend_frames_of_ne hstands hroot hfinal]
        refine .pass seat.at_done hpart ?_
        rw [seat.reach_eq hstands, ← seat.frames]
        exact hscans
  · have hroot := h.ne_walker_root (by simp [hremoved.frames])
    have hnone : f'.indexOf? p (f'.finalReplacement x₀) = none :=
      indexOf?_eq_none_iff.mpr (hremoved.away f'.size)
    rw [hremoved.course_eq] at hscans
    rw [Walker.descend_frames hroot hremoved.frames, hnone]
    exact hscans

/-- A node that has not gone stays. -/
theorem Left.stands (hleft : Left root w f x₀ x f') (hmark : f'.replacement? x = none)
    (hstays : gone f' (place w.frames) x = false) : Stands root w f' x₀ x := by
  rcases hleft.rests hmark with ⟨-, hstands⟩ | ⟨p, i, outer, hremoved⟩
  · exact hstands
  · rw [hremoved.gone_eq] at hstays
    cases hstays

/-- Where the chain does not lead to a node that stays, the loop comes to the node again. -/
theorem Stands.loops_again (h : Stands root w c'.forest x₀ x) (hsettles : c'.forest.settles x₀)
    (hpart : ¬ (c'.forest.kind x).isPart) (hfinal : c'.forest.finalReplacement x₀ ≠ x) :
    ∃ w' d, Loops w (some x) c' (some (x, w')) d := by
  have hframes : w.frames ≠ [] := by
    intro hnil
    have hx := h.unmarked
    rw [h.eq_root hnil] at hx hfinal
    rw [h.at_root hnil] at hfinal
    exact hfinal (finalReplacement_of_none hx)
  have hroot := h.ne_walker_root hframes
  obtain ⟨p, done, rest, outer, seat⟩ := h.seat hframes
  have hscans : Scans (w.descend c'.forest x₀).frames c'.forest
      (some (x, ⟨p, done.length + 1⟩ :: outer)) (reach c'.forest p x) := by
    rw [seat.descend_frames_of_ne h hroot hfinal]
    exact .stop seat.at_done hpart
  exact ⟨_, _, loops_of_scans h.unmarked h.started h.pending (.inr hsettles) hscans⟩

theorem Left.strays (hleft : Left root w f x₀ x c'.forest) (h : Stands root w f x₀ x)
    (hmark : c'.forest.replacement? x = none)
    (hscans : Scans (course w c'.forest x) c'.forest found f'') (hno : ¬ Guides w c'.forest x) :
    Strays w x c' (arrival w found) := by
  by_cases hsettles : c'.forest.settles x₀
  · by_cases hcomes : gone c'.forest (place w.frames) x = false → ¬ (c'.forest.kind x).isPart →
        c'.forest.finalReplacement x₀ = x
    · refine absurd ?_ hno
      have hpending : ∀ y, w.pending = some y → y = x₀ := fun y hy => by
        rw [h.pending] at hy
        exact (Option.some.inj hy).symm
      exact {
        replaced := fun r hr => by rw [hmark] at hr; cases hr
        settled := fun _ y hy => by rw [hpending y hy]; exact hsettles
        comes := fun _ hg hp y hy => by rw [hpending y hy]; exact hcomes hg hp }
    · simp only [Classical.not_imp] at hcomes
      obtain ⟨hstays, hpart, hfinal⟩ := hcomes
      have hstands := hleft.stands hmark hstays
      obtain ⟨w', d, enough, henough⟩ := hstands.loops_again hsettles hpart hfinal
      refine ⟨enough, fun steps hsteps first w'' d' hfirst hsame => ?_⟩
      rw [henough steps hsteps] at hfirst
      cases hfirst
      cases found with
      | none => cases hsame
      | some found =>
        obtain ⟨n, frames'⟩ := found
        rw [hstands.course_eq] at hscans
        exact hstands.path.found_ne hstands.strict hscans (Option.some.inj hsame).symm
  · refine ⟨0, fun steps _ first w' d hfirst => ?_⟩
    have hroot : x₀ ≠ w.root := fun heq => hsettles (h.settles_of_root hmark heq)
    rw [next_of_current hmark, next_of_unsettled h.started h.pending hroot hsettles]
      at hfirst
    cases hfirst

/-! ## The step -/

theorem Stands.onward_searched (h : Stands root w c.forest x₀ x) (hlocal : Local root x c c')
    (hmark : c'.forest.replacement? x = none) :
    ∃ out d, Onward rules root w c.forest x c' out d := by
  have hleft := h.left hlocal
  have hbetween := hleft.between hmark
  have hstrict := hleft.strict hmark
  obtain ⟨found, f'', hscans⟩ := hbetween.exists_scans hstrict
  refine ⟨arrival w found, searched c' f'' found, {
    proceeds := hleft.proceeds hmark hscans
    loops := fun hguides => ?_
    stands := fun _ n w' hout => ?_
    strays := hleft.strays h hmark hscans }⟩
  · have hscans' := hleft.scans_descend h hmark
      (fun hg hp => hguides.comes hmark hg hp x₀ h.pending) hscans
    exact loops_of_scans hmark h.started h.pending
      (.inr (hguides.settled hmark x₀ h.pending)) hscans'
  · cases found with
    | none => cases hout
    | some found =>
      obtain ⟨m, frames'⟩ := found
      cases hout
      exact ⟨_, stands_of_scans hscans hbetween hstrict h.started h.root_eq⟩

theorem Stands.onward_replaced (h : Stands root w c.forest x₀ x) (hlocal : Local root x c c')
    (hmark : c'.forest.replacement? x = some r) :
    Onward rules root w c.forest x c' (some (r, w)) (takingOver r c') := by
  have hleft := h.left hlocal
  obtain ⟨hsame, hstands⟩ := hleft.gives_way hmark
  exact {
    proceeds := by
      refine ⟨0, fun least fuel visits tasks hfuel hfunded => ⟨fuel, tasks, hfuel, ?_, ?_⟩⟩
      · refine hfunded.congr fun frame hframe => ?_
        rw [← hsame frame hframe, unreached, unreached, takingOver, children_setReplacement]
      · rw [proceed, hmark]
    loops := fun hguides => by
      have hr := hguides.replaced r hmark
      have hfinal := finalReplacement_of_some hmark hr
      have hsettles : c'.forest.settles x := by
        rw [settles, hfinal, hr]
        rfl
      refine ⟨0, fun steps _ => ?_⟩
      rw [next_of_settled hmark hsettles hlocal.listed, hfinal, takingOver, setReplacement_eq_self hr]
    stands := fun hguides n w' hout => by
      cases hout
      have hr := hguides.replaced r hmark
      rw [takingOver, setReplacement_eq_self hr]
      exact ⟨x₀, hstands hr⟩
    strays := fun hno => by
      refine ⟨0, fun steps _ first w' d hfirst hsame => hno ?_⟩
      by_cases hsettles : c'.forest.settles x
      · rw [next_of_settled hmark hsettles hlocal.listed] at hfirst
        cases hfirst
        have hend : c'.forest.replacement? (c'.forest.finalReplacement x) = none := by
          rwa [settles, Option.isNone_iff_eq_none] at hsettles
        rw [Option.some.inj hsame] at hend
        exact {
          replaced := fun s hs => by
            rw [hmark] at hs
            cases hs
            exact hend
          settled := fun hnone => by rw [hmark] at hnone; cases hnone
          comes := fun hnone => by rw [hmark] at hnone; cases hnone }
      · rw [next_of_replaced hmark, if_pos (by simp [hsettles])] at hfirst
        cases hfirst }

/-- After each local visit the recursion comes to something, and the loop comes to the same if the marks
lead it there, and to something else if they do not. -/
theorem Stands.onward (h : Stands root w c.forest x₀ x) (hlocal : Local root x c c') :
    ∃ out d, Onward rules root w c.forest x c' out d := by
  cases hmark : c'.forest.replacement? x with
  | none => exact h.onward_searched hlocal hmark
  | some r => exact ⟨_, _, h.onward_replaced hlocal hmark⟩

end Filter

end DocFilter
