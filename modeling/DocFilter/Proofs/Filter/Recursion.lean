import DocFilter.Filter.Run
import DocFilter.Proofs.Walk.Scan

/-!
# Filter runs as a recursion

A filter run is a loop over a walker.  What it is meant to do is a recursion over the tree: a node is
dispatched; then the node that replaced it is visited in its place, or nothing more if it was removed, or
else its children one by one, with parts passed through.

* `Trail` is what a run leaves: the nodes dispatched so far, and how the run ended.
* `Filter.trail` is the loop with its trail, and `Filter.visitAll_of_trail` ties it to the loop itself.
* `Filter.visit` and `Filter.below` are the recursion, bounded by the number of visits.
* `Filter.resume` is the recursion with what it has still to do after the present node, and
  `Filter.resume_of_scans` says that it goes on as the search of the walker does.
-/

namespace DocFilter

/-- How a run ended. -/
inductive Fate (σ : Type) where
  /-- The visits that were allowed are used up. -/
  | cut
  | finished (c : Context σ)
  | halted (c : Context σ)
  | failed (e : Failure) (c : Context σ)

/-- The nodes that a run dispatched, in order, and how it ended. -/
structure Trail (σ : Type) where
  seen : List NodeId
  fate : Fate σ

namespace Trail

variable {σ : Type} {t : Trail σ} {n : NodeId} {visits : Nat}

/-- A trail that begins with one more node. -/
def after (n : NodeId) (t : Trail σ) : Trail σ := ⟨n :: t.seen, t.fate⟩

/-- A trail that is continued where it finished, with the visits that are left. -/
def andThen (t : Trail σ) (visits : Nat) (rest : Nat → Context σ → Trail σ) : Trail σ :=
  match t.fate with
  | .finished c =>
    let t' := rest (visits - t.seen.length) c
    ⟨t.seen ++ t'.seen, t'.fate⟩
  | _ => t

theorem andThen_finished (c : Context σ) (rest : Nat → Context σ → Trail σ) :
    (⟨[], .finished c⟩ : Trail σ).andThen visits rest = rest visits c := rfl

theorem andThen_cut (seen : List NodeId) (rest : Nat → Context σ → Trail σ) :
    (⟨seen, .cut⟩ : Trail σ).andThen visits rest = ⟨seen, .cut⟩ := rfl

theorem andThen_after (rest : Nat → Context σ → Trail σ) :
    (t.after n).andThen (visits + 1) rest = (t.andThen visits rest).after n := by
  obtain ⟨seen, fate⟩ := t
  cases fate <;> simp [after, andThen]

theorem after_injective {t' : Trail σ} (h : t.after n = t'.after n) : t = t' := by
  obtain ⟨seen, fate⟩ := t
  obtain ⟨seen', fate'⟩ := t'
  simpa [after] using h

theorem head_andThen (rest : Nat → Context σ → Trail σ) (h : t.seen.head? = some n) :
    (t.andThen visits rest).seen.head? = some n := by
  obtain ⟨seen, fate⟩ := t
  cases seen with
  | nil => cases h
  | cons m seen => cases fate <;> simpa [andThen] using h

theorem andThen_assoc (rest rest' : Nat → Context σ → Trail σ) :
    (t.andThen visits rest).andThen visits rest' =
      t.andThen visits fun visits c => (rest visits c).andThen visits rest' := by
  obtain ⟨seen, fate⟩ := t
  cases fate with
  | finished c =>
    simp only [andThen]
    generalize rest (visits - seen.length) c = second
    obtain ⟨seen', fate'⟩ := second
    cases fate' <;> simp [List.append_assoc, Nat.sub_sub]
  | _ => rfl

end Trail

namespace Filter

variable {σ : Type} {rules : List (Selector × Rule σ)} {steps fuel visits : Nat} {w w' : Walker}
  {current : Option NodeId} {n : NodeId} {c c' : Context σ}

/-! ## The loop -/

/-- A run with its trail; the walker has so many steps between two nodes. -/
def trail (rules : List (Selector × Rule σ)) (steps : Nat) :
    (visits : Nat) → Walker → (current : Option NodeId) → Context σ → Trail σ
  | visits, w, current, c => match (next steps w current).run c with
    | (.error e, c) => ⟨[], .failed e c⟩
    | (.ok (none, _), c) => ⟨[], .finished c⟩
    | (.ok (some n, w), c) => match visits with
      | 0 => ⟨[], .cut⟩
      | visits + 1 => match (dispatch n rules).run c with
        | (.error e, c) => ⟨[n], .failed e c⟩
        | (.ok true, c) => ⟨[n], .halted c⟩
        | (.ok false, c) => (trail rules steps visits w (some n) c).after n

/-- What a run gives that is not cut, if so many nodes were visited before. -/
def result? (visited : Nat) (t : Trail σ) : Option (Except Failure Outcome × Context σ) :=
  match t.fate with
  | .cut => none
  | .finished c => some (.ok ⟨false, visited + t.seen.length⟩, c)
  | .halted c => some (.ok ⟨true, visited + t.seen.length⟩, c)
  | .failed e c => some (.error e, c)

theorem result?_after {visited : Nat} (t : Trail σ) :
    result? visited (t.after n) = result? (visited + 1) t := by
  obtain ⟨seen, fate⟩ := t
  cases fate <;> simp [result?, Trail.after, Nat.add_comm, Nat.add_left_comm]

/-- Running one computation after another. -/
theorem run_bind {α β : Type} (x : Run σ α) (g : α → Run σ β) (c : Context σ) :
    (x >>= g).run c = match x.run c with
      | (.error e, c) => (.error e, c)
      | (.ok a, c) => (g a).run c := by
  cases hx : x.run c with
  | mk result c' =>
    have hx' : x c = (result, c') := hx
    cases result with
    | error e =>
      simp only [bind, ExceptT.bind, ExceptT.run, ExceptT.mk, StateT.bind, hx']
      rfl
    | ok a =>
      simp only [bind, ExceptT.bind, ExceptT.run, ExceptT.mk, StateT.bind, hx']
      rfl

/-- A computation that looks at the context. -/
theorem run_get (c : Context σ) : (get : Run σ (Context σ)).run c = (.ok c, c) := rfl

theorem run_visitAll {visited : Nat} :
    (visitAll rules steps (visits + 1) visited w current).run c = match (next steps w current).run c with
      | (.error e, c) => (.error e, c)
      | (.ok (none, _), c) => (.ok ⟨false, visited⟩, c)
      | (.ok (some n, w), c) => match (dispatch n rules).run c with
        | (.error e, c) => (.error e, c)
        | (.ok true, c) => (.ok ⟨true, visited + 1⟩, c)
        | (.ok false, c) => (visitAll rules steps visits (visited + 1) w (some n)).run c := by
  rw [visitAll, run_bind]
  cases hnext : (next steps w current).run c with
  | mk found c' =>
    cases found with
    | error e => rfl
    | ok found =>
      obtain ⟨_ | n, w'⟩ := found
      · rfl
      · dsimp only
        rw [run_bind]
        cases hdispatch : (dispatch n rules).run c' with
        | mk result c'' =>
          cases result with
          | error e => rfl
          | ok halt => cases halt <;> rfl

/-- A loop that comes to its end without a stop has either come to no node, or to one whose rules let it go on
to its end. -/
theorem visitAll_unhalted {visited total : Nat} {d : Context σ}
    (h : (visitAll rules steps (visits + 1) visited w current).run c = (.ok ⟨false, total⟩, d)) :
    (∃ w', (next steps w current).run c = (.ok (none, w'), d) ∧ total = visited) ∨
      ∃ n w' c' d', (next steps w current).run c = (.ok (some n, w'), c') ∧
        (dispatch n rules).run c' = (.ok false, d') ∧
        (visitAll rules steps visits (visited + 1) w' (some n)).run d' = (.ok ⟨false, total⟩, d) := by
  rw [run_visitAll] at h
  rcases hnext : (next steps w current).run c with ⟨e | ⟨_ | n, w'⟩, c'⟩
  · rw [hnext] at h
    cases h
  · rw [hnext] at h
    cases h
    exact .inl ⟨w', rfl, rfl⟩
  · rw [hnext] at h
    dsimp only at h
    rcases hdispatch : (dispatch n rules).run c' with ⟨e | _ | _, d'⟩
    · rw [hdispatch] at h
      cases h
    · rw [hdispatch] at h
      exact .inr ⟨n, w', c', d', rfl, hdispatch, h⟩
    · rw [hdispatch] at h
      cases h

/-- The loop gives what its trail says. -/
theorem visitAll_of_trail {visited : Nat} {out : Except Failure Outcome × Context σ}
    (h : result? visited (trail rules steps visits w current c) = some out) :
    (visitAll rules steps (visits + 1) visited w current).run c = out := by
  induction visits generalizing visited w current c with
  | zero =>
    rw [run_visitAll]
    rw [trail] at h
    split at h
    · cases h
      rfl
    · cases h
      rfl
    · cases h
  | succ visits ih =>
    rw [run_visitAll]
    rw [trail] at h
    split at h
    · cases h
      rfl
    · cases h
      rfl
    · dsimp only at h ⊢
      split at h
      · cases h
        rfl
      · cases h
        rfl
      · rw [result?_after] at h
        exact ih h

/-! ## The recursion -/

/-- A context in which a node has been entered. -/
def entering (n : NodeId) (c : Context σ) : Context σ :=
  { c with current := some n, history := c.history.push n }

/-- A context in which a node has taken the place of the present one, in the history too; it stands in
the tree, so it bears no mark. -/
def takingOver (r : NodeId) (c : Context σ) : Context σ :=
  { c with
    forest := c.forest.setReplacement r none
    current := some r
    history := c.history.pop.push r }

/-- A context in which a child has been reached through its holder. -/
def reaching (p n : NodeId) (c : Context σ) : Context σ :=
  { c with forest := Walker.reach c.forest p n }

/-- Whether a node is no longer where it was visited. The root stays where it is. -/
def gone (f : Forest) (place : Option NodeId) (n : NodeId) : Bool := match place with
  | none => false
  | some p => !(f.children p).contains n

mutual

/-- Visits a node at its place, that is among the children of a node, or nowhere for the root. -/
def visit (rules : List (Selector × Rule σ)) :
    (fuel visits : Nat) → (place : Option NodeId) → NodeId → Context σ → Trail σ
  | fuel + 1, visits + 1, place, n, c => match (dispatch n rules).run c with
    | (.error e, c) => ⟨[n], .failed e c⟩
    | (.ok true, c) => ⟨[n], .halted c⟩
    | (.ok false, c) => .after n <| match c.forest.replacement? n with
      | some r => visit rules fuel visits place r (takingOver r c)
      | none =>
        if gone c.forest place n then ⟨[], .finished c⟩
        else below rules fuel visits n (c.forest.children n) c
  | _, _, _, _, _ => ⟨[], .cut⟩

/-- Visits children of a node in order and passes through parts. -/
def below (rules : List (Selector × Rule σ)) :
    (fuel visits : Nat) → (p : NodeId) → List NodeId → Context σ → Trail σ
  | 0, _, _, _, _ => ⟨[], .cut⟩
  | _ + 1, _, _, [], c => ⟨[], .finished c⟩
  | fuel + 1, visits, p, n :: rest, c =>
    let c := reaching p n c
    let first := if (c.forest.kind n).isPart then below rules fuel visits n (c.forest.children n) c
      else visit rules fuel visits (some p) n (entering n c)
    first.andThen visits fun visits c => below rules fuel visits p rest c

end

/-- The recursion after a node was dispatched. -/
def proceed (rules : List (Selector × Rule σ)) (fuel visits : Nat) (place : Option NodeId)
    (n : NodeId) (c : Context σ) : Trail σ := match c.forest.replacement? n with
  | some r => visit rules fuel visits place r (takingOver r c)
  | none =>
    if gone c.forest place n then ⟨[], .finished c⟩
    else below rules fuel visits n (c.forest.children n) c

/-- The trail of a visit to a node, which goes on as given if the rules let it. -/
def dispatched (rules : List (Selector × Rule σ)) (n : NodeId) (c : Context σ)
    (onward : Context σ → Trail σ) : Trail σ := match (dispatch n rules).run c with
  | (.error e, c) => ⟨[n], .failed e c⟩
  | (.ok true, c) => ⟨[n], .halted c⟩
  | (.ok false, c) => (onward c).after n

section dispatched

variable {onward onward' : Context σ → Trail σ}

theorem dispatched_of_false (h : (dispatch n rules).run c = (.ok false, c')) :
    dispatched rules n c onward = (onward c').after n := by
  rw [dispatched, h]

theorem head_dispatched : (dispatched rules n c onward).seen.head? = some n := by
  rw [dispatched]
  split <;> rfl

theorem dispatched_congr
    (h : ∀ c', (dispatch n rules).run c = (.ok false, c') → onward c' = onward' c') :
    dispatched rules n c onward = dispatched rules n c onward' := by
  rw [dispatched, dispatched]
  split
  · rfl
  · rfl
  · rename_i c' hfalse
    rw [h c' hfalse]

theorem dispatched_andThen (rest : Nat → Context σ → Trail σ) :
    (dispatched rules n c onward).andThen (visits + 1) rest =
      dispatched rules n c fun c => (onward c).andThen visits rest := by
  rw [dispatched, dispatched]
  split
  · rfl
  · rfl
  · exact Trail.andThen_after rest

theorem onward_of_dispatched (h : (dispatch n rules).run c = (.ok false, c'))
    (heq : dispatched rules n c onward = dispatched rules n c onward') :
    onward c' = onward' c' := by
  rw [dispatched_of_false h, dispatched_of_false h] at heq
  exact Trail.after_injective heq

end dispatched

theorem visit_succ {place : Option NodeId} :
    visit rules (fuel + 1) (visits + 1) place n c =
      dispatched rules n c (proceed rules fuel visits place n) := rfl

theorem trail_of_error {e : Failure} (h : (next steps w current).run c = (.error e, c')) :
    trail rules steps visits w current c = ⟨[], .failed e c'⟩ := by
  rw [trail, h]

theorem trail_of_none (h : (next steps w current).run c = (.ok (none, w'), c')) :
    trail rules steps visits w current c = ⟨[], .finished c'⟩ := by
  rw [trail, h]

theorem trail_no_visits (h : (next steps w current).run c = (.ok (some n, w'), c')) :
    trail rules steps 0 w current c = ⟨[], .cut⟩ := by
  rw [trail, h]

theorem trail_of_some (h : (next steps w current).run c = (.ok (some n, w'), c')) :
    trail rules steps (visits + 1) w current c = dispatched rules n c' (trail rules steps visits w' (some n)) := by
  rw [trail, h]
  rfl

theorem visit_no_visits {place : Option NodeId} :
    visit rules fuel 0 place n c = ⟨[], .cut⟩ := by
  cases fuel <;> rfl

theorem below_nil {p : NodeId} : below rules (fuel + 1) visits p [] c = ⟨[], .finished c⟩ := rfl

theorem below_part {p : NodeId} {rest : List NodeId} (hpart : (c.forest.kind n).isPart) :
    below rules (fuel + 1) visits p (n :: rest) c =
      (below rules fuel visits n (c.forest.children n) (reaching p n c)).andThen visits
        fun visits c => below rules fuel visits p rest c := by
  simp [below, reaching, hpart]

theorem below_node {p : NodeId} {rest : List NodeId} (hpart : ¬ (c.forest.kind n).isPart) :
    below rules (fuel + 1) visits p (n :: rest) c =
      (visit rules fuel visits (some p) n (entering n (reaching p n c))).andThen visits
        fun visits c => below rules fuel visits p rest c := by
  simp [below, reaching, hpart]

/-! ## What the recursion has still to do -/

/-- Children of a node that have still to be visited, with the fuel for them. -/
structure Task where
  fuel : Nat
  place : NodeId
  rest : List NodeId

/-- Goes on with tasks, the innermost one first. -/
def resume (rules : List (Selector × Rule σ)) : List Task → (visits : Nat) → Context σ → Trail σ
  | [], _, c => ⟨[], .finished c⟩
  | task :: tasks, visits, c =>
    (below rules task.fuel visits task.place task.rest c).andThen visits (resume rules tasks)

theorem andThen_resume_nil (t : Trail σ) : t.andThen visits (resume rules []) = t := by
  obtain ⟨seen, fate⟩ := t
  cases fate <;> simp [Trail.andThen, resume]

/-- Tasks that go on as some frames do, each with at least so much fuel. -/
inductive Funded (f : Forest) (least : Nat) : List Frame → List Task → Prop where
  | nil : Funded f least [] []
  | cons (frame : Frame) {frames : List Frame} {fuel : Nat} {tasks : List Task} :
      least ≤ fuel → Funded f least frames tasks →
      Funded f least (frame :: frames) (⟨fuel, frame.node, Walker.unreached f frame⟩ :: tasks)

theorem Funded.weaken {f : Forest} {least more : Nat} {frames : List Frame} {tasks : List Task}
    (h : Funded f more frames tasks) (hle : least ≤ more) : Funded f least frames tasks := by
  induction h with
  | nil => exact .nil
  | cons frame hfuel _ ih => exact .cons frame (Nat.le_trans hle hfuel) ih

theorem Funded.congr {f f' : Forest} {least : Nat} {frames : List Frame} {tasks : List Task}
    (h : Funded f least frames tasks)
    (hsame : ∀ frame ∈ frames, Walker.unreached f' frame = Walker.unreached f frame) :
    Funded f' least frames tasks := by
  induction h with
  | nil => exact .nil
  | @cons frame frames fuel tasks hfuel _ ih =>
    rw [← hsame frame (by simp)]
    exact .cons frame hfuel (ih fun frame hframe => hsame frame (by simp [hframe]))

/-- Reaching a node takes nothing from what the frames have still to come to. -/
theorem unreached_reach {f : Forest} {p : NodeId} {frame : Frame} :
    Walker.unreached (Walker.reach f p n) frame = Walker.unreached f frame := by
  rw [Walker.unreached, Walker.unreached, Forest.children_reach]

/-- The tasks of a frame whose next child has been reached: those of the frame after it are the first. -/
theorem Funded.reach {f : Forest} {p : NodeId} {i fuel least : Nat} {frames : List Frame}
    {tasks : List Task} (h : Funded f least frames tasks) (hfuel : least ≤ fuel) :
    Funded (Walker.reach f p n) least (⟨p, i⟩ :: frames)
      (⟨fuel, p, Walker.unreached f ⟨p, i⟩⟩ :: tasks) := by
  have hsame : ∀ frame ∈ frames,
      Walker.unreached (Walker.reach f p n) frame = Walker.unreached f frame :=
    fun _ _ => unreached_reach
  have hmoved := Funded.cons ⟨p, i⟩ hfuel (h.congr hsame)
  rwa [unreached_reach] at hmoved

/-- The node whose children the innermost frame walks. -/
def place (frames : List Frame) : Option NodeId := frames.head?.map (·.node)

/-- A context with another forest. -/
def inForest (f : Forest) (c : Context σ) : Context σ := { c with forest := f }

/-- Tasks go on with a visit to what a search finds, in the forest that it leaves. -/
def Resumes (rules : List (Selector × Rule σ)) (least : Nat) (tasks : List Task) (visits : Nat)
    (c : Context σ) (f : Forest) : Walker.Found → Prop
  | none => resume rules tasks visits c = ⟨[], .finished (inForest f c)⟩
  | some (n, frames) => ∃ fuel tasks', least ≤ fuel ∧ Funded f least frames tasks' ∧
      resume rules tasks visits c =
        (visit rules fuel visits (place frames) n (entering n (inForest f c))).andThen visits
          (resume rules tasks')

theorem Resumes.of_eq {least : Nat} {tasks tasks' : List Task} {f : Forest}
    {found : Walker.Found} (h : Resumes rules least tasks' visits c' f found)
    (heq : resume rules tasks visits c = resume rules tasks' visits c')
    (hc : inForest f c = inForest f c') : Resumes rules least tasks visits c f found := by
  cases found with
  | none =>
    rw [Resumes] at h ⊢
    rw [heq, h, hc]
  | some found =>
    obtain ⟨n, frames⟩ := found
    rw [Resumes] at h ⊢
    rw [heq, hc]
    exact h

theorem unreached_cons {f : Forest} {p : NodeId} {i : Nat} (h : (f.children p)[i]? = some n) :
    Walker.unreached f ⟨p, i⟩ = n :: Walker.unreached f ⟨p, i + 1⟩ := by
  obtain ⟨hi, rfl⟩ := List.getElem?_eq_some_iff.mp h
  exact List.drop_eq_getElem_cons hi

theorem unreached_nil {f : Forest} {p : NodeId} {i : Nat} (h : (f.children p)[i]? = none) :
    Walker.unreached f ⟨p, i⟩ = [] :=
  List.drop_eq_nil_of_le (List.getElem?_eq_none_iff.mp h)

/-- The recursion goes on as the search does, at a cost of fuel for the steps of the search. -/
theorem resume_of_scans (rules : List (Selector × Rule σ)) {f f' : Forest} {frames : List Frame}
    {found : Walker.Found} (h : Walker.Scans frames f found f') :
    ∃ cost, ∀ (least visits : Nat) (tasks : List Task) (c : Context σ), c.forest = f →
      Funded f (least + cost) frames tasks → Resumes rules least tasks visits c f' found := by
  induction h with
  | finish f =>
    refine ⟨0, fun least visits tasks c hc hfunded => ?_⟩
    cases hfunded
    subst hc
    rfl
  | @leave p i frames f f' found hnone _ ih =>
    obtain ⟨cost, ih⟩ := ih
    refine ⟨cost + 1, fun least visits tasks c hc hfunded => ?_⟩
    cases hfunded with
    | @cons _ _ fuel tasks hfuel hrest =>
      obtain ⟨fuel, rfl⟩ : ∃ k, fuel = k + 1 := ⟨fuel - 1, by omega⟩
      refine (ih least visits tasks c hc (hrest.weaken (by omega))).of_eq ?_ rfl
      rw [resume, unreached_nil hnone, below_nil, Trail.andThen_finished]
  | @pass p n i frames f f' found hat hpart _ ih =>
    obtain ⟨cost, ih⟩ := ih
    refine ⟨cost + 1, fun least visits tasks c hc hfunded => ?_⟩
    subst hc
    cases hfunded with
    | @cons _ _ fuel tasks hfuel hrest =>
      obtain ⟨fuel, rfl⟩ : ∃ k, fuel = k + 1 := ⟨fuel - 1, by omega⟩
      have houter : Funded (Walker.reach c.forest p n) (least + cost) (⟨p, i + 1⟩ :: frames)
          (⟨fuel, p, Walker.unreached c.forest ⟨p, i + 1⟩⟩ :: tasks) :=
        (hrest.weaken (by omega)).reach (by omega)
      have hinner := Funded.cons ⟨n, 0⟩ (by omega : least + cost ≤ fuel) houter
      rw [unreached_reach] at hinner
      refine (ih least visits _ (reaching p n c) rfl hinner).of_eq ?_ rfl
      rw [resume, unreached_cons hat, below_part hpart, Trail.andThen_assoc, resume]
      rfl
  | @stop p n i frames f hat hpart =>
    refine ⟨1, fun least visits tasks c hc hfunded => ?_⟩
    subst hc
    cases hfunded with
    | @cons _ _ fuel tasks hfuel hrest =>
      obtain ⟨fuel, rfl⟩ : ∃ k, fuel = k + 1 := ⟨fuel - 1, by omega⟩
      have houter : Funded (Walker.reach c.forest p n) least (⟨p, i + 1⟩ :: frames)
          (⟨fuel, p, Walker.unreached c.forest ⟨p, i + 1⟩⟩ :: tasks) :=
        (hrest.weaken (by omega)).reach (by omega)
      refine ⟨fuel, _, by omega, houter, ?_⟩
      rw [resume, unreached_cons hat, below_node hpart, Trail.andThen_assoc]
      rfl

end Filter

end DocFilter
