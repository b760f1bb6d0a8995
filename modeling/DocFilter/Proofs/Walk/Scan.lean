import DocFilter.Proofs.Forest.Order
import DocFilter.Proofs.Forest.Replacement

/-!
# The search for the next node

`Walker.advance` leaves frames that are done, passes through parts and stops at any other node, with fuel
for the steps.  `Walker.Scans` is the same search without fuel, and the nodes that the frames have still
to reach are an agenda whose order tells what the search meets.

* `Walker.advance_of_scans` and `Walker.scans_of_advance` take the search from one form to the other.
* `Walker.next_of_pending` and `Walker.next_of_unsettled` say what asking for the next node makes of them.
* `Walker.agenda` is the list of nodes still to reach, `Walker.exists_scans` says that the search over an
  agenda that has an order comes to an end, and `Walker.agenda_descend_some` and `Walker.agenda_descend_gone`
  what is on it once the node that was handed out last was looked up.
* `Walker.Scans.split` splits the order of the agenda at the node that is found.
-/

namespace DocFilter

namespace Walker

open Forest

variable {f f' : Forest} {w : Walker} {p c x root : NodeId} {i fuel : Nat} {frames : List Frame}
  {order : List NodeId}

/-- What a search finds: a node with the frames then, or nothing. -/
abbrev Found := Option (NodeId × List Frame)

/-- The step of a walk that a search makes. -/
def visit (w : Walker) : Found → Forest → Visit
  | none, f => .finished { w with frames := [] } f
  | some (n, frames), f => .node n { w with frames := frames, pending := some n } f

/-- A search from some frames finds something and leaves a forest. -/
inductive Scans : List Frame → Forest → Found → Forest → Prop where
  | finish (f : Forest) : Scans [] f none f
  | leave {p : NodeId} {i : Nat} {frames : List Frame} {f f' : Forest} {found : Found} :
      (f.children p)[i]? = none → Scans frames f found f' → Scans (⟨p, i⟩ :: frames) f found f'
  | pass {p c : NodeId} {i : Nat} {frames : List Frame} {f f' : Forest} {found : Found} :
      (f.children p)[i]? = some c → (f.kind c).isPart →
      Scans (⟨c, 0⟩ :: ⟨p, i + 1⟩ :: frames) (reach f p c) found f' →
      Scans (⟨p, i⟩ :: frames) f found f'
  | stop {p c : NodeId} {i : Nat} {frames : List Frame} {f : Forest} :
      (f.children p)[i]? = some c → ¬ (f.kind c).isPart →
      Scans (⟨p, i⟩ :: frames) f (some (c, ⟨p, i + 1⟩ :: frames)) (reach f p c)

/-! ## With fuel and without -/

theorem advance_leave (h : (f.children p)[i]? = none) :
    w.advance (fuel + 1) (⟨p, i⟩ :: frames) f = w.advance fuel frames f := by
  simp [advance, h]

theorem advance_pass (h : (f.children p)[i]? = some c)
    (hpart : (f.kind c).isPart) :
    w.advance (fuel + 1) (⟨p, i⟩ :: frames) f =
      w.advance fuel (⟨c, 0⟩ :: ⟨p, i + 1⟩ :: frames) (reach f p c) := by
  simp [advance, h, hpart]

theorem advance_stop (h : (f.children p)[i]? = some c)
    (hpart : ¬ (f.kind c).isPart) :
    w.advance (fuel + 1) (⟨p, i⟩ :: frames) f =
      w.visit (some (c, ⟨p, i + 1⟩ :: frames)) (reach f p c) := by
  simp [advance, visit, h, hpart]

/-- With enough fuel the walker makes the search. -/
theorem advance_of_scans {found : Found} (h : Scans frames f found f') :
    ∃ enough, ∀ fuel ≥ enough, ∀ w : Walker, w.advance fuel frames f = w.visit found f' := by
  induction h with
  | finish f =>
    refine ⟨1, fun fuel hfuel w => ?_⟩
    obtain ⟨fuel, rfl⟩ := Nat.exists_eq_add_of_le' hfuel
    rfl
  | leave hnone _ ih =>
    obtain ⟨enough, ih⟩ := ih
    refine ⟨enough + 1, fun fuel hfuel w => ?_⟩
    obtain ⟨fuel, rfl⟩ := Nat.exists_eq_add_of_le' hfuel
    rw [← Nat.add_assoc, advance_leave hnone]
    exact ih _ (by omega) w
  | pass hsome hpart _ ih =>
    obtain ⟨enough, ih⟩ := ih
    refine ⟨enough + 1, fun fuel hfuel w => ?_⟩
    obtain ⟨fuel, rfl⟩ := Nat.exists_eq_add_of_le' hfuel
    rw [← Nat.add_assoc, advance_pass hsome hpart]
    exact ih _ (by omega) w
  | stop hsome hpart =>
    refine ⟨1, fun fuel hfuel w => ?_⟩
    obtain ⟨fuel, rfl⟩ := Nat.exists_eq_add_of_le' hfuel
    exact advance_stop hsome hpart

/-- Unless the fuel runs out the walker makes a search. -/
theorem scans_of_advance (h : w.advance fuel frames f ≠ .exhausted) :
    ∃ found f', Scans frames f found f' ∧ w.advance fuel frames f = w.visit found f' := by
  induction fuel generalizing frames f with
  | zero => exact absurd rfl h
  | succ fuel ih =>
    cases frames with
    | nil => exact ⟨none, f, .finish f, rfl⟩
    | cons frame frames =>
      obtain ⟨p, i⟩ := frame
      cases hc : (f.children p)[i]? with
      | none =>
        rw [advance_leave hc] at h ⊢
        obtain ⟨found, f', hscans, hfound⟩ := ih h
        exact ⟨found, f', .leave hc hscans, hfound⟩
      | some c =>
        by_cases hpart : (f.kind c).isPart
        · rw [advance_pass hc hpart] at h ⊢
          obtain ⟨found, f', hscans, hfound⟩ := ih h
          exact ⟨found, f', .pass hc hpart hscans, hfound⟩
        · exact ⟨_, _, .stop hc hpart, advance_stop hc hpart⟩

/-- A search that begins below a node without children goes on past it. -/
theorem scans_enter {found : Found} (h : Scans (⟨x, 0⟩ :: frames) f found f') :
    Scans (if (f.children x).isEmpty then frames else ⟨x, 0⟩ :: frames) f found f' := by
  split
  · rename_i hempty
    have hnil : f.children x = [] := List.isEmpty_iff.mp hempty
    cases h with
    | leave _ hrest => exact hrest
    | pass hat => simp [hnil] at hat
    | stop hat => simp [hnil] at hat
  · exact h

/-- A search has one outcome. -/
theorem Scans.unique {found found' : Found} {f'' : Forest} (h : Scans frames f found f')
    (h' : Scans frames f found' f'') : found' = found ∧ f'' = f' := by
  induction h with
  | finish =>
    cases h'
    exact ⟨rfl, rfl⟩
  | leave hnone _ ih =>
    cases h' with
    | leave _ hrest => exact ih hrest
    | pass hsome _ _ => cases hnone.symm.trans hsome
    | stop hsome _ => cases hnone.symm.trans hsome
  | pass hsome hpart _ ih =>
    cases h' with
    | leave hnone _ => cases hnone.symm.trans hsome
    | pass hsome' _ hrest =>
      cases hsome.symm.trans hsome'
      exact ih hrest
    | stop hsome' hno =>
      cases hsome.symm.trans hsome'
      exact absurd hpart hno
  | stop hsome hno =>
    cases h' with
    | leave hnone _ => cases hnone.symm.trans hsome
    | pass hsome' hpart _ =>
      cases hsome.symm.trans hsome'
      exact absurd hpart hno
    | stop hsome' _ =>
      cases hsome.symm.trans hsome'
      exact ⟨rfl, rfl⟩

/-! ## Asking for the next node -/

/-- Asking for the next node schedules the children of the last one and searches on. -/
theorem next_of_pending (hstarted : w.started) (hpending : w.pending = some x)
    (hready : x = w.root ∨ f.settles x) :
    w.next fuel f =
      ({ w.descend f x with pending := none }).advance fuel (w.descend f x).frames f := by
  rw [next, hstarted, hpending]
  simp [hready]

/-- So it does from the root, and from a node that bears no mark. -/
theorem scan_next (hstarted : w.started) (hroot : w.root = root) (hpending : w.pending = some x)
    (hmark : x = root ∨ f.replacement? x = none) (fuel : Nat) : w.next fuel f =
      ({ w.descend f x with pending := none }).advance fuel (w.descend f x).frames f :=
  next_of_pending hstarted hpending
    (hmark.imp (fun heq => heq.trans hroot.symm) settles_of_none)

/-- A walk fails if the chain from the node that was handed out last has no end. -/
theorem next_of_unsettled (hstarted : w.started) (hpending : w.pending = some x)
    (hroot : x ≠ w.root) (hunsettled : ¬ f.settles x) : w.next fuel f = .exhausted := by
  rw [next, hstarted, hpending]
  simp [hroot, hunsettled]

/-- A walk with more fuel goes on in the same way. -/
theorem next_stable (h : w.next fuel f ≠ .exhausted) :
    ∃ enough, ∀ more ≥ enough, w.next more f = w.next fuel f := by
  have hadvance : ∀ (v : Walker) (frames : List Frame), v.advance fuel frames f ≠ .exhausted →
      ∃ enough, ∀ more ≥ enough, v.advance more frames f = v.advance fuel frames f := by
    intro v frames hv
    obtain ⟨found, f', hscans, heq⟩ := scans_of_advance hv
    obtain ⟨enough, henough⟩ := advance_of_scans hscans
    exact ⟨enough, fun more hmore => by rw [henough more hmore, heq]⟩
  unfold next at h ⊢
  split
  · exact ⟨0, fun _ _ => rfl⟩
  · rename_i hstarted
    rw [if_neg hstarted] at h
    split
    · rename_i hpending
      rw [hpending] at h
      exact hadvance _ _ h
    · rename_i n hpending
      rw [hpending] at h
      dsimp only at h ⊢
      split
      · rename_i hready
        rw [if_pos hready] at h
        exact hadvance _ _ h
      · exact ⟨0, fun _ _ => rfl⟩

theorem next_start : (Walker.of root).next fuel f =
    .node root { root := root, started := true, pending := some root } f := rfl

@[simp] theorem root_descend : (w.descend f x).root = w.root := by
  rw [descend]
  split
  · rfl
  · split
    · rfl
    · dsimp only
      split <;> rfl

@[simp] theorem started_descend : (w.descend f x).started = w.started := by
  rw [descend]
  split
  · rfl
  · split
    · rfl
    · dsimp only
      split <;> rfl

theorem descend_root (hroot : x = w.root) : (w.descend f x).frames = ⟨x, 0⟩ :: w.frames := by
  rw [descend, if_pos hroot]

/-- The frames of a walk once the children of the node that was handed out last are scheduled. -/
theorem descend_frames (hroot : x ≠ w.root)
    (hframes : w.frames = ⟨p, i⟩ :: frames) :
    (w.descend f x).frames = match f.indexOf? p (f.finalReplacement x) with
      | none => ⟨p, i - 1⟩ :: frames
      | some j => if (f.children (f.finalReplacement x)).isEmpty then ⟨p, j + 1⟩ :: frames
        else ⟨f.finalReplacement x, 0⟩ :: ⟨p, j + 1⟩ :: frames := by
  rw [descend, if_neg hroot, hframes]
  dsimp only
  cases f.indexOf? p (f.finalReplacement x) <;> rfl

theorem mem_descend_frames {frame : Frame} (hroot : x ≠ w.root)
    (hframes : w.frames = ⟨p, i⟩ :: frames) (hmark : f.replacement? x = none)
    (h : frame ∈ (w.descend f x).frames) :
    frame.node = x ∨ ∃ old ∈ w.frames, old.node = frame.node := by
  have hmem : frame.node = x ∨ frame.node = p ∨ frame ∈ frames := by
    rw [descend_frames hroot hframes, finalReplacement_of_none hmark] at h
    split at h
    · rcases List.mem_cons.mp h with rfl | h
      · exact .inr (.inl rfl)
      · exact .inr (.inr h)
    · split at h
      · rcases List.mem_cons.mp h with rfl | h
        · exact .inr (.inl rfl)
        · exact .inr (.inr h)
      · rw [List.mem_cons, List.mem_cons] at h
        rcases h with rfl | rfl | h
        · exact .inl rfl
        · exact .inr (.inl rfl)
        · exact .inr (.inr h)
  rcases hmem with hn | hp | houter
  · exact .inl hn
  · exact .inr ⟨⟨p, i⟩, by simp [hframes], hp.symm⟩
  · exact .inr ⟨frame, by simp [hframes, houter], rfl⟩

/-! ## What a search leaves alone -/

theorem Scans.children {found : Found} (h : Scans frames f found f') (n : NodeId) :
    f'.children n = f.children n := by
  induction h with
  | finish => rfl
  | leave _ _ ih => exact ih
  | pass _ _ _ ih => rw [ih, children_reach]
  | stop => rw [children_reach]

theorem Scans.kind {found : Found} (h : Scans frames f found f') (n : NodeId) :
    f'.kind n = f.kind n := by
  induction h with
  | finish => rfl
  | leave _ _ ih => exact ih
  | pass _ _ _ ih => rw [ih, kind_reach]
  | stop => rw [kind_reach]

theorem Scans.size {found : Found} (h : Scans frames f found f') : f'.size = f.size := by
  induction h with
  | finish => rfl
  | leave _ _ ih => exact ih
  | pass _ _ _ ih => rw [ih, size_reach]
  | stop => rw [size_reach]

/-- A node that is found has its old mark dropped and stands where the innermost frame says. -/
theorem Scans.found {n : NodeId} {frames' : List Frame}
    (h : Scans frames f (some (n, frames')) f') :
    f'.replacement? n = none ∧ ∃ p i outer, frames' = ⟨p, i + 1⟩ :: outer ∧
      (f.children p)[i]? = some n ∧ (f.Has n → f'.holder? n = some p) := by
  generalize hfound : some (n, frames') = found at h
  induction h with
  | finish => cases hfound
  | leave _ _ ih => exact ih hfound
  | pass _ _ _ ih =>
    obtain ⟨hmark, p, i, outer, hframes, hat, hholder⟩ := ih hfound
    rw [children_reach] at hat
    exact ⟨hmark, p, i, outer, hframes, hat, fun hhas => hholder (by rwa [Has, size_reach])⟩
  | stop hat _ =>
    cases hfound
    exact ⟨by simp [replacement?_reach], _, _, _, rfl, hat, fun hhas => by simp [holder?_reach, hhas]⟩

/-- The node that a walk goes on to is the one handed out last then, and bears no mark. -/
theorem arrived_of_next {n : NodeId} {w' : Walker} (hstarted : w.started)
    (h : w.next fuel f = .node n w' f') :
    w'.started ∧ w'.pending = some n ∧ f'.replacement? n = none := by
  have hadvance : ∀ (v : Walker) (frames : List Frame), v.started →
      v.advance fuel frames f = .node n w' f' →
      w'.started ∧ w'.pending = some n ∧ f'.replacement? n = none := by
    intro v frames hv hnext
    have hfuel : v.advance fuel frames f ≠ .exhausted := by simp [hnext]
    obtain ⟨found, f'', hscans, heq⟩ := scans_of_advance hfuel
    rw [hnext] at heq
    cases found with
    | none => cases heq
    | some found =>
      cases heq
      exact ⟨hv, rfl, hscans.found.1⟩
  rw [next, hstarted] at h
  simp only [Bool.not_true, Bool.false_eq_true, if_false] at h
  split at h
  · exact hadvance _ _ hstarted h
  · split at h
    · exact hadvance _ _ (by simpa using hstarted) h
    · cases h

/-- After the last node there is never another one, whatever happens to the forest. -/
theorem next_of_finished {w' : Walker} (hstarted : w.started) (h : w.next fuel f = .finished w' f')
    (more : Nat) (g : Forest) : w'.next (more + 1) g = .finished w' g := by
  have hadvance : ∀ (v : Walker) (frames : List Frame), v.started → v.pending = none →
      v.advance fuel frames f = .finished w' f' → w'.next (more + 1) g = .finished w' g := by
    intro v frames hv hpending hnext
    have hfuel : v.advance fuel frames f ≠ .exhausted := by simp [hnext]
    obtain ⟨found, g', hscans, heq⟩ := scans_of_advance hfuel
    rw [hnext] at heq
    cases found with
    | some found => cases heq
    | none =>
      cases heq
      simp [next, advance, hv, hpending]
  rw [next, hstarted] at h
  simp only [Bool.not_true, Bool.false_eq_true, if_false] at h
  split at h
  · rename_i hpending
    exact hadvance _ _ hstarted hpending h
  · split at h
    · exact hadvance _ _ (by simpa using hstarted) rfl h
    · cases h

/-- The frames of a search stay among nodes that hold what they hold. -/
theorem Scans.places {n : NodeId} {frames' : List Frame} {among : NodeId → Prop}
    (h : Scans frames f (some (n, frames')) f')
    (hclosed : ∀ m, among m → ∀ c ∈ f.children m, among c)
    (hframes : ∀ frame ∈ frames, among frame.node) : ∀ frame ∈ frames', among frame.node := by
  generalize hfound : some (n, frames') = found at h
  induction h with
  | finish => cases hfound
  | leave _ _ ih => exact ih hclosed (fun frame hframe => hframes frame (by simp [hframe])) hfound
  | @pass p c i frames f f' found hat _ _ ih =>
    have hp : among p := hframes ⟨p, i⟩ (by simp)
    have hc : among c := hclosed p hp c (List.mem_of_getElem? hat)
    refine ih (fun m hm d hd => hclosed m hm d (by rwa [children_reach] at hd)) ?_ hfound
    intro frame hframe
    rw [List.mem_cons, List.mem_cons] at hframe
    rcases hframe with rfl | rfl | hframe
    · exact hc
    · exact hp
    · exact hframes frame (by simp [hframe])
  | @stop p c i frames f _ _ =>
    cases hfound
    intro frame hframe
    rcases List.mem_cons.mp hframe with rfl | hframe
    · exact hframes ⟨p, i⟩ (by simp)
    · exact hframes frame (by simp [hframe])

/-! ## The agenda -/

/-- The children that a frame has still to reach. -/
def unreached (f : Forest) (frame : Frame) : List NodeId :=
  (f.children frame.node).drop frame.index

/-- The nodes that the frames have still to reach. -/
def agenda (f : Forest) (frames : List Frame) : List NodeId := frames.flatMap (unreached f)

/-- A frame whose index has just gone past a child splits the children there. -/
theorem children_split (h : (f.children p)[i]? = some c) :
    f.children p = (f.children p).take i ++ c :: unreached f ⟨p, i + 1⟩ := by
  obtain ⟨hi, rfl⟩ := List.getElem?_eq_some_iff.mp h
  rw [unreached, ← List.drop_eq_getElem_cons hi, List.take_append_drop]

theorem agenda_congr (h : ∀ frame ∈ frames, f'.children frame.node = f.children frame.node) :
    agenda f' frames = agenda f frames := by
  induction frames with
  | nil => rfl
  | cons frame frames ih =>
    rw [agenda, List.flatMap_cons, unreached, h frame (by simp)]
    exact congrArg _ (ih fun frame hframe => h frame (by simp [hframe]))

theorem agenda_leave (h : (f.children p)[i]? = none) :
    agenda f (⟨p, i⟩ :: frames) = agenda f frames := by
  have hlength : (f.children p).length ≤ i := List.getElem?_eq_none_iff.mp h
  simp [agenda, unreached, List.drop_eq_nil_of_le hlength]

theorem agenda_some (h : (f.children p)[i]? = some c) :
    agenda f (⟨p, i⟩ :: frames) = c :: agenda f (⟨p, i + 1⟩ :: frames) := by
  obtain ⟨hi, rfl⟩ := List.getElem?_eq_some_iff.mp h
  have hdrop : unreached f ⟨p, i⟩ = (f.children p)[i] :: unreached f ⟨p, i + 1⟩ :=
    List.drop_eq_getElem_cons hi
  rw [agenda, agenda, List.flatMap_cons, List.flatMap_cons, hdrop]
  rfl

theorem agenda_enter : agenda f (⟨c, 0⟩ :: frames) = f.children c ++ agenda f frames := by
  simp [agenda, unreached]

theorem agenda_schedule {frame : Frame} :
    agenda f (if (f.children x).isEmpty then frame :: frames else ⟨x, 0⟩ :: frame :: frames) =
      f.children x ++ agenda f (frame :: frames) := by
  split
  · rename_i hempty
    rw [List.isEmpty_iff.mp hempty, List.nil_append]
  · exact agenda_enter

/-- Ahead of a node whose replacement stands in the list that the node came from are the children of the
replacement, and then what follows it there. -/
theorem agenda_descend_some {j : Nat} (hroot : x ≠ w.root) (hframes : w.frames = ⟨p, i⟩ :: frames)
    (hj : f.indexOf? p (f.finalReplacement x) = some j) :
    agenda f (w.descend f x).frames = f.children (f.finalReplacement x) ++ agenda f (⟨p, j + 1⟩ :: frames) := by
  rw [descend_frames hroot hframes, hj]
  exact agenda_schedule

theorem agenda_descend {before after : List NodeId} (hroot : x ≠ w.root) (hframes : w.frames = ⟨p, i⟩ :: frames)
    (hchildren : f.children p = before ++ f.finalReplacement x :: after)
    (hbefore : f.finalReplacement x ∉ before) :
    agenda f (w.descend f x).frames = f.children (f.finalReplacement x) ++ (after ++ agenda f frames) := by
  rw [agenda_descend_some hroot hframes (indexOf?_of_split hchildren hbefore), agenda, List.flatMap_cons]
  simp [unreached, hchildren, List.drop_append, agenda]

/-- Ahead of a node that is gone from the list is what stands from its place on. -/
theorem agenda_descend_gone (hroot : x ≠ w.root) (hframes : w.frames = ⟨p, i + 1⟩ :: frames)
    (hgone : f.finalReplacement x ∉ f.children p) :
    agenda f (w.descend f x).frames = (f.children p).drop i ++ agenda f frames := by
  have hnone : f.indexOf? p (f.finalReplacement x) = none := by
    rw [← Option.not_isSome_iff_eq_none, isSome_indexOf?]
    exact hgone
  rw [descend_frames hroot hframes, hnone]
  rfl

theorem agenda_reach : agenda (reach f p c) frames = agenda f frames :=
  agenda_congr fun _ _ => children_reach

theorem lists_reach {ns : List NodeId} (h : f.Lists ns order) : (reach f p c).Lists ns order :=
  h.congr fun _ _ => children_reach

/-- What frames have still to reach has an order, if the tree has one. -/
theorem exists_agenda (horder : f.Lists [root] order)
    (hframes : ∀ frame ∈ frames, f.Below root frame.node) :
    ∃ todo, f.Lists (agenda f frames) todo := by
  induction frames with
  | nil => exact ⟨[], .nil⟩
  | cons frame frames ih =>
    obtain ⟨todo, htodo⟩ := ih fun frame hframe => hframes frame (by simp [hframe])
    have hmem := horder.mem_singleton_iff.mpr (hframes frame (by simp))
    obtain ⟨inner, hinner, -⟩ := horder.exists_inner hmem
    rw [← List.take_append_drop frame.index (f.children frame.node)] at hinner
    obtain ⟨first, second, -, hsecond, -⟩ := lists_append_iff.mp hinner
    exact ⟨second ++ todo, hsecond.append htodo⟩

theorem lists_enter {inner after : List NodeId} (hinner : f.Lists (f.children c) inner)
    (hafter : f.Lists (agenda f frames) after) :
    (reach f p c).Lists (agenda (reach f p c) (⟨c, 0⟩ :: frames)) (inner ++ after) := by
  rw [agenda_reach, agenda_enter]
  exact lists_reach (hinner.append hafter)

/-- A search over an agenda that has an order comes to an end: each step leaves a frame or takes the
first node out of the order. -/
theorem exists_scans (h : f.Lists (agenda f frames) order) : ∃ found f', Scans frames f found f' := by
  induction hsize : 2 * order.length + frames.length using Nat.strongRecOn
    generalizing f frames order with
  | _ size ih =>
    subst hsize
    cases frames with
    | nil => exact ⟨none, f, .finish f⟩
    | cons frame frames =>
      obtain ⟨p, i⟩ := frame
      cases hc : (f.children p)[i]? with
      | none =>
        rw [agenda_leave hc] at h
        obtain ⟨found, f', hscans⟩ := ih _ (by simp) h rfl
        exact ⟨found, f', .leave hc hscans⟩
      | some c =>
        by_cases hpart : (f.kind c).isPart
        · rw [agenda_some hc] at h
          obtain ⟨inner, after, hinner, hafter, rfl⟩ := lists_cons_iff.mp h
          obtain ⟨found, f', hscans⟩ := ih _ (by simp; omega) (lists_enter hinner hafter) rfl
          exact ⟨found, f', .pass hc hpart hscans⟩
        · exact ⟨_, _, .stop hc hpart⟩

/-- What the order of an agenda holds for a search: parts, and then the node that is found with those
below it. -/
def Accounts (f f' : Forest) (order : List NodeId) : Found → Prop
  | none => ∀ m ∈ order, (f.kind m).isPart
  | some (n, frames) => ∃ parts inner after,
      order = parts ++ n :: (inner ++ after) ∧ (∀ m ∈ parts, (f.kind m).isPart) ∧
        ¬ (f.kind n).isPart ∧ f.Lists (f.children n) inner ∧ f.Lists (agenda f' frames) after

/-- A search that finds nothing has passed through parts only. -/
theorem Scans.all_parts (h : Scans frames f none f') (horder : f.Lists (agenda f frames) order) :
    ∀ m ∈ order, (f.kind m).isPart := by
  generalize hfound : (none : Found) = found at h
  induction h generalizing order with
  | finish f =>
    rw [agenda, List.flatMap_nil, lists_nil_iff] at horder
    simp [horder]
  | leave hnone _ ih =>
    rw [agenda_leave hnone] at horder
    exact ih horder hfound
  | @pass p c i frames f f' found hsome hpart _ ih =>
    rw [agenda_some hsome] at horder
    obtain ⟨inner, after, hinner, hafter, rfl⟩ := lists_cons_iff.mp horder
    have hrest := ih (lists_enter hinner hafter) hfound
    simp only [kind_reach] at hrest
    exact List.forall_mem_cons.mpr ⟨hpart, hrest⟩
  | stop => cases hfound

/-- A search passes through parts, which the frames then lead through, and comes to the node that it
finds. -/
theorem Scans.split {n : NodeId} {frames' : List Frame}
    (h : Scans frames f (some (n, frames')) f') (horder : f.Lists (agenda f frames) order) :
    ∃ parts inner after, order = parts ++ n :: (inner ++ after) ∧ (∀ m ∈ parts, (f.kind m).isPart) ∧
      ¬ (f.kind n).isPart ∧ f.Lists (f.children n) inner ∧ f.Lists (agenda f' frames') after ∧
      ∀ frame ∈ frames', (∃ old ∈ frames, old.node = frame.node) ∨ frame.node ∈ parts := by
  generalize hfound : some (n, frames') = found at h
  induction h generalizing order with
  | finish => cases hfound
  | @leave p i frames f f' found hnone _ ih =>
    rw [agenda_leave hnone] at horder
    obtain ⟨parts, inner, after, hsplit, hparts, hn, hinner, hafter, hframes⟩ := ih horder hfound
    refine ⟨parts, inner, after, hsplit, hparts, hn, hinner, hafter, fun frame hframe => ?_⟩
    rcases hframes frame hframe with ⟨old, hold, heq⟩ | hpart
    · exact .inl ⟨old, by simp [hold], heq⟩
    · exact .inr hpart
  | @pass p c i frames f f' found hsome hpart _ ih =>
    rw [agenda_some hsome] at horder
    obtain ⟨inner, after, hinner, hafter, rfl⟩ := lists_cons_iff.mp horder
    obtain ⟨parts, inner', after', hsplit, hparts, hn, hin, haf, hframes⟩ :=
      ih (lists_enter hinner hafter) hfound
    simp only [kind_reach] at hparts hn
    rw [children_reach] at hin
    refine ⟨c :: parts, inner', after', by rw [hsplit]; rfl, List.forall_mem_cons.mpr ⟨hpart, hparts⟩,
      hn, hin.congr fun _ _ => children_reach.symm, haf.congr fun _ _ => children_reach.symm,
      fun frame hframe => ?_⟩
    rcases hframes frame hframe with ⟨old, hold, heq⟩ | hmem
    · rw [List.mem_cons, List.mem_cons] at hold
      rcases hold with rfl | rfl | hold
      · exact .inr (by simp [← heq])
      · exact .inl ⟨⟨p, i⟩, by simp, heq⟩
      · exact .inl ⟨old, by simp [hold], heq⟩
    · exact .inr (by simp [hmem])
  | @stop p c i frames f hsome hpart =>
    cases hfound
    rw [agenda_some hsome] at horder
    obtain ⟨inner, after, hinner, hafter, rfl⟩ := lists_cons_iff.mp horder
    refine ⟨[], inner, after, rfl, by simp, hpart, hinner, by rwa [agenda_reach], fun frame hframe => ?_⟩
    rcases List.mem_cons.mp hframe with rfl | hframe
    · exact .inl ⟨⟨p, i⟩, by simp, rfl⟩
    · exact .inl ⟨frame, by simp [hframe], rfl⟩

theorem Scans.account {found : Found} (h : Scans frames f found f')
    (horder : f.Lists (agenda f frames) order) : Accounts f f' order found := by
  cases found with
  | none => exact h.all_parts horder
  | some found =>
    obtain ⟨parts, inner, after, hsplit, hparts, hn, hinner, hafter, -⟩ := h.split horder
    exact ⟨parts, inner, after, hsplit, hparts, hn, hinner, hafter⟩

end Walker

end DocFilter
