import DocFilter.Proofs.Walk.Insertion

/-!
# What a walk has ahead

Whatever was added to the tree, a walk stands at a node that it has handed out, and its frames lead down to
the node from the root.  Only the indexes of the frames may have come to point elsewhere.

* `Walker.Descent` says that frames lead down to a node, wherever their indexes point, and
  `Walker.Scans.descent` that a search keeps to such frames.
* `Walker.ahead` are the nodes that a walk has still to reach.
* `Walker.Standing` is where a walk stands.  `Walker.Standing.ahead_grown` says what an addition makes of the
  nodes ahead: one child comes back, or the new node is one of them, or they are the same.
-/

namespace DocFilter

namespace Walker

open Forest

variable {f f' : Forest} {w : Walker} {root n p x s : NodeId} {i : Nat}
  {pre post done rest seen parts : List NodeId} {frames outer : List Frame}

/-! ## Down to the present node -/

/-- The frames lead from the root down to a node, wherever the indexes point. -/
inductive Descent (f : Forest) (root : NodeId) : List Frame → NodeId → Prop where
  | root : Descent f root [] root
  | child {frames : List Frame} {p x : NodeId} {i : Nat} : Descent f root frames p →
      i ≤ (f.children p).length → x ∈ f.children p → Descent f root (⟨p, i⟩ :: frames) x

/-- The frames lead down to the node of the innermost one. -/
def Poised (f : Forest) (root : NodeId) : List Frame → Prop
  | [] => True
  | frame :: outer => Descent f root outer frame.node ∧ frame.index ≤ (f.children frame.node).length

theorem Descent.leads (h : Descent f root frames x) : f.Below root x := by
  induction h with
  | root => exact .refl root
  | child _ _ hmem ih => exact ih.trans (.of_mem hmem)

theorem Descent.below_of_mem {frame : Frame} (h : Descent f root frames x) (hframe : frame ∈ frames) :
    f.Below root frame.node := by
  induction h with
  | root => simp at hframe
  | child hdescent _ _ ih =>
    rcases List.mem_cons.mp hframe with rfl | hframe
    · exact hdescent.leads
    · exact ih hframe

theorem Descent.index_le {frame : Frame} (h : Descent f root frames x) (hframe : frame ∈ frames) :
    frame.index ≤ (f.children frame.node).length := by
  induction h with
  | root => simp at hframe
  | child _ hindex _ ih =>
    rcases List.mem_cons.mp hframe with rfl | hframe
    · exact hindex
    · exact ih hframe

/-- The present node and those above it are different nodes. -/
theorem Descent.nodup (h : Descent f root frames x) (hstrict : f.Strict root) :
    (x :: frames.map Frame.node).Nodup := by
  suffices habove : (x :: frames.map Frame.node).Nodup ∧ ∀ y ∈ x :: frames.map Frame.node, f.Below y x
    from habove.1
  induction h with
  | root => simp [Below.refl]
  | @child frames p x i hdescent _ hmem ih =>
    obtain ⟨hnodup, habove⟩ := ih
    rw [List.map_cons]
    refine ⟨List.nodup_cons.mpr ⟨fun hx => ?_, hnodup⟩, ?_⟩
    · exact hstrict.not_below_child hdescent.leads hmem (habove x hx)
    · rw [List.forall_mem_cons]
      exact ⟨.refl x, fun y hy => (habove y hy).trans (.of_mem hmem)⟩

theorem Descent.poised (h : Descent f root frames x) : Poised f root frames := by
  cases h with
  | root => trivial
  | child hdescent hindex _ => exact ⟨hdescent, hindex⟩

/-- A descent depends on the nodes of the tree only, and more children do not matter. -/
theorem Descent.mono (h : Descent f root frames x)
    (hmore : ∀ m, f.Below root m → f.children m ⊆ f'.children m ∧
      (f.children m).length ≤ (f'.children m).length) : Descent f' root frames x := by
  induction h with
  | root => exact .root
  | child hdescent hindex hmem ih =>
    obtain ⟨hsub, hlength⟩ := hmore _ hdescent.leads
    exact .child ih (hindex.trans hlength) (hsub hmem)

theorem Descent.congr (h : Descent f root frames x)
    (hsame : ∀ m, f.Below root m → f'.children m = f.children m) : Descent f' root frames x :=
  h.mono fun m hm => by simp [hsame m hm]

theorem Poised.child {c : NodeId} (h : Poised f root (⟨p, i⟩ :: frames))
    (hat : (f.children p)[i]? = some c) : Descent f root (⟨p, i + 1⟩ :: frames) c :=
  .child h.1 (List.getElem?_eq_some_iff.mp hat).1 (List.mem_of_getElem? hat)

theorem Poised.reach {c : NodeId} (h : Poised f root (⟨p, i⟩ :: frames))
    (hat : (f.children p)[i]? = some c) : Descent (reach f p c) root (⟨p, i + 1⟩ :: frames) c :=
  (h.child hat).congr fun _ _ => children_reach

/-- The frames of a search that stops lead down to the node that it finds. -/
theorem Scans.descent {frames' : List Frame} (h : Scans frames f (some (n, frames')) f')
    (hpoised : Poised f root frames) : Descent f' root frames' n := by
  generalize hfound : some (n, frames') = found at h
  induction h with
  | finish => cases hfound
  | leave _ _ ih => exact ih hpoised.1.poised hfound
  | pass hat _ _ ih => exact ih ⟨hpoised.reach hat, Nat.zero_le _⟩ hfound
  | stop hat _ =>
    cases hfound
    exact hpoised.reach hat

/-- A walk stands at the root, without frames, or at a child of the node of the innermost frame. -/
theorem Descent.split (h : Descent f root frames x) (hstrict : f.Strict root) :
    (x = root ∧ frames = []) ∨ (x ≠ root ∧ ∃ p i outer done rest, frames = ⟨p, i⟩ :: outer ∧
      Descent f root outer p ∧ f.children p = done ++ x :: rest ∧ x ∉ done) := by
  cases h with
  | root => exact .inl ⟨rfl, rfl⟩
  | child hdescent _ hmem =>
    have hroot : x ≠ root := fun heq => hstrict.not_mem_children hdescent.leads (heq ▸ hmem)
    obtain ⟨done, rest, hchildren⟩ := List.append_of_mem hmem
    have hnodup := hstrict.nodup_children hdescent.leads
    rw [hchildren, List.nodup_append'] at hnodup
    exact .inr ⟨hroot, _, _, _, done, rest, rfl, hdescent, hchildren,
      fun hx => hnodup.2.2 hx (by simp)⟩

/-! ## Where a walk stands -/

/-- Where a walk stands: at its beginning, or at a node that it has handed out and that the frames lead
down to, through nodes that it has met. -/
inductive Standing (f : Forest) (root : NodeId) (w : Walker) (seen parts : List NodeId) : Prop where
  | start : w = .of root → seen = [] → parts = [] → Standing f root w seen parts
  | present (x : NodeId) : w.started → w.root = root → w.pending = some x →
      (x = root ∨ f.replacement? x = none) → Descent f root w.frames x →
      (∀ y ∈ x :: w.frames.map Frame.node, y ∈ seen ++ parts) → Standing f root w seen parts

/-- The frames once the children of the present node are scheduled. -/
theorem Descent.schedule (h : Descent f root w.frames x) (hstrict : f.Strict root)
    (hroot : w.root = root) (hmark : x = root ∨ f.replacement? x = none) :
    Poised f root (w.descend f x).frames ∧
      ∀ frame ∈ (w.descend f x).frames, frame.node ∈ x :: w.frames.map Frame.node := by
  rcases h.split hstrict with ⟨rfl, hframes⟩ | ⟨hx, p, i, outer, done, rest, hframes, hp, hchildren, hdone⟩
  · rw [descend_root hroot.symm, hframes]
    exact ⟨⟨.root, Nat.zero_le _⟩, by simp⟩
  · have hindex : done.length + 1 ≤ (f.children p).length := by simp [hchildren]
    have hmem : x ∈ f.children p := by simp [hchildren]
    rw [descend_frames (hroot ▸ hx) hframes, finalReplacement_of_none (hmark.resolve_left hx),
      indexOf?_of_split hchildren hdone, hframes]
    have houter : ∀ frame ∈ outer, frame.node ∈ outer.map Frame.node :=
      fun frame hframe => List.mem_map_of_mem hframe
    dsimp only
    split
    · refine ⟨⟨hp, hindex⟩, List.forall_mem_cons.mpr ⟨by simp, fun frame hframe => ?_⟩⟩
      simp [houter frame hframe]
    · refine ⟨⟨.child hp hindex hmem, Nat.zero_le _⟩, List.forall_mem_cons.mpr ⟨by simp, ?_⟩⟩
      refine List.forall_mem_cons.mpr ⟨by simp, fun frame hframe => ?_⟩
      simp [houter frame hframe]

theorem Poised.below_of_mem {frame : Frame} (h : Poised f root frames) (hframe : frame ∈ frames) :
    f.Below root frame.node := by
  cases frames with
  | nil => simp at hframe
  | cons first outer =>
    rcases List.mem_cons.mp hframe with rfl | hframe
    · exact h.1.leads
    · exact h.1.below_of_mem hframe

/-! ## What lies ahead -/

/-- The nodes that a walk has still to reach. -/
def ahead (w : Walker) (f : Forest) : List NodeId := match w.pending with
  | none => [w.root]
  | some x => agenda f (w.descend f x).frames

theorem ahead_root (hpending : w.pending = some root) (hroot : w.root = root)
    (hframes : w.frames = []) : ahead w f = f.children root := by
  simp [ahead, hpending, descend_root hroot.symm, hframes, agenda, unreached]

/-- Ahead are the children of the present node, and then the siblings after it. -/
theorem ahead_child (hpending : w.pending = some x) (hroot : x ≠ w.root)
    (hmark : f.replacement? x = none) (hframes : w.frames = ⟨p, i⟩ :: outer)
    (hchildren : f.children p = done ++ x :: rest) (hdone : x ∉ done) :
    ahead w f = f.children x ++ (rest ++ agenda f outer) := by
  have hfinal : f.finalReplacement x = x := finalReplacement_of_none hmark
  rw [ahead, hpending]
  dsimp only
  rw [agenda_descend hroot hframes (hfinal.symm ▸ hchildren) (hfinal.symm ▸ hdone), hfinal]

/-- Once a search has found a node, ahead are its children and what the frames have left. -/
theorem Scans.ahead_found (h : Scans frames f (some (n, outer)) f') (hpoised : Poised f root frames)
    (hstrict : f.Strict root) (hroot : w.root = root) (hpending : w.pending = some n) (hframes : w.frames = outer) :
    ahead w f' = f.children n ++ agenda f' outer := by
  obtain ⟨hunmarked, p, i, above, houter, hat, -⟩ := h.found
  have hsame : ∀ m, f'.children m = f.children m := h.children
  have hleads : Descent f root outer n := (h.descent hpoised).congr fun m _ => (hsame m).symm
  have hinnermost : ⟨p, i + 1⟩ ∈ outer := by simp [houter]
  have hp : f.Below root p := hleads.below_of_mem hinnermost
  have hn : n ≠ w.root := fun heq =>
    hstrict.not_mem_children hp (hroot ▸ heq ▸ List.mem_of_getElem? hat)
  have hchildren : f'.children p = (f.children p).take i ++ n :: unreached f' ⟨p, i + 1⟩ := by
    rw [hsame, unreached, hsame]
    exact children_split hat
  have hdone : n ∉ (f.children p).take i := by
    have hnodup := hstrict.nodup_children hp
    rw [← hsame, hchildren, List.nodup_append'] at hnodup
    exact fun hmem => hnodup.2.2 hmem (by simp)
  rw [ahead_child hpending hn hunmarked (hframes.trans houter) hchildren hdone, hsame, houter]
  rfl

theorem below_of_mem_agenda (hframes : ∀ frame ∈ frames, f.Below root frame.node)
    (hs : s ∈ agenda f frames) : f.Below root s := by
  obtain ⟨frame, hframe, hs⟩ := List.mem_flatMap.mp hs
  exact (hframes frame hframe).trans (.of_mem (List.mem_of_mem_drop hs))

/-- What is ahead lies in the tree. -/
theorem Standing.ahead_below (h : Standing f root w seen parts) (hstrict : f.Strict root)
    (hs : s ∈ ahead w f) : f.Below root s := by
  cases h with
  | start hw =>
    obtain rfl : s = root := by simpa [ahead, hw, Walker.of] using hs
    exact .refl s
  | present x _ hroot hpending hmark hdescent _ =>
    rw [ahead, hpending] at hs
    obtain ⟨hpoised, -⟩ := hdescent.schedule hstrict hroot hmark
    exact below_of_mem_agenda (fun frame hframe => hpoised.below_of_mem hframe) hs

/-- Where a walk stands depends on the lists and marks of the tree. -/
theorem Standing.congr (h : Standing f root w seen parts) (hstrict : f.Strict root)
    (hsame : ∀ m, f.Below root m → f'.children m = f.children m)
    (hmarks : ∀ m, f.Below root m → f'.replacement? m = f.replacement? m) :
    Standing f' root w seen parts ∧ ahead w f' = ahead w f := by
  cases h with
  | start hw hseen hparts => exact ⟨.start hw hseen hparts, by simp [ahead, hw, Walker.of]⟩
  | present x hstarted hroot hpending hmark hdescent hmet =>
    have hmark' : x = root ∨ f'.replacement? x = none := by rwa [hmarks x hdescent.leads]
    refine ⟨.present x hstarted hroot hpending hmark' (hdescent.congr hsame) hmet, ?_⟩
    rcases hdescent.split hstrict with
      ⟨rfl, hframes⟩ | ⟨hx, p, i, outer, done, rest, hframes, hp, hchildren, hdone⟩
    · rw [ahead_root hpending hroot hframes, ahead_root hpending hroot hframes, hsame x (.refl x)]
    · have hchildren' : f'.children p = done ++ x :: rest := (hsame p hp.leads).trans hchildren
      rw [ahead_child hpending (hroot ▸ hx) (hmark'.resolve_left hx) hframes hchildren' hdone,
        ahead_child hpending (hroot ▸ hx) (hmark.resolve_left hx) hframes hchildren hdone,
        hsame x hdescent.leads, agenda_congr fun frame hframe => hsame _ (hp.below_of_mem hframe)]

/-- The siblings after a node, when one more child goes in front of it or behind it. -/
theorem siblings_grown (hold : done ++ n :: rest = pre ++ post) (hn : n ∉ done) (hnx : n ≠ x) :
    ∃ done' rest', pre ++ x :: post = done' ++ n :: rest' ∧ n ∉ done' ∧
      (rest' = rest ∨ rest'.Perm (x :: rest)) := by
  rcases List.append_eq_append_iff.mp hold with ⟨mid, rfl, hrest⟩ | ⟨mid, rfl, rfl⟩
  · cases mid with
    | nil =>
      refine ⟨done ++ [x], rest, ?_, by simp [hn, hnx], .inl rfl⟩
      simp only [List.nil_append] at hrest
      simp [hrest]
    | cons first mid =>
      obtain ⟨rfl, rfl⟩ := List.cons.inj hrest
      exact ⟨done, mid ++ x :: post, by simp, hn, .inr List.perm_middle⟩
  · rw [List.mem_append, not_or] at hn
    exact ⟨pre ++ x :: mid, rest, by simp, by simp [hn, hnx], .inl rfl⟩

/-- A walk stands where it stood after a node was added. -/
theorem Standing.grown (h : Standing f root w seen parts) (hgrown : Grown f f' root p x pre post) :
    Standing f' root w seen parts := by
  cases h with
  | start hw hseen hparts => exact .start hw hseen hparts
  | present y hstarted hroot hpending hmark hdescent hmet =>
    have hmore : ∀ m, f.Below root m → f.children m ⊆ f'.children m ∧
        (f.children m).length ≤ (f'.children m).length := fun m hm => by
      by_cases hmp : m = p
      · rw [hmp, hgrown.held, hgrown.holds]
        refine ⟨fun c hc => ?_, by simp⟩
        rw [List.mem_append] at hc
        rw [List.mem_append, List.mem_cons]
        exact hc.imp_right .inr
      · simp [hgrown.others m (.inl hm) hmp]
    have hmark' : y = root ∨ f'.replacement? y = none := by rwa [hgrown.mark]
    exact .present y hstarted hroot hpending hmark' (hdescent.mono hmore) hmet

/-- After a node was added, a child comes back, or the node that was added is ahead as well, and then it was
added to a node that the walk has met; or nothing more is ahead. -/
theorem Standing.ahead_grown (h : Standing f root w seen parts) (hstrict : f.Strict root)
    (hgrown : Grown f f' root p x pre post) :
    Comes f p x (seen ++ parts) (setBack f f' w.frames) (ahead w f) (ahead w f') := by
  cases h with
  | start hw _ _ =>
    subst hw
    exact .same _ [root]
  | present y hstarted hroot hpending hmark hdescent hmet =>
    have hmark' : y = root ∨ f'.replacement? y = none := by rwa [hgrown.mark]
    have hpresent : p = y → Comes f p x (seen ++ parts) [] (f.children y) (f'.children y) := by
      rintro rfl
      exact hgrown.comes_children.mono (by simpa using hmet p List.mem_cons_self)
    have helse : ∀ m, f.Below root m → p ≠ m → f'.children m = f.children m := fun m hm hne =>
      hgrown.others m (.inl hm) hne.symm
    have hdifferent := hdescent.nodup hstrict
    rcases hdescent.split hstrict with
      ⟨rfl, hframes⟩ | ⟨hy, q, i, outer, done, rest, hframes, hq, hchildren, hdone⟩
    · rw [ahead_root hpending hroot hframes, ahead_root hpending hroot hframes, hframes]
      by_cases hp : p = y
      · exact hpresent hp
      · rw [helse y (.refl y) hp]
        exact .same _ _
    · have hplaces : ∀ frame ∈ outer, f.Below root frame.node := fun _ => hq.below_of_mem
      have hahead' : ∀ done' rest', f'.children q = done' ++ y :: rest' → y ∉ done' →
          ahead w f' = f'.children y ++ (rest' ++ agenda f' outer) := fun done' rest' =>
        ahead_child hpending (hroot ▸ hy) (hmark'.resolve_left hy) hframes
      rw [hframes] at hmet hdifferent
      rw [List.map_cons, List.nodup_cons, List.nodup_cons] at hdifferent
      obtain ⟨hyabove, hqabove, habove⟩ := hdifferent
      rw [List.mem_cons, not_or] at hyabove
      have hback : setBack f f' w.frames = outer.flatMap (returned f f') := by rw [hframes]; rfl
      rw [hback, ahead_child hpending (hroot ▸ hy) (hmark.resolve_left hy) hframes hchildren hdone]
      by_cases hpq : p = q
      · subst hpq
        obtain ⟨hnone, hsame⟩ := hgrown.agenda_other hstrict hplaces hqabove
        have hyx : y ≠ x := fun heq => hgrown.apart.disjoint y (heq ▸ .refl y) hdescent.leads
        obtain ⟨done', rest', hsplit, hdone', hrest⟩ :=
          siblings_grown (hchildren.symm.trans hgrown.held) hdone hyx
        have hsiblings : Comes f p x (seen ++ parts) [] rest rest' := by
          rcases hrest with rfl | hperm
          · exact .same _ _
          · exact .new rfl (hmet p (by simp)) hperm
        rw [hahead' done' rest' (hgrown.holds.trans hsplit) hdone', hnone, hsame,
          helse y hdescent.leads (Ne.symm hyabove.1)]
        exact (hsiblings.inFront _).behind _
      · rw [hahead' done rest ((helse q hq.leads hpq).trans hchildren) hdone]
        by_cases hpy : p = y
        · obtain ⟨hnone, hsame⟩ := hgrown.agenda_other hstrict hplaces (hpy ▸ hyabove.2)
          rw [hnone, hsame]
          exact (hpresent hpy).inFront _
        · rw [helse y hdescent.leads hpy]
          have hcomes := hgrown.agenda hstrict habove hplaces fun _ => hq.index_le
          have hknown : outer.map Frame.node ⊆ seen ++ parts := fun m hm => hmet m (by simp [hm])
          exact ((hcomes.mono hknown).behind rest).behind _

end Walker

end DocFilter
