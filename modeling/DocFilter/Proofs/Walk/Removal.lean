import DocFilter.Proofs.Walk.Scan

/-!
# Removals between two steps of a walk

Between two steps of a walk, nodes that were handed out may be removed.  The walker keeps an index for
each frame, and only the innermost index is set anew after a step, so a removal in front of an index
moves the rest of the children down and the index passes over some of them.

* `Walker.Removes` are the removals between two steps.  They take from the front of a list of children
  only (`Walker.Removes.split`), since nothing behind an index was handed out.
* `Walker.passedOver` and `Walker.kept` are the nodes that fall below an index and those that do not.
* `Walker.Removes.agenda_descend` says that the walker goes on with those that are kept.
-/

namespace DocFilter

namespace Walker

open Forest

variable {f f' : Forest} {n m p c : NodeId} {seen rs order : List NodeId}
  {outer : List Frame}

/-! ## Removals -/

/-- Nodes that were handed out are removed from the nodes that hold them, one after the other. -/
inductive Removes (seen : List NodeId) : Forest → List NodeId → Forest → Prop where
  | nil (f : Forest) : Removes seen f [] f
  | cons {f f₁ f' : Forest} {p r : NodeId} {rs : List NodeId} :
      r ∈ seen → f.holder? r = some p → f.remove p r = .ok f₁ → Removes seen f₁ rs f' →
      Removes seen f (r :: rs) f'

theorem Removes.kind (h : Removes seen f rs f') (m : NodeId) : f'.kind m = f.kind m := by
  induction h with
  | nil => rfl
  | cons _ _ hremove _ ih => rw [ih, kind_of_remove hremove]

theorem Removes.replacement? (h : Removes seen f rs f') (m : NodeId) :
    f'.replacement? m = f.replacement? m := by
  induction h with
  | nil => rfl
  | cons _ _ hremove _ ih => rw [ih, replacement?_of_remove hremove]

/-- Removals take from a list of children in front of the part of it where nothing was handed out. -/
theorem Removes.split {head tail : List NodeId} (h : Removes seen f rs f')
    (hsplit : f.children m = head ++ tail) (htail : ∀ c ∈ tail, c ∉ seen) :
    ∃ head', f'.children m = head' ++ tail ∧ head'.Sublist head := by
  induction h generalizing head with
  | nil => exact ⟨head, hsplit, .refl _⟩
  | @cons f f₁ f' p r rs hr _ hremove _ ih =>
    have hstep := children_of_remove (m := m) hremove
    by_cases hmp : m = p
    · subst hmp
      have hrtail : r ∉ tail := fun hmem => htail r hmem hr
      have herase : (head ++ tail).erase r = head.erase r ++ tail := by
        by_cases hrhead : r ∈ head
        · exact List.erase_append_left tail hrhead
        · rw [List.erase_of_not_mem (by simp [hrhead, hrtail]), List.erase_of_not_mem hrhead]
      rw [if_pos rfl, hsplit, herase] at hstep
      obtain ⟨head', hsplit', hsub⟩ := ih hstep
      exact ⟨head', hsplit', hsub.trans List.erase_sublist⟩
    · rw [if_neg hmp, hsplit] at hstep
      exact ih hstep

theorem Removes.children_sublist (h : Removes seen f rs f') (m : NodeId) :
    (f'.children m).Sublist (f.children m) := by
  have hwhole : f.children m = f.children m ++ [] := (List.append_nil _).symm
  obtain ⟨head, hsplit, hsub⟩ := h.split hwhole (by simp)
  rw [hsplit, List.append_nil]
  exact hsub

/-- A child that is gone was removed. -/
theorem Removes.mem_of_gone (h : Removes seen f rs f') (hc : c ∈ f.children m)
    (hgone : c ∉ f'.children m) : c ∈ rs := by
  induction h with
  | nil => exact absurd hc hgone
  | @cons f f₁ f' p r rs _ _ hremove _ ih =>
    by_cases hcr : c = r
    · simp [hcr]
    · refine List.mem_cons_of_mem _ (ih ?_ hgone)
      rw [children_of_remove hremove]
      split
      · rename_i hmp
        subst hmp
        exact (List.mem_erase_of_ne hcr).mpr hc
      · exact hc

/-- Removals do not touch children none of which was handed out. -/
theorem Removes.children_eq (h : Removes seen f rs f') (hnew : ∀ c ∈ f.children m, c ∉ seen) :
    f'.children m = f.children m := by
  have hwhole : f.children m = [] ++ f.children m := (List.nil_append _).symm
  obtain ⟨head, hsplit, hsub⟩ := h.split hwhole hnew
  have hnil : head = [] := List.sublist_nil.mp hsub
  rw [hsplit, hnil, List.nil_append]

/-! ## What is passed over -/

/-- How many children a node has lost. -/
def lost (f f' : Forest) (p : NodeId) : Nat := (f.children p).length - (f'.children p).length

/-- For each frame the children it had still to reach, and how many of them fall below its index by the
removals after a node was handed out.  The innermost index is set to where the node stands then, or one
back if the node is gone; the other indexes stay as they are. -/
def skips (f f' : Forest) (n : NodeId) : List Frame → List (List NodeId × Nat)
  | [] => []
  | frame :: outer =>
    (unreached f frame,
      if n ∈ f'.children frame.node then 0 else lost f f' frame.node - 1) ::
      outer.map fun frame => (unreached f frame, lost f f' frame.node)

/-- The nodes that fall below the index of a frame. -/
def passedOver (f f' : Forest) (n : NodeId) (frames : List Frame) : List NodeId :=
  (skips f f' n frames).flatMap fun skip => skip.1.take skip.2

/-- The nodes that the frames have still to reach afterwards. -/
def kept (f f' : Forest) (n : NodeId) (frames : List Frame) : List NodeId :=
  (skips f f' n frames).flatMap fun skip => skip.1.drop skip.2

theorem agenda_eq_skips (f f' : Forest) (n : NodeId) (frames : List Frame) :
    agenda f frames = (skips f f' n frames).flatMap (·.1) := by
  cases frames with
  | nil => rfl
  | cons frame outer => simp [agenda, skips, List.flatMap_map]

/-- The order of some nodes falls apart into that of the first ones of each list and that of the rest. -/
theorem lists_skips {skips : List (List NodeId × Nat)}
    (h : f.Lists (skips.flatMap (·.1)) order) :
    ∃ first rest, f.Lists (skips.flatMap fun skip => skip.1.take skip.2) first ∧
      f.Lists (skips.flatMap fun skip => skip.1.drop skip.2) rest ∧ (first ++ rest).Perm order := by
  induction skips generalizing order with
  | nil => exact ⟨[], order, .nil, h, .refl _⟩
  | cons skip skips ih =>
    rw [List.flatMap_cons] at h
    obtain ⟨here, later, hhere, hlater, rfl⟩ := lists_append_iff.mp h
    rw [← List.take_append_drop skip.2 skip.1] at hhere
    obtain ⟨taken, left, htaken, hleft, rfl⟩ := lists_append_iff.mp hhere
    obtain ⟨first, rest, hfirst, hrest, hperm⟩ := ih hlater
    refine ⟨taken ++ first, left ++ rest, htaken.append hfirst, hleft.append hrest, ?_⟩
    rw [List.perm_iff_count] at hperm ⊢
    intro m
    have hm := hperm m
    simp only [List.count_append] at hm ⊢
    omega

/-- A frame that is left as it is passes over as many children as were removed in front of its index. -/
theorem Removes.unreached_eq {frame : Frame} (h : Removes seen f rs f')
    (hnew : ∀ c ∈ unreached f frame, c ∉ seen) :
    unreached f' frame = (unreached f frame).drop (lost f f' frame.node) := by
  obtain ⟨p, i⟩ := frame
  have hsplit : f.children p = (f.children p).take i ++ (f.children p).drop i :=
    (List.take_append_drop i _).symm
  obtain ⟨head, hsplit', hsub⟩ := h.split hsplit hnew
  have hlength := hsub.length_le
  rw [List.length_take] at hlength
  have hhead : head.drop i = [] := List.drop_eq_nil_of_le (by omega)
  simp only [unreached, lost]
  rw [hsplit', List.drop_append, hhead, List.nil_append, List.length_append, List.length_drop]
  by_cases hi : i ≤ (f.children p).length
  · have hcount : (f.children p).length - (head.length + ((f.children p).length - i)) =
        i - head.length := by omega
    rw [hcount]
  · have hnone : (f.children p).drop i = [] := List.drop_eq_nil_of_le (by omega)
    rw [hnone, List.drop_nil, List.drop_nil]

/-- What removals leave of the children up to the one that was handed out last. -/
theorem Removes.split_at {i : Nat} (h : Removes seen f rs f') (hat : (f.children p)[i]? = some n)
    (hnew : ∀ c ∈ unreached f ⟨p, i + 1⟩, c ∉ seen) :
    ∃ done last, f'.children p = done ++ last ++ unreached f ⟨p, i + 1⟩ ∧
      done.Sublist ((f.children p).take i) ∧ last.Sublist [n] := by
  have hsplit : f.children p = ((f.children p).take i ++ [n]) ++ unreached f ⟨p, i + 1⟩ := by
    rw [List.append_assoc]
    exact children_split hat
  obtain ⟨head, hsplit', hsub⟩ := h.split hsplit hnew
  obtain ⟨done, last, rfl, hdone, hlast⟩ := List.sublist_append_iff.mp hsub
  exact ⟨done, last, hsplit', hdone, hlast⟩

/-- The innermost frame after removals, if the node that was handed out last is still there. -/
theorem Removes.unreached_of_mem {i : Nat} (h : Removes seen f rs f')
    (hat : (f.children p)[i]? = some n) (hnodup : (f.children p).Nodup)
    (hnew : ∀ c ∈ unreached f ⟨p, i + 1⟩, c ∉ seen) (hmem : n ∈ f'.children p) :
    ∃ j, f'.indexOf? p n = some j ∧ unreached f' ⟨p, j + 1⟩ = unreached f ⟨p, i + 1⟩ := by
  obtain ⟨done, last, hsplit', hdone, hlast⟩ := h.split_at hat hnew
  rw [children_split hat, List.nodup_append'] at hnodup
  obtain ⟨-, hafter, hdisjoint⟩ := hnodup
  have hnotdone : n ∉ done := fun hn => hdisjoint (hdone.subset hn) (by simp)
  have hnotafter : n ∉ unreached f ⟨p, i + 1⟩ := (List.nodup_cons.mp hafter).1
  have hlast' : last = [n] := by
    rcases List.sublist_singleton.mp hlast with hnil | hn
    · rw [hsplit', hnil] at hmem
      simp [hnotdone, hnotafter] at hmem
    · exact hn
  rw [hlast', List.append_assoc] at hsplit'
  refine ⟨done.length, indexOf?_of_split hsplit' hnotdone, ?_⟩
  rw [unreached, hsplit']
  simp [List.drop_append]

/-- The innermost frame after removals, if the node that was handed out last is gone. -/
theorem Removes.unreached_of_gone {i : Nat} (h : Removes seen f rs f')
    (hat : (f.children p)[i]? = some n) (hnew : ∀ c ∈ unreached f ⟨p, i + 1⟩, c ∉ seen)
    (hgone : n ∉ f'.children p) :
    unreached f' ⟨p, i⟩ = (unreached f ⟨p, i + 1⟩).drop (lost f f' p - 1) := by
  obtain ⟨done, last, hsplit', hdone, hlast⟩ := h.split_at hat hnew
  have hlast' : last = [] := by
    rcases List.sublist_singleton.mp hlast with hnil | hn
    · exact hnil
    · rw [hsplit', hn] at hgone
      simp at hgone
  rw [hlast', List.append_nil] at hsplit'
  have hi : i < (f.children p).length := (List.getElem?_eq_some_iff.mp hat).1
  have hlength := hdone.length_le
  rw [List.length_take] at hlength
  have hhead : done.drop i = [] := List.drop_eq_nil_of_le (by omega)
  have hbefore := congrArg List.length (children_split hat)
  rw [List.length_append, List.length_cons, List.length_take] at hbefore
  have hcount : lost f f' p - 1 = i - done.length := by
    rw [lost, hsplit', List.length_append]
    omega
  have hwhole : unreached f' ⟨p, i⟩ = (done ++ unreached f ⟨p, i + 1⟩).drop i := by
    rw [unreached, hsplit']
  rw [hwhole, List.drop_append, hhead, List.nil_append, hcount]

/-- The outer frames after removals. -/
theorem Removes.agenda_outer (h : Removes seen f rs f') (hnew : ∀ c ∈ agenda f outer, c ∉ seen) :
    agenda f' outer = (outer.map fun frame =>
      (unreached f frame, lost f f' frame.node)).flatMap fun skip => skip.1.drop skip.2 := by
  induction outer with
  | nil => rfl
  | cons frame outer ih =>
    have hframe : ∀ c ∈ unreached f frame, c ∉ seen := fun c hc =>
      hnew c (by simp [agenda, hc])
    have houter : ∀ c ∈ agenda f outer, c ∉ seen := fun c hc =>
      hnew c (by rw [agenda] at hc ⊢; simp [hc])
    rw [agenda, List.flatMap_cons, h.unreached_eq hframe, List.map_cons, List.flatMap_cons,
      ← ih houter, agenda]

/-- What the frames have still to reach, once the children of the node that was handed out last are
scheduled. -/
theorem Removes.agenda_descend {w : Walker} {i : Nat} (h : Removes seen f rs f')
    (hroot : n ≠ w.root) (hframes : w.frames = ⟨p, i + 1⟩ :: outer)
    (hat : (f.children p)[i]? = some n) (hnodup : (f.children p).Nodup)
    (hmark : f'.replacement? n = none) (hnew : ∀ c ∈ agenda f w.frames, c ∉ seen) :
    agenda f' (w.descend f' n).frames =
      (if n ∈ f'.children p then f'.children n else []) ++ kept f f' n w.frames := by
  rw [hframes] at hnew
  have hinner : ∀ c ∈ unreached f ⟨p, i + 1⟩, c ∉ seen := fun c hc =>
    hnew c (by simp [agenda, hc])
  have houter : ∀ c ∈ agenda f outer, c ∉ seen := fun c hc =>
    hnew c (by rw [agenda] at hc ⊢; simp [hc])
  have hrest := h.agenda_outer houter
  have hfinal : f'.finalReplacement n = n := finalReplacement_of_none hmark
  rw [kept, hframes, skips, List.flatMap_cons, ← hrest]
  by_cases hmem : n ∈ f'.children p
  · obtain ⟨j, hj, hsame⟩ := h.unreached_of_mem hat hnodup hinner hmem
    rw [agenda_descend_some hroot hframes (hfinal.symm ▸ hj), hfinal, if_pos hmem, if_pos hmem, List.drop_zero,
      agenda, List.flatMap_cons, hsame, agenda]
  · have hgone := h.unreached_of_gone hat hinner hmem
    rw [agenda_descend_gone hroot hframes (hfinal.symm ▸ hmem), if_neg hmem, if_neg hmem, List.nil_append, ← hgone]
    rfl

end Walker

end DocFilter
