import DocFilter.Proofs.Forest.Enclosing
import DocFilter.Proofs.Walk.Path

/-!
# The order of a walk

The path to a node splits the order of the tree there: in front are the nodes of the path with what is below
the children that the path has gone past; behind, after what is below the node itself, is what the path has
still to reach.

* `Walker.Flanked` is that split, `Walker.Path.exists_flanked` says that every path makes it and
  `Walker.Flanked.lists_root` that it is one of the order.
* `Walker.Flanked.congr` is the frame property: the split depends on the nodes in front and behind only.
* `Walker.Scans.flanked` says that a search that goes on below the end of a path stops at the first node that
  is no part, and `Walker.Scans.records_met` that the records of holders are right for all nodes so far then.
-/

namespace DocFilter

/-- The nodes of an order that a walk hands out: all but the parts. -/
def Forest.walked (f : Forest) (order : List NodeId) : List NodeId := order.filter fun n => !(f.kind n).isPart

theorem Forest.walked_append (f : Forest) (first second : List NodeId) :
    f.walked (first ++ second) = f.walked first ++ f.walked second :=
  List.filter_append first second

theorem Forest.mem_walked {f : Forest} {order : List NodeId} {n : NodeId} :
    n ∈ f.walked order ↔ n ∈ order ∧ ¬ (f.kind n).isPart := by
  simp [walked]

theorem Forest.walked_of_parts {f : Forest} {parts : List NodeId} (h : ∀ m ∈ parts, (f.kind m).isPart) :
    f.walked parts = [] := by
  simpa [walked] using h

/-- The first node that is handed out is the first one that is no part. -/
theorem Forest.walked_split {f : Forest} {parts rest : List NodeId} {n : NodeId}
    (hparts : ∀ m ∈ parts, (f.kind m).isPart) (hn : ¬ (f.kind n).isPart) :
    f.walked (parts ++ n :: rest) = n :: f.walked rest := by
  rw [walked_append, walked_of_parts hparts, List.nil_append]
  exact List.filter_cons_of_pos (by simpa using hn)

namespace Walker

open Forest

variable {f f' : Forest} {root p x n m : NodeId} {frames frames' : List Frame}
  {order inner before after : List NodeId}

/-! ## The split at a node -/

/-- The nodes of a tree in front of the end of a path, and those behind what is below the end, in order. -/
inductive Flanked (f : Forest) (root : NodeId) :
    List Frame → NodeId → (before after : List NodeId) → Prop where
  | root : Flanked f root [] root [] []
  | child {frames : List Frame} {p x : NodeId} {done rest before first second after : List NodeId} :
      Flanked f root frames p before after → f.children p = done ++ x :: rest → f.Lists done first →
      f.Lists rest second →
      Flanked f root (⟨p, done.length + 1⟩ :: frames) x (before ++ p :: first) (second ++ after)

theorem Flanked.path (h : Flanked f root frames x before after) : Path f root frames x := by
  induction h with
  | root => exact .root
  | child _ hchildren _ _ ih => exact .child ih hchildren

/-- Every path splits the order. -/
theorem Path.exists_flanked (h : Path f root frames x) (horder : f.Lists [root] order) :
    ∃ before inner after, Flanked f root frames x before after ∧ f.Lists (f.children x) inner ∧
      order = before ++ x :: (inner ++ after) := by
  induction h with
  | root =>
    obtain ⟨inner, hinner, rfl⟩ := lists_singleton_iff.mp horder
    exact ⟨[], inner, [], .root, hinner, by simp⟩
  | child _ hchildren ih =>
    obtain ⟨before, inner, after, hflanked, hinner, rfl⟩ := ih
    rw [hchildren, lists_append_iff] at hinner
    obtain ⟨first, behind, hfirst, hbehind, rfl⟩ := hinner
    obtain ⟨own, second, hown, hsecond, rfl⟩ := lists_cons_iff.mp hbehind
    exact ⟨_, own, _, .child hflanked hchildren hfirst hsecond, hown, by simp⟩

/-- The parts of the split make up the order. -/
theorem Flanked.lists_root (h : Flanked f root frames x before after)
    (hinner : f.Lists (f.children x) inner) : f.Lists [root] (before ++ x :: (inner ++ after)) := by
  induction h generalizing inner with
  | root => exact lists_singleton_iff.mpr ⟨inner, hinner, by simp⟩
  | child _ hchildren hfirst hsecond ih =>
    have hbelow := hfirst.append (Lists.cons hinner hsecond)
    rw [← hchildren] at hbelow
    have hroot := ih hbelow
    simpa using hroot

/-- The nodes of the frames are in front. -/
theorem Flanked.mem_of_frame {frame : Frame} (h : Flanked f root frames x before after)
    (hframe : frame ∈ frames) : frame.node ∈ before := by
  induction h with
  | root => cases hframe
  | child _ _ _ _ ih =>
    rcases List.mem_cons.mp hframe with rfl | hframe
    · simp
    · simp [ih hframe]

/-- Behind is what the path has still to reach. -/
theorem Flanked.lists_agenda (h : Flanked f root frames x before after) :
    f.Lists (agenda f frames) after := by
  induction h with
  | root => exact .nil
  | @child frames p x done rest before first second after _ hchildren _ hsecond ih =>
    have hrest : unreached f ⟨p, done.length + 1⟩ = rest := by
      simp [unreached, hchildren, List.drop_append]
    rw [agenda, List.flatMap_cons, hrest]
    exact hsecond.append ih

/-- The split depends on the children of the nodes in front and behind. -/
theorem Flanked.congr (h : Flanked f root frames x before after)
    (hsame : ∀ m ∈ before ++ after, f'.children m = f.children m) :
    Flanked f' root frames x before after := by
  induction h with
  | root => exact .root
  | @child frames p x done rest before first second after _ hchildren hfirst hsecond ih =>
    have hp : f'.children p = f.children p := hsame p (by simp)
    refine .child (ih fun m hm => hsame m ?_) (hp.trans hchildren)
      (hfirst.congr fun m hm => hsame m (by simp [hm])) (hsecond.congr fun m hm => hsame m (by simp [hm]))
    rcases List.mem_append.mp hm with hm | hm <;> simp [hm]

/-- A path splits the order of a strict tree in one way. -/
theorem Flanked.unique {before' inner' after' : List NodeId} (h : Flanked f root frames x before after)
    (hinner : f.Lists (f.children x) inner) (hstrict : f.Strict root)
    (horder : f.Lists [root] (before' ++ x :: (inner' ++ after'))) :
    before' = before ∧ inner' ++ after' = inner ++ after := by
  obtain ⟨order, hlists, hnodup, -⟩ := hstrict
  have heq := hlists.unique (h.lists_root hinner)
  have hsame := horder.unique (h.lists_root hinner)
  rw [heq, List.nodup_middle, List.nodup_cons, List.mem_append, not_or] at hnodup
  obtain ⟨hbefore, -, hrest⟩ :=
    (List.append_cons_inj_of_notMem hnodup.1.1 hnodup.1.2).mp hsame.symm
  exact ⟨hbefore.symm, hrest.symm⟩

/-- What is in front of a node and behind it lies outside of what is below it. -/
theorem Flanked.outside (h : Flanked f root frames x before after) (hstrict : f.Strict root)
    (hm : m ∈ before ++ after) : Outside f root x m := by
  obtain ⟨order, horder, hnodup, -⟩ := hstrict
  obtain ⟨inner, hinner, -⟩ := horder.exists_inner (horder.mem_singleton_iff.mpr h.path.leads)
  obtain rfl := horder.unique (h.lists_root hinner)
  refine ⟨horder.mem_singleton_iff.mp ?_, fun hbelow => ?_⟩
  · rcases List.mem_append.mp hm with hm | hm <;> simp [hm]
  · have hown : m ∈ x :: inner :=
      (lists_singleton_iff.mpr ⟨inner, hinner, rfl⟩ : f.Lists [x] _).mem_singleton_iff.mpr hbelow
    have hcount := List.nodup_iff_count_le_one.mp hnodup m
    have hin := List.count_pos_iff.mpr hown
    have hout := List.count_pos_iff.mpr hm
    simp only [List.count_append, List.count_cons] at hcount hin hout
    omega

/-- A change at the end of a path that puts one node there leaves what is in front and behind. -/
theorem Flanked.graft {done rest : List NodeId} {outer : List Frame} {y : NodeId}
    (h : Flanked f root (⟨p, done.length + 1⟩ :: outer) x before after)
    (hgraft : Graft f f' root p x done rest [y]) (hstrict : f.Strict root) :
    Flanked f' root (⟨p, done.length + 1⟩ :: outer) y before after := by
  have houtside : ∀ m ∈ before ++ after, Outside f root x m := fun m hm => h.outside hstrict hm
  obtain ⟨order, horder, hnodup, -⟩ := id hstrict
  obtain ⟨inner, hinner, -⟩ := horder.exists_inner (horder.mem_singleton_iff.mpr h.path.leads)
  obtain rfl := horder.unique (h.lists_root hinner)
  generalize hframes : (⟨p, done.length + 1⟩ : Frame) :: outer = frames at h
  cases h with
  | root => cases hframes
  | @child frames' p' _ done' rest' before' first second after' hflanked hchildren hfirst hsecond =>
    have hframe : (p = p' ∧ done.length = done'.length) ∧ outer = frames' := by simpa using hframes
    obtain ⟨⟨rfl, hlength⟩, rfl⟩ := hframe
    obtain ⟨rfl, hrest⟩ := List.append_inj (hgraft.held.symm.trans hchildren) hlength
    obtain rfl : rest = rest' := (List.cons.inj hrest).2
    have hsame : ∀ m ∈ before' ++ first ++ second ++ after', f'.children m = f.children m := by
      intro m hm
      simp only [List.mem_append] at hm
      refine hgraft.around m (houtside m (by simp only [List.mem_append, List.mem_cons]; tauto)) ?_
      rintro rfl
      have hcount := List.nodup_iff_count_le_one.mp hnodup m
      have hpos : 0 < (before' ++ first ++ second ++ after').count m :=
        List.count_pos_iff.mpr (by simp only [List.mem_append]; tauto)
      simp only [List.count_append, List.count_cons_self, List.count_cons] at hcount hpos
      omega
    have hholds : f'.children p = done ++ y :: rest := by
      rw [hgraft.holds]
      simp
    exact .child (hflanked.congr fun m hm => hsame m (by simp only [List.mem_append] at hm ⊢; tauto)) hholds
      (hfirst.congr fun m hm => hsame m (by simp [hm])) (hsecond.congr fun m hm => hsame m (by simp [hm]))

/-! ## The search for the next node -/

/-- A search that goes on below the end of a path passes through parts and stops at the first other node. -/
theorem Scans.flanked (hscans : Scans (⟨x, 0⟩ :: frames) f (some (n, frames')) f')
    (hflanked : Flanked f root frames x before after) (hinner : f.Lists (f.children x) inner)
    (hstrict : f.Strict root) : ∃ parts inner' after',
      inner ++ after = parts ++ n :: (inner' ++ after') ∧ (∀ m ∈ parts, (f.kind m).isPart) ∧
        ¬ (f.kind n).isPart ∧ f'.Lists (f'.children n) inner' ∧
        Flanked f' root frames' n (before ++ x :: parts) after' := by
  have htodo : f.Lists (agenda f (⟨x, 0⟩ :: frames)) (inner ++ after) := by
    rw [agenda_enter]
    exact hinner.append hflanked.lists_agenda
  obtain ⟨parts, inner', after', hsplit, hparts, hn, hin, haf, -⟩ := hscans.split htodo
  have hin' : f'.Lists (f'.children n) inner' := by
    rw [hscans.children]
    exact hin.congr fun m _ => hscans.children m
  have horder : f'.Lists [root] ((before ++ x :: parts) ++ n :: (inner' ++ after')) := by
    have hroot := hflanked.lists_root hinner
    rw [hsplit] at hroot
    simpa using hroot.congr fun m _ => hscans.children m
  have hstrict' : f'.Strict root := hstrict.congr (fun m _ => hscans.children m) (by rw [hscans.size])
  obtain ⟨before₂, inner₂, after₂, hflanked₂, hinner₂, heq⟩ :=
    (hscans.path hflanked.path.between_enter).exists_flanked horder
  obtain rfl := hin'.unique hinner₂
  obtain ⟨rfl, hrest⟩ := hflanked₂.unique hin' hstrict' horder
  obtain rfl : after' = after₂ := by simpa using hrest
  exact ⟨parts, inner', after', hsplit, hparts, hn, hin', hflanked₂⟩

/-- A search that finds nothing leaves parts behind only. -/
theorem Scans.parts_behind (hscans : Scans (⟨x, 0⟩ :: frames) f none f')
    (hflanked : Flanked f root frames x before after) (hinner : f.Lists (f.children x) inner) :
    ∀ m ∈ inner ++ after, (f.kind m).isPart := by
  refine hscans.all_parts ?_
  rw [agenda_enter]
  exact hinner.append hflanked.lists_agenda

/-- On its way a search makes the parts that it passes through, and the node that it finds, name the nodes
whose lists they stand in, and leaves the records of all others alone. -/
theorem Scans.records (hscans : Scans frames f (some (n, frames')) f')
    (horder : f.Lists (agenda f frames) order) (hnodup : order.Nodup) (hhas : ∀ m ∈ order, f.Has m)
    {parts rest : List NodeId} (hsplit : order = parts ++ n :: rest)
    (hparts : ∀ m ∈ parts, (f.kind m).isPart) (hn : ¬ (f.kind n).isPart) :
    (∀ m, m ∉ parts → m ≠ n → f'.holder? m = f.holder? m) ∧
      ∀ m ∈ parts ++ [n], ∃ q, m ∈ f.children q ∧ f'.holder? m = some q ∧
        q ∈ parts ++ frames.map Frame.node := by
  generalize hfound : some (n, frames') = found at hscans
  induction hscans generalizing order parts with
  | finish => cases hfound
  | @leave p i frames f f' found hnone _ ih =>
    rw [agenda_leave hnone] at horder
    obtain ⟨hkept, hmade⟩ := ih horder hnodup hhas hsplit hparts hn hfound
    refine ⟨hkept, fun m hm => ?_⟩
    obtain ⟨q, hq, hheld, hplace⟩ := hmade m hm
    exact ⟨q, hq, hheld, ((List.Sublist.refl parts).append (List.sublist_cons_self p _)).subset hplace⟩
  | @pass p c i frames f f' found hsome hpart _ ih =>
    rw [agenda_some hsome] at horder
    obtain ⟨inner, after, hinner, hafter, rfl⟩ := lists_cons_iff.mp horder
    obtain ⟨hc, hrest⟩ := List.nodup_cons.mp hnodup
    cases parts with
    | nil =>
      cases hsplit
      exact absurd hpart hn
    | cons first parts =>
      obtain ⟨rfl, hrest'⟩ := List.cons.inj hsplit
      have hbehind : inner ++ after = parts ++ n :: rest := hrest'
      obtain ⟨hhere, hhas⟩ := List.forall_mem_cons.mp hhas
      simp only [Has, size_reach, kind_reach, children_reach] at ih
      obtain ⟨hkept, hmade⟩ := ih (lists_enter hinner hafter) hrest hhas hbehind
        (List.forall_mem_cons.mp hparts).2 hn hfound
      rw [hbehind, List.mem_append, List.mem_cons, not_or, not_or] at hc
      refine ⟨fun m hm hmn => ?_, fun m hm => ?_⟩
      · rw [List.mem_cons, not_or] at hm
        rw [hkept m hm.2 hmn, holder?_reach, if_neg fun hcase => hm.1 hcase.1]
      · rcases List.mem_cons.mp hm with rfl | hm
        · refine ⟨p, List.mem_of_getElem? hsome, ?_, by simp⟩
          rw [hkept m hc.1 hc.2.1, holder?_reach, if_pos ⟨rfl, hhere⟩]
        · obtain ⟨q, hq, hheld, hplace⟩ := hmade m hm
          exact ⟨q, hq, hheld, List.perm_middle.subset hplace⟩
  | @stop p c i frames f hsome hpart =>
    cases hfound
    rw [agenda_some hsome] at horder
    obtain ⟨inner, after, -, -, rfl⟩ := lists_cons_iff.mp horder
    cases parts with
    | cons first parts =>
      obtain ⟨rfl, -⟩ := List.cons.inj hsplit
      exact absurd (hparts _ List.mem_cons_self) hpart
    | nil =>
      refine ⟨fun m _ hm => ?_, fun m hm => ?_⟩
      · rw [holder?_reach, if_neg fun hcase => hm hcase.1]
      · obtain rfl : m = n := by simpa using hm
        refine ⟨p, List.mem_of_getElem? hsome, ?_, by simp⟩
        rw [holder?_reach, if_pos ⟨rfl, hhas m List.mem_cons_self⟩]

/-- Where all nodes up to the end of a path name the nodes whose lists they stand in, so do all nodes up to
the one that a search finds from there. -/
theorem Scans.records_met {parts rest : List NodeId}
    (hscans : Scans (⟨x, 0⟩ :: frames) f (some (n, frames')) f')
    (hflanked : Flanked f root frames x before after) (hinner : f.Lists (f.children x) inner)
    (hstrict : f.Strict root) (hsplit : inner ++ after = parts ++ n :: rest)
    (hparts : ∀ m ∈ parts, (f.kind m).isPart) (hn : ¬ (f.kind n).isPart)
    (hrecords : f.Records root (· ∈ before ++ [x])) :
    f'.Records root (· ∈ (before ++ x :: parts) ++ [n]) := by
  have horder := hflanked.lists_root hinner
  obtain ⟨order, hlists, hnodup, hhas⟩ := id hstrict
  obtain rfl := hlists.unique horder
  have htodo : f.Lists (agenda f (⟨x, 0⟩ :: frames)) (inner ++ after) := by
    rw [agenda_enter]
    exact hinner.append hflanked.lists_agenda
  obtain ⟨hkept, hmade⟩ := hscans.records htodo
    (List.nodup_cons.mp (List.nodup_append.mp hnodup).2.1).2 (fun m hm => hhas m (by simp [hm])) hsplit
    hparts hn
  intro q m hq hm hknown
  rw [hstrict.below_congr fun m _ => hscans.children m] at hq
  rw [hscans.children] at hm
  by_cases hnew : m ∈ parts ++ [n]
  · obtain ⟨q', hq', hheld, hplace⟩ := hmade m hnew
    have hmet : q' ∈ before ++ x :: parts := by
      simp only [List.mem_append, List.map_cons, List.mem_cons, List.mem_map] at hplace ⊢
      rcases hplace with hpart | hx | ⟨frame, hframe, rfl⟩
      · exact .inr (.inr hpart)
      · exact .inr (.inl hx)
      · exact .inl (hflanked.mem_of_frame hframe)
    have hbelow : f.Below root q' := by
      refine horder.mem_singleton_iff.mp ?_
      rw [hsplit]
      simp only [List.mem_append, List.mem_cons] at hmet ⊢
      tauto
    obtain rfl := hstrict.held_once hq hbelow hm hq'
    exact ⟨hheld, List.mem_append_left _ hmet⟩
  · simp only [List.mem_append, List.mem_cons, List.not_mem_nil, or_false, not_or] at hnew hknown
    have hold : m ∈ before ++ [x] := by
      simp only [List.mem_append, List.mem_cons, List.not_mem_nil, or_false]
      tauto
    obtain ⟨hheld, hmet⟩ := hrecords q m hq hm hold
    refine ⟨(hkept m hnew.1 hnew.2).trans hheld, ?_⟩
    simp only [List.mem_append, List.mem_cons, List.not_mem_nil, or_false] at hmet ⊢
    tauto

/-- The search that the walker makes after the end of a path goes on below it. -/
theorem Path.scans_descend {w : Walker} {found : Found} (h : Path f root w.frames x) (hroot : w.root = root)
    (hstrict : f.Strict root) (hmark : x = root ∨ f.replacement? x = none)
    (hscans : Scans (⟨x, 0⟩ :: w.frames) f found f') : Scans (w.descend f x).frames f found f' := by
  generalize hframes : w.frames = frames at h hscans
  cases h with
  | root =>
    rw [descend_root hroot.symm, hframes]
    exact hscans
  | @child outer p _ done rest hpath hchildren =>
    have hmem : x ∈ f.children p := by simp [hchildren]
    have hx : x ≠ w.root := fun heq =>
      hstrict.not_mem_children hpath.leads (by rwa [heq, hroot] at hmem)
    have hdone : x ∉ done := fun hdone => by
      have hnodup := hstrict.nodup_children hpath.leads
      rw [hchildren] at hnodup
      exact (List.nodup_append.mp hnodup).2.2 x hdone x (by simp) rfl
    have hnone : f.replacement? x = none := hmark.resolve_left (hroot ▸ hx)
    rw [descend_frames hx hframes, finalReplacement_of_none hnone, indexOf?_of_split hchildren hdone]
    exact scans_enter hscans

end Walker

end DocFilter
