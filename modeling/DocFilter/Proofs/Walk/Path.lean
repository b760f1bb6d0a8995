import DocFilter.Proofs.Walk.Scan
import Mathlib.Data.List.Nodup
import Mathlib.Tactic.Tauto

/-!
# Where a walk stands in a tree

The frames of a walk are the path from the root to a node: each frame's index has just gone past the next
node of the path.  A tree is its path to a node, what stands around the path, and what lies below the
node, so a change below the node leaves the path and what is around it in place.

* `Walker.Path` says that frames lead to a node; `Walker.Scans.path` that a search keeps to such frames.
* `Walker.Around` lists the nodes around a path.  `Walker.Path.around` takes a tree apart along a path and
  `Walker.Around.close` puts it together.
* `Walker.Graft` is a change at the end of a path, with some nodes put where the node was;
  `Walker.Graft.strict_root` and `Walker.Graft.path` say that it leaves a strict tree and the path above.
-/

namespace DocFilter

namespace Walker

open Forest

variable {f f' : Forest} {root p x m : NodeId} {i : Nat} {frames : List Frame}
  {done rest order inner out : List NodeId}

/-! ## Paths -/

/-- The frames lead from the root to a node, each index just past the next node on the way. -/
inductive Path (f : Forest) (root : NodeId) : List Frame → NodeId → Prop where
  | root : Path f root [] root
  | child {frames : List Frame} {p x : NodeId} {done rest : List NodeId} :
      Path f root frames p → f.children p = done ++ x :: rest →
      Path f root (⟨p, done.length + 1⟩ :: frames) x

/-- The innermost frame stands between two children, or at an end, of a node that the others lead to. -/
def Between (f : Forest) (root : NodeId) : List Frame → Prop
  | [] => True
  | frame :: outer => Path f root outer frame.node ∧ frame.index ≤ (f.children frame.node).length

theorem Path.leads (h : Path f root frames x) : f.Below root x := by
  induction h with
  | root => exact .refl root
  | child _ hchildren ih => exact ih.trans (.of_mem (by simp [hchildren]))

theorem Path.below_of_mem {frame : Frame} (h : Path f root frames x) (hframe : frame ∈ frames) :
    f.Below root frame.node := by
  induction h with
  | root => simp at hframe
  | child hpath _ ih =>
    rcases List.mem_cons.mp hframe with rfl | hframe
    · exact hpath.leads
    · exact ih hframe

theorem Path.congr (h : Path f root frames x)
    (hsame : ∀ frame ∈ frames, f'.children frame.node = f.children frame.node) :
    Path f' root frames x := by
  induction h with
  | root => exact .root
  | @child frames p x done rest _ hchildren ih =>
    have hp : f'.children p = f.children p := hsame ⟨p, done.length + 1⟩ (by simp)
    exact .child (ih fun frame hframe => hsame frame (by simp [hframe])) (hp.trans hchildren)

theorem Path.between (h : Path f root frames x) : Between f root frames := by
  cases h with
  | root => trivial
  | child hpath hchildren => exact ⟨hpath, by simp [hchildren]⟩

theorem Path.between_enter (h : Path f root frames x) : Between f root (⟨x, 0⟩ :: frames) :=
  ⟨h, Nat.zero_le _⟩

theorem Between.path {c : NodeId} (h : Between f root (⟨p, i⟩ :: frames))
    (hat : (f.children p)[i]? = some c) : Path f root (⟨p, i + 1⟩ :: frames) c := by
  obtain ⟨hpath, -⟩ := h
  have hi : i < (f.children p).length := (List.getElem?_eq_some_iff.mp hat).1
  have hlength : ((f.children p).take i).length = i := List.length_take_of_le (Nat.le_of_lt hi)
  have hchild := Path.child hpath (children_split hat)
  rwa [hlength] at hchild

/-- A search that starts between two children stops on a path to the node that it finds. -/
theorem Scans.path {n : NodeId} {frames' : List Frame} (h : Scans frames f (some (n, frames')) f')
    (hbetween : Between f root frames) : Path f' root frames' n := by
  generalize hfound : some (n, frames') = found at h
  induction h with
  | finish => cases hfound
  | leave _ _ ih => exact ih hbetween.1.between hfound
  | @pass p c i frames f f' found hat _ _ ih =>
    have hpath : Path (reach f p c) root (⟨p, i + 1⟩ :: frames) c :=
      (hbetween.path hat).congr fun _ _ => children_reach
    exact ih hpath.between_enter hfound
  | @stop p c i frames f hat _ =>
    cases hfound
    exact (hbetween.path hat).congr fun _ _ => children_reach

theorem Between.below_of_mem {frame : Frame} (h : Between f root frames)
    (hframe : frame ∈ frames) : f.Below root frame.node := by
  cases frames with
  | nil => simp at hframe
  | cons first outer =>
    rcases List.mem_cons.mp hframe with rfl | hframe
    · exact h.1.leads
    · exact h.1.below_of_mem hframe

/-- A search in a strict tree comes to an end. -/
theorem Between.exists_scans (h : Between f root frames) (hstrict : f.Strict root) :
    ∃ found f', Scans frames f found f' := by
  obtain ⟨order, horder, -, -⟩ := hstrict
  obtain ⟨todo, htodo⟩ := exists_agenda horder fun frame hframe => h.below_of_mem hframe
  exact Walker.exists_scans htodo

/-! ## Around a path -/

/-- The nodes around a path: the nodes of the frames with those below their other children. -/
inductive Around (f : Forest) (root : NodeId) : List Frame → NodeId → List NodeId → Prop where
  | root : Around f root [] root []
  | child {frames : List Frame} {p x : NodeId} {done rest before after out : List NodeId} :
      Around f root frames p out → f.children p = done ++ x :: rest → f.Lists done before →
      f.Lists rest after →
      Around f root (⟨p, done.length + 1⟩ :: frames) x (p :: (before ++ after ++ out))

/-- A tree taken apart along a path. -/
theorem Path.around (h : Path f root frames x) (horder : f.Lists [root] order) :
    ∃ inner out, Around f root frames x out ∧ f.Lists [x] inner ∧ (inner ++ out).Perm order := by
  induction h with
  | root => exact ⟨order, [], .root, horder, by simp⟩
  | @child frames p x done rest _ hchildren ih =>
    obtain ⟨inner, out, haround, hinner, hperm⟩ := ih
    obtain ⟨below, hbelow, rfl⟩ := lists_singleton_iff.mp hinner
    rw [hchildren, lists_append_iff] at hbelow
    obtain ⟨before, second, hbefore, hsecond, rfl⟩ := hbelow
    have hsplit : x :: rest = [x] ++ rest := rfl
    rw [hsplit, lists_append_iff] at hsecond
    obtain ⟨own, after, hown, hafter, rfl⟩ := hsecond
    refine ⟨own, _, .child haround hchildren hbefore hafter, hown, ?_⟩
    rw [List.perm_iff_count] at hperm ⊢
    intro m
    have hm := hperm m
    simp only [List.count_append, List.count_cons] at hm ⊢
    omega

/-- A tree put together around a path. -/
theorem Around.close (h : Around f root frames x out) (hinner : f.Lists [x] inner) :
    ∃ order, f.Lists [root] order ∧ (inner ++ out).Perm order := by
  induction h generalizing inner with
  | root => exact ⟨inner, hinner, by simp⟩
  | @child frames p x done rest before after out _ hchildren hbefore hafter ih =>
    have hbelow : f.Lists (f.children p) (before ++ (inner ++ after)) := by
      rw [hchildren]
      exact hbefore.append (hinner.append hafter)
    obtain ⟨order, horder, hperm⟩ := ih (lists_singleton_iff.mpr ⟨_, hbelow, rfl⟩)
    refine ⟨order, horder, ?_⟩
    rw [List.perm_iff_count] at hperm ⊢
    intro m
    have hm := hperm m
    simp only [List.count_append, List.count_cons] at hm ⊢
    omega

theorem Around.congr (h : Around f root frames x out)
    (hsame : ∀ m ∈ out, f'.children m = f.children m) : Around f' root frames x out := by
  induction h with
  | root => exact .root
  | @child frames p x done rest before after out _ hchildren hbefore hafter ih =>
    have hp : f'.children p = f.children p := hsame p (by simp)
    exact .child (ih fun m hm => hsame m (by simp [hm])) (hp.trans hchildren)
      (hbefore.congr fun m hm => hsame m (by simp [hm]))
      (hafter.congr fun m hm => hsame m (by simp [hm]))

theorem Around.mem_of_frame {frame : Frame} (h : Around f root frames x out)
    (hframe : frame ∈ frames) : frame.node ∈ out := by
  induction h with
  | root => simp at hframe
  | child _ _ _ _ ih =>
    rcases List.mem_cons.mp hframe with rfl | hframe
    · simp
    · simp [ih hframe]

/-- What lies below the nodes that a path has still to reach is around it. -/
theorem Around.mem_of_agenda {c : NodeId} (h : Around f root frames x out)
    (hc : c ∈ agenda f frames) (hbelow : f.Below c m) : m ∈ out := by
  induction h with
  | root => simp [agenda] at hc
  | @child frames p x done rest before after out _ hchildren _ hafter ih =>
    have hrest : unreached f ⟨p, done.length + 1⟩ = rest := by
      simp [unreached, hchildren, List.drop_append]
    rw [agenda, List.flatMap_cons, hrest, List.mem_append] at hc
    rcases hc with hc | hc
    · have hm := hafter.mem_iff.mpr ⟨c, hc, hbelow⟩
      simp [hm]
    · simp [ih hc]

/-- A node of a tree outside the part below another one. -/
def Outside (f : Forest) (root x m : NodeId) : Prop := f.Below root m ∧ ¬ f.Below x m

/-- What is around a path in a strict tree is outside of what lies below its end. -/
theorem Around.outside (h : Around f root frames x out) (hinner : f.Lists [x] inner)
    (hnodup : (inner ++ out).Nodup) (hm : m ∈ out) : Outside f root x m := by
  obtain ⟨order, horder, hperm⟩ := h.close hinner
  refine ⟨horder.mem_singleton_iff.mp (hperm.subset (by simp [hm])), fun hbelow => ?_⟩
  exact (List.nodup_append.mp hnodup).2.2 m (hinner.mem_singleton_iff.mpr hbelow) m hm rfl

theorem Around.mem_or_eq {c : NodeId} (h : Around f root frames x out) (hm : m ∈ out)
    (hc : c ∈ f.children m) : c ∈ out ∨ c = x := by
  induction h with
  | root => simp at hm
  | @child frames p x done rest before after out _ hchildren hbefore hafter ih =>
    rcases List.mem_cons.mp hm with rfl | hm
    · rw [hchildren, List.mem_append, List.mem_cons] at hc
      rcases hc with hc | hc | hc
      · exact .inl (by simp [hbefore.mem_of_mem hc])
      · exact .inr hc
      · exact .inl (by simp [hafter.mem_of_mem hc])
    · rw [List.mem_append, List.mem_append] at hm
      rcases hm with (hm | hm) | hm
      · exact .inl (by simp [hbefore.mem_of_mem_children hm hc])
      · exact .inl (by simp [hafter.mem_of_mem_children hm hc])
      · rcases ih hm with hc | rfl
        · exact .inl (by simp [hc])
        · exact .inl (by simp)

/-- The nodes of the frames lie outside of what is below the end of the path. -/
theorem Path.outside {frame : Frame} (h : Path f root frames x) (hstrict : f.Strict root)
    (hframe : frame ∈ frames) : Outside f root x frame.node := by
  obtain ⟨order, horder, hnodup, -⟩ := hstrict
  obtain ⟨inner, out, haround, hinner, hperm⟩ := h.around horder
  exact haround.outside hinner (hperm.nodup_iff.mpr hnodup) (haround.mem_of_frame hframe)

/-- What lies below the nodes that a path has still to reach lies outside too. -/
theorem Path.outside_agenda {c : NodeId} (h : Path f root frames x) (hstrict : f.Strict root)
    (hc : c ∈ agenda f frames) (hbelow : f.Below c m) : Outside f root x m := by
  obtain ⟨order, horder, hnodup, -⟩ := hstrict
  obtain ⟨inner, out, haround, hinner, hperm⟩ := h.around horder
  exact haround.outside hinner (hperm.nodup_iff.mpr hnodup) (haround.mem_of_agenda hc hbelow)

/-- A search that goes on below the end of a path, and then along the path, finds another node. -/
theorem Path.found_ne {n : NodeId} {frames' : List Frame} (h : Path f root frames x)
    (hstrict : f.Strict root) (hscans : Scans (⟨x, 0⟩ :: frames) f (some (n, frames')) f') :
    n ≠ x := by
  have hframes : ∀ frame ∈ (⟨x, 0⟩ : Frame) :: frames, f.Below root frame.node := by
    intro frame hframe
    rcases List.mem_cons.mp hframe with rfl | hframe
    · exact h.leads
    · exact h.below_of_mem hframe
  obtain ⟨order, horder, -, -⟩ := id hstrict
  obtain ⟨todo, htodo⟩ := exists_agenda horder hframes
  obtain ⟨parts, inner, after, hsplit, -⟩ := hscans.account htodo
  have hn : n ∈ todo := by simp [hsplit]
  obtain ⟨c, hc, hbelow⟩ := htodo.mem_iff.mp hn
  rintro rfl
  rw [agenda_enter, List.mem_append] at hc
  rcases hc with hc | hc
  · exact hstrict.not_below_child h.leads hc hbelow
  · exact (h.outside_agenda hstrict hc hbelow).2 (.refl n)

/-- A child of a node outside is outside, unless it is the end of the path. -/
theorem Path.outside_child {c : NodeId} (h : Path f root frames x) (hstrict : f.Strict root)
    (hm : Outside f root x m) (hc : c ∈ f.children m) (hcx : c ≠ x) : Outside f root x c := by
  obtain ⟨order, horder, hnodup, -⟩ := hstrict
  obtain ⟨inner, out, haround, hinner, hperm⟩ := h.around horder
  have honce : (inner ++ out).Nodup := hperm.nodup_iff.mpr hnodup
  have hmem : m ∈ inner ++ out := hperm.mem_iff.mpr (horder.mem_singleton_iff.mpr hm.1)
  rcases List.mem_append.mp hmem with hin | hout
  · exact absurd (hinner.mem_singleton_iff.mp hin) hm.2
  · rcases haround.mem_or_eq hout hc with hout | heq
    · exact haround.outside hinner honce hout
    · exact absurd heq hcx

/-! ## Changes at the end of a path -/

/-- The end of a path gets other nodes in its place, and nothing around the path changes. -/
structure Graft (f f' : Forest) (root p x : NodeId) (done rest mid : List NodeId) : Prop where
  held : f.children p = done ++ x :: rest
  holds : f'.children p = done ++ mid ++ rest
  around : ∀ m, Outside f root x m → m ≠ p → f'.children m = f.children m
  grows : ∀ m, f.Has m → f'.Has m
  strict : ∃ order, f'.Lists mid order ∧ order.Nodup ∧ ∀ m ∈ order, f'.Has m ∧ ¬ Outside f root x m

variable {mid : List NodeId}

/-- The nodes of the frames above the innermost one keep their children. -/
theorem Graft.children_outer {frame : Frame} (hgraft : Graft f f' root p x done rest mid)
    (hstrict : f.Strict root) (hpath : Path f root frames p) (hframe : frame ∈ frames) :
    f'.children frame.node = f.children frame.node := by
  have houtside := hpath.outside hstrict hframe
  have hx : f.Below p x := .of_mem (by simp [hgraft.held])
  refine hgraft.around _ ⟨houtside.1, fun hbelow => houtside.2 (hx.trans hbelow)⟩ fun heq => ?_
  exact houtside.2 (by rw [heq]; exact .refl p)

theorem Graft.path (hgraft : Graft f f' root p x done rest mid) (hstrict : f.Strict root)
    (hpath : Path f root frames p) : Path f' root frames p :=
  hpath.congr fun _ hframe => hgraft.children_outer hstrict hpath hframe

/-- A tree stays strict if strict trees of nodes from elsewhere are put at the end of a path. -/
theorem Graft.strict_root (hgraft : Graft f f' root p x done rest mid) (hstrict : f.Strict root)
    (hpath : Path f root frames p) : f'.Strict root := by
  obtain ⟨order, horder, hnodup, hhas⟩ := hstrict
  obtain ⟨inner, out, haround, hinner, hperm⟩ := hpath.around horder
  obtain ⟨below, hbelow, rfl⟩ := lists_singleton_iff.mp hinner
  rw [hgraft.held, lists_append_iff] at hbelow
  obtain ⟨before, second, hbefore, hsecond, rfl⟩ := hbelow
  have hcons : x :: rest = [x] ++ rest := rfl
  rw [hcons, lists_append_iff] at hsecond
  obtain ⟨own, after, hown, hafter, rfl⟩ := hsecond
  have honce : ∀ m, (own ++ p :: (before ++ after ++ out)).count m ≤ 1 := fun m => by
    have hm := List.nodup_iff_count_le_one.mp hnodup m
    rw [← hperm.count_eq] at hm
    simp only [List.count_append, List.count_cons] at hm ⊢
    omega
  have houtside : ∀ m ∈ p :: (before ++ after ++ out), Outside f root x m := fun m hm =>
    (haround.child hgraft.held hbefore hafter).outside hown
      (List.nodup_iff_count_le_one.mpr honce) hm
  have hsame : ∀ m ∈ before ++ after ++ out, f'.children m = f.children m := by
    intro m hm
    refine hgraft.around m (houtside m (List.mem_cons_of_mem _ hm)) fun heq => ?_
    have hcount := honce p
    have hpos := List.count_pos_iff.mpr (heq ▸ hm)
    rw [List.count_append, List.count_cons_self] at hcount
    omega
  obtain ⟨midOrder, hmid, hmidnodup, hnew⟩ := hgraft.strict
  have hholds : f'.Lists (f'.children p) (before ++ midOrder ++ after) := by
    rw [hgraft.holds]
    exact ((hbefore.congr fun m hm => hsame m (by simp [hm])).append hmid).append
      (hafter.congr fun m hm => hsame m (by simp [hm]))
  obtain ⟨order', horder', hperm'⟩ :=
    (haround.congr fun m hm => hsame m (by simp [hm])).close
      (lists_singleton_iff.mpr ⟨_, hholds, rfl⟩)
  refine ⟨order', horder', ?_, ?_⟩
  · rw [List.nodup_iff_count_le_one]
    intro m
    have hm := honce m
    have hmidm := List.nodup_iff_count_le_one.mp hmidnodup m
    have hcases : midOrder.count m = 0 ∨ (p :: (before ++ after ++ out)).count m = 0 := by
      by_cases hmem : m ∈ midOrder
      · exact .inr (List.count_eq_zero.mpr fun hout => (hnew m hmem).2 (houtside m hout))
      · exact .inl (List.count_eq_zero.mpr hmem)
    rw [← hperm'.count_eq]
    simp only [List.count_append, List.count_cons] at hm hmidm hcases ⊢
    omega
  · intro m hm
    have hmem := hperm'.mem_iff.mpr hm
    by_cases hmid : m ∈ midOrder
    · exact (hnew m hmid).1
    · refine hgraft.grows m (hhas m (hperm.subset ?_))
      simp only [List.cons_append, List.mem_cons, List.mem_append, hmid] at hmem ⊢
      tauto

end Walker

end DocFilter
