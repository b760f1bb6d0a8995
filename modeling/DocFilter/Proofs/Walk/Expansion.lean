import DocFilter.Proofs.Forest.Cycles
import DocFilter.Proofs.Walk.Preorder

/-!
# Walks without edits

A walk that nothing disturbs, over a structure in which no node lies below itself.  Nothing but a proof says
that the structure is a tree: a node may stand in several lists, or in one list more than once.

After each node the walker looks the node up in the list that it came from, and goes on behind the place where
it finds it.  In a list that has the node twice that is the first place, so from the second one the walker
falls back and comes by again, for ever.  Parts are not looked up and do no harm.

* `Walker.Walks` and `Walker.Completes` are the runs of a walk, and `Walker.Arrived` is where one stands.
* `Walker.Direct` says that a frame never falls back.  `Walker.Scans.direct_iff` is the step: the frames before
  a search are direct exactly if those after it are.
* `Walker.Arrived.direct` and `Walker.Arrived.completes` are the runs: a walk ends exactly if its frames are
  direct, and then it hands out the order of what it has still to reach.
* `Walker.expansion_of_acyclic` is the result on whole walks.
-/

namespace DocFilter

namespace Forest

variable {f f' : Forest} {root n m c p : NodeId} {i j : Nat} {ns order : List NodeId}

/-! ## The lists of a structure -/

/-- What lies below is told by the children. -/
theorem below_of_children (hsame : ∀ m, f'.children m = f.children m) : f'.Below n m ↔ f.Below n m := by
  suffices hmono : ∀ {g g' : Forest}, (∀ m, g'.children m = g.children m) → ∀ {a b}, g.Below a b → g'.Below a b
    from ⟨hmono fun m => (hsame m).symm, hmono hsame⟩
  intro g g' hsame a b hbelow
  induction hbelow with
  | refl => exact .refl _
  | child hmem _ ih => exact .child (by rwa [hsame]) ih

theorem walked_of_kind (hsame : ∀ m, f'.kind m = f.kind m) : f'.walked ns = f.walked ns := by
  simp only [walked, hsame]

theorem indexOf?_of_children (hsame : ∀ m, f'.children m = f.children m) : f'.indexOf? p c = f.indexOf? p c := by
  rw [indexOf?, indexOf?, hsame]

/-- Where the nodes below have an order, none of them lies below itself. -/
theorem Lists.not_below_child (h : f.Lists [n] order) (hc : c ∈ f.children n) : ¬ f.Below c n := by
  intro hback
  obtain ⟨inner, hinner, rfl⟩ := lists_singleton_iff.mp h
  obtain ⟨own, hown, hsub⟩ := hinner.exists_own (hinner.mem_iff.mpr ⟨c, hc, hback⟩)
  obtain rfl := hown.unique h
  have hlength := hsub.length_le
  rw [List.length_cons] at hlength
  omega

/-- In a structure that has an order no node lies below itself. -/
theorem Lists.not_below_self (h : f.Lists [root] order) (m : NodeId) (hm : f.Below root m) :
    ∀ c ∈ f.children m, ¬ f.Below c m := by
  intro c hc hback
  obtain ⟨own, hown, -⟩ := h.exists_own (h.mem_singleton_iff.mpr hm)
  exact hown.not_below_child hc hback

/-- A node is looked up at the first position at which it stands. -/
theorem indexOf?_eq_some_iff :
    f.indexOf? p c = some i ↔ (f.children p)[i]? = some c ∧ ∀ k < i, (f.children p)[k]? ≠ some c := by
  rw [indexOf?, List.findIdx?_eq_some_iff_getElem, List.getElem?_eq_some_iff]
  constructor
  · rintro ⟨hi, hat, hbefore⟩
    refine ⟨⟨hi, by simpa using hat⟩, fun k hk hkc => ?_⟩
    obtain ⟨hlt, hkc⟩ := List.getElem?_eq_some_iff.mp hkc
    exact hbefore k hk (by simpa using hkc)
  · rintro ⟨⟨hi, hat⟩, hbefore⟩
    refine ⟨hi, by simpa using hat, fun k hk hkc => hbefore k hk ?_⟩
    rw [List.getElem?_eq_getElem (hk.trans hi)]
    simpa using hkc

theorem indexOf?_le_of_getElem? (hj : f.indexOf? p c = some j) (hi : (f.children p)[i]? = some c) : j ≤ i := by
  by_contra hlt
  exact (indexOf?_eq_some_iff.mp hj).2 i (by omega) hi

end Forest

namespace Walker

open Forest

variable {f f' : Forest} {w w' w'' : Walker} {root n p x c : NodeId} {i j fuel : Nat}
  {frames outer : List Frame} {todo ns ms : List NodeId}

/-! ## Runs -/

/-- A walk is asked for some nodes and hands them out, and nothing else happens to the forest. -/
inductive Walks : Walker → Forest → List NodeId → Walker → Forest → Prop where
  | nil (w : Walker) (f : Forest) : Walks w f [] w f
  | cons {w w₁ w' : Walker} {f f₁ f' : Forest} {n : NodeId} {ns : List NodeId} {fuel : Nat} :
      w.next fuel f = .node n w₁ f₁ → Walks w₁ f₁ ns w' f' → Walks w f (n :: ns) w' f'

/-- A walk hands out some nodes, and then there is no further one. -/
def Completes (w : Walker) (f : Forest) (ns : List NodeId) : Prop :=
  ∃ w' f', Walks w f ns w' f' ∧ ∃ fuel w'' f'', w'.next fuel f' = .finished w'' f''

/-- A step does not depend on its fuel, if that is enough. -/
theorem next_agree {more : Nat} (h : w.next fuel f ≠ .exhausted) (h' : w.next more f ≠ .exhausted) :
    w.next fuel f = w.next more f := by
  obtain ⟨enough, henough⟩ := next_stable h
  obtain ⟨enough', henough'⟩ := next_stable h'
  exact (henough (max enough enough') (by omega)).symm.trans (henough' _ (by omega))

/-- What a walk has handed out is the beginning of what it hands out in all. -/
theorem Walks.prefix_of_finished {v v' : Walker} {g g' : Forest} {more : Nat} (hall : Walks w f ns v g)
    (hend : v.next more g = .finished v' g') (h : Walks w f ms w' f') : ms <+: ns := by
  induction hall generalizing ms with
  | nil w f =>
    cases h with
    | nil => exact List.prefix_refl []
    | @cons _ _ _ _ _ _ _ _ fuel hnext _ =>
      have hfuel : w.next fuel f ≠ .exhausted := by simp [hnext]
      have hsame := next_agree hfuel (by simp [hend] : w.next more f ≠ .exhausted)
      rw [hnext, hend] at hsame
      cases hsame
  | @cons w _ _ f _ _ n ns first hfirst _ ih =>
    cases h with
    | nil => exact List.nil_prefix
    | @cons _ _ _ _ _ _ _ _ fuel hnext hrest =>
      have hfuel : w.next fuel f ≠ .exhausted := by simp [hnext]
      have hsame := next_agree (by simp [hfirst] : w.next first f ≠ .exhausted) hfuel
      rw [hfirst, hnext] at hsame
      cases hsame
      exact (List.cons_prefix_cons).mpr ⟨rfl, ih hend hrest⟩

theorem Completes.unique (h : Completes w f ns) (h' : Completes w f ms) : ns = ms := by
  obtain ⟨v, g, hwalks, fuel, v', g', hend⟩ := h
  obtain ⟨u, k, hwalks', fuel', u', k', hend'⟩ := h'
  exact (hwalks'.prefix_of_finished hend' hwalks).eq_of_length_le
    (hwalks.prefix_of_finished hend hwalks').length_le

/-! ## Where a walk stands -/

/-- A walk over a structure that has not been edited stands at a node that it has just handed out. -/
structure Arrived (f : Forest) (root : NodeId) (w : Walker) (x : NodeId) : Prop where
  started : w.started
  root_eq : w.root = root
  pending : w.pending = some x
  mark : x = root ∨ f.replacement? x = none
  below : ∀ frame ∈ w.frames, f.Below root frame.node
  /-- The walk does not come back to its root. -/
  top : ∀ m, f.Below root m → root ∉ f.children m
  place : (x = root ∧ w.frames = []) ∨
    (x ≠ root ∧ ∃ p i outer, w.frames = ⟨p, i + 1⟩ :: outer ∧ (f.children p)[i]? = some x)

/-- A walker whose root was handed out. -/
def entered (root : NodeId) : Walker := { root := root, started := true, pending := some root }

theorem arrived_entered (htop : ∀ m, f.Below root m → root ∉ f.children m) :
    Arrived f root (entered root) root where
  started := rfl
  root_eq := rfl
  pending := rfl
  mark := .inl rfl
  below := by simp [entered]
  top := htop
  place := .inl ⟨rfl, rfl⟩

/-- The frames after a node was handed out: its own, unless it has no children, and behind the position at
which its list has it the one that it came from. -/
theorem Arrived.descend_cases (h : Arrived f root w x) :
    (x = root ∧ w.frames = [] ∧ (w.descend f x).frames = [⟨x, 0⟩]) ∨
      (x ≠ root ∧ ∃ p i j outer, w.frames = ⟨p, i + 1⟩ :: outer ∧ (f.children p)[i]? = some x ∧
        f.indexOf? p x = some j ∧ (w.descend f x).frames =
          if (f.children x).isEmpty then ⟨p, j + 1⟩ :: outer else ⟨x, 0⟩ :: ⟨p, j + 1⟩ :: outer) := by
  rcases h.place with ⟨hx, hframes⟩ | ⟨hx, p, i, outer, hframes, hat⟩
  · refine .inl ⟨hx, hframes, ?_⟩
    rw [descend_root (hx.trans h.root_eq.symm), hframes]
  · obtain ⟨j, hj⟩ := Option.isSome_iff_exists.mp (isSome_indexOf?.mpr (List.mem_of_getElem? hat))
    refine .inr ⟨hx, p, i, j, outer, hframes, hat, hj, ?_⟩
    rw [descend_frames (by rwa [h.root_eq]) hframes,
      finalReplacement_of_none (h.mark.resolve_left hx), hj]

theorem Arrived.descend_below (h : Arrived f root w x) :
    ∀ frame ∈ (w.descend f x).frames, f.Below root frame.node := by
  rcases h.descend_cases with ⟨rfl, -, hframes⟩ | ⟨hx, p, i, j, outer, hold, -, hj, hframes⟩
  · simp [hframes, Below.refl]
  · have hp : f.Below root p := h.below ⟨p, i + 1⟩ (by simp [hold])
    have houter : ∀ frame ∈ outer, f.Below root frame.node := fun frame hframe =>
      h.below frame (by simp [hold, hframe])
    have hown : f.Below root x := hp.trans (.of_mem (isSome_indexOf?.mp (by simp [hj])))
    rw [hframes]
    split
    · exact List.forall_mem_cons.mpr ⟨hp, houter⟩
    · exact List.forall_mem_cons.mpr ⟨hown, List.forall_mem_cons.mpr ⟨hp, houter⟩⟩

/-- Asking for the next node is a search from these frames. -/
theorem Arrived.next_eq (h : Arrived f root w x) (fuel : Nat) : w.next fuel f =
    ({ w.descend f x with pending := none }).advance fuel (w.descend f x).frames f :=
  scan_next h.started h.root_eq h.pending h.mark fuel

theorem Arrived.searches {found : Found} (h : Arrived f root w x)
    (hscans : Scans (w.descend f x).frames f found f') :
    ∃ enough, ∀ fuel ≥ enough, w.next fuel f = ({ w.descend f x with pending := none }).visit found f' := by
  obtain ⟨enough, henough⟩ := advance_of_scans hscans
  exact ⟨enough, fun fuel hfuel => (h.next_eq fuel).trans (henough fuel hfuel _)⟩

theorem Arrived.searched (h : Arrived f root w x) (hnext : w.next fuel f ≠ .exhausted) :
    ∃ found f', Scans (w.descend f x).frames f found f' ∧
      w.next fuel f = ({ w.descend f x with pending := none }).visit found f' := by
  rw [h.next_eq] at hnext ⊢
  exact scans_of_advance hnext

/-- The nodes of the frames that a search leaves lie below the root. -/
theorem Arrived.found_below (h : Arrived f root w x)
    (hscans : Scans (w.descend f x).frames f (some (n, frames)) f') :
    ∀ frame ∈ frames, f.Below root frame.node :=
  hscans.places (fun _ hm _ hc => hm.trans (.of_mem hc)) h.descend_below

theorem Arrived.found_ne (h : Arrived f root w x)
    (hscans : Scans (w.descend f x).frames f (some (n, frames)) f') : n ≠ root := by
  obtain ⟨-, p, i, outer, rfl, hat, -⟩ := hscans.found
  intro heq
  have hp : f.Below root p := h.found_below hscans ⟨p, i + 1⟩ (by simp)
  exact h.top p hp (heq ▸ List.mem_of_getElem? hat)

/-- A walk goes from where it stands to where it stands next. -/
theorem Arrived.found (h : Arrived f root w x)
    (hscans : Scans (w.descend f x).frames f (some (n, frames)) f') :
    Arrived f' root { w.descend f x with frames := frames, pending := some n } n := by
  obtain ⟨hmark, p, i, outer, hframes, hat, -⟩ := hscans.found
  have hsame : ∀ {a b}, f'.Below a b ↔ f.Below a b := below_of_children hscans.children
  exact {
    started := by simpa using h.started
    root_eq := by simpa using h.root_eq
    pending := rfl
    mark := .inr hmark
    below := fun frame hframe => hsame.mpr (h.found_below hscans frame hframe)
    top := fun m hm => by
      rw [hscans.children]
      exact h.top m (hsame.mp hm)
    place := .inr ⟨h.found_ne hscans, p, i, outer, hframes, by
      rw [hscans.children]
      exact hat⟩ }

/-- The next step of a walk, and where it leaves the walk. -/
theorem Arrived.step (h : Arrived f root w x)
    (hnext : w.next fuel f = .node n w' f') :
    Scans (w.descend f x).frames f (some (n, w'.frames)) f' ∧ Arrived f' root w' n := by
  have hfuel : w.next fuel f ≠ .exhausted := by simp [hnext]
  obtain ⟨found, g, hscans, heq⟩ := h.searched hfuel
  rw [hnext] at heq
  cases found with
  | none => cases heq
  | some found =>
    cases heq
    exact ⟨hscans, h.found hscans⟩

/-! ## Frames that do not fall back -/

/-- The children of a node from some position on are looked up where they stand, unless they are parts. -/
def Firsts (f : Forest) (p : NodeId) (i : Nat) : Prop :=
  ∀ j ≥ i, ∀ c, (f.children p)[j]? = some c → ¬ (f.kind c).isPart → f.indexOf? p c = some j

/-- A frame does not fall back, neither among the children that it has still to reach nor below these. -/
structure Direct (f : Forest) (frame : Frame) : Prop where
  here : Firsts f frame.node frame.index
  below : ∀ c ∈ unreached f frame, ∀ m, f.Below c m → Firsts f m 0

/-- A list from whose beginning the walker does not fall back has no node twice but parts. -/
theorem firsts_zero_iff : Firsts f p 0 ↔ (f.walked (f.children p)).Nodup := by
  rw [walked, List.Nodup, List.pairwise_filter, List.pairwise_iff_getElem]
  constructor
  · intro h k j hk hj hkj hkeep _ heq
    have hfirst := h j (Nat.zero_le j) _ (List.getElem?_eq_getElem hj) (by simpa [heq] using hkeep)
    refine (indexOf?_eq_some_iff.mp hfirst).2 k hkj ?_
    rw [List.getElem?_eq_getElem hk, heq]
  · intro h j _ c hc hpart
    refine indexOf?_eq_some_iff.mpr ⟨hc, fun k hkj hk => ?_⟩
    obtain ⟨hj, rfl⟩ := List.getElem?_eq_some_iff.mp hc
    obtain ⟨hk, heq⟩ := List.getElem?_eq_some_iff.mp hk
    exact h k j hk hj hkj (by simpa [heq] using hpart) (by simpa using hpart) heq

theorem Firsts.congr (h : Firsts f p i) (hchildren : ∀ m, f'.children m = f.children m)
    (hkind : ∀ m, f'.kind m = f.kind m) : Firsts f' p i := by
  intro j hj c hc hpart
  rw [hchildren] at hc
  rw [hkind] at hpart
  rw [indexOf?_of_children hchildren]
  exact h j hj c hc hpart

theorem Direct.congr {frame : Frame} (h : Direct f frame) (hchildren : ∀ m, f'.children m = f.children m)
    (hkind : ∀ m, f'.kind m = f.kind m) : Direct f' frame where
  here := h.here.congr hchildren hkind
  below := fun c hc m hm => by
    rw [unreached, hchildren] at hc
    exact (h.below c hc m ((below_of_children hchildren).mp hm)).congr hchildren hkind

theorem direct_of_none (hnone : (f.children p)[i]? = none) : Direct f ⟨p, i⟩ where
  here := fun j hj c hc _ => by
    have hlength : (f.children p).length ≤ i := List.getElem?_eq_none_iff.mp hnone
    have hlt : j < (f.children p).length := (List.getElem?_eq_some_iff.mp hc).1
    have hij : i ≤ j := hj
    omega
  below := fun c hc => by
    have hlength : (f.children p).length ≤ i := List.getElem?_eq_none_iff.mp hnone
    simp [unreached, List.drop_eq_nil_of_le hlength] at hc

/-- A frame at the beginning of a list does not fall back if no list from there down has a node twice but
parts. -/
theorem direct_zero_iff : Direct f ⟨c, 0⟩ ↔ ∀ m, f.Below c m → Firsts f m 0 := by
  constructor
  · intro h m hm
    rcases below_iff.mp hm with rfl | ⟨d, hd, hm⟩
    · exact h.here
    · exact h.below d (by simpa [unreached] using hd) m hm
  · intro h
    refine ⟨h c (.refl c), fun d hd m hm => h m ?_⟩
    exact .child (by simpa [unreached] using hd) hm

/-- A frame does not fall back if it does not at the next child, below that, and after it. -/
theorem direct_of_some (hat : (f.children p)[i]? = some c) :
    Direct f ⟨p, i⟩ ↔
      (¬ (f.kind c).isPart → f.indexOf? p c = some i) ∧ Direct f ⟨c, 0⟩ ∧ Direct f ⟨p, i + 1⟩ := by
  have hsplit : unreached f ⟨p, i⟩ = c :: unreached f ⟨p, i + 1⟩ := by
    obtain ⟨hi, rfl⟩ := List.getElem?_eq_some_iff.mp hat
    exact List.drop_eq_getElem_cons hi
  constructor
  · intro h
    have hbelow := h.below
    rw [hsplit, List.forall_mem_cons] at hbelow
    refine ⟨h.here i (Nat.le_refl i) c hat, direct_zero_iff.mpr hbelow.1, ⟨fun j hj => ?_, hbelow.2⟩⟩
    exact h.here j (Nat.le_of_succ_le hj)
  · rintro ⟨hc, hown, hrest⟩
    refine ⟨fun j hj d hd hpart => ?_, ?_⟩
    · rcases Nat.eq_or_lt_of_le hj with rfl | hlt
      · obtain rfl : c = d := Option.some.inj (hat.symm.trans hd)
        exact hc hpart
      · exact hrest.here j hlt d hd hpart
    · rw [hsplit, List.forall_mem_cons]
      exact ⟨direct_zero_iff.mp hown, hrest.below⟩

/-- Behind the place where a node is found it does not stand a second time. -/
theorem Direct.index_eq (h : Direct f ⟨p, j + 1⟩) (hj : f.indexOf? p n = some j)
    (hat : (f.children p)[i]? = some n) (hpart : ¬ (f.kind n).isPart) : i = j := by
  have hle : j ≤ i := indexOf?_le_of_getElem? hj hat
  rcases Nat.eq_or_lt_of_le hle with heq | hlt
  · exact heq.symm
  · exact Option.some.inj ((h.here i hlt n hat hpart).symm.trans hj)

/-- A search that finds nothing has left frames that do not fall back: it has reached parts only. -/
theorem Scans.direct_of_none (h : Scans frames f none f') : ∀ frame ∈ frames, Direct f frame := by
  generalize hfound : (none : Found) = found at h
  induction h with
  | finish => simp
  | leave hnone _ ih => exact List.forall_mem_cons.mpr ⟨Walker.direct_of_none hnone, ih hfound⟩
  | @pass p c i frames f f' found hat hpart _ ih =>
    have hback : ∀ frame, Direct (reach f p c) frame → Direct f frame := fun frame hframe =>
      hframe.congr (fun _ => children_reach.symm) fun _ => kind_reach.symm
    have hall := ih hfound
    rw [List.forall_mem_cons, List.forall_mem_cons] at hall
    obtain ⟨hown, hnext, hrest⟩ := hall
    refine List.forall_mem_cons.mpr ⟨(direct_of_some hat).mpr ⟨fun hno => absurd hpart hno, ?_, ?_⟩, ?_⟩
    · exact hback _ hown
    · exact hback _ hnext
    · exact fun frame hframe => hback frame (hrest frame hframe)
  | stop => cases hfound

/-- The frames of a search do not fall back exactly if those do not that the walk goes on with behind the node
that is found: were the node found before the place where it was reached, it would lie ahead a second time. -/
theorem Scans.direct_iff (h : Scans frames f (some (n, ⟨p, i⟩ :: outer)) f') (hj : f.indexOf? p n = some j) :
    (∀ frame ∈ frames, Direct f frame) ↔
      Direct f ⟨n, 0⟩ ∧ ∀ frame ∈ (⟨p, j + 1⟩ : Frame) :: outer, Direct f frame := by
  generalize hfound : some (n, (⟨p, i⟩ : Frame) :: outer) = found at h
  induction h with
  | finish => cases hfound
  | leave hnone _ ih =>
    rw [List.forall_mem_cons, ih hj hfound]
    exact and_iff_right (Walker.direct_of_none hnone)
  | @pass q c k frames f f' found hat hpart _ ih =>
    have hreach : ∀ frame, Direct (reach f q c) frame ↔ Direct f frame := fun frame =>
      ⟨fun hframe => hframe.congr (fun _ => children_reach.symm) fun _ => kind_reach.symm,
        fun hframe => hframe.congr (fun _ => children_reach) fun _ => kind_reach⟩
    have hrest := ih ((indexOf?_of_children fun _ => children_reach).trans hj) hfound
    simp only [hreach] at hrest
    rw [← hrest, List.forall_mem_cons, List.forall_mem_cons, List.forall_mem_cons, direct_of_some hat,
      and_assoc, and_assoc]
    exact and_iff_right fun hno => absurd hpart hno
  | @stop q c k frames f hat hpart =>
    cases hfound
    rw [List.forall_mem_cons, List.forall_mem_cons]
    constructor
    · rintro ⟨hframe, houter⟩
      obtain ⟨hc, hown, hnext⟩ := (direct_of_some hat).mp hframe
      obtain rfl : k = j := Option.some.inj ((hc hpart).symm.trans hj)
      exact ⟨hown, hnext, houter⟩
    · rintro ⟨hown, hnext, houter⟩
      obtain rfl : k = j := hnext.index_eq hj hat hpart
      exact ⟨(direct_of_some hat).mpr ⟨fun _ => hj, hown, hnext⟩, houter⟩

/-! ## Runs without edits -/

/-- A walk does not fall back at a node that was handed out exactly if it does not at the next one. -/
theorem Arrived.direct_next (h : Arrived f root w x) (hnext : w.next fuel f = .node n w' f') :
    (∀ frame ∈ (w.descend f x).frames, Direct f frame) ↔
      ∀ frame ∈ (w'.descend f' n).frames, Direct f' frame := by
  obtain ⟨hscans, harrived⟩ := h.step hnext
  rcases harrived.descend_cases with ⟨heq, -⟩ | ⟨-, p, i, j, outer, hold, -, hj, hframes⟩
  · exact absurd heq (h.found_ne hscans)
  · rw [hold] at hscans
    rw [indexOf?_of_children hscans.children] at hj
    have hback : ∀ frame, Direct f' frame ↔ Direct f frame := fun frame =>
      ⟨fun hframe => hframe.congr (fun m => (hscans.children m).symm) fun m => (hscans.kind m).symm,
        fun hframe => hframe.congr hscans.children hscans.kind⟩
    rw [hscans.direct_iff hj, hframes]
    simp only [hback]
    split
    · rename_i hempty
      rw [hscans.children, List.isEmpty_iff] at hempty
      exact and_iff_right (direct_of_none (by simp [hempty]))
    · exact List.forall_mem_cons.symm

/-- A walk that ends did not fall back. -/
theorem Arrived.direct {w'' : Walker} {f'' : Forest} (h : Arrived f root w x) (hwalks : Walks w f ns w' f')
    (hend : w'.next fuel f' = .finished w'' f'') : ∀ frame ∈ (w.descend f x).frames, Direct f frame := by
  induction hwalks generalizing x with
  | nil w f =>
    have hfuel : w.next fuel f ≠ .exhausted := by simp [hend]
    obtain ⟨found, g, hscans, heq⟩ := h.searched hfuel
    rw [hend] at heq
    cases found with
    | none => exact hscans.direct_of_none
    | some found => cases heq
  | cons hnext _ ih => exact (h.direct_next hnext).mpr (ih (h.step hnext).2 hend)

/-- A walk that does not fall back goes on with the children of the node that it stands at, and then with
what its frames had still to reach. -/
theorem Arrived.agenda_eq (h : Arrived f root w x)
    (hdirect : ∀ frame ∈ (w.descend f x).frames, Direct f frame) (hpart : x = root ∨ ¬ (f.kind x).isPart) :
    agenda f (w.descend f x).frames = f.children x ++ agenda f w.frames := by
  rcases h.descend_cases with ⟨-, hold, hframes⟩ | ⟨hx, p, i, j, outer, hold, hat, hj, hframes⟩
  · rw [hframes, hold]
    exact agenda_enter
  · have hp : Direct f ⟨p, j + 1⟩ := by
      refine hdirect _ ?_
      rw [hframes]
      split <;> simp
    obtain rfl : i = j := hp.index_eq hj hat (hpart.resolve_left hx)
    rw [hframes, hold]
    exact agenda_schedule

/-- A walk that does not fall back hands out the order of what it has still to reach, and ends. -/
theorem Arrived.completes (h : Arrived f root w x)
    (hdirect : ∀ frame ∈ (w.descend f x).frames, Direct f frame)
    (htodo : f.Lists (agenda f (w.descend f x).frames) todo) : Completes w f (f.walked todo) := by
  induction hsize : todo.length using Nat.strongRecOn generalizing w f x todo with
  | _ size ih =>
    subst hsize
    obtain ⟨found, f₁, hscans⟩ := exists_scans htodo
    obtain ⟨enough, hsearch⟩ := h.searches hscans
    have hnext := hsearch enough (Nat.le_refl enough)
    cases found with
    | none =>
      rw [walked_of_parts (hscans.all_parts htodo)]
      exact ⟨w, f, .nil w f, enough, _, _, hnext⟩
    | some found =>
      obtain ⟨n, frames⟩ := found
      obtain ⟨parts, inner, after, rfl, hparts, hn, hinner, hafter, -⟩ := hscans.split htodo
      have harrived := h.found hscans
      have hdirect₁ := (h.direct_next hnext).mp hdirect
      have hpending := harrived.agenda_eq hdirect₁ (.inr (by rwa [hscans.kind]))
      have htodo₁ : f₁.Lists (f₁.children n ++ agenda f₁ frames) (inner ++ after) := by
        rw [hscans.children]
        exact (hinner.append hafter).congr fun m _ => hscans.children m
      rw [← hpending] at htodo₁
      obtain ⟨w', f', hwalks, hend⟩ := ih _ (by simp; omega) harrived hdirect₁ htodo₁ rfl
      refine ⟨w', f', ?_, hend⟩
      rw [walked_split hparts hn, ← walked_of_kind hscans.kind]
      exact .cons hnext hwalks

/-- Asking for the next node is always answered. -/
theorem Arrived.answered (h : Arrived f root w x) (horder : f.Lists [root] todo) :
    ∃ enough, ∀ fuel ≥ enough, w.next fuel f ≠ .exhausted := by
  obtain ⟨pending, hpending⟩ := exists_agenda horder h.descend_below
  obtain ⟨found, f', hscans⟩ := exists_scans hpending
  obtain ⟨enough, hsearch⟩ := h.searches hscans
  refine ⟨enough, fun fuel hfuel => ?_⟩
  rw [hsearch fuel hfuel]
  cases found <;> simp [visit]

/-- Where a run leaves a walk; the lists and kinds are those at its beginning. -/
theorem Walks.arrived (hwalks : Walks w f ns w' f') (h : Arrived f root w x) :
    (∃ y, Arrived f' root w' y) ∧ (∀ m, f'.children m = f.children m) ∧ ∀ m, f'.kind m = f.kind m := by
  induction hwalks generalizing x with
  | nil => exact ⟨⟨x, h⟩, fun _ => rfl, fun _ => rfl⟩
  | cons hnext _ ih =>
    obtain ⟨hscans, harrived⟩ := h.step hnext
    obtain ⟨hend, hchildren, hkind⟩ := ih harrived
    exact ⟨hend, fun m => (hchildren m).trans (hscans.children m), fun m => (hkind m).trans (hscans.kind m)⟩

/-- A run from the beginning hands out the root first. -/
theorem Walks.of_start (h : Walks (.of root) f ns w f') :
    (ns = [] ∧ w = .of root ∧ f' = f) ∨ ∃ rest, ns = root :: rest ∧ Walks (entered root) f rest w f' := by
  cases h with
  | nil => exact .inl ⟨rfl, rfl, rfl⟩
  | cons hnext hrest =>
    rw [next_start] at hnext
    cases hnext
    exact .inr ⟨_, rfl, hrest⟩

/-- The root of an acyclic structure stands in none of its lists. -/
theorem not_mem_of_acyclic (h : ∀ m, f.Below root m → ∀ c ∈ f.children m, ¬ f.Below c m) :
    ∀ m, f.Below root m → root ∉ f.children m :=
  fun m hm hmem => h m hm root hmem hm

/-- The lists below a root from whose beginning the walker does not fall back. -/
theorem direct_entered : (∀ frame ∈ ((entered root).descend f root).frames, Direct f frame) ↔
    ∀ p, f.Below root p → (f.walked (f.children p)).Nodup := by
  have hframes : ((entered root).descend f root).frames = [⟨root, 0⟩] := descend_root rfl
  simp only [hframes, List.forall_mem_singleton, direct_zero_iff, firsts_zero_iff]

/-- A walk from the root of an acyclic structure that ends has met no list with a node twice. -/
theorem Completes.nodup (h : Completes (.of root) f ns)
    (hacyclic : ∀ m, f.Below root m → ∀ c ∈ f.children m, ¬ f.Below c m) :
    ∀ p, f.Below root p → (f.walked (f.children p)).Nodup := by
  obtain ⟨w, g, hwalks, fuel, w', g', hend⟩ := h
  rcases hwalks.of_start with ⟨-, rfl, rfl⟩ | ⟨rest, -, hrest⟩
  · rw [next_start] at hend
    cases hend
  · have harrived : Arrived f root (entered root) root :=
      arrived_entered (not_mem_of_acyclic hacyclic)
    exact direct_entered.mp (harrived.direct hrest hend)

/-- A walk over a structure that has an order, and no list with a node twice but parts, hands out the root and
the order of what is below it, and ends. -/
theorem completes_of_nodup {inner : List NodeId} (hinner : f.Lists (f.children root) inner)
    (hnodup : ∀ p, f.Below root p → (f.walked (f.children p)).Nodup) :
    Completes (.of root) f (root :: f.walked inner) := by
  have horder : f.Lists [root] (root :: inner) := lists_singleton_iff.mpr ⟨inner, hinner, rfl⟩
  have harrived : Arrived f root (entered root) root :=
    arrived_entered (not_mem_of_acyclic horder.not_below_self)
  have hdirect := direct_entered.mpr hnodup
  have htodo : f.Lists (agenda f ((entered root).descend f root).frames) inner := by
    rw [harrived.agenda_eq hdirect (.inl rfl)]
    simpa [entered, agenda] using hinner
  obtain ⟨w, g, hwalks, hend⟩ := harrived.completes hdirect htodo
  have hfirst : (Walker.of root).next 0 f = .node root (entered root) f := next_start
  exact ⟨w, g, .cons hfirst hwalks, hend⟩

/-- What an edit-free walk does with a structure in which no node lies below itself, whatever links and marks
its nodes bear, and however often they stand in its lists.  If no list has a node twice that is no part, the
walk hands out the root and the order of what is below it, each node as often as it comes, and ends.  If a list
has, the walk never ends: whatever it has handed out, there is a next node. -/
theorem expansion_of_acyclic (hacyclic : ∀ m, f.Below root m → ∀ c ∈ f.children m, ¬ f.Below c m) :
    ∃ inner, f.Lists (f.children root) inner ∧
      ((∀ p, f.Below root p → (f.walked (f.children p)).Nodup) →
        ∀ ns, Completes (.of root) f ns ↔ ns = root :: f.walked inner) ∧
      ((∃ p, f.Below root p ∧ ¬ (f.walked (f.children p)).Nodup) → ∀ ns w g, Walks (.of root) f ns w g →
        ∃ enough, ∀ fuel ≥ enough, ∃ n w' g', w.next fuel g = .node n w' g') := by
  obtain ⟨order, horder⟩ := exists_lists hacyclic
  obtain ⟨inner, hinner, rfl⟩ := lists_singleton_iff.mp horder
  refine ⟨inner, hinner, fun hnodup ns => ?_, fun ⟨p, hp, hrepeats⟩ ns w g hwalks => ?_⟩
  · have hall := completes_of_nodup hinner hnodup
    constructor
    · intro hns
      exact hns.unique hall
    · rintro rfl
      exact hall
  · have hanswered : ∃ enough, ∀ fuel ≥ enough, w.next fuel g ≠ .exhausted := by
      rcases hwalks.of_start with ⟨-, rfl, rfl⟩ | ⟨rest, -, hrest⟩
      · exact ⟨0, fun fuel _ => by simp [next_start]⟩
      · have harrived : Arrived f root (entered root) root := arrived_entered (not_mem_of_acyclic hacyclic)
        obtain ⟨⟨y, hy⟩, hchildren, -⟩ := hrest.arrived harrived
        exact hy.answered (horder.congr fun m _ => hchildren m)
    obtain ⟨enough, henough⟩ := hanswered
    refine ⟨enough, fun fuel hfuel => ?_⟩
    cases hnext : w.next fuel g with
    | node n w' g' => exact ⟨n, w', g', rfl⟩
    | finished w' g' =>
      have hcompletes : Completes (.of root) f ns := ⟨w, g, hwalks, fuel, w', g', hnext⟩
      exact absurd (hcompletes.nodup hacyclic p hp) hrepeats
    | exhausted => exact absurd hnext (henough fuel hfuel)

/-- A list that has one item twice, and a word that stands in the item's paragraph and in an emphasis there. -/
def itemTwice : Forest :=
  Move.history [.make .str [("text", .data (.str "word"))] [], .make .emph [] [⟨0⟩], .make .para [] [⟨0⟩, ⟨1⟩],
    .make .listItem [] [⟨2⟩], .make .bulletList [] [⟨3⟩, ⟨3⟩]]

/-- A paragraph of two words that has one space before each. -/
def spaceTwice : Forest :=
  Move.history [.make .space [] [], .make .str [("text", .data (.str "a"))] [],
    .make .str [("text", .data (.str "b"))] [], .make .para [] [⟨0⟩, ⟨1⟩, ⟨0⟩, ⟨2⟩]]

theorem lists_itemTwice :
    itemTwice.Lists [⟨4⟩] [⟨4⟩, ⟨3⟩, ⟨2⟩, ⟨0⟩, ⟨1⟩, ⟨0⟩, ⟨3⟩, ⟨2⟩, ⟨0⟩, ⟨1⟩, ⟨0⟩] :=
  lists_of_order? (by decide : itemTwice.order? 8 [⟨4⟩] = _)

theorem lists_spaceTwice : spaceTwice.Lists [⟨3⟩] [⟨3⟩, ⟨0⟩, ⟨1⟩, ⟨0⟩, ⟨2⟩] :=
  lists_of_order? (by decide : spaceTwice.order? 8 [⟨3⟩] = _)

/-- The walk through the list hands out all that the item holds twice, the word four times; the walk through
the paragraph comes by the first space for ever. -/
theorem expansion_twice :
    (∀ ns, Completes (.of ⟨4⟩) itemTwice ns ↔ ns = [⟨4⟩, ⟨2⟩, ⟨0⟩, ⟨1⟩, ⟨0⟩, ⟨2⟩, ⟨0⟩, ⟨1⟩, ⟨0⟩]) ∧
      ∀ ns w g, Walks (.of ⟨3⟩) spaceTwice ns w g →
        ∃ enough, ∀ fuel ≥ enough, ∃ n w' g', w.next fuel g = .node n w' g' := by
  constructor
  · obtain ⟨inner, hinner, hall, -⟩ := expansion_of_acyclic lists_itemTwice.not_below_self
    have horder := lists_singleton_iff.mpr ⟨inner, hinner, rfl⟩
    obtain rfl := (List.cons.inj (horder.unique lists_itemTwice)).2
    refine hall fun p hp => ?_
    have hlists : ∀ m ∈ [⟨4⟩, ⟨3⟩, ⟨2⟩, ⟨0⟩, ⟨1⟩, ⟨0⟩, ⟨3⟩, ⟨2⟩, ⟨0⟩, ⟨1⟩, ⟨0⟩],
        (itemTwice.walked (itemTwice.children m)).Nodup := by decide
    exact hlists p (lists_itemTwice.mem_singleton_iff.mpr hp)
  · obtain ⟨inner, -, -, hforever⟩ := expansion_of_acyclic lists_spaceTwice.not_below_self
    exact hforever ⟨⟨3⟩, .refl _, by decide⟩

/-- A list that has a node twice keeps a walk from ending, though no node lies below itself and there is an
order: in front of both words the paragraph has the same space. -/
theorem endless_spaceTwice :
    (∀ m, spaceTwice.Below ⟨3⟩ m → ∀ c ∈ spaceTwice.children m, ¬ spaceTwice.Below c m) ∧
      spaceTwice.Lists (spaceTwice.children ⟨3⟩) [⟨0⟩, ⟨1⟩, ⟨0⟩, ⟨2⟩] ∧
      ¬ ∃ ns, Completes (.of ⟨3⟩) spaceTwice ns := by
  refine ⟨lists_spaceTwice.not_below_self, lists_of_order? (by decide : spaceTwice.order? 8 _ = _), ?_⟩
  rintro ⟨ns, hcompletes⟩
  have hnodup := hcompletes.nodup lists_spaceTwice.not_below_self ⟨3⟩ (.refl _)
  exact absurd hnodup (by decide)

end Walker

end DocFilter
