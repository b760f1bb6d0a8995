import DocFilter.Proofs.Walk.Ahead
import DocFilter.Proofs.Walk.Expansion

/-!
# The nodes around the node that a walk hands out

A tree that was put together from nodes that were made tells nothing about itself but its lists: its nodes
record no holder, or an old one, and some may bear marks of replacements long undone.  A walk puts this right
on its way.  When it hands out a node, all nodes from there up to the root record the node whose list they
stand in, as the walk has passed each of them and has made its record.  The record of the root itself stays as it is,
and where it leads back into the tree, climbing from any node goes round for ever.

* `Forest.Lineage` are the nodes around a node, told from the lists.
* `Forest.Topped.exists_above` and `Forest.topped_of_holders` say that the nodes above a node are listed if climbing
  from it ends, and only then.
* `Walker.Met` is where a walk stands whose records are right so far.  `Walker.Met.step` is the step and
  `Walker.Walks.met` the run.
* `Walker.preorder_of_strict` is the result on whole walks, `Walker.ring_ancestors_endless` a walk in such a tree.
-/

namespace DocFilter

namespace Forest

variable {f f' : Forest} {root n m p x : NodeId} {ups ups' path above : List NodeId} {fuel : Nat}

/-! ## From a node up to the root -/

/-- The nodes around a node, from the one whose list it stands in up to the root. -/
inductive Lineage (f : Forest) (root : NodeId) : NodeId → List NodeId → Prop where
  | root : Lineage f root root []
  | child {p n : NodeId} {ups : List NodeId} :
      n ∈ f.children p → Lineage f root p ups → Lineage f root n (p :: ups)

theorem Lineage.leads (h : f.Lineage root n ups) : f.Below root n := by
  induction h with
  | root => exact .refl root
  | child hmem _ ih => exact ih.trans (.of_mem hmem)

/-- In a strict tree only these nodes are around a node. -/
theorem Lineage.unique (h : f.Lineage root n ups) (h' : f.Lineage root n ups') (hstrict : f.Strict root) :
    ups' = ups := by
  induction h generalizing ups' with
  | root =>
    cases h' with
    | root => rfl
    | child hmem hp => exact absurd hmem (hstrict.not_mem_children hp.leads)
  | child hmem hp ih =>
    cases h' with
    | root => exact absurd hmem (hstrict.not_mem_children hp.leads)
    | child hmem' hq =>
      obtain rfl := hstrict.held_once hp.leads hq.leads hmem hmem'
      rw [ih hq]

/-! ## Climbing to the end -/

theorem Climbs.topped_iff (h : f.Climbs n m) : f.Topped n ↔ f.Topped m := by
  induction h with
  | refl => rfl
  | up hheld _ ih =>
    rw [← ih]
    constructor
    · intro htop
      cases htop with
      | top hnone => cases hnone.symm.trans hheld
      | under hheld' htop =>
        obtain rfl := Option.some.inj (hheld.symm.trans hheld')
        exact htop
    · exact .under hheld

/-- Fuel for the nodes that a climb passes is enough to climb to the top. -/
theorem Trail.exists_holders (h : f.Trail n m path) (hnone : f.holder? m = none) :
    ∃ above, ∀ fuel, path.length < fuel → f.holders fuel n = some above := by
  induction h with
  | refl m =>
    refine ⟨[], fun fuel hfuel => ?_⟩
    obtain ⟨fuel, rfl⟩ := Nat.exists_eq_add_one_of_ne_zero (Nat.ne_of_gt hfuel)
    rw [holders, hnone]
  | @up n q m path hheld _ _ ih =>
    obtain ⟨above, habove⟩ := ih hnone
    refine ⟨q :: above, fun fuel hfuel => ?_⟩
    rw [List.length_cons] at hfuel
    obtain ⟨fuel, rfl⟩ := Nat.exists_eq_add_one_of_ne_zero (Nat.ne_zero_of_lt hfuel)
    rw [holders, hheld]
    exact congrArg (Option.map _) (habove fuel (Nat.lt_of_succ_lt_succ hfuel))

/-- Where climbing ends, a forest lists all nodes above. -/
theorem Topped.exists_above (h : f.Topped n) : ∃ above, ∀ fuel, f.size < fuel → f.holders fuel n = some above := by
  obtain ⟨m, hclimbs, hnone⟩ := h.exists_climb
  obtain ⟨path, htrail⟩ := hclimbs.exists_trail
  obtain ⟨above, habove⟩ := htrail.exists_holders hnone
  exact ⟨above, fun fuel hfuel => habove fuel (htrail.length_le_size.trans_lt hfuel)⟩

/-- A list of the nodes above comes from a climb that ends. -/
theorem topped_of_holders (h : f.holders fuel n = some above) : f.Topped n := by
  induction fuel generalizing n above with
  | zero => cases h
  | succ fuel ih =>
    rw [holders] at h
    split at h
    · rename_i hnone
      exact .top hnone
    · rename_i p hheld
      obtain ⟨rest, hrest, -⟩ := Option.map_eq_some_iff.mp h
      exact .under hheld (ih hrest)

theorem ancestors_of_above (h : f.above? n = some above) : f.ancestors n = .ok (f.walked above) := by
  rw [ancestors, h]
  rfl

/-- Where climbing goes round for ever there is no list of ancestors. -/
theorem ancestors_of_endless (h : ¬ f.Topped n) : f.ancestors n = .error .endless := by
  have hnone : f.above? n = none := by
    rw [Option.eq_none_iff_forall_ne_some]
    exact fun above habove => h (topped_of_holders habove)
  rw [ancestors, hnone]

end Forest

namespace Walker

open Forest

variable {f f' : Forest} {w w' : Walker} {root n x : NodeId} {fuel : Nat} {frames : List Frame}
  {ns before after inner : List NodeId} {known : NodeId → Prop}

/-! ## The frames as a lineage -/

theorem Path.lineage (h : Path f root frames x) : f.Lineage root x (frames.map Frame.node) := by
  induction h with
  | root => exact .root
  | child _ hchildren ih => exact .child (by simp [hchildren]) ih

/-- Where the records of the nodes on a path are right, they lead back along it. -/
theorem Path.chain (h : Path f root frames x) (hrecords : f.Records root known) (hx : known x) :
    (x :: frames.map Frame.node).IsChain fun m q => f.holder? m = some q := by
  induction h with
  | root => exact .singleton root
  | @child frames p x done rest hpath hchildren ih =>
    obtain ⟨hheld, hp⟩ := hrecords p x hpath.leads (by simp [hchildren]) hx
    exact .cons_cons hheld (ih hp)

/-- They lead back to the root, and then on to what is above it. -/
theorem Path.holders (h : Path f root frames x) (hrecords : f.Records root known) (hx : known x)
    (fuel : Nat) : f.Climbs x root ∧
      f.holders (fuel + frames.length) x = (f.holders fuel root).map (frames.map Frame.node ++ ·) := by
  induction h with
  | root => exact ⟨.refl root, by simp⟩
  | @child frames p x done rest hpath hchildren ih =>
    obtain ⟨hheld, hp⟩ := hrecords p x hpath.leads (by simp [hchildren]) hx
    obtain ⟨hclimbs, hholders⟩ := ih hp
    refine ⟨.up hheld hclimbs, ?_⟩
    rw [List.length_cons, ← Nat.add_assoc, Forest.holders, hheld]
    simp [hholders, Function.comp_def]

/-! ## Where a walk stands -/

/-- A walk stands at a node that it has just handed out, and all nodes that it has met record the nodes whose
lists they stand in. -/
structure Met (f : Forest) (root : NodeId) (w : Walker) (x : NodeId) : Prop extends Arrived f root w x where
  strict : f.Strict root
  flanked : ∃ before after, Flanked f root w.frames x before after ∧ f.Records root (· ∈ before ++ [x])

theorem Met.path (h : Met f root w x) : Path f root w.frames x := by
  obtain ⟨before, after, hflanked, -⟩ := h.flanked
  exact hflanked.path

/-- Nothing is to be recorded of the root. -/
theorem met_entered (hstrict : f.Strict root) : Met f root (entered root) root where
  toArrived := arrived_entered fun _ hm => hstrict.not_mem_children hm
  strict := hstrict
  flanked := ⟨[], [], .root, fun q m hq hm hknown => by
    obtain rfl : m = root := by simpa using hknown
    exact absurd hm (hstrict.not_mem_children hq)⟩

/-- A search leaves the record of the root alone. -/
theorem Scans.holder?_root {found : Found} (h : Scans frames f found f')
    (hframes : ∀ frame ∈ frames, f.Below root frame.node)
    (htop : ∀ m, f.Below root m → root ∉ f.children m) : f'.holder? root = f.holder? root := by
  induction h with
  | finish => rfl
  | leave _ _ ih => exact ih (List.forall_mem_cons.mp hframes).2 htop
  | @pass p c i frames f f' found hat _ _ ih =>
    obtain ⟨hp, houter⟩ := List.forall_mem_cons.mp hframes
    have hmem : c ∈ f.children p := List.mem_of_getElem? hat
    have hsame : ∀ {a b}, (reach f p c).Below a b ↔ f.Below a b := below_of_children fun _ => children_reach
    simp only [hsame, children_reach] at ih
    rw [ih (List.forall_mem_cons.mpr ⟨hp.trans (.of_mem hmem), List.forall_mem_cons.mpr ⟨hp, houter⟩⟩) htop,
      holder?_reach, if_neg fun hcase : root = c ∧ _ => htop p hp (hcase.1 ▸ hmem)]
  | @stop p c i frames f hat _ =>
    have hp := (List.forall_mem_cons.mp hframes).1
    rw [holder?_reach, if_neg fun hcase : root = c ∧ _ => htop p hp (hcase.1 ▸ List.mem_of_getElem? hat)]

/-- The search for the next node goes on below the present one. -/
theorem Met.scans {found : Found} (h : Met f root w x) (hscans : Scans (w.descend f x).frames f found f') :
    Scans (⟨x, 0⟩ :: w.frames) f found f' := by
  obtain ⟨found', g, hpath⟩ := h.path.between_enter.exists_scans h.strict
  obtain ⟨rfl, rfl⟩ := hscans.unique (h.path.scans_descend h.root_eq h.strict h.mark hpath)
  exact hpath

theorem Met.step (h : Met f root w x) (hnext : w.next fuel f = .node n w' f') : Met f' root w' n := by
  obtain ⟨hscans, harrived⟩ := h.toArrived.step hnext
  obtain ⟨before, after, hflanked, hrecords⟩ := h.flanked
  obtain ⟨order, horder, -, -⟩ := id h.strict
  obtain ⟨inner, hinner, -⟩ := horder.exists_inner (horder.mem_singleton_iff.mpr h.path.leads)
  have hbelow := h.scans hscans
  obtain ⟨parts, inner', after', hsplit, hparts, hn, -, hflanked'⟩ :=
    hbelow.flanked hflanked hinner h.strict
  exact {
    toArrived := harrived
    strict := h.strict.congr (fun m _ => hscans.children m) (Nat.le_of_eq hscans.size.symm)
    flanked := ⟨_, _, hflanked', hbelow.records_met hflanked hinner h.strict hsplit hparts hn hrecords⟩ }

/-- All through a run the records are right for what was met, and that of the root stays as it was. -/
theorem Walks.met (hwalks : Walks w f ns w' f') (h : Met f root w x) :
    f'.holder? root = f.holder? root ∧ ∃ y, Met f' root w' y ∧ (x :: ns).getLast? = some y := by
  induction hwalks generalizing x with
  | nil => exact ⟨rfl, x, h, rfl⟩
  | cons hnext _ ih =>
    obtain ⟨hheld, y, hy, hlast⟩ := ih (h.step hnext)
    have hscans := (h.toArrived.step hnext).1
    exact ⟨hheld.trans (hscans.holder?_root h.descend_below h.top), y, hy, by rwa [List.getLast?_cons_cons]⟩

theorem Met.chain (h : Met f root w x) :
    (x :: w.frames.map Frame.node).IsChain fun m q => f.holder? m = some q := by
  obtain ⟨before, after, hflanked, hrecords⟩ := h.flanked
  exact h.path.chain hrecords (by simp)

/-- Above the present node a forest lists its lineage, and then what it lists above the root. -/
theorem Met.ancestors (h : Met f root w x) :
    (f.Topped root → ∃ above, f.ancestors root = .ok above ∧
        f.ancestors x = .ok (f.walked (w.frames.map Frame.node) ++ above)) ∧
      (¬ f.Topped root → f.ancestors x = .error .endless) := by
  obtain ⟨before, after, hflanked, hrecords⟩ := h.flanked
  have hx : x ∈ before ++ [x] := by simp
  have hclimbs : f.Climbs x root := (h.path.holders hrecords hx 0).1
  refine ⟨fun htop => ?_, fun hendless => ancestors_of_endless (hclimbs.topped_iff.not.mpr hendless)⟩
  obtain ⟨above, habove⟩ := htop.exists_above
  obtain ⟨all, hall⟩ := (hclimbs.topped_iff.mpr htop).exists_above
  have hroot : f.above? root = some above := habove _ (Nat.lt_succ_self _)
  have hlisted : f.above? x = some (w.frames.map Frame.node ++ above) := by
    have hlong := (h.path.holders hrecords hx (f.size + 1)).2
    rw [hall _ (by omega), habove _ (Nat.lt_succ_self _)] at hlong
    exact (hall _ (Nat.lt_succ_self _)).trans hlong
  exact ⟨_, ancestors_of_above hroot, by rw [ancestors_of_above hlisted, walked_append]⟩

/-- The end of a walk: it is the end for good, and no list has changed. -/
theorem Walks.at_end {w'' : Walker} {f'' : Forest} (hwalks : Walks (.of root) f ns w' f')
    (hstrict : f.Strict root) (hend : w'.next fuel f' = .finished w'' f'') :
    (∃ enough, ∀ fuel ≥ enough, w'.next fuel f' = .finished w'' f'') ∧
      (∀ m, f''.children m = f.children m) ∧ ∀ fuel g, w''.next (fuel + 1) g = .finished w'' g := by
  have hfuel : w'.next fuel f' ≠ .exhausted := by simp [hend]
  rcases hwalks.of_start with ⟨-, rfl, rfl⟩ | ⟨rest, -, hrest⟩
  · rw [next_start] at hend
    cases hend
  · obtain ⟨⟨y, hy⟩, hchildren, -⟩ := hrest.arrived (met_entered hstrict).toArrived
    refine ⟨?_, fun m => ?_, next_of_finished hy.started hend⟩
    · obtain ⟨enough, henough⟩ := next_stable hfuel
      exact ⟨enough, fun more hmore => (henough more hmore).trans hend⟩
    · obtain ⟨found, g, hscans, heq⟩ := hy.searched hfuel
      rw [hend] at heq
      cases found with
      | some found => cases heq
      | none =>
        cases heq
        exact (hscans.children m).trans (hchildren m)

/-- The moment at which a walk has just handed out a node. -/
theorem Walks.at_node (hwalks : Walks (.of root) f (ns ++ [n]) w f') (hstrict : f.Strict root) :
    Met f' root w n ∧ f'.holder? root = f.holder? root ∧ (∀ m, f'.children m = f.children m) ∧
      ∀ m, f'.kind m = f.kind m := by
  rcases hwalks.of_start with ⟨hnil, -, -⟩ | ⟨rest, hns, hrest⟩
  · simp at hnil
  · obtain ⟨hheld, y, hy, hlast⟩ := hrest.met (met_entered hstrict)
    obtain rfl : n = y := by simpa [← hns] using hlast
    exact ⟨hy, hheld, (hrest.arrived (met_entered hstrict).toArrived).2⟩

/-- An edit-free walk over a strict tree, whatever links and marks its nodes bear.  It hands out the root and
then the nodes below it in order, each once and parts left out; then it ends, and stays at its end whatever
happens to the forest.  No list changes.

At the moment when it hands out a node, the holders of the node are the nodes around it, from the nearest to the
root.  Its ancestors are those of them that are no parts, and above these the root's own ancestors.  So if climbing
from the root goes round for ever, asking for the ancestors never ends; what the root records stays as it was. -/
theorem preorder_of_strict (hstrict : f.Strict root) :
    ∃ inner, f.Lists (f.children root) inner ∧ (root :: inner).Nodup ∧
      (∃ w g, Walks (.of root) f (root :: f.walked inner) w g ∧
        ∃ enough w' g', (∀ fuel ≥ enough, w.next fuel g = .finished w' g') ∧
          (∀ m, g'.children m = f.children m) ∧ ∀ fuel h, w'.next (fuel + 1) h = .finished w' h) ∧
      ∀ ns n w g, Walks (.of root) f (ns ++ [n]) w g →
        ns ++ [n] <+: root :: f.walked inner ∧ (∀ m, g.children m = f.children m) ∧
          g.holder? root = f.holder? root ∧ ∃ ups, f.Lineage root n ups ∧
            ((n :: ups).IsChain fun m q => g.holder? m = some q) ∧
            (g.Topped root → ∃ above, g.ancestors root = .ok above ∧
              g.ancestors n = .ok (f.walked ups ++ above)) ∧
            (¬ g.Topped root → g.ancestors n = .error .endless) := by
  obtain ⟨order, horder, hnodup, -⟩ := id hstrict
  obtain ⟨inner, hinner, rfl⟩ := lists_singleton_iff.mp horder
  obtain ⟨v, k, hall, fuel, v', k', hend⟩ := completes_of_nodup hinner fun p hp =>
    (hstrict.nodup_children hp).filter _
  refine ⟨inner, hinner, hnodup, ?_, fun ns n w g hwalks => ?_⟩
  · obtain ⟨⟨enough, henough⟩, hchildren, hever⟩ := hall.at_end hstrict hend
    exact ⟨v, k, hall, enough, v', k', henough, hchildren, hever⟩
  · obtain ⟨hmet, hheld, hchildren, hkind⟩ := hwalks.at_node hstrict
    refine ⟨hall.prefix_of_finished hend hwalks, hchildren, hheld, w.frames.map Frame.node, ?_, hmet.chain, ?_⟩
    · exact (hmet.path.congr fun frame _ => (hchildren frame.node).symm).lineage
    · rw [← walked_of_kind hkind]
      exact hmet.ancestors

/-- A word was put in the place of another one and back again, so each is marked as replaced by the other and
both record the paragraph of that time.  Then the first was made part of a list that nothing was told of. -/
def relics : Forest :=
  Move.history [.make .str [("text", .data (.str "a"))] [], .make .str [("text", .data (.str "b"))] [],
    .make .para [] [⟨0⟩], .replace ⟨2⟩ ⟨0⟩ ⟨1⟩, .replace ⟨2⟩ ⟨1⟩ ⟨0⟩, .make .emph [] [⟨0⟩], .make .para [] [⟨3⟩],
    .make .listItem [] [⟨4⟩], .make .bulletList [] [⟨5⟩]]

theorem lists_relics : relics.Lists [⟨6⟩] [⟨6⟩, ⟨5⟩, ⟨4⟩, ⟨3⟩, ⟨0⟩] :=
  lists_of_order? (by decide : relics.order? 8 [⟨6⟩] = _)

/-- The walk hands out the word last, and then the emphasis, the paragraph and the list are above it. -/
theorem preorder_relics :
    (relics.holder? ⟨0⟩ = some ⟨2⟩ ∧ relics.holder? ⟨3⟩ = none ∧ relics.replacement? ⟨0⟩ = some ⟨1⟩ ∧
        relics.replacement? ⟨1⟩ = some ⟨0⟩) ∧
      ∃ w g, Walks (.of ⟨6⟩) relics ([⟨6⟩, ⟨4⟩, ⟨3⟩] ++ [⟨0⟩]) w g ∧
        (∃ enough w' g', ∀ fuel ≥ enough, w.next fuel g = .finished w' g') ∧
        g.ancestors ⟨0⟩ = .ok [⟨3⟩, ⟨4⟩, ⟨6⟩] := by
  have hstrict : relics.Strict ⟨6⟩ := ⟨_, lists_relics, by decide, by decide⟩
  obtain ⟨inner, hinner, -, ⟨w, g, hwalks, enough, w', g', hend, -⟩, hmoment⟩ := preorder_of_strict hstrict
  have horder := lists_singleton_iff.mpr ⟨inner, hinner, rfl⟩
  obtain rfl := (List.cons.inj (horder.unique lists_relics)).2
  have hhanded : ⟨6⟩ :: relics.walked [⟨5⟩, ⟨4⟩, ⟨3⟩, ⟨0⟩] = [⟨6⟩, ⟨4⟩, ⟨3⟩] ++ [⟨0⟩] := by decide
  rw [hhanded] at hwalks
  obtain ⟨-, -, hheld, ups, hups, -, hancestors, -⟩ := hmoment _ _ _ _ hwalks
  have hlineage : relics.Lineage ⟨6⟩ ⟨0⟩ [⟨3⟩, ⟨4⟩, ⟨5⟩, ⟨6⟩] :=
    .child (by decide) (.child (by decide) (.child (by decide) (.child (by decide) .root)))
  obtain rfl := hlineage.unique hups hstrict
  have hnone : g.holder? ⟨6⟩ = none := hheld.trans (by decide)
  obtain ⟨above, hroot, hall⟩ := hancestors (.top hnone)
  have htop : g.above? ⟨6⟩ = some [] := by rw [above?, holders, hnone]
  obtain rfl : [] = above := Except.ok.inj ((ancestors_of_above htop).symm.trans hroot)
  exact ⟨by decide, w, g, hwalks, ⟨enough, w', g', hend⟩, hall⟩

/-- An emphasis takes over a paragraph and has a word put in its place, which leaves the record of the paragraph as it
was; then the paragraph takes over the emphasis.  The tree is a strict one, and each of the two is on record as
the holder of the other. -/
def ring : Forest :=
  Move.history [.make .str [("text", .data (.str "a"))] [], .make .para [] [], .make .emph [] [],
    .append ⟨2⟩ ⟨1⟩, .replace ⟨2⟩ ⟨1⟩ ⟨0⟩, .append ⟨1⟩ ⟨2⟩]

/-- When the walk hands out the word, asking for its ancestors never ends. -/
theorem ring_ancestors_endless : ¬ ∀ (f : Forest) (root : NodeId), f.Strict root →
    ∀ ns n w g, Walks (.of root) f (ns ++ [n]) w g →
      ∃ ups above, f.Lineage root n ups ∧ g.ancestors n = .ok (f.walked ups ++ above) := by
  intro h
  have hlists : ring.Lists [⟨1⟩] [⟨1⟩, ⟨2⟩, ⟨0⟩] := lists_of_order? (by decide : ring.order? 5 [⟨1⟩] = _)
  have hstrict : ring.Strict ⟨1⟩ := ⟨_, hlists, by decide, by decide⟩
  have hwalks : Walks (.of ⟨1⟩) ring ([⟨1⟩, ⟨2⟩] ++ [⟨0⟩]) _ _ :=
    .cons (show Walker.next _ 5 _ = .node ⟨1⟩ _ _ from rfl)
      (.cons (show Walker.next _ 5 _ = .node ⟨2⟩ _ _ from rfl)
        (.cons (show Walker.next _ 5 _ = .node ⟨0⟩ _ _ from rfl) (.nil _ _)))
  obtain ⟨ups, above, -, hancestors⟩ := h ring ⟨1⟩ hstrict _ _ _ _ hwalks
  cases hancestors

end Walker

end DocFilter
