import DocFilter.Proofs.Forest.Enclosing
import DocFilter.Proofs.Json.RoundTrip
import DocFilter.Proofs.Results
import DocFilter.Proofs.Selector.Chains
import DocFilter.Proofs.Selector.Grammar

/-!
# What selectors mean

A selector asks for a node by what is around it in the tree and by what is in front of it in the order of the
tree.  The matcher has neither: it follows the records of the holders, and it looks nodes up in a history of
visits.

* `Selector.HoldsAt` is what a chain of tests asks of the node with a number in the order of a tree.
* `Selector.Tracks` says that a history and the records of the holders tell what the visits so far have met of a
  tree, and `Selector.holds_tells` that the matcher then answers, and finds what the chain asks for.
* `Selector.LinksTagged` says that a selector asks for blocks and inlines only, and
  `Selector.linksTagged_of_compile` that every selector that compiles does.
-/

namespace DocFilter

namespace Selector

variable {f f₀ : Forest} {nodes : List NodeId} {history : Array NodeId} {first : NodeTest}
  {links : List Link} {combinator : Combinator} {n p : NodeId} {place : Option Nat} {i limit : Nat}

/-! ## The meaning of a chain -/

/-- What a chain, given from right to left, asks of the node with a number in the order of a tree: that its
kind passes the last test, and that the rest of the chain holds at the number of the node around it, at the
number so far before its own, or at some earlier number. -/
def HoldsAt (f : Forest) (nodes : List NodeId) (first : NodeTest) : List Link → Nat → Prop
  | [], i => ∃ n, nodes[i]? = some n ∧ first.accepts (f.kind n)
  | link :: links, i => ∃ n, nodes[i]? = some n ∧ link.test.accepts (f.kind n) ∧
    match link.combinator with
    | .childOf => ∃ p j, f.Encloses p n ∧ nodes[j]? = some p ∧ HoldsAt f nodes first links j
    | .follows (some distance) => ∃ j, i = j + distance + 1 ∧ HoldsAt f nodes first links j
    | .follows none => ∃ j < i, HoldsAt f nodes first links j

/-! ## Positions in a history -/

/-- A node that was visited once is found where it was visited. -/
theorem lastPosition?_eq (honce : ∀ j, history[j]? = some n → j = i) (hi : history[i]? = some n)
    (hlimit : i < limit) : lastPosition? history n limit = some i := by
  refine lastPosition?_eq_iff.mpr ⟨hlimit, hi, fun j hlow _ hj => ?_⟩
  have heq := honce j hj
  omega

/-! ## What the visits have met -/

/-- A history holds the first nodes of a tree in their order, and where they are blocks or inlines the records
of the holders lead from them to the nodes around them. -/
structure Tracks (f₀ : Forest) (nodes : List NodeId) (f : Forest) (history : Array NodeId) : Prop where
  nodup : nodes.Nodup
  visited : history.toList <+: nodes
  kind : ∀ n ∈ nodes, f.kind n = f₀.kind n
  parent : ∀ n ∈ history.toList, (f₀.kind n).isTagged →
    ∃ parent, f.parent n = .ok parent ∧ ∀ p, parent = some p ↔ p ∈ nodes ∧ f₀.Encloses p n
  earlier : ∀ (i j : Nat) (n p : NodeId), nodes[i]? = some n → nodes[j]? = some p → f₀.Encloses p n → j < i

theorem Tracks.getElem? (h : Tracks f₀ nodes f history) (hi : i < history.size) :
    history[i]? = nodes[i]? := by
  rw [← Array.getElem?_toList, List.prefix_iff_eq_take.mp h.visited, List.getElem?_take_of_lt]
  rwa [Array.length_toList]

theorem Tracks.number_unique {j : Nat} (h : Tracks f₀ nodes f history) (hj : nodes[j]? = some n)
    (hi : nodes[i]? = some n) : j = i := by
  have hlength : j < nodes.length := (List.getElem?_eq_some_iff.mp hj).1
  exact (List.getElem?_inj hlength h.nodup).mp (hj.trans hi.symm)

theorem Tracks.lastPosition?_eq (h : Tracks f₀ nodes f history) (hi : i < limit)
    (hlimit : limit ≤ history.size) (hn : nodes[i]? = some n) :
    lastPosition? history n limit = some i := by
  have hvisited : history[i]? = some n := (h.getElem? (by omega)).trans hn
  refine Selector.lastPosition?_eq (fun j hj => ?_) hvisited hi
  have hj' : j < history.size := (Array.getElem?_eq_some_iff.mp hj).1
  rw [h.getElem? hj'] at hj
  exact h.number_unique hj hn

theorem Tracks.mem (h : Tracks f₀ nodes f history) (hi : i < history.size) (hn : nodes[i]? = some n) :
    n ∈ history.toList := by
  refine List.mem_of_getElem? (i := i) ?_
  rw [Array.getElem?_toList, h.getElem? hi, hn]

theorem Tracks.parent_iff (h : Tracks f₀ nodes f history) (hi : i < history.size) (hn : nodes[i]? = some n)
    (htagged : (f₀.kind n).isTagged) : f.parent n = .ok (some p) ↔ p ∈ nodes ∧ f₀.Encloses p n := by
  obtain ⟨parent, hparent, hiff⟩ := h.parent n (h.mem hi hn) htagged
  rw [hparent, Except.ok.injEq, hiff]

/-- The parent of a node that was visited was visited before it. -/
theorem Tracks.parent_visited (h : Tracks f₀ nodes f history) (hi : i < history.size)
    (hn : nodes[i]? = some n) (htagged : (f₀.kind n).isTagged) (hparent : f.parent n = .ok (some p)) :
    f₀.Encloses p n ∧ ∃ j, j < i ∧ nodes[j]? = some p ∧ lastPosition? history p i = some j := by
  obtain ⟨hp, hencloses⟩ := (h.parent_iff hi hn htagged).mp hparent
  obtain ⟨j, hj⟩ := List.mem_iff_getElem?.mp hp
  have hlt := h.earlier i j n p hn hj hencloses
  exact ⟨hencloses, j, hlt, hj, h.lastPosition?_eq hlt (by omega) hj⟩

/-- What is joined to a node that was visited was visited before it, and stands at its number. -/
theorem Tracks.joined_before (h : Tracks f₀ nodes f history) (hi : i < history.size) (hn : nodes[i]? = some n)
    (htagged : combinator = .childOf → (f₀.kind n).isTagged)
    (hjoined : Joined f history combinator (p, place) (n, some i)) : ∃ j < i, place = some j ∧ nodes[j]? = some p := by
  cases combinator with
  | childOf =>
    obtain ⟨hparent, hplace⟩ := hjoined
    obtain ⟨-, j, hlt, hj, hlast⟩ := h.parent_visited hi hn (htagged rfl) hparent
    exact ⟨j, hlt, (lastPosition?_eq_iff.mpr hplace).symm.trans hlast, hj⟩
  | follows distance =>
    cases distance with
    | some distance =>
      obtain ⟨j, rfl, hplace, hp⟩ := hjoined
      have hlt : j < i := by have := Option.some.inj hplace; omega
      exact ⟨j, hlt, rfl, (h.getElem? (by omega)).symm.trans hp⟩
    | none =>
      obtain ⟨j, k, rfl, hplace, hlt, hp⟩ := hjoined
      obtain rfl : i = k := Option.some.inj hplace
      exact ⟨j, hlt, rfl, (h.getElem? (by omega)).symm.trans hp⟩

/-- What is joined to a node that was visited is what a link asks for. -/
theorem Tracks.joined_iff {good : Nat → Prop} (h : Tracks f₀ nodes f history) (hi : i < history.size)
    (hn : nodes[i]? = some n) : (combinator = .childOf → (f₀.kind n).isTagged) →
    ((∃ p place, Joined f history combinator (p, place) (n, some i) ∧
        ∃ j, place = some j ∧ nodes[j]? = some p ∧ good j) ↔
      match combinator with
      | .childOf => ∃ p j, f₀.Encloses p n ∧ nodes[j]? = some p ∧ good j
      | .follows (some distance) => ∃ j, i = j + distance + 1 ∧ good j
      | .follows none => ∃ j < i, good j) := by
  intro htagged
  have hlength : i < nodes.length := (List.getElem?_eq_some_iff.mp hn).1
  have hnode : ∀ {j : Nat}, j < i → ∃ p, nodes[j]? = some p ∧ history[j]? = some p := fun {j} hj =>
    ⟨_, List.getElem?_eq_getElem (by omega), by rw [h.getElem? (by omega), List.getElem?_eq_getElem (by omega)]⟩
  cases combinator with
  | childOf =>
    constructor
    · rintro ⟨p, _, ⟨hparent, -⟩, j, rfl, hj, hgood⟩
      exact ⟨p, j, ((h.parent_iff hi hn (htagged rfl)).mp hparent).2, hj, hgood⟩
    · rintro ⟨p, j, hencloses, hj, hgood⟩
      have hparent := (h.parent_iff hi hn (htagged rfl)).mpr ⟨List.mem_of_getElem? hj, hencloses⟩
      obtain ⟨-, k, -, hk, hlast⟩ := h.parent_visited hi hn (htagged rfl) hparent
      obtain rfl : k = j := h.number_unique hk hj
      exact ⟨p, some k, ⟨hparent, lastPosition?_eq_iff.mp hlast⟩, k, rfl, hk, hgood⟩
  | follows distance =>
    cases distance with
    | some distance =>
      constructor
      · rintro ⟨p, _, ⟨j, rfl, hplace, -⟩, _, ⟨⟩, -, hgood⟩
        exact ⟨j, Option.some.inj hplace, hgood⟩
      · rintro ⟨j, heq, hgood⟩
        obtain ⟨p, hp, hvisited⟩ := hnode (show j < i by omega)
        exact ⟨p, some j, ⟨j, rfl, congrArg some heq, hvisited⟩, j, rfl, hp, hgood⟩
    | none =>
      constructor
      · rintro ⟨p, _, ⟨j, k, rfl, hplace, hj, -⟩, _, ⟨⟩, -, hgood⟩
        obtain rfl : i = k := Option.some.inj hplace
        exact ⟨j, hj, hgood⟩
      · rintro ⟨j, hj, hgood⟩
        obtain ⟨p, hp, hvisited⟩ := hnode hj
        exact ⟨p, some j, ⟨j, i, rfl, rfl, hj, hvisited⟩, j, rfl, hp, hgood⟩

/-- The links of a chain ask for blocks and inlines only. -/
def LinksTagged (links : List Link) : Prop :=
  ∀ link ∈ links, ∀ kind : Kind, link.test.accepts kind → kind.isTagged

/-- The matcher answers, and finds what the chain asks for. -/
theorem holds_tells (h : Tracks f₀ nodes f history) (htagged : LinksTagged links) (hi : i < history.size)
    (hn : nodes[i]? = some n) :
    Tells False (holds f history first links n (some i)) (HoldsAt f₀ nodes first links i) := by
  have hkind := h.kind n (List.mem_of_getElem? hn)
  induction links generalizing n i with
  | nil =>
    rw [holds_nil]
    exact tells_ok (by simp [HoldsAt, hn, hkind])
  | cons link links ih =>
    obtain ⟨hlink, hlinks⟩ := List.forall_mem_cons.mp htagged
    obtain ⟨combinator, test⟩ := link
    have hlost : combinator = .childOf → test.accepts (f.kind n) → f.parent n = .error .endless → False := by
      intro _ haccepts hendless
      obtain ⟨parent, hparent, -⟩ := h.parent n (h.mem hi hn) (hlink _ (hkind ▸ haccepts))
      cases hendless.symm.trans hparent
    have hrest : ∀ m place, test.accepts (f.kind n) → Joined f history combinator (m, place) (n, some i) →
        Tells False (holds f history first links m place)
          (∃ j, place = some j ∧ nodes[j]? = some m ∧ HoldsAt f₀ nodes first links j) := by
      intro m place haccepts hjoined
      obtain ⟨j, hlt, rfl, hm⟩ := h.joined_before hi hn (fun _ => hlink _ (hkind ▸ haccepts)) hjoined
      have htells := ih hlinks (by omega) hm (h.kind m (List.mem_of_getElem? hm))
      exact htells.congr (by simp [hm])
    refine (holds_cons_tells hlost hrest).congr ?_
    simp only [HoldsAt, hn, hkind, Option.some.injEq, exists_eq_left']
    exact and_congr_right fun haccepts => h.joined_iff hi hn fun _ => hlink _ haccepts

/-- A selector is tried at the node visited last. -/
theorem selects_tells {s : Selector} (h : Tracks f₀ nodes f history) (htagged : LinksTagged s.links)
    (hsize : history.size = i + 1) (hn : nodes[i]? = some n) :
    ∃ b, s.selects f history n = .ok b ∧ (b = true ↔ HoldsAt f₀ nodes s.first s.links.reverse i) := by
  rw [selects, h.lastPosition?_eq (by omega) (Nat.le_refl _) hn]
  have hlinks : LinksTagged s.links.reverse := fun link hlink => htagged link (List.mem_reverse.mp hlink)
  have htells : Tells False (holds f history s.first s.links.reverse n (some i)) _ :=
    holds_tells h hlinks (by omega) hn
  exact htells.exists_ok not_false

/-! ## Selectors that compile -/

/-- A selector that compiles asks for blocks and inlines only. -/
theorem linksTagged_of_compile {text : String} {s : Selector} (h : compile text = .ok s) :
    LinksTagged s.links :=
  fun link hlink _ haccepts => ((written_of_compile h).2.isTerm.2 link hlink).isTagged haccepts

/-- So does one that is taken from a cache of such selectors. -/
theorem linksTagged_of_get {cache cache' : Cache} {given : Json} {s : Selector}
    (hcache : ∀ entry ∈ cache, LinksTagged entry.2.links) (h : cache.get given = .ok (s, cache')) :
    LinksTagged s.links ∧ ∀ entry ∈ cache', LinksTagged entry.2.links := by
  rw [Cache.get.eq_def] at h
  split at h
  · rename_i text
    split at h
    · rename_i found hfound
      cases h
      obtain ⟨before, after, hsplit, -⟩ := List.lookup_eq_some_iff.mp hfound
      exact ⟨hcache (text, s) (by simp [hsplit]), hcache⟩
    · obtain ⟨made, hmade, h⟩ := bind_eq_ok_iff.mp h
      cases h
      refine ⟨linksTagged_of_compile hmade, fun entry hentry => ?_⟩
      rcases Entries.mem_of_mem_put hentry with hold | hnew
      · exact hcache entry hold
      · rw [hnew]
        exact linksTagged_of_compile hmade
  · rename_i hother
    obtain ⟨made, hmade, -⟩ := bind_eq_ok_iff.mp h
    cases given with
    | str text => exact absurd rfl (hother text)
    | _ => cases hmade

end Selector

end DocFilter
