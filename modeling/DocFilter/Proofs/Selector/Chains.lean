import DocFilter.Proofs.Forest.Enclosing
import DocFilter.Selector.Match
import Mathlib.Data.List.Forall2
import Mathlib.Data.List.Induction

/-!
# Chains of visits

What the matcher looks for, said without the order in which it looks: a node for every test, each with its place in
the history of visits, if it has one, such that neighbours are joined as the combinator between their tests asks.

* `Selector.LastAt` is the place of a node, the last one of those before a limit.
* `Selector.Joined` says what a combinator asks of two neighbours, and `Selector.holds_cons_tells` that the matcher
  goes from one neighbour to the next in this way.
* `Selector.Chain` are the nodes and places for all tests, and `Selector.selects_iff_exists_chain` says that a node
  is selected exactly if a chain leads up to it, or that the matcher climbs for ever from some node to its parent.
  Where all tests only follow one another, it always answers, and a chain is a part of the history in its order.
-/

namespace DocFilter.Selector

variable {f : Forest} {history : Array NodeId} {first : NodeTest} {link : Link} {links : List Link} {n : NodeId}
  {place : Option Nat} {limit i : Nat} {lost fact fact' : Prop} {answer : Except Fault Bool}

/-- Where a node stands last among the first entries of a history, if it stands there. -/
def LastAt (history : Array NodeId) (n : NodeId) (limit : Nat) : Option Nat → Prop
  | some i => i < limit ∧ history[i]? = some n ∧ ∀ j, i < j → j < limit → history[j]? ≠ some n
  | none => ∀ j < limit, history[j]? ≠ some n

/-- What a combinator asks of the node for the test on its left and the one for the test on its right, each with its
place.  A parent is where it was visited last before the node on the right, or last at all if that one has no place;
a node that came earlier has a place before the node on the right, and that one has a place as well. -/
def Joined (f : Forest) (history : Array NodeId) :
    Combinator → (left right : NodeId × Option Nat) → Prop
  | .childOf, left, right =>
    f.parent right.1 = .ok (some left.1) ∧ LastAt history left.1 (right.2.getD history.size) left.2
  | .follows (some distance), left, right =>
    ∃ i, left.2 = some i ∧ right.2 = some (i + distance + 1) ∧ history[i]? = some left.1
  | .follows none, left, right =>
    ∃ i j, left.2 = some i ∧ right.2 = some j ∧ i < j ∧ history[i]? = some left.1

/-- A node and a place for every test of a selector, the leftmost first, joined by the combinators. -/
structure Chain (f : Forest) (history : Array NodeId) (first : NodeTest) (links : List Link)
    (visit : Nat → NodeId × Option Nat) : Prop where
  leftmost : first.accepts (f.kind (visit 0).1)
  accepts : ∀ (k : Nat) (link : Link), links[k]? = some link → link.test.accepts (f.kind (visit (k + 1)).1)
  joined : ∀ (k : Nat) (link : Link), links[k]? = some link → Joined f history link.combinator (visit k) (visit (k + 1))

/-! ## Places -/

/-- The place of a node is the one that the history is searched for. -/
theorem lastPosition?_eq_iff : lastPosition? history n limit = place ↔ LastAt history n limit place := by
  induction limit with
  | zero => cases place <;> simp [lastPosition?, LastAt]
  | succ limit ih =>
    rw [lastPosition?]
    split
    · rename_i hat
      cases place with
      | none => exact ⟨nofun, fun h => absurd hat (h limit (by omega))⟩
      | some i =>
        rw [Option.some.injEq]
        constructor
        · rintro rfl
          exact ⟨by omega, hat, fun j hlow hhigh => by omega⟩
        · rintro ⟨hlimit, -, hlast⟩
          by_contra hne
          exact hlast limit (by omega) (by omega) hat
    · rename_i hat
      rw [ih]
      have hnot : ∀ j, history[j]? = some n → j ≠ limit := fun j hj heq => hat (heq ▸ hj)
      cases place with
      | none =>
        constructor
        · intro h j hj hn
          exact h j (by have := hnot j hn; omega) hn
        · exact fun h j hj => h j (by omega)
      | some i =>
        constructor
        · rintro ⟨hi, hn, hlast⟩
          refine ⟨by omega, hn, fun j hlow hhigh hj => ?_⟩
          exact hlast j hlow (by have := hnot j hj; omega) hj
        · rintro ⟨hi, hn, hlast⟩
          exact ⟨by have := hnot i hn; omega, hn, fun j hlow hhigh => hlast j hlow (by omega)⟩

theorem exists_lastAt : ∃ place, LastAt history n limit place := ⟨_, lastPosition?_eq_iff.mp rfl⟩

/-! ## What the matcher tells -/

/-- The matcher says whether something is so, or it climbs for ever, and that only if it may get lost. -/
def Tells (lost : Prop) (answer : Except Fault Bool) (fact : Prop) : Prop :=
  (∃ b, answer = .ok b ∧ (b = true ↔ fact)) ∨ (answer = .error .endless ∧ lost)

theorem tells_ok {b : Bool} (h : b = true ↔ fact) : Tells lost (.ok b) fact := .inl ⟨b, rfl, h⟩

theorem tells_false (h : ¬ fact) : Tells lost (.ok false) fact := tells_ok (iff_of_false nofun h)

theorem Tells.congr (h : Tells lost answer fact) (hsame : fact ↔ fact') : Tells lost answer fact' := by
  rcases h with ⟨b, rfl, hb⟩ | hlost
  · exact tells_ok (hb.trans hsame)
  · exact .inr hlost

/-- Where the matcher cannot get lost, it answers. -/
theorem Tells.exists_ok (h : Tells lost answer fact) (hno : ¬ lost) : ∃ b, answer = .ok b ∧ (b = true ↔ fact) :=
  h.resolve_right fun hlost => hno hlost.2

theorem tells_anyM {α : Type} {ask : α → Except Fault Bool} {good : α → Prop} {as : List α}
    (h : ∀ a ∈ as, Tells lost (ask a) (good a)) : Tells lost (as.anyM ask) (∃ a ∈ as, good a) := by
  induction as with
  | nil => exact tells_false (by simp)
  | cons a as ih =>
    obtain ⟨ha, has⟩ := List.forall_mem_cons.mp h
    simp only [List.exists_mem_cons_iff]
    rw [List.anyM]
    rcases ha with ⟨b, hb, hgood⟩ | ⟨hendless, hlost⟩
    · rw [hb]
      cases b with
      | true => exact tells_ok (iff_of_true rfl (.inl (hgood.mp rfl)))
      | false =>
        have hnot : ¬ good a := fun hg => Bool.false_ne_true (hgood.mpr hg)
        exact (ih has).congr (or_iff_right hnot).symm
    · rw [hendless]
      exact .inr ⟨rfl, hlost⟩

/-! ## From the matcher to chains -/

/-- The test that comes next in a chain that is given from right to left. -/
def nextTest (first : NodeTest) : List Link → NodeTest
  | [] => first
  | link :: _ => link.test

/-- The matcher has its answer at once where the next test is not passed. -/
theorem holds_of_not_accepts (h : ¬ (nextTest first links).accepts (f.kind n)) :
    holds f history first links n place = .ok false := by
  cases links with
  | nil => exact congrArg Except.ok (Bool.eq_false_iff.mpr h)
  | cons link links => exact if_neg h

theorem holds_nil : holds f history first [] n place = .ok (first.accepts (f.kind n)) := by
  rw [holds]

theorem holds_childOf {test : NodeTest} (haccepts : test.accepts (f.kind n)) :
    holds f history first (⟨.childOf, test⟩ :: links) n place = f.parent n >>= fun parent => match parent with
      | none => .ok false
      | some p => holds f history first links p (lastPosition? history p (place.getD history.size)) := by
  cases place <;> exact if_pos haccepts

theorem holds_distance {test : NodeTest} {distance : Nat} (haccepts : test.accepts (f.kind n)) :
    holds f history first (⟨.follows (some distance), test⟩ :: links) n (some i) =
      if i < distance + 1 then .ok false
      else match history[i - distance - 1]? with
        | some m => holds f history first links m (some (i - distance - 1))
        | none => .ok false :=
  if_pos haccepts

theorem holds_follows {test : NodeTest} (haccepts : test.accepts (f.kind n)) :
    holds f history first (⟨.follows none, test⟩ :: links) n (some i) =
      (List.range i).reverse.anyM fun j => match history[j]? with
        | some m => holds f history first links m (some j)
        | none => .ok false :=
  if_pos haccepts

/-- A node that was not visited follows none. -/
theorem holds_follows_unvisited {test : NodeTest} {distance : Option Nat} :
    holds f history first (⟨.follows distance, test⟩ :: links) n none = .ok false := by
  rw [holds]
  cases distance <;> exact ite_self _

/-- A parent, or a node at a distance, is one node with one place, or none.  Then the matcher goes on there. -/
theorem holds_cons_cases (haccepts : link.test.accepts (f.kind n)) (hone : link.combinator ≠ .follows none) :
    (link.combinator = .childOf ∧ f.parent n = .error .endless ∧
      holds f history first (link :: links) n place = .error .endless) ∨
    (holds f history first (link :: links) n place = .ok false ∧
      ∀ m i, ¬ Joined f history link.combinator (m, i) (n, place)) ∨
    ∃ m i, holds f history first (link :: links) n place = holds f history first links m i ∧
      ∀ m' i', Joined f history link.combinator (m', i') (n, place) ↔ m' = m ∧ i' = i := by
  obtain ⟨combinator, test⟩ := link
  cases combinator with
  | childOf =>
    rw [holds_childOf haccepts]
    cases hparent : f.parent n with
    | error fault =>
      obtain rfl := Forest.endless_of_parent hparent
      exact .inl ⟨rfl, rfl, rfl⟩
    | ok parent =>
      cases parent with
      | none => exact .inr (.inl ⟨rfl, by simp [Joined, hparent]⟩)
      | some p =>
        refine .inr (.inr ⟨p, _, rfl, fun m i => ?_⟩)
        simp only [Joined, hparent, Except.ok.injEq, Option.some.injEq, ← lastPosition?_eq_iff]
        constructor
        · rintro ⟨rfl, hplace⟩
          exact ⟨rfl, hplace.symm⟩
        · rintro ⟨rfl, rfl⟩
          exact ⟨rfl, rfl⟩
  | follows distance =>
    obtain ⟨distance, rfl⟩ := Option.ne_none_iff_exists'.mp fun hnone => hone (congrArg Combinator.follows hnone)
    cases place with
    | none => exact .inr (.inl ⟨holds_follows_unvisited, by simp [Joined]⟩)
    | some i =>
      rw [holds_distance haccepts]
      have hplace : ∀ {j : Nat}, some i = some (j + distance + 1) ↔ distance + 1 ≤ i ∧ j = i - distance - 1 := by
        intro j
        rw [Option.some.injEq]
        omega
      simp only [Joined, hplace]
      split
      · rename_i hstart
        refine .inr (.inl ⟨rfl, ?_⟩)
        rintro m _ ⟨j, -, ⟨hle, -⟩, -⟩
        omega
      · rename_i hstart
        split
        · rename_i m hm
          refine .inr (.inr ⟨m, _, rfl, fun m' i' => ?_⟩)
          constructor
          · rintro ⟨j, rfl, ⟨-, rfl⟩, hm'⟩
            exact ⟨Option.some.inj (hm'.symm.trans hm), rfl⟩
          · rintro ⟨rfl, rfl⟩
            exact ⟨_, rfl, ⟨by omega, rfl⟩, hm⟩
        · rename_i hnone
          refine .inr (.inl ⟨rfl, ?_⟩)
          rintro m _ ⟨j, -, ⟨-, rfl⟩, hm⟩
          exact absurd (hm.symm.trans hnone) nofun

theorem holds_cons_eq_true_iff (hone : link.combinator ≠ .follows none) :
    holds f history first (link :: links) n place = .ok true ↔ link.test.accepts (f.kind n) ∧
      ∃ m i, Joined f history link.combinator (m, i) (n, place) ∧ holds f history first links m i = .ok true := by
  by_cases haccepts : link.test.accepts (f.kind n)
  · rw [and_iff_right haccepts]
    rcases @holds_cons_cases f history first link links n place haccepts hone with
      ⟨hchild, hendless, hholds⟩ | ⟨hholds, hnone⟩ | ⟨m, i, hholds, honly⟩
    · rw [hholds]
      refine iff_of_false nofun ?_
      rw [hchild]
      rintro ⟨m, i, ⟨hparent, -⟩, -⟩
      cases hendless.symm.trans hparent
    · rw [hholds]
      exact iff_of_false nofun fun ⟨m, i, hjoined, _⟩ => hnone m i hjoined
    · rw [hholds]
      constructor
      · exact fun h => ⟨m, i, (honly m i).mpr ⟨rfl, rfl⟩, h⟩
      · rintro ⟨m', i', hjoined, h⟩
        obtain ⟨rfl, rfl⟩ := (honly m' i').mp hjoined
        exact h
  · rw [@holds_of_not_accepts f history first (link :: links) n place haccepts]
    exact iff_of_false nofun fun h => haccepts h.1

/-- At any earlier place the matcher goes on with each of them. -/
theorem holds_follows_tells {test : NodeTest} {good : NodeId → Option Nat → Prop}
    (haccepts : test.accepts (f.kind n))
    (hrest : ∀ m i, Joined f history (.follows none) (m, i) (n, place) →
      Tells lost (holds f history first links m i) (good m i)) :
    Tells lost (holds f history first (⟨.follows none, test⟩ :: links) n place)
      (∃ m i, Joined f history (.follows none) (m, i) (n, place) ∧ good m i) := by
  cases place with
  | none =>
    rw [holds_follows_unvisited]
    exact tells_false (by simp [Joined])
  | some i =>
    rw [holds_follows haccepts]
    have hask : ∀ j ∈ (List.range i).reverse, Tells lost
        (match history[j]? with
          | some m => holds f history first links m (some j)
          | none => .ok false)
        (∃ m, history[j]? = some m ∧ good m (some j)) := by
      intro j hj
      have hji : j < i := List.mem_range.mp (List.mem_reverse.mp hj)
      split
      · rename_i m hm
        have htells := hrest m (some j) ⟨j, i, rfl, rfl, hji, hm⟩
        exact htells.congr ⟨fun hgood => ⟨m, hm, hgood⟩, fun ⟨m', hm', hgood⟩ => by
          obtain rfl : m = m' := Option.some.inj (hm.symm.trans hm')
          exact hgood⟩
      · rename_i hnone
        exact tells_false (by simp [hnone])
    refine (tells_anyM hask).congr ?_
    constructor
    · rintro ⟨j, hj, m, hm, hgood⟩
      exact ⟨m, some j, ⟨j, i, rfl, rfl, List.mem_range.mp (List.mem_reverse.mp hj), hm⟩, hgood⟩
    · rintro ⟨m, _, ⟨j, k, rfl, hk, hjk, hm⟩, hgood⟩
      obtain rfl : i = k := Option.some.inj hk
      exact ⟨j, List.mem_reverse.mpr (List.mem_range.mpr hjk), m, hm, hgood⟩

/-- The matcher takes one link at a time: it goes on at a node and a place that are joined to where it is.  It gets
lost only where it looks for a parent. -/
theorem holds_cons_tells {good : NodeId → Option Nat → Prop}
    (hlost : link.combinator = .childOf → link.test.accepts (f.kind n) → f.parent n = .error .endless → lost)
    (hrest : ∀ m i, link.test.accepts (f.kind n) → Joined f history link.combinator (m, i) (n, place) →
      Tells lost (holds f history first links m i) (good m i)) :
    Tells lost (holds f history first (link :: links) n place) (link.test.accepts (f.kind n) ∧
      ∃ m i, Joined f history link.combinator (m, i) (n, place) ∧ good m i) := by
  by_cases haccepts : link.test.accepts (f.kind n)
  · refine Tells.congr ?_ (and_iff_right haccepts).symm
    by_cases hany : link.combinator = .follows none
    · obtain ⟨combinator, test⟩ := link
      obtain rfl : combinator = .follows none := hany
      exact holds_follows_tells haccepts fun m i => hrest m i haccepts
    · rcases @holds_cons_cases f history first link links n place haccepts hany with
        ⟨hchild, hendless, hholds⟩ | ⟨hholds, hnone⟩ | ⟨m, i, hholds, honly⟩
      · exact .inr ⟨hholds, hlost hchild haccepts hendless⟩
      · rw [hholds]
        exact tells_false fun ⟨m, i, hjoined, _⟩ => hnone m i hjoined
      · rw [hholds]
        refine (hrest m i haccepts ((honly m i).mpr ⟨rfl, rfl⟩)).congr ?_
        constructor
        · exact fun hgood => ⟨m, i, (honly m i).mpr ⟨rfl, rfl⟩, hgood⟩
        · rintro ⟨m', i', hjoined, hgood⟩
          obtain ⟨rfl, rfl⟩ := (honly m' i').mp hjoined
          exact hgood
  · rw [@holds_of_not_accepts f history first (link :: links) n place haccepts]
    exact tells_false fun h => haccepts h.1

/-- The links of a chain without the last one are a chain. -/
theorem Chain.init {visit : Nat → NodeId × Option Nat} (h : Chain f history first (links ++ [link]) visit) :
    Chain f history first links visit := by
  have hinit : ∀ {k : Nat} {l : Link}, links[k]? = some l → (links ++ [link])[k]? = some l := fun hk => by
    rw [List.getElem?_append_left (List.getElem?_eq_some_iff.mp hk).1, hk]
  exact ⟨h.leftmost, fun k l hk => h.accepts k l (hinit hk), fun k l hk => h.joined k l (hinit hk)⟩

/-- A chain is made longer by a node that is joined to its last one. -/
theorem Chain.snoc {visit : Nat → NodeId × Option Nat} (h : Chain f history first links visit)
    (haccepts : link.test.accepts (f.kind n))
    (hjoined : Joined f history link.combinator (visit links.length) (n, place)) :
    Chain f history first (links ++ [link]) (Function.update visit (links.length + 1) (n, place)) := by
  have hold : ∀ k ≤ links.length, Function.update visit (links.length + 1) (n, place) k = visit k := fun k hk =>
    Function.update_of_ne (by omega) _ _
  have hnew : Function.update visit (links.length + 1) (n, place) (links.length + 1) = (n, place) :=
    Function.update_self _ _ _
  have hcases : ∀ {k : Nat} {l : Link}, (links ++ [link])[k]? = some l →
      links[k]? = some l ∧ k < links.length ∨ k = links.length ∧ l = link := by
    intro k l hk
    rw [List.getElem?_append] at hk
    split at hk
    · rename_i hlt
      exact .inl ⟨hk, hlt⟩
    · rename_i hge
      obtain rfl : k = links.length := by
        have hlt := (List.getElem?_eq_some_iff.mp hk).1
        rw [List.length_singleton] at hlt
        omega
      exact .inr ⟨rfl, by simpa [eq_comm] using hk⟩
  refine ⟨by rw [hold 0 (by omega)]; exact h.leftmost, fun k l hk => ?_, fun k l hk => ?_⟩
  · rcases hcases hk with ⟨hl, hlt⟩ | ⟨rfl, rfl⟩
    · rw [hold (k + 1) hlt]
      exact h.accepts k l hl
    · rwa [hnew]
  · rcases hcases hk with ⟨hl, hlt⟩ | ⟨rfl, rfl⟩
    · rw [hold (k + 1) hlt, hold k (by omega)]
      exact h.joined k l hl
    · rwa [hnew, hold _ (Nat.le_refl _)]

/-- The matcher finds its way exactly if there is a chain up to where it starts. -/
theorem holds_reverse_tells : Tells (∃ m, f.parent m = .error .endless)
    (holds f history first links.reverse n place)
    (∃ visit, Chain f history first links visit ∧ visit links.length = (n, place)) := by
  induction links using List.reverseRecOn generalizing n place with
  | nil =>
    refine tells_ok ⟨fun h => ⟨fun _ => (n, place), ⟨h, nofun, nofun⟩, rfl⟩, ?_⟩
    rintro ⟨visit, h, hlast⟩
    have hfirst := h.leftmost
    rwa [show visit 0 = (n, place) from hlast] at hfirst
  | append_singleton links link ih =>
    rw [List.reverse_append, List.reverse_singleton, List.singleton_append, List.length_append, List.length_singleton]
    refine (holds_cons_tells (fun _ _ hendless => ⟨n, hendless⟩) fun m i _ _ => ih).congr ?_
    constructor
    · rintro ⟨haccepts, m, i, hjoined, visit, hchain, hlast⟩
      exact ⟨_, hchain.snoc haccepts (hlast ▸ hjoined), Function.update_self _ _ _⟩
    · rintro ⟨visit, hchain, hlast⟩
      have hlink : (links ++ [link])[links.length]? = some link := by simp
      have haccepts := hchain.accepts _ _ hlink
      have hjoined := hchain.joined _ _ hlink
      rw [hlast] at haccepts hjoined
      exact ⟨haccepts, _, _, hjoined, visit, hchain.init, rfl⟩

/-! ## Parts of the history -/

/-- A list that ends in an element is a part of another one exactly if the element stands in that one somewhere
after such a part. -/
theorem concat_sublist_iff {α : Type} {xs l : List α} {a : α} :
    (xs ++ [a]).Sublist l ↔ ∃ i, l[i]? = some a ∧ xs.Sublist (l.take i) := by
  rw [List.append_sublist_iff]
  constructor
  · rintro ⟨l₁, l₂, rfl, hxs, ha⟩
    obtain ⟨s, t, rfl⟩ := List.append_of_mem (List.singleton_sublist.mp ha)
    have hat : l₁ ++ (s ++ a :: t) = (l₁ ++ s) ++ a :: t := by rw [List.append_assoc]
    refine ⟨(l₁ ++ s).length, by rw [hat]; simp, ?_⟩
    rw [hat, List.take_left']
    · exact hxs.trans (List.sublist_append_left l₁ s)
    · rfl
  · rintro ⟨i, hi, hxs⟩
    refine ⟨l.take i, l.drop i, (List.take_append_drop i l).symm, hxs, List.singleton_sublist.mpr ?_⟩
    exact List.mem_of_getElem? (i := 0) (by rw [List.getElem?_drop]; exact hi)

theorem forall₂_concat_iff {α β : Type} {good : α → β → Prop} {xs : List α} {ys : List β} {a : α} {b : β} :
    List.Forall₂ good (xs ++ [a]) (ys ++ [b]) ↔ List.Forall₂ good xs ys ∧ good a b := by
  rw [← List.forall₂_reverse_iff]
  simp [and_comm]

/-- Nodes that pass some tests, one for one. -/
abbrev Passes (f : Forest) (tests : List NodeTest) (nodes : List NodeId) : Prop :=
  List.Forall₂ (fun test n => test.accepts (f.kind n)) tests nodes

/-- From a place in the history on, tests that only follow one another are passed by a part of what is before the
place and by the node there. -/
theorem holds_follows_iff (hfollows : ∀ link ∈ links, link.combinator = .follows none) (hn : history[i]? = some n) :
    Tells False (holds f history first links.reverse n (some i))
      (∃ earlier, earlier.Sublist (history.toList.take i) ∧
        Passes f (first :: links.map (·.test)) (earlier ++ [n])) := by
  induction links using List.reverseRecOn generalizing n i with
  | nil =>
    refine tells_ok ⟨fun h => ⟨[], List.nil_sublist _, .cons h .nil⟩, ?_⟩
    rintro ⟨earlier, -, h⟩
    have hlength := h.length_eq
    obtain rfl : earlier = [] := List.length_eq_zero_iff.mp (by simpa using hlength)
    exact (List.forall₂_cons.mp h).1
  | append_singleton links link ih =>
    have hlast : link.combinator = .follows none := hfollows link (by simp)
    have hinit : ∀ l ∈ links, l.combinator = .follows none := fun l hl => hfollows l (by simp [hl])
    have hrest : ∀ m place, link.test.accepts (f.kind n) → Joined f history link.combinator (m, place) (n, some i) →
        Tells False (holds f history first links.reverse m place)
          (∃ j, place = some j ∧ ∃ earlier, earlier.Sublist (history.toList.take j) ∧
            Passes f (first :: links.map (·.test)) (earlier ++ [m])) := by
      rw [hlast]
      rintro m _ - ⟨j, k, rfl, -, -, hm⟩
      exact (ih hinit hm).congr (by simp)
    rw [List.reverse_append, List.reverse_singleton, List.singleton_append, List.map_append, List.map_singleton,
      ← List.cons_append]
    refine (holds_cons_tells (by simp [hlast]) hrest).congr ?_
    simp only [hlast, forall₂_concat_iff, Passes]
    constructor
    · rintro ⟨haccepts, m, _, ⟨j, k, rfl, hk, hjk, hm⟩, _, ⟨⟩, earlier, hearlier, hpasses⟩
      obtain rfl : i = k := Option.some.inj hk
      refine ⟨earlier ++ [m], concat_sublist_iff.mpr ⟨j, ?_, ?_⟩, hpasses, haccepts⟩
      · rw [List.getElem?_take_of_lt hjk, Array.getElem?_toList, hm]
      · rwa [List.take_take, Nat.min_eq_left (Nat.le_of_lt hjk)]
    · rintro ⟨nodes, hnodes, hpasses, haccepts⟩
      have hne : nodes ≠ [] := by
        rintro rfl
        cases hpasses
      obtain ⟨earlier, m, rfl⟩ := (List.eq_nil_or_concat nodes).resolve_left hne
      rw [List.concat_eq_append] at hnodes hpasses
      obtain ⟨j, hj, hearlier⟩ := concat_sublist_iff.mp hnodes
      obtain ⟨hjk, hm⟩ : j < i ∧ history[j]? = some m := by
        rw [List.getElem?_take] at hj
        split at hj
        · rename_i hlt
          exact ⟨hlt, by rwa [Array.getElem?_toList] at hj⟩
        · cases hj
      rw [List.take_take, Nat.min_eq_left (Nat.le_of_lt hjk)] at hearlier
      exact ⟨haccepts, m, some j, ⟨j, i, rfl, rfl, hjk, hm⟩, j, rfl, earlier, hearlier, hpasses⟩

/-- A part of the history that ends in a node is as good as one before the last place of the node. -/
theorem LastAt.concat_sublist_iff {earlier : List NodeId} (h : LastAt history n history.size (some i)) :
    (earlier ++ [n]).Sublist history.toList ↔ earlier.Sublist (history.toList.take i) := by
  obtain ⟨hi, hn, hlast⟩ := h
  rw [Selector.concat_sublist_iff]
  constructor
  · rintro ⟨j, hj, hearlier⟩
    rw [Array.getElem?_toList] at hj
    have hji : j ≤ i := by
      by_contra hlt
      exact hlast j (by omega) (Array.getElem?_eq_some_iff.mp hj).1 hj
    exact hearlier.trans (List.take_sublist_take_left hji)
  · intro hearlier
    exact ⟨i, by rw [Array.getElem?_toList, hn], hearlier⟩

/-! ## Selectors -/

/-- A node is selected exactly if a chain leads up to it and to its last place in the history; unless the matcher
comes to a node from which climbing to the parent goes round for ever.  If there is more than one test and each one
only follows the one before, it always answers, and a node is selected exactly if a part of the history in its order,
the node being the last of it, passes the tests. -/
theorem selects_iff_exists_chain (s : Selector) (f : Forest) (history : Array NodeId) (n : NodeId) :
    ((∃ b, s.selects f history n = .ok b ∧ (b = true ↔ ∃ visit, Chain f history s.first s.links visit ∧
        (visit s.links.length).1 = n ∧ LastAt history n history.size (visit s.links.length).2)) ∨
      (s.selects f history n = .error .endless ∧ ∃ m, f.parent m = .error .endless)) ∧
    (s.links ≠ [] → (∀ link ∈ s.links, link.combinator = .follows none) →
      ∃ b, s.selects f history n = .ok b ∧ (b = true ↔ ∃ earlier, (earlier ++ [n]).Sublist history.toList ∧
        Passes f (s.first :: s.links.map (·.test)) (earlier ++ [n]))) := by
  constructor
  · refine holds_reverse_tells.congr (exists_congr fun visit => and_congr_right fun _ => ?_)
    rw [Prod.ext_iff, eq_comm (a := (visit _).2), lastPosition?_eq_iff]
  · intro hne hfollows
    refine Tells.exists_ok ?_ not_false
    obtain ⟨place, hplace⟩ : ∃ place, LastAt history n history.size place := exists_lastAt
    rw [selects, lastPosition?_eq_iff.mpr hplace]
    cases place with
    | none =>
      obtain ⟨init, link, heq⟩ := (List.eq_nil_or_concat s.links).resolve_left hne
      rw [List.concat_eq_append] at heq
      have hlast : link.combinator = .follows none := hfollows link (by simp [heq])
      have hnone : ∀ m i, link.test.accepts (f.kind n) → Joined f history link.combinator (m, i) (n, none) →
          Tells False (holds f history s.first init.reverse m i) False := by
        rw [hlast]
        rintro m i - ⟨_, j, -, hj, -⟩
        cases hj
      rw [heq, List.reverse_append, List.reverse_singleton, List.singleton_append]
      refine (holds_cons_tells (by simp [hlast]) hnone).congr (iff_of_false (by simp) ?_)
      rintro ⟨earlier, hsublist, -⟩
      obtain ⟨i, hi, -⟩ := concat_sublist_iff.mp hsublist
      rw [Array.getElem?_toList] at hi
      exact absurd hi (hplace i (Array.getElem?_eq_some_iff.mp hi).1)
    | some i =>
      refine (holds_follows_iff hfollows hplace.2.1).congr ?_
      simp only [hplace.concat_sublist_iff]

/-- A header, and a division that holds a paragraph. -/
def headedDivision : Forest :=
  ⟨#[{ kind := .header }, { kind := .div, children := [⟨2⟩] }, { kind := .para, holder := some ⟨1⟩ }]⟩

/-- The division was visited before the paragraph and again after it. -/
theorem selects_headedDivision :
    (∃ visit, Chain headedDivision #[⟨0⟩, ⟨1⟩, ⟨2⟩, ⟨1⟩] (.kind .header)
        [⟨.follows (some 0), .kind .div⟩, ⟨.childOf, .kind .para⟩] visit ∧
        (visit 2).1 = ⟨2⟩ ∧ LastAt #[⟨0⟩, ⟨1⟩, ⟨2⟩, ⟨1⟩] ⟨2⟩ 4 (visit 2).2) ∧
      ∃ earlier, (earlier ++ [⟨1⟩]).Sublist [⟨0⟩, ⟨1⟩, ⟨2⟩, ⟨1⟩] ∧
        Passes headedDivision [.kind .header, .block, .kind .div] (earlier ++ [⟨1⟩]) := by
  have hchain := (selects_iff_exists_chain ⟨"Header +0 Div > Para", .kind .header,
    [⟨.follows (some 0), .kind .div⟩, ⟨.childOf, .kind .para⟩]⟩ headedDivision #[⟨0⟩, ⟨1⟩, ⟨2⟩, ⟨1⟩] ⟨2⟩).1
  obtain ⟨b, hb, hpart⟩ := (selects_iff_exists_chain ⟨"Header + Block + Div", .kind .header,
    [⟨.follows none, .block⟩, ⟨.follows none, .kind .div⟩]⟩ headedDivision #[⟨0⟩, ⟨1⟩, ⟨2⟩, ⟨1⟩] ⟨1⟩).2
      (by simp) (by simp)
  rcases hchain with ⟨c, hc, hchain⟩ | ⟨hendless, -⟩
  · obtain rfl : true = b := Except.ok.inj hb
    obtain rfl : true = c := Except.ok.inj hc
    exact ⟨hchain.mp rfl, hpart.mp rfl⟩
  · cases hendless

end DocFilter.Selector
