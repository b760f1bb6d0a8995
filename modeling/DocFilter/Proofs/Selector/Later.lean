import DocFilter.Proofs.Selector.Chains
import DocFilter.Proofs.Selector.Grammar
import Mathlib.Data.List.Chain

/-!
# Visits after a node

Whether a node is selected should depend on the visits up to its last one.  It does as long as the matcher knows its
place in the history: from a node with a place it looks before that place only.  A parent that was not visited before
its child has no place, and the parent of that one is looked for in the whole history, with what was visited later.

* `Selector.Keeps` says that a chain of links comes to no such node, or only to the one it started from, and
  `Selector.selects_append_of_keeps` that later visits then do not count.
* `Selector.Astray` says that there is such a node, and `Selector.selects_append_iff` that this decides whether later
  visits count for some selector.  They never count for a selector that asks for no parent of a parent.
-/

namespace DocFilter

namespace Selector

variable {f : Forest} {history later : Array NodeId} {first : NodeTest} {link : Link} {links : List Link}
  {n m p q x : NodeId} {place place' : Option Nat} {limit distance i j : Nat} {combinator : Combinator}

/-- The tests of a selector have names. -/
def InVocabulary (s : Selector) : Prop := s.first.IsTerm ∧ ∀ link ∈ s.links, link.test.IsTerm

theorem inVocabulary_of_compile {text : String} {s : Selector} (h : compile text = .ok s) : InVocabulary s :=
  (written_of_compile h).2.isTerm

/-! ## Longer histories -/

theorem LastAt.unique (h : LastAt history n limit place) (h' : LastAt history n limit place') : place = place' :=
  (lastPosition?_eq_iff.mpr h).symm.trans (lastPosition?_eq_iff.mpr h')

/-- What is before a place is not changed by later visits. -/
theorem lastAt_append (hlimit : limit ≤ history.size) :
    LastAt (history ++ later) n limit place ↔ LastAt history n limit place := by
  have hsame : ∀ j < limit, (history ++ later)[j]? = history[j]? := fun j hj =>
    Array.getElem?_append_left (by omega)
  cases place with
  | none => exact forall₂_congr fun j hj => by rw [hsame j hj]
  | some i =>
    refine and_congr_right fun hi => ?_
    rw [hsame i hi]
    refine and_congr_right fun _ => forall_congr' fun j => forall₂_congr fun _ hj => ?_
    rw [hsame j hj]

/-- A node keeps its last place if it is not visited again. -/
theorem LastAt.append (h : LastAt history n history.size (some i)) (hlater : n ∉ later) :
    LastAt (history ++ later) n (history ++ later).size (some i) := by
  obtain ⟨hi, hn, hlast⟩ := h
  refine ⟨by rw [Array.size_append]; omega, by rw [Array.getElem?_append_left hi, hn], fun j hlow _ hj => ?_⟩
  rw [Array.getElem?_append] at hj
  split at hj
  · rename_i hbefore
    exact hlast j hlow hbefore hj
  · exact hlater (Array.mem_of_getElem? hj)

theorem lastPosition?_append (hlimit : limit ≤ history.size) :
    lastPosition? (history ++ later) n limit = lastPosition? history n limit :=
  lastPosition?_eq_iff.mpr ((lastAt_append hlimit).mpr (lastPosition?_eq_iff.mp rfl))

/-! ## Chains that keep their place -/

/-- Where a chain, given from right to left, asks for the parent of a parent, and that parent has no place because
it was not visited before its child, then its parent is the node that the chain started from. -/
def Keeps (f : Forest) (history : Array NodeId) (n : NodeId) (i : Nat) (first : NodeTest) (links : List Link) : Prop :=
  ∀ lower upper rest, lower :: upper :: rest <:+ links → lower.combinator = .childOf →
    upper.combinator = .childOf → ∀ j x p q, j ≤ i → history[j]? = some x → lower.test.accepts (f.kind x) →
    f.parent x = .ok (some p) → LastAt history p j none → upper.test.accepts (f.kind p) →
    f.parent p = .ok (some q) → (nextTest first rest).accepts (f.kind q) → q = n

theorem Keeps.tail (h : Keeps f history n i first (link :: links)) : Keeps f history n i first links :=
  fun lower upper rest hsuffix => h lower upper rest (hsuffix.trans (List.suffix_cons link links))

/-- Where the matcher may stand: at a place up to that of the node it started from, or at a node without a place
from which it can only go back to the node it started from. -/
def Steady (f : Forest) (history : Array NodeId) (n : NodeId) (i : Nat) (first : NodeTest) (links : List Link)
    (m : NodeId) : Option Nat → Prop
  | some j => j ≤ i ∧ history[j]? = some m
  | none => ∀ upper rest, links = upper :: rest → upper.combinator = .childOf → upper.test.accepts (f.kind m) →
      ∀ q, f.parent m = .ok (some q) → (nextTest first rest).accepts (f.kind q) → q = n

/-- One step of the matcher from a node with a place. -/
theorem Keeps.steady_of_joined (h : Keeps f history n i first (link :: links)) (hj : j ≤ i)
    (hx : history[j]? = some x) (haccepts : link.test.accepts (f.kind x))
    (hjoined : Joined f history link.combinator (m, place) (x, some j)) :
    Steady f history n i first links m place := by
  obtain ⟨combinator, test⟩ := link
  cases combinator with
  | childOf =>
    obtain ⟨hparent, hplace⟩ := hjoined
    cases place with
    | some k => exact ⟨by have := hplace.1; simp only [Option.getD_some] at this; omega, hplace.2.1⟩
    | none =>
      rintro upper rest rfl hupper hp q hq hrest
      exact h _ upper rest (List.suffix_refl _) rfl hupper j x m q hj hx haccepts hparent hplace hp hq hrest
  | follows d =>
    cases d with
    | some d =>
      obtain ⟨k, rfl, hk, hm⟩ := hjoined
      exact ⟨by have := Option.some.inj hk; omega, hm⟩
    | none =>
      obtain ⟨k, l, rfl, hl, hlt, hm⟩ := hjoined
      exact ⟨by have := Option.some.inj hl; omega, hm⟩

theorem anyM_congr {α : Type} {ask ask' : α → Except Fault Bool} {as : List α} (h : ∀ a ∈ as, ask a = ask' a) :
    as.anyM ask = as.anyM ask' := by
  induction as with
  | nil => rfl
  | cons a as ih =>
    obtain ⟨ha, has⟩ := List.forall_mem_cons.mp h
    rw [List.anyM, List.anyM, ha, ih has]

/-- From a node with a place the matcher goes on to the same nodes and places. -/
theorem holds_cons_append (hj : j ≤ history.size) (haccepts : link.test.accepts (f.kind m))
    (hrest : ∀ m' place', Joined f history link.combinator (m', place') (m, some j) →
      holds f (history ++ later) first links m' place' = holds f history first links m' place') :
    holds f (history ++ later) first (link :: links) m (some j) =
      holds f history first (link :: links) m (some j) := by
  obtain ⟨combinator, test⟩ := link
  cases combinator with
  | childOf =>
    rw [holds_childOf haccepts, holds_childOf haccepts]
    cases hparent : f.parent m with
    | error fault => rfl
    | ok parent =>
      cases parent with
      | none => rfl
      | some p =>
        show holds f (history ++ later) first links p (lastPosition? (history ++ later) p j) =
          holds f history first links p (lastPosition? history p j)
        rw [lastPosition?_append hj]
        exact hrest p _ ⟨hparent, lastPosition?_eq_iff.mp rfl⟩
  | follows d =>
    cases d with
    | some d =>
      rw [holds_distance haccepts, holds_distance haccepts]
      split
      · rfl
      · rename_i hstart
        rw [Array.getElem?_append_left (by omega)]
        split
        · rename_i m' hm
          exact hrest m' _ ⟨_, rfl, congrArg some (by omega), hm⟩
        · rfl
    | none =>
      rw [holds_follows haccepts, holds_follows haccepts]
      refine anyM_congr fun k hk => ?_
      have hkj : k < j := List.mem_range.mp (List.mem_reverse.mp hk)
      rw [Array.getElem?_append_left (by omega)]
      split
      · rename_i m' hm
        exact hrest m' _ ⟨k, j, rfl, rfl, hkj, hm⟩
      · rfl

/-- The matcher comes to the same result with later visits, as long as it keeps its place. -/
theorem holds_append (hi : LastAt history n history.size (some i)) (hlater : n ∉ later)
    (hkeeps : Keeps f history n i first links) (hsteady : Steady f history n i first links m place) :
    holds f (history ++ later) first links m place = holds f history first links m place := by
  induction links generalizing m place with
  | nil => rfl
  | cons link links ih =>
    by_cases haccepts : link.test.accepts (f.kind m)
    · cases place with
      | some j =>
        obtain ⟨hj, hm⟩ := hsteady
        have hsize : j ≤ history.size := by have := hi.1; omega
        exact holds_cons_append hsize haccepts fun m' place' hjoined =>
          ih hkeeps.tail (hkeeps.steady_of_joined hj hm haccepts hjoined)
      | none =>
        obtain ⟨combinator, test⟩ := link
        cases combinator with
        | follows d => rw [holds_follows_unvisited, holds_follows_unvisited]
        | childOf =>
          rw [holds_childOf haccepts, holds_childOf haccepts]
          cases hparent : f.parent m with
          | error fault => rfl
          | ok parent =>
            cases parent with
            | none => rfl
            | some q =>
              show holds f (history ++ later) first links q (lastPosition? (history ++ later) q (history ++ later).size) =
                holds f history first links q (lastPosition? history q history.size)
              by_cases hnext : (nextTest first links).accepts (f.kind q)
              · obtain rfl : q = n := hsteady _ _ rfl rfl haccepts q hparent hnext
                rw [lastPosition?_eq_iff.mpr (hi.append hlater), lastPosition?_eq_iff.mpr hi]
                exact ih hkeeps.tail ⟨Nat.le_refl i, hi.2.1⟩
              · rw [holds_of_not_accepts hnext, holds_of_not_accepts hnext]
    · rw [@holds_of_not_accepts f history first (link :: links) m place haccepts,
        @holds_of_not_accepts f (history ++ later) first (link :: links) m place haccepts]

theorem selects_append_of_keeps {s : Selector} (hi : LastAt history n history.size (some i)) (hlater : n ∉ later)
    (hkeeps : Keeps f history n i s.first s.links.reverse) :
    s.selects f (history ++ later) n = s.selects f history n := by
  rw [selects, selects, lastPosition?_eq_iff.mpr hi, lastPosition?_eq_iff.mpr (hi.append hlater)]
  exact holds_append hi hlater hkeeps ⟨Nat.le_refl i, hi.2.1⟩

/-! ## Nodes that lead astray -/

/-- A node leads astray if up to its last visit some node was visited before its own parent, and the parent of that
parent is not the node itself.  Only blocks and inlines count, since selectors have no names for others. -/
def Astray (f : Forest) (history : Array NodeId) (n : NodeId) : Prop :=
  ∃ i j x p q, LastAt history n history.size (some i) ∧ j ≤ i ∧ history[j]? = some x ∧ f.parent x = .ok (some p) ∧
    LastAt history p j none ∧ f.parent p = .ok (some q) ∧ q ≠ n ∧ ∀ m ∈ [n, x, p, q], (f.kind m).isTagged

/-- From right to left: a node, its parent, the parent of that, and what was visited so long before. -/
def climb (f : Forest) (x p q : NodeId) (distance : Nat) : List Link :=
  [⟨.childOf, .kind (f.kind x)⟩, ⟨.childOf, .kind (f.kind p)⟩, ⟨.follows (some distance), .kind (f.kind q)⟩]

/-- A parent without a place leads to the last place of its parent in the whole history. -/
theorem holds_climb_iff (hp : f.parent x = .ok (some p)) (hplace : LastAt history p j none)
    (hq : f.parent p = .ok (some q)) :
    holds f history first (climb f x p q distance) x (some j) = .ok true ↔
      ∃ k m, LastAt history q history.size (some (k + distance + 1)) ∧ history[k]? = some m ∧
        first.accepts (f.kind m) := by
  simp only [climb, holds_cons_eq_true_iff, holds_nil, Joined, Except.ok.injEq, ne_eq, Combinator.follows.injEq,
    reduceCtorEq, not_false_eq_true]
  constructor
  · rintro ⟨-, p', place, ⟨hp', hlast⟩, -, q', _, ⟨hq', hlastq⟩, -, m, _, ⟨k, rfl, rfl, hm⟩, hfirst⟩
    obtain rfl : p = p' := Option.some.inj (Except.ok.inj (hp.symm.trans hp'))
    obtain rfl : q = q' := Option.some.inj (Except.ok.inj (hq.symm.trans hq'))
    obtain rfl : place = none := LastAt.unique hlast hplace
    exact ⟨k, m, hlastq, hm, hfirst⟩
  · rintro ⟨k, m, hlastq, hm, hfirst⟩
    have haccepts : ∀ kind : Kind, (NodeTest.kind kind).accepts kind := fun kind => beq_self_eq_true kind
    exact ⟨haccepts _, p, none, ⟨hp, hplace⟩, haccepts _, q, _, ⟨hq, hlastq⟩, haccepts _, m, _, ⟨k, rfl, rfl, hm⟩,
      hfirst⟩

/-- A chain can begin with a step back from a place to any place before it. -/
theorem exists_links_back (first : NodeTest) (hji : j ≤ i) (htagged : (f.kind n).isTagged) (hlinks : ∀ link ∈ links, link.test.IsTerm) :
    ∃ back : List Link, (∀ link ∈ back, link.test.IsTerm) ∧ ∀ visits : Array NodeId, visits[i]? = some n →
      visits[j]? = some x →
      (holds f visits first back n (some i) = .ok true ↔ holds f visits first links x (some j) = .ok true) := by
  rcases Nat.eq_or_lt_of_le hji with rfl | hlt
  · refine ⟨links, hlinks, fun visits hn hx => ?_⟩
    obtain rfl : n = x := Option.some.inj (hn.symm.trans hx)
    exact Iff.rfl
  · refine ⟨⟨.follows (some (i - j - 1)), .kind (f.kind n)⟩ :: links, ?_, fun visits hn hx => ?_⟩
    · exact List.forall_mem_cons.mpr ⟨htagged, hlinks⟩
    · rw [holds_cons_eq_true_iff (by simp)]
      constructor
      · rintro ⟨-, m, _, ⟨k, rfl, hk, hm⟩, h⟩
        obtain rfl : k = j := by have := Option.some.inj hk; omega
        obtain rfl : x = m := Option.some.inj (hx.symm.trans hm)
        exact h
      · intro h
        exact ⟨beq_self_eq_true (f.kind n), x, some j, ⟨j, rfl, congrArg some (by omega), hx⟩, h⟩

/-- If a node leads astray then a selector finds what was only visited later.  The parent of its parent is visited
later so often that from its last place the distance leads back to the node, while from a place in the history so far
it leads to before the beginning. -/
theorem Astray.exists_selects (h : Astray f history n) : ∃ s later, InVocabulary s ∧ n ∉ later ∧
    s.selects f (history ++ later) n = .ok true ∧ s.selects f history n ≠ .ok true := by
  obtain ⟨i, j, x, p, q, hi, hji, hx, hp, hplace, hq, hne, htagged⟩ := h
  simp only [List.forall_mem_cons, List.not_mem_nil, false_imp_iff, implies_true, and_true] at htagged
  obtain ⟨htn, htx, htp, htq⟩ := htagged
  have hsize : i < history.size := hi.1
  obtain ⟨distance, hdistance⟩ : ∃ distance, i + distance + 1 = 2 * history.size := ⟨2 * history.size - i - 1, by omega⟩
  let later := Array.replicate (history.size + 1) q
  have hlater : n ∉ later := fun hmem => hne (Array.eq_of_mem_replicate hmem).symm
  have hlast : LastAt (history ++ later) q (history ++ later).size (some (i + distance + 1)) := by
    have hlength : (history ++ later).size = 2 * history.size + 1 := by simp [later]; omega
    rw [hdistance, hlength]
    refine ⟨by omega, ?_, fun k hlow hhigh => by omega⟩
    rw [Array.getElem?_append_right (by omega), Array.getElem?_replicate, if_pos (by omega)]
  have hterms : ∀ link ∈ climb f x p q distance, link.test.IsTerm := by
    simp [climb, NodeTest.IsTerm, htx, htp, htq]
  obtain ⟨back, hback, hsame⟩ :=
    exists_links_back (f := f) (x := x) (.kind (f.kind n)) hji htn hterms
  have hearly : ∀ {k : Nat}, k < history.size → (history ++ later)[k]? = history[k]? := Array.getElem?_append_left
  refine ⟨⟨"", .kind (f.kind n), back.reverse⟩, later, ⟨htn, fun link hlink => hback link (List.mem_reverse.mp hlink)⟩,
    hlater, ?_, ?_⟩
  · rw [selects, lastPosition?_eq_iff.mpr (hi.append hlater), List.reverse_reverse,
      hsame _ ((hearly hsize).trans hi.2.1) ((hearly (by omega)).trans hx),
      holds_climb_iff hp ((lastAt_append (by omega)).mpr hplace) hq]
    exact ⟨i, n, hlast, (hearly hsize).trans hi.2.1, beq_self_eq_true (f.kind n)⟩
  · rw [ne_eq, selects, lastPosition?_eq_iff.mpr hi, List.reverse_reverse, hsame _ hi.2.1 hx,
      holds_climb_iff hp hplace hq]
    rintro ⟨k, m, hplaceq, -⟩
    have hbound := hplaceq.1
    omega

/-- Visits after the last one of a node do not count for a selector that nowhere asks for the parent of a parent;
and they count for no selector at all exactly if the node does not lead astray. -/
theorem selects_append_iff (hn : n ∈ history) :
    (∀ s : Selector, s.links.IsChain (fun upper lower => upper.combinator = .childOf → lower.combinator ≠ .childOf) →
      ∀ later, n ∉ later → s.selects f (history ++ later) n = s.selects f history n) ∧
    ((∀ s, InVocabulary s → ∀ later, n ∉ later → s.selects f (history ++ later) n = s.selects f history n) ↔
      ¬ Astray f history n) := by
  obtain ⟨i, hi⟩ : ∃ i, LastAt history n history.size (some i) := by
    obtain ⟨place, hplace⟩ : ∃ place, LastAt history n history.size place := exists_lastAt
    cases place with
    | some i => exact ⟨i, hplace⟩
    | none =>
      obtain ⟨j, hj, heq⟩ := Array.mem_iff_getElem.mp hn
      exact absurd (Array.getElem?_eq_some_iff.mpr ⟨hj, heq⟩) (hplace j hj)
  refine ⟨fun s hchain later hlater => ?_, fun hsame hastray => ?_, fun hkept s hterms later hlater => ?_⟩
  · refine selects_append_of_keeps hi hlater ?_
    intro lower upper rest hsuffix hlower hupper
    have hpair := (List.isChain_reverse.mpr hchain).suffix hsuffix
    exact absurd hlower ((List.isChain_cons_cons.mp hpair).1 hupper)
  · obtain ⟨s, later, hterms, hlater, hselects, hnot⟩ := hastray.exists_selects
    rw [hsame s hterms later hlater] at hselects
    exact hnot hselects
  · have hnext : ∀ {rest : List Link}, rest <:+ s.links.reverse → (nextTest s.first rest).IsTerm := by
      intro rest hsuffix
      cases rest with
      | nil => exact hterms.1
      | cons link rest => exact hterms.2 link (List.mem_reverse.mp (hsuffix.subset (by simp)))
    by_cases htagged : (f.kind n).isTagged
    · refine selects_append_of_keeps hi hlater ?_
      intro lower upper rest hsuffix _ _ j x p q hj hx hlower hparent hplace hupper hq hrest
      by_contra hne
      have hafter : upper :: rest <:+ s.links.reverse := (List.suffix_cons lower _).trans hsuffix
      have htx := (hnext hsuffix).isTagged hlower
      have htp := (hnext hafter).isTagged hupper
      have htq := (hnext ((List.suffix_cons upper _).trans hafter)).isTagged hrest
      exact hkept ⟨i, j, x, p, q, hi, hj, hx, hparent, hplace, hq, hne, by simp [htagged, htx, htp, htq]⟩
    · have hnever : ∀ visits : Array NodeId, s.selects f visits n = .ok false := fun visits =>
        holds_of_not_accepts fun haccepts => htagged ((hnext (List.suffix_refl _)).isTagged haccepts)
      rw [hnever, hnever]

/-- A rule, and a division that holds a quotation with a paragraph. -/
def quotedParagraph : Forest :=
  ⟨#[{ kind := .horizontalRule }, { kind := .div, children := [⟨2⟩] },
    { kind := .blockQuote, children := [⟨3⟩], holder := some ⟨1⟩ }, { kind := .para, holder := some ⟨2⟩ }]⟩

/-- Asks for a paragraph in a quotation in a division that comes after a rule. -/
def quotedAfterRule : Selector :=
  ⟨"HorizontalRule + Div > BlockQuote > Para", .kind .horizontalRule,
    [⟨.follows none, .kind .div⟩, ⟨.childOf, .kind .blockQuote⟩, ⟨.childOf, .kind .para⟩]⟩

/-- Only the paragraph was visited, and then the rule and the division, but never the quotation between them. -/
theorem astray_quotedParagraph :
    (⟨3⟩ : NodeId) ∈ #[(⟨3⟩ : NodeId)] ∧ (⟨3⟩ : NodeId) ∉ #[(⟨0⟩ : NodeId), ⟨1⟩] ∧
      compile quotedAfterRule.text = .ok quotedAfterRule ∧
      quotedAfterRule.selects quotedParagraph #[⟨3⟩] ⟨3⟩ = .ok false ∧
      quotedAfterRule.selects quotedParagraph (#[⟨3⟩] ++ #[⟨0⟩, ⟨1⟩]) ⟨3⟩ = .ok true ∧
      Astray quotedParagraph #[⟨3⟩] ⟨3⟩ := by
  have hn : (⟨3⟩ : NodeId) ∈ #[(⟨3⟩ : NodeId)] := by simp
  have hlater : (⟨3⟩ : NodeId) ∉ #[(⟨0⟩ : NodeId), ⟨1⟩] := by simp
  have hbefore : quotedAfterRule.selects quotedParagraph #[⟨3⟩] ⟨3⟩ = .ok false := rfl
  have hafter : quotedAfterRule.selects quotedParagraph (#[⟨3⟩] ++ #[⟨0⟩, ⟨1⟩]) ⟨3⟩ = .ok true := rfl
  have hread : compile quotedAfterRule.text = .ok quotedAfterRule := by cbv
  refine ⟨hn, hlater, hread, hbefore, hafter, ?_⟩
  by_contra hno
  have hsame := (selects_append_iff hn).2.mpr hno quotedAfterRule (inVocabulary_of_compile hread) #[⟨0⟩, ⟨1⟩] hlater
  rw [hbefore, hafter] at hsame
  cases hsame

end Selector

end DocFilter
