import DocFilter.Forest.Basic
import DocFilter.Selector.Basic

/-!
# Matching selectors

A selector is matched from right to left against a node and the history of visits. Each test is tried
at a node and at its position in the history, which may be none for a node that was not visited: the
parent is looked for at its last position before, an earlier node at every position before, the latest
first, a node at a distance at the one position that has it. Where climbing to a parent never ends,
neither does the match.
-/

namespace DocFilter.Selector

/-- The last position of a node among the first `limit` entries of a history. -/
def lastPosition? (history : Array NodeId) (n : NodeId) : (limit : Nat) → Option Nat
  | 0 => none
  | i + 1 => if history[i]? = some n then some i else lastPosition? history n i

/-- Whether a chain, given from right to left, holds at a node and its position. -/
def holds (f : Forest) (history : Array NodeId) (first : NodeTest) :
    List Link → NodeId → Option Nat → Except Fault Bool
  | [], n, _ => .ok (first.accepts (f.kind n))
  | link :: links, n, position =>
    if link.test.accepts (f.kind n) then match link.combinator with
      | .childOf => do match ← f.parent n with
        | none => pure false
        | some p =>
          holds f history first links p
            (lastPosition? history p (position.getD history.size))
      | .follows (some distance) => match position with
        | none => .ok false
        | some i =>
          if i < distance + 1 then .ok false
          else match history[i - distance - 1]? with
            | some m => holds f history first links m (some (i - distance - 1))
            | none => .ok false
      | .follows none => match position with
        | none => .ok false
        | some i => (List.range i).reverse.anyM fun j => match history[j]? with
          | some m => holds f history first links m (some j)
          | none => .ok false
    else .ok false

/-- Whether a node is selected, given the history of visits. -/
def selects (s : Selector) (f : Forest) (history : Array NodeId) (n : NodeId) : Except Fault Bool :=
  holds f history s.first s.links.reverse n (lastPosition? history n history.size)

end DocFilter.Selector
