import DocFilter.Fault
import DocFilter.Json.Basic
import DocFilter.Number.Decimal
import DocFilter.Selector.Basic
import DocFilter.Text.Blank

/-!
# Compiling selectors

A selector text is cut into names and combinators, which white space may separate. A plus sign takes
the characters up to the next blank, combinator or capital letter as its distance, since a name starts
with a capital letter. `Selector.compile` checks that names and combinators alternate.
-/

namespace DocFilter.Selector

/-- What a selector text is made of. -/
inductive Token where
  | childOf
  | follows (distance : List Char)
  | name (cs : List Char)
deriving DecidableEq, Repr, Inhabited

/-- Whether a character ends a name. -/
def endsName (c : Char) : Bool := Text.isBlank c || c == '>' || c == '+'

/-- Whether a character ends a distance. -/
def endsDistance (c : Char) : Bool := endsName c || ('A' ≤ c && c ≤ 'Z')

/-- The tokens of a text; `fuel` bounds them and the length of the text is enough, since each token
takes a character. -/
def tokensWithin : (fuel : Nat) → List Char → List Token
  | 0, _ => []
  | fuel + 1, cs => match Text.trimStart cs with
    | [] => []
    | '>' :: rest => .childOf :: tokensWithin fuel rest
    | '+' :: rest =>
      .follows (rest.takeWhile (!endsDistance ·)) ::
        tokensWithin fuel (rest.dropWhile (!endsDistance ·))
    | cs => .name (cs.takeWhile (!endsName ·)) :: tokensWithin fuel (cs.dropWhile (!endsName ·))

/-- The tokens of a text. -/
def tokens (cs : List Char) : List Token := tokensWithin cs.length cs

/-- Refuses a text for a flaw. -/
def flawed {α : Type} (flaw : SelectorFlaw) : Except (ReadError SelectorFlaw) α :=
  .error (.rule flaw)

/-- Reads a distance: none at all, or decimal digits. -/
def distance (raw : List Char) : Except (ReadError SelectorFlaw) (Option Nat) :=
  if raw.isEmpty then .ok none
  else match natIn? 10 raw with
    | some n =>
      if digitLimit < raw.length then .error (.unfit (.longNumeral raw.length)) else .ok (some n)
    | none => flawed (.malformedDistance (String.ofList raw))

/-- Reads the test that a name stands for. -/
def test (name : List Char) : Except (ReadError SelectorFlaw) NodeTest :=
  match NodeTest.ofName? (String.ofList name) with
  | some test => .ok test
  | none => flawed (.unknownKind (String.ofList name))

/-- Reads what follows a test: combinators and tests in turn. -/
def linksOf : List Token → Except (ReadError SelectorFlaw) (List Link)
  | [] => .ok []
  | .name cs :: _ => do
    let _ ← test cs
    flawed (.missingCombinator (String.ofList cs))
  | .childOf :: rest => linkTo .childOf rest
  | .follows raw :: rest => do
    let d ← distance raw
    linkTo (.follows d) rest
where
  /-- Reads the test that a combinator is joined to, and what follows it. -/
  linkTo (combinator : Combinator) : List Token → Except (ReadError SelectorFlaw) (List Link)
    | [] => flawed .emptyAfter
    | .name cs :: rest => do
      let t ← test cs
      let links ← linksOf rest
      .ok (⟨combinator, t⟩ :: links)
    | _ :: _ => flawed .emptyBefore

/-- Reads a chain from its leftmost test on. -/
def chainOf : List Token → Except (ReadError SelectorFlaw) (NodeTest × List Link)
  | [] => flawed .empty
  | .name cs :: rest => do
    let t ← test cs
    let links ← linksOf rest
    .ok (t, links)
  | _ :: _ => flawed .emptyBefore

/-- Compiles a selector text. -/
def compile (text : String) : Except (ReadError SelectorError) Selector :=
  match chainOf (tokens text.toList) with
  | .ok (first, links) => .ok ⟨text, first, links⟩
  | .error e => .error (e.map fun flaw => ⟨flaw, some text⟩)

/-- Compiles a value that should be a selector text. -/
def ofJson : Json → Except (ReadError SelectorError) Selector
  | .str text => compile text
  | _ => .error (.rule ⟨.empty, none⟩)

/-- Compiled selectors under their texts. -/
abbrev Cache := Entries Selector

/-- Whether the selector that a value should be is in the cache. A list or an object cannot be looked
up. -/
def Cache.contains (cache : Cache) : Json → Except Fault Bool
  | .str text => .ok (Entries.has text cache)
  | .arr _ | .obj _ => .error .type
  | _ => .ok false

/-- The selector that a value should be, compiled only if it is not in the cache yet. -/
def Cache.get (cache : Cache) (given : Json) :
    Except (ReadError SelectorError) (Selector × Cache) := do
  match given with
  | .str text => match Entries.find? text cache with
    | some selector => .ok (selector, cache)
    | none =>
      let selector ← compile text
      .ok (selector, Entries.put text selector cache)
  | given =>
    let selector ← ofJson given
    .ok (selector, cache)

end DocFilter.Selector
