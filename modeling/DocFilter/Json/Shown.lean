import DocFilter.Fault
import DocFilter.Json.Basic
import DocFilter.Number.Decimal
import DocFilter.Text.Quoted

/-!
# Values inside messages

Messages show a value in a notation of their own: texts are quoted as messages quote them, the
constants are `None`, `True` and `False`, and every separator is followed by a space. `same` is the
equality under which numbers are compared by value and entries without regard to their order.
-/

namespace DocFilter.Json

mutual

/-- A value as messages show it. -/
def shownChars : Json → List Char
  | .null => "None".toList
  | .bool true => "True".toList
  | .bool false => "False".toList
  | .int n => (toString n).toList
  | .float d => d.text.toList
  | .str s => (Text.quoted s).toList
  | .arr [] => ['[', ']']
  | .arr (item :: items) => '[' :: shownChars item ++ shownItems items ++ [']']
  | .obj [] => ['{', '}']
  | .obj ((key, value) :: entries) =>
    '{' :: (Text.quoted key).toList ++ [':', ' '] ++ shownChars value ++ shownEntries entries ++ ['}']

/-- The items after the first one. -/
def shownItems : List Json → List Char
  | [] => []
  | item :: items => ',' :: ' ' :: shownChars item ++ shownItems items

/-- The entries after the first one. -/
def shownEntries : List (String × Json) → List Char
  | [] => []
  | (key, value) :: entries =>
    ',' :: ' ' :: (Text.quoted key).toList ++ [':', ' '] ++ shownChars value ++ shownEntries entries

end

/-- A value as messages show it. -/
def shown (value : Json) : String := String.ofList value.shownChars

/-- A value where it stands for a text: a string is itself, anything else is shown. -/
def plainText : Json → String
  | .str s => s
  | value => value.shown

/-- The whole number that a constant or a number counts as. -/
def asInt? : Json → Option Int
  | .bool b => some (if b then 1 else 0)
  | .int n => some n
  | _ => none

/-- The whole number that a value counts as where a place in a list is wanted; one that no list reaches is
refused, as is anything else. -/
def asIndex (value : Json) : Except Fault Int := match value.asInt? with
  | some n => if n < -Nat.pow 2 63 ∨ Nat.pow 2 63 ≤ n then .error .overflow else .ok n
  | none => .error .type

/-- Numeric equality, the constants counting as one and zero; `none` if one side is no number. -/
def sameNumber? (a b : Json) : Option Bool := match a, b with
  | .float x, .float y => some (x.same y)
  | .float x, b => b.asInt?.map x.sameInt
  | a, .float y => a.asInt?.map y.sameInt
  | a, b => match a.asInt?, b.asInt? with
    | some m, some n => some (m == n)
    | _, _ => none

mutual

/-- Equality by value: numbers of either kind compare numerically, the constants count as one and
zero, and entries compare without their order. -/
def same : Json → Json → Bool
  | .null, .null => true
  | .str s, .str t => s == t
  | .arr xs, .arr ys => sameItems xs ys
  | .obj xs, .obj ys => xs.length == ys.length && sameEntries xs ys
  | a, b => (sameNumber? a b).getD false

/-- Equality of lists of the same length, item by item. -/
def sameItems : List Json → List Json → Bool
  | [], [] => true
  | x :: xs, y :: ys => same x y && sameItems xs ys
  | _, _ => false

/-- Whether each entry has an equal one under its key. -/
def sameEntries : List (String × Json) → List (String × Json) → Bool
  | [], _ => true
  | (key, x) :: rest, ys => (match ys.lookup key with
    | some y => same x y
    | none => false) && sameEntries rest ys

end

end DocFilter.Json
