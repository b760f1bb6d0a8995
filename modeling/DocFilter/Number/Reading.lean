import DocFilter.Fault
import DocFilter.Number.Decimal
import DocFilter.Text.Blank
import DocFilter.Text.Digit

/-!
# Reading numbers

Numbers as people type them: with blanks around, an optional sign, digits of any script, and single
underscores between digits. A text that holds anything else is no number.
-/

namespace DocFilter

/-- A text without the underscores that stand singly between digits; none if one stands elsewhere. -/
def ungrouped? (isDigit : Char → Bool) : List Char → Option (List Char)
  | [] => some []
  | [c] => if c == '_' then none else some [c]
  | c :: '_' :: d :: rest =>
    if isDigit c && isDigit d then (ungrouped? isDigit (d :: rest)).map (c :: ·) else none
  | c :: rest => if c == '_' then none else (ungrouped? isDigit rest).map (c :: ·)

/-- The blanks of ASCII. -/
def isAsciiBlank (c : Char) : Bool := c == ' ' || ('\t' ≤ c && c ≤ '\r')

/-- The character of ASCII that a character counts as in a number: a space for a blank of any script, a digit
for a digit of any script. What is of ASCII stays as it is, so that of its blanks only those count that
`isAsciiBlank` knows. -/
def typedChar (c : Char) : Char :=
  if c.toNat < 0x80 then c else if Text.isBlank c then ' ' else Text.asciiDigit c

/-- A text between blanks, with the digits of ASCII for those of other scripts. -/
def typed (cs : List Char) : List Char :=
  (((cs.map typedChar).dropWhile isAsciiBlank).reverse.dropWhile isAsciiBlank).reverse

/-- The letter that may mark digits of a base. -/
def baseMark? (base : Nat) : Option Char :=
  if base == 2 then some 'b' else if base == 8 then some 'o' else if base == 16 then some 'x' else none

/-- Digits without the mark of their base. -/
def withoutMark (base : Nat) (cs : List Char) : List Char := match cs with
  | '0' :: c :: rest => if some c.toLower == baseMark? base then rest else cs
  | cs => cs

/-- Reads a whole number in a base, which a mark may repeat. In a base that is no power of two there may
only be so many digits, whatever comes after them. -/
def readWhole (base : Nat) (cs : List Char) : Except Unfit Int :=
  let (negative, body) := spanSign (typed cs)
  let isDigit (c : Char) : Bool := (digitIn? base c).isSome
  let body := withoutMark base body
  let (run, rest) := body.span fun c => c == '_' || isDigit c
  match ungrouped? isDigit run with
  | some digits =>
    if baseMark? base = none ∧ digitLimit < digits.length then .error (.longNumeral digits.length)
    else match natIn? base digits, rest with
      | some n, [] => .ok (if negative then -n else n)
      | _, _ => .error (.notWhole base (String.ofList cs))
  | none => .error (.notWhole base (String.ofList cs))

/-- Reads a fractional number, or the name of one that is not finite. -/
def readFraction (cs : List Char) : Except Unfit Double :=
  let text := typed cs
  let (negative, body) := spanSign text
  let word := String.ofList (body.map Char.toLower)
  if word == "nan" then .ok .nan
  else if word == "inf" || word == "infinity" then .ok (.infinite negative)
  else match (ungrouped? Char.isDigit text).bind Double.ofText? with
    | some d => .ok d
    | none => .error (.notFraction (String.ofList cs))

end DocFilter
