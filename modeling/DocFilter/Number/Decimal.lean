import DocFilter.Number.Double

/-!
# Decimal text of numbers

A double is written with the fewest digits that read back as the same number, and of those digits the
nearest; it stays positional from 0.0001 up to 10^16 and always shows that it is not an integer.
Decimal numerals are read into the nearest double.
-/

namespace DocFilter

namespace Double

/-- The power of ten just below or at a positive ratio. -/
def decimalExponent (num den : Nat) : Int :=
  if den ≤ num then (digitCount (num / den) : Int) - 1
  else -(digitCount ((den + num - 1) / num - 1) : Int)

/-- The neighbours of a ratio on the grid of multiples of ten to the `grid`, the nearer one first. -/
def gridNeighbours (num den : Nat) (grid : Int) : List Nat :=
  let (n, d) :=
    if 0 ≤ grid then (num, den * Nat.pow 10 grid.toNat) else (num * Nat.pow 10 (-grid).toNat, den)
  let below := n / d
  let nearest := roundQuotient n d
  if nearest = below then [below, below + 1] else [below + 1, below]

/-- The first decimal of the grids from `count` digits on that reads back as the number. -/
def shortestFrom (mantissa : Nat) (exponent : Int) (num den : Nat) :
    (fuel count : Nat) → Nat × Int
  | 0, _ => (0, 0)
  | fuel + 1, count =>
    let grid := decimalExponent num den - count + 1
    match (gridNeighbours num den grid).find? fun digits =>
        ofDecimal false digits grid == .finite false mantissa exponent with
    | some digits => (digits, grid)
    | none => shortestFrom mantissa exponent num den fuel (count + 1)

/-- The digits and the power of ten of the shortest decimal of a positive number. Seventeen digits
always suffice. -/
def shortest (mantissa : Nat) (exponent : Int) : Nat × Int :=
  let (num, den) := ratio mantissa exponent
  shortestFrom mantissa exponent num den 17 1

/-- The digits without trailing zeros, and where the decimal point stands before the first of them. -/
def significant (digits : Nat) (exponent : Int) : List Char × Int :=
  let cs := Nat.toDigits 10 digits
  ((cs.reverse.dropWhile (· == '0')).reverse, cs.length + exponent)

/-- An exponent with its sign and at least two digits. -/
def exponentText (n : Int) : List Char :=
  let cs := Nat.toDigits 10 n.natAbs
  (if n < 0 then '-' else '+') :: (if cs.length < 2 then '0' :: cs else cs)

/-- Digits laid out around a decimal point that stands `point` places after their start. -/
def layoutDigits (digits : List Char) (point : Int) : List Char :=
  if point ≤ -4 ∨ 16 < point then
    let exponent := 'e' :: exponentText (point - 1)
    match digits with
    | [] => exponent
    | [d] => d :: exponent
    | d :: rest => d :: '.' :: rest ++ exponent
  else if point ≤ 0 then '0' :: '.' :: List.replicate (-point).toNat '0' ++ digits
  else if digits.length ≤ point.toNat then
    digits ++ List.replicate (point.toNat - digits.length) '0' ++ ['.', '0']
  else digits.take point.toNat ++ '.' :: digits.drop point.toNat

/-- The text of a number. -/
def text : Double → String
  | .nan => "nan"
  | .infinite false => "inf"
  | .infinite true => "-inf"
  | .finite negative mantissa exponent =>
    let body :=
      if mantissa = 0 then ['0', '.', '0']
      else
        let (digits, exponent) := shortest mantissa exponent
        let (cs, point) := significant digits exponent
        layoutDigits cs point
    String.ofList (if negative then '-' :: body else body)

end Double

/-- The value of a decimal digit. -/
def digitValue? (c : Char) : Option Nat :=
  if '0' ≤ c ∧ c ≤ '9' then some (c.toNat - 0x30) else none

/-- The value of a digit in a base up to thirty-six, letters of either case counting from ten. -/
def digitIn? (base : Nat) (c : Char) : Option Nat :=
  let value :=
    if '0' ≤ c ∧ c ≤ '9' then c.toNat - 0x30
    else if 'a' ≤ c ∧ c ≤ 'z' then c.toNat - 0x57
    else if 'A' ≤ c ∧ c ≤ 'Z' then c.toNat - 0x37
    else base
  if value < base then some value else none

/-- The value of a run of digits; none if it is empty or holds anything else. -/
def natIn? (base : Nat) (cs : List Char) : Option Nat :=
  if cs.isEmpty then none
  else cs.foldlM (fun value c => (digitIn? base c).map (value * base + ·)) 0

/-- The leading decimal digits of a text, and the rest. -/
def spanDigits (cs : List Char) : List Char × List Char := cs.span fun c => '0' ≤ c ∧ c ≤ '9'

/-- The most decimal digits of a whole number that is read or written. -/
def digitLimit : Nat := 4300

/-- Whether a whole number has too many decimal digits to be written. -/
def isLong (n : Int) : Bool := Nat.pow 10 digitLimit ≤ n.natAbs

/-- The value of decimal digits, other characters counting as nothing. -/
def natOfDigits (cs : List Char) : Nat :=
  cs.foldl (fun value c => value * 10 + (digitValue? c).getD 0) 0

/-- A decimal numeral in its parts. -/
structure Numeral where
  negative : Bool
  whole : List Char
  fraction : List Char
  exponent : Int

/-- The double nearest to a numeral. -/
def Numeral.toDouble (n : Numeral) : Double :=
  Double.ofDecimal n.negative (natOfDigits (n.whole ++ n.fraction)) (n.exponent - n.fraction.length)

/-- The sign a text opens with, and the rest. -/
def spanSign : List Char → Bool × List Char
  | '-' :: rest => (true, rest)
  | '+' :: rest => (false, rest)
  | cs => (false, cs)

/-- Reads a whole text as a decimal numeral with an optional sign, fraction and exponent; a digit
must stand before or after the point. -/
def Double.ofText? (cs : List Char) : Option Double :=
  let (negative, cs) := spanSign cs
  let (whole, cs) := spanDigits cs
  let (fraction, cs) := match cs with
    | '.' :: rest => spanDigits rest
    | _ => ([], cs)
  if whole.isEmpty && fraction.isEmpty then none
  else match cs with
    | [] => some (Numeral.toDouble ⟨negative, whole, fraction, 0⟩)
    | mark :: rest =>
      if mark = 'e' ∨ mark = 'E' then
        let (down, rest) := spanSign rest
        match spanDigits rest with
        | ([], _) => none
        | (digits, []) =>
          let n : Int := natOfDigits digits
          some (Numeral.toDouble ⟨negative, whole, fraction, if down then -n else n⟩)
        | _ => none
      else none

end DocFilter
