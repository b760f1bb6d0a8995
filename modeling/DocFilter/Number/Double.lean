/-!
# Double-precision numbers

Binary floating-point numbers with 53 significant bits, kept as sign, mantissa and exponent, so that
every operation is exact arithmetic followed by one rounding. `Double.ofRatio` is that rounding: to
the nearest representable number, and to the even mantissa on a tie. Numbers are read from decimals
and from integers; the only arithmetic is what a sexagesimal numeral needs.
-/

namespace DocFilter

/-- A number of the binary64 format. The value of `finite` is the mantissa times two to the exponent;
`Double.ofRatio` produces the one form in which the mantissa has 53 bits or the exponent is least. -/
inductive Double where
  | nan
  | infinite (negative : Bool)
  | finite (negative : Bool) (mantissa : Nat) (exponent : Int)
deriving DecidableEq, Repr, Inhabited

/-- The quotient of two naturals rounded to the nearest one, a tie to the even one. -/
def roundQuotient (num den : Nat) : Nat :=
  let q := num / den
  let r := num % den
  if 2 * r < den then q else if den < 2 * r then q + 1 else q + q % 2

namespace Double

/-- The least exponent of a finite number. -/
def minExponent : Int := -1074

/-- The greatest exponent of a finite number. -/
def maxExponent : Int := 971

/-- Zero with a sign. -/
def zero (negative : Bool) : Double := .finite negative 0 minExponent

/-- A ratio of naturals divided by a power of two, as a ratio again. -/
def scaleRatio (num den : Nat) (exponent : Int) : Nat × Nat :=
  if 0 ≤ exponent then (num, den * Nat.pow 2 exponent.toNat)
  else (num * Nat.pow 2 (-exponent).toNat, den)

/-- The exponent at which a positive ratio has a mantissa of 53 bits, or the least exponent. -/
def exponentOf (num den : Nat) : Int :=
  let guess : Int := (num.log2 : Int) - (den.log2 : Int) - 52
  let (n, d) := scaleRatio num den guess
  max minExponent (if n < d * Nat.pow 2 52 then guess - 1 else guess)

/-- The number with a mantissa at an exponent, beyond every finite one if the exponent is too great. -/
def bounded (negative : Bool) (mantissa : Nat) (exponent : Int) : Double :=
  if maxExponent < exponent then .infinite negative else .finite negative mantissa exponent

/-- The number with a mantissa that was rounded at an exponent: one that has grown beyond 53 bits goes on
to the next exponent. -/
def settle (negative : Bool) (mantissa : Nat) (exponent : Int) : Double :=
  if mantissa = Nat.pow 2 53 then bounded negative (Nat.pow 2 52) (exponent + 1)
  else bounded negative mantissa exponent

/-- The number nearest to a ratio of naturals with a positive denominator. -/
def ofRatio (negative : Bool) (num den : Nat) : Double :=
  if num = 0 then zero negative
  else
    let exponent := exponentOf num den
    let scaled := scaleRatio num den exponent
    settle negative (roundQuotient scaled.1 scaled.2) exponent

/-- How many decimal digits a natural has. -/
def digitCount (n : Nat) : Nat := (Nat.toDigits 10 n).length

/-- The number nearest to `digits` times ten to the `exponent`. Decimals far outside the range are
settled by their magnitude. -/
def ofDecimal (negative : Bool) (digits : Nat) (exponent : Int) : Double :=
  if digits = 0 then zero negative
  else
    let magnitude := (digitCount digits : Int) + exponent
    if 310 < magnitude then .infinite negative
    else if magnitude < -330 then zero negative
    else if 0 ≤ exponent then ofRatio negative (digits * Nat.pow 10 exponent.toNat) 1
    else ofRatio negative digits (Nat.pow 10 (-exponent).toNat)

/-- The number nearest to an integer; none if it lies beyond every finite number. -/
def ofInt? (n : Int) : Option Double :=
  match ofRatio (n < 0) n.natAbs 1 with
  | .infinite _ => none
  | number => some number

/-- The magnitude of a finite number as a ratio. -/
def ratio (mantissa : Nat) (exponent : Int) : Nat × Nat :=
  if 0 ≤ exponent then (mantissa * Nat.pow 2 exponent.toNat, 1) else (mantissa, Nat.pow 2 (-exponent).toNat)

/-- The magnitude with its sign, over a positive denominator. -/
def signedRatio (negative : Bool) (mantissa : Nat) (exponent : Int) : Int × Nat :=
  let (n, d) := ratio mantissa exponent
  (if negative then -(n : Int) else n, d)

/-- The number nearest to a signed ratio; a zero result takes the given sign. -/
def ofSignedRatio (zeroSign : Bool) (num : Int) (den : Nat) : Double :=
  if num = 0 then zero zeroSign else ofRatio (num < 0) num.natAbs den

/-- The sum, rounded once. -/
def add : Double → Double → Double
  | .finite n m e, .finite n' m' e' =>
    let (a, d) := signedRatio n m e
    let (a', d') := signedRatio n' m' e'
    ofSignedRatio (n && n') (a * d' + a' * d) (d * d')
  | .infinite n, .infinite n' => if n = n' then .infinite n else .nan
  | .infinite n, .finite .. => .infinite n
  | .finite .., .infinite n => .infinite n
  | .nan, _ => .nan
  | _, .nan => .nan

/-- The product, rounded once. -/
def mul : Double → Double → Double
  | .finite n m e, .finite n' m' e' =>
    let (a, d) := ratio m e
    let (a', d') := ratio m' e'
    ofRatio (n != n') (a * a') (d * d')
  | .infinite n, .infinite n' => .infinite (n != n')
  | .infinite n, .finite n' m _ => if m = 0 then .nan else .infinite (n != n')
  | .finite n m _, .infinite n' => if m = 0 then .nan else .infinite (n != n')
  | .nan, _ => .nan
  | _, .nan => .nan

/-- The number with the opposite sign. -/
def neg : Double → Double
  | .nan => .nan
  | .infinite n => .infinite !n
  | .finite n m e => .finite (!n) m e

/-- Equality by value: the two zeros are equal, and what is not a number is one value. -/
def same : Double → Double → Bool
  | .finite n m e, .finite n' m' e' => (m = 0 && m' = 0) || (n = n' && m = m' && e = e')
  | .infinite n, .infinite n' => n = n'
  | .nan, .nan => true
  | _, _ => false

/-- Whether a number and an integer have the same value. -/
def sameInt : Double → Int → Bool
  | .finite n m e, i =>
    let (a, d) := signedRatio n m e
    a == i * d
  | _, _ => false

/-- Whether a number lies below zero. -/
def isNegative : Double → Bool
  | .finite n m _ => n && m != 0
  | .infinite n => n
  | .nan => false

/-- Whether a number is one of the two zeros. -/
def isZero : Double → Bool
  | .finite _ m _ => m == 0
  | _ => false

end Double

end DocFilter
