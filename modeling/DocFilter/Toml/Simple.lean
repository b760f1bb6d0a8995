import DocFilter.Plain.Basic
import DocFilter.Toml.Text

/-!
# Simple TOML values

Numbers, truth values, dates and times. Each reader is asked about the characters still to come and
says what it takes of them; a date or a number that is not there leaves them to the next reader.
-/

namespace DocFilter.Toml

/-- Something taken, with the characters after it. -/
abbrev Taken (α : Type) := α × List Char

/-! ## Dates and times -/

/-- Takes two digits with a value within bounds. -/
def twoDigits? (least most : Nat) : List Char → Option (Taken Nat)
  | a :: b :: rest => do
    let n ← natIn? 10 [a, b]
    if least ≤ n && n ≤ most then some (n, rest) else none
  | _ => none

/-- Takes a certain character. -/
def mark? (c : Char) : List Char → Option (List Char)
  | d :: rest => if c == d then some rest else none
  | [] => none

/-- Takes a year, a month and a day. -/
def date? (cs : List Char) : Option (Taken Date) := do
  let (century, cs) ← twoDigits? 0 99 cs
  let (year, cs) ← twoDigits? 0 99 cs
  let (month, cs) ← twoDigits? 1 12 (← mark? '-' cs)
  let (day, cs) ← twoDigits? 1 31 (← mark? '-' cs)
  some (⟨century * 100 + year, month, day⟩, cs)

/-- Takes a fraction of a second as microseconds; places after the sixth do not count. -/
def microseconds (cs : List Char) : Nat × List Char := match cs with
  | '.' :: rest => match spanDigits rest with
    | ([], _) => (0, cs)
    | (digits, rest) => (natOfDigits ((digits ++ List.replicate 6 '0').take 6), rest)
  | _ => (0, cs)

/-- Takes a time of day. -/
def time? (cs : List Char) : Option (Taken Time) := do
  let (hour, cs) ← twoDigits? 0 23 cs
  let (minute, cs) ← twoDigits? 0 59 (← mark? ':' cs)
  let (second, cs) ← twoDigits? 0 59 (← mark? ':' cs)
  let (fraction, cs) := microseconds cs
  some (⟨hour, minute, second, fraction⟩, cs)

/-- Takes an offset from universal time in minutes. -/
def offset? : List Char → Option (Taken Int)
  | sign :: cs =>
    if sign == 'Z' || sign == 'z' then some (0, cs)
    else if sign == '+' || sign == '-' then do
      let (hours, cs) ← twoDigits? 0 23 cs
      let (minutes, cs) ← twoDigits? 0 59 (← mark? ':' cs)
      let total : Int := hours * 60 + minutes
      some (if sign == '-' then -total else total, cs)
    else none
  | [] => none

/-- Takes a time after a date, if there is one, and its offset, if it has one. -/
def moment (d : Date) (cs : List Char) : Plain × List Char :=
  let time := match cs with
    | c :: rest => if c == 'T' || c == 't' || c == ' ' then time? rest else none
    | [] => none
  match time with
  | none => (.date d, cs)
  | some (t, cs) => match offset? cs with
    | some (minutes, cs) => (.moment ⟨d, t, some minutes⟩, cs)
    | none => (.moment ⟨d, t, none⟩, cs)

/-- Takes a date, a date with a time, or a time; whether the calendar has the date is not asked. -/
def stamp? (cs : List Char) : Option (Taken Plain) :=
  match date? cs with
  | some (d, cs) => some (moment d cs)
  | none => (time? cs).map fun (t, cs) => (.time t, cs)

/-- Whether the calendar has a date. -/
def isOnCalendar : Plain → Bool
  | .date d => d.isValid
  | .moment m => m.isValid
  | _ => true

/-! ## Numbers -/

/-- Takes digits, each with or without one underscore before it. -/
def spanGrouped (isDigit : Char → Bool) : List Char → List Char × List Char
  | '_' :: c :: rest =>
    if isDigit c then
      let (digits, rest) := spanGrouped isDigit rest
      (c :: digits, rest)
    else ([], '_' :: c :: rest)
  | c :: rest =>
    if isDigit c then
      let (digits, rest) := spanGrouped isDigit rest
      (c :: digits, rest)
    else ([], c :: rest)
  | [] => ([], [])

/-- Takes digits, between which single underscores may stand. -/
def grouped? (isDigit : Char → Bool) : List Char → Option (Taken (List Char))
  | c :: rest =>
    if isDigit c then
      let (digits, rest) := spanGrouped isDigit rest
      some (c :: digits, rest)
    else none
  | [] => none

/-- Whether a character is a digit in a base. -/
def isDigitIn (base : Nat) (c : Char) : Bool := (digitIn? base c).isSome

/-- Takes a whole number behind the mark of its base. -/
def based? : List Char → Option (Taken Int)
  | '0' :: mark :: rest => do
    let base ← match mark with
      | 'x' => some 16
      | 'o' => some 8
      | 'b' => some 2
      | _ => none
    let (digits, rest) ← grouped? (isDigitIn base) rest
    some ((natIn? base digits).getD 0, rest)
  | _ => none

/-- Takes the whole part of a decimal number, which has no leading zeros. -/
def whole? : List Char → Option (Taken (List Char))
  | '0' :: rest => some (['0'], rest)
  | cs => grouped? Char.isDigit cs

/-- Takes the fraction of a decimal number. -/
def fraction? (cs : List Char) : Option (Taken (List Char)) := do grouped? Char.isDigit (← mark? '.' cs)

/-- Takes the exponent of a decimal number. -/
def exponent? : List Char → Option (Taken Int)
  | mark :: cs =>
    if mark == 'e' || mark == 'E' then do
      let (down, cs) := spanSign cs
      let (digits, cs) ← grouped? Char.isDigit cs
      let n : Int := natOfDigits digits
      some (if down then -n else n, cs)
    else none
  | [] => none

/-- Takes a decimal number: whole without fraction and exponent, else a float. -/
def decimal? (cs : List Char) : Option (Taken Plain) := do
  let (negative, cs) := spanSign cs
  let (whole, cs) ← whole? cs
  let (fraction, afterFraction) := (fraction? cs).getD ([], cs)
  let (exponent, rest) := match exponent? afterFraction with
    | some (n, rest) => (some n, rest)
    | none => (none, afterFraction)
  match fraction, exponent with
  | [], none =>
    let n : Int := natOfDigits whole
    some (.int (if negative then -n else n), rest)
  | _, _ => some (.float (Numeral.toDouble ⟨negative, whole, fraction, exponent.getD 0⟩), rest)

/-- Takes the name of a float that is not finite. -/
def special? (cs : List Char) : Option (Taken Plain) :=
  let (negative, body) := spanSign cs
  if "inf".toList.isPrefixOf body then some (.float (.infinite negative), body.drop 3)
  else if "nan".toList.isPrefixOf body then some (.float .nan, body.drop 3)
  else none

/-! ## All of them -/

/-- Takes a truth value. -/
def truth? (cs : List Char) : Option (Taken Plain) :=
  if "true".toList.isPrefixOf cs then some (.bool true, cs.drop 4)
  else if "false".toList.isPrefixOf cs then some (.bool false, cs.drop 5)
  else none

/-- Takes a number. -/
def number? (cs : List Char) : Option (Taken Plain) :=
  ((based? cs).map fun (n, rest) => (.int n, rest)) <|> decimal? cs <|> special? cs

/-- How many digits a decimal number has if they are too many to be read. -/
def longNumeral? (cs : List Char) : Option Nat := do
  let (digits, _) ← whole? (spanSign cs).2
  if digitLimit < digits.length then some digits.length else none

/-- Reads a simple value other than a string. Only a decimal number may be too long to be read. -/
def readSimple : Reader Plain := do
  let cs ← get
  match stamp? cs with
  | some (value, rest) =>
    if isOnCalendar value then
      set rest
      return value
    else refuse .date
  | none => match truth? cs <|> number? cs with
    | some (value, rest) => match value, (based? cs).isNone, longNumeral? cs with
      | .int _, true, some count => throw (.unfit (.longNumeral count))
      | _, _, _ => do
        set rest
        return value
    | none => refuse .value

end DocFilter.Toml
