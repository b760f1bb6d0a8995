import DocFilter.Number.Decimal
import DocFilter.Plain.Basic

/-!
# YAML timestamps

A date, or a date with a time of day and perhaps a time zone. The text is first cut into its fields;
whether the calendar has such a date only matters for the value.
-/

namespace DocFilter.Yaml

/-- Whether a character is a decimal digit. -/
def isDigit (c : Char) : Bool := '0' ≤ c && c ≤ '9'

/-- The fields of a timestamp. `padded` says that month and day have two digits. -/
structure Timestamp where
  date : Date
  padded : Bool
  time : Option (Time × Option Int)
deriving Repr, Inhabited

namespace Timestamp

/-- Reads a number of at least `least` and at most `most` digits. -/
def digits? (least most : Nat) (cs : List Char) : Option (Nat × List Char) :=
  let run := (cs.takeWhile isDigit).take most
  if run.length < least then none else some (natOfDigits run, cs.drop run.length)

/-- Reads a certain character. -/
def char? (c : Char) (cs : List Char) : Option (List Char) :=
  if cs.head? == some c then some cs.tail else none

/-- Whether a character is a space or a tab. -/
def isGap (c : Char) : Bool := c == ' ' || c == '\t'

/-- Reads a year, a month and a day, and whether month and day have two digits. -/
def date? (cs : List Char) : Option (Date × Bool × List Char) := do
  let (year, cs) ← digits? 4 4 cs
  let (month, afterMonth) ← digits? 1 2 (← char? '-' cs)
  let (day, afterDay) ← digits? 1 2 (← char? '-' afterMonth)
  some (⟨year, month, day⟩, cs.length - afterDay.length == 6, afterDay)

/-- Reads a fraction of a second as microseconds; more places are dropped. -/
def fraction (cs : List Char) : Nat × List Char := match cs with
  | '.' :: rest =>
    let (run, rest) := spanDigits rest
    (natOfDigits ((run ++ List.replicate 6 '0').take 6), rest)
  | _ => (0, cs)

/-- Reads a whole text as a time zone: none, universal time, or minutes ahead of it. -/
def zone? (cs : List Char) : Option (Option Int) := match cs.dropWhile isGap with
  | [] => if cs.isEmpty then some none else none
  | ['Z'] => some (some 0)
  | sign :: rest =>
    if sign == '+' || sign == '-' then do
      let (hours, rest) ← digits? 1 2 rest
      let (minutes, rest) ← match rest with
        | [] => some (0, [])
        | rest => digits? 2 2 (← char? ':' rest)
      let offset : Int := hours * 60 + minutes
      if rest.isEmpty then some (some (if sign == '-' then -offset else offset)) else none
    else none

/-- Reads a whole text as a time of day with its zone. -/
def time? (cs : List Char) : Option (Time × Option Int) := do
  let (hour, cs) ← digits? 1 2 cs
  let (minute, cs) ← digits? 2 2 (← char? ':' cs)
  let (second, cs) ← digits? 2 2 (← char? ':' cs)
  let (microsecond, cs) := fraction cs
  let offset ← zone? cs
  some (⟨hour, minute, second, microsecond⟩, offset)

/-- Reads a whole text as a timestamp. -/
def ofText? (cs : List Char) : Option Timestamp := do
  let (date, padded, rest) ← date? cs
  match rest with
  | [] => some ⟨date, padded, none⟩
  | c :: after =>
    if c == 'T' || c == 't' then some ⟨date, padded, ← time? after⟩
    else if isGap c then some ⟨date, padded, ← time? (after.dropWhile isGap)⟩
    else none

/-- Whether a plain scalar with these fields is a timestamp: a date on its own has two digits for month
and day. -/
def isPlain (t : Timestamp) : Bool := t.padded || t.time.isSome

/-- The date or moment, which the calendar must have. -/
def toPlain (t : Timestamp) : Except Unfit Plain :=
  let (value, reason) : Plain × Option Unfit := match t.time with
    | none => (.date t.date, t.date.unfit?)
    | some (time, offset) =>
      let moment : Moment := ⟨t.date, time, offset⟩
      (.moment moment, moment.unfit?)
  match reason with
  | none => .ok value
  | some reason => .error reason

end Timestamp

end DocFilter.Yaml
