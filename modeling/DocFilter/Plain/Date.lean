import DocFilter.Fault

/-!
# Calendar dates and times

Dates of the Gregorian calendar from year 1 to year 9999, times of day to the microsecond, and moments
that may know their offset from universal time. They are written as ISO 8601 lays them out.
-/

namespace DocFilter

/-- A calendar date. -/
structure Date where
  year : Nat
  month : Nat
  day : Nat
deriving DecidableEq, Repr, Inhabited

/-- A time of day. -/
structure Time where
  hour : Nat
  minute : Nat
  second : Nat
  microsecond : Nat
deriving DecidableEq, Repr, Inhabited

/-- A date with a time, and the minutes by which it is ahead of universal time if that is known. -/
structure Moment where
  date : Date
  time : Time
  offset : Option Int
deriving DecidableEq, Repr, Inhabited

/-- A number with leading zeros up to a width. -/
def padded (width n : Nat) : String :=
  let digits := Nat.toDigits 10 n
  String.ofList (List.replicate (width - digits.length) '0' ++ digits)

namespace Date

/-- Whether a year has a leap day. -/
def isLeap (year : Nat) : Bool := year % 4 == 0 && (year % 100 != 0 || year % 400 == 0)

/-- How many days a month has. -/
def daysIn (year month : Nat) : Nat :=
  if month == 2 then (if isLeap year then 29 else 28)
  else if month == 4 || month == 6 || month == 9 || month == 11 then 30
  else 31

/-- Why the calendar does not have a date, if it does not. -/
def unfit? (d : Date) : Option Unfit :=
  if d.year = 0 ∨ 9999 < d.year then some (.year d.year)
  else if d.month = 0 ∨ 12 < d.month then some .month
  else if d.day = 0 ∨ daysIn d.year d.month < d.day then some .day
  else none

/-- Whether the calendar has a date. -/
def isValid (d : Date) : Bool := d.unfit?.isNone

/-- How many days lie before a date, counted from the first day of year 1. -/
def ordinal (d : Date) : Nat :=
  let years := d.year - 1
  let ofMonths := ((List.range d.month).drop 1).foldl (fun days month => days + daysIn d.year month) 0
  years * 365 + years / 4 - years / 100 + years / 400 + ofMonths + (d.day - 1)

/-- The text of a date. -/
def text (d : Date) : String := padded 4 d.year ++ "-" ++ padded 2 d.month ++ "-" ++ padded 2 d.day

end Date

namespace Time

/-- Why the day does not have a time, if it does not. -/
def unfit? (t : Time) : Option Unfit :=
  if 23 < t.hour then some .hour
  else if 59 < t.minute then some .minute
  else if 59 < t.second then some .second
  else none

/-- Whether the day has a time. -/
def isValid (t : Time) : Bool := t.unfit?.isNone

/-- The text of a time; the microseconds are left out if there are none. -/
def text (t : Time) : String :=
  padded 2 t.hour ++ ":" ++ padded 2 t.minute ++ ":" ++ padded 2 t.second ++
    (if t.microsecond == 0 then "" else "." ++ padded 6 t.microsecond)

end Time

/-- An offset from universal time. -/
def offsetText (minutes : Int) : String :=
  let n := minutes.natAbs
  (if minutes < 0 then "-" else "+") ++ padded 2 (n / 60) ++ ":" ++ padded 2 (n % 60)

/-- The fields of a record, each a number or a record. -/
def shownCall (name : String) (fields : List String) : String :=
  name ++ "(" ++ String.intercalate ", " fields ++ ")"

/-- A span of minutes, but zero, as messages show it: whole days, which may be negative, and seconds. -/
def shownSpan (minutes : Int) : String :=
  let days := minutes.fdiv 1440
  let seconds := minutes.fmod 1440 * 60
  shownCall "datetime.timedelta"
    ((if days == 0 then [] else [s!"days={days}"]) ++
      (if seconds == 0 then [] else [s!"seconds={seconds}"]))

namespace Moment

/-- Why the calendar does not have a moment, if it does not; an offset is less than a day. -/
def unfit? (m : Moment) : Option Unfit :=
  (m.offset.bind fun minutes =>
    if minutes.natAbs < 1440 then none else some (.offset (shownSpan minutes))).or
    (m.date.unfit?.or m.time.unfit?)

/-- Whether the calendar has a moment. -/
def isValid (m : Moment) : Bool := m.unfit?.isNone

/-- The minute of universal time in which a moment lies, if its offset is known. -/
def universalMinute? (m : Moment) : Option Int :=
  m.offset.map fun offset =>
    ((m.date.ordinal * 24 + m.time.hour) * 60 + m.time.minute : Nat) - offset

/-- Whether two moments are one: with an offset they are points of universal time, and without one
readings of a clock. -/
def same (m n : Moment) : Bool := match m.universalMinute?, n.universalMinute? with
  | some a, some b =>
    a == b && m.time.second == n.time.second && m.time.microsecond == n.time.microsecond
  | none, none => m == n
  | _, _ => false

/-- The text of a moment with a separator between date and time. -/
def text (separator : String) (m : Moment) : String :=
  m.date.text ++ separator ++ m.time.text ++ (m.offset.map offsetText).getD ""

end Moment

end DocFilter
