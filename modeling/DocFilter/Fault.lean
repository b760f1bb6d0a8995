import DocFilter.Text.Quoted

/-!
# Faults

A fault is a value that does not fit an operation at all: the wrong type, a missing part, a number out
of range, a structure without end. It has no wording of its own, but for the
values that have the right type and still denote nothing: `Unfit` says why, and `Unfit.message` says it in
words. `ReadError` sets such a value apart from a text that breaks the rules of its notation.
-/

namespace DocFilter

/-- Why a value of the right type denotes nothing. -/
inductive Unfit where
  /-- A text that is no whole number in a base. -/
  | notWhole (base : Nat) (text : String)
  /-- A text that is no fractional number. -/
  | notFraction (text : String)
  /-- A numeral with too many digits to be read. -/
  | longNumeral (digits : Nat)
  /-- A whole number with too many digits to be written. -/
  | longNumber
  | year (n : Nat)
  | month
  | day
  | hour
  | minute
  | second
  /-- An offset of a day or more; the text shows it. -/
  | offset (shown : String)
  | codePoint
  /-- A path with a character that no path can have. -/
  | nullCharacter
  /-- Bytes that are no text. -/
  | encoding
  /-- A structure that holds itself where it is to be written out. -/
  | circular
deriving DecidableEq, Repr, Inhabited

namespace Unfit

/-- That a number has too many digits. -/
def longMessage : String := "Exceeds the limit (4300 digits) for integer string conversion"

/-- The wording of a reason. -/
def message : Unfit → String
  | notWhole base text =>
    s!"invalid literal for int() with base {base}: " ++ Text.cut 200 (Text.quoted text)
  | notFraction text => "could not convert string to float: " ++ Text.quoted text
  | longNumeral digits =>
    s!"{longMessage}: value has {digits} digits; " ++
      "use sys.set_int_max_str_digits() to increase the limit"
  | longNumber => longMessage
  | year n => s!"year {n} is out of range"
  | month => "month must be in 1..12"
  | day => "day is out of range for month"
  | hour => "hour must be in 0..23"
  | minute => "minute must be in 0..59"
  | second => "second must be in 0..59"
  | offset shown =>
    "offset must be a timedelta strictly between -timedelta(hours=24) and timedelta(hours=24), not " ++
      shown ++ "."
  | codePoint => "chr() arg not in range(0x110000)"
  | nullCharacter => "embedded null character in path"
  | encoding => ""
  | circular => "Circular reference detected"

end Unfit

/-- A value that does not fit. -/
inductive Fault where
  | type
  | attribute
  | key
  | index
  | overflow
  | value (reason : Unfit)
  | endless
  /-- The system does not take a request. -/
  | system
deriving DecidableEq, Repr, Inhabited

/-- Why a text gives no value: it breaks a rule of its notation, or something in it denotes nothing. -/
inductive ReadError (ε : Type) where
  | rule (error : ε)
  | unfit (reason : Unfit)
deriving DecidableEq, Repr

/-- An error about a rule in other terms. -/
def ReadError.map {ε δ : Type} (f : ε → δ) : ReadError ε → ReadError δ
  | rule error => rule (f error)
  | unfit reason => unfit reason

end DocFilter
