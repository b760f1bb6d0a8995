import DocFilter.Number.Reading
import DocFilter.Text.Case
import DocFilter.Yaml.Error
import DocFilter.Yaml.Tag

/-!
# Simple YAML values

What the text of a scalar denotes under its tag. A tag may be given to any text, so the readers here
are asked about texts that do not follow the notation of the tag at all: such a text denotes nothing.
-/

namespace DocFilter.Yaml

/-! ## Numbers -/

/-- What was read, or the reason why it denotes nothing. -/
def orUnfit {α : Type} (read : Except Unfit α) : Except Error α :=
  read.mapError fun reason => .fault (.value reason)

/-- Reads a whole number in a base. -/
def readBase (base : Nat) (cs : List Char) : Except Error Int := orUnfit (readWhole base cs)

/-- The value of places in base sixty, the first one weighing most. -/
def sexagesimal (places : List Int) : Int := places.foldl (fun value place => value * 60 + place) 0

/-- Reads a whole number: in base two, eight or sixteen behind the mark of the base, in base sixty with
colons, else in base ten. -/
def readInt (cs : List Char) : Except Error Int := do
  let cs := cs.filter (· != '_')
  let signed (n : Int) : Int := if cs.head? == some '-' then -n else n
  let value ← match Tag.unsigned cs with
    | [] => noValue .index
    | ['0'] => .ok 0
    | '0' :: 'b' :: digits => readBase 2 digits
    | '0' :: 'x' :: digits => readBase 16 digits
    | '0' :: digits => readBase 8 ('0' :: digits)
    | digits =>
      if digits.contains ':' then
        ((Text.splitAt ':' digits).mapM (readBase 10)).map sexagesimal
      else readBase 10 digits
  .ok (signed value)

/-- The sum of places in base sixty, each weighed and added in turn from the last to the first. -/
def sexagesimalSum : (weight : Int) → (sum : Double) → List Double → Except Error Double
  | _, sum, [] => .ok sum
  | weight, sum, place :: places => match Double.ofInt? weight with
    | some w => sexagesimalSum (weight * 60) (sum.add (place.mul w)) places
    | none => noValue .overflow

/-- The characters of a fractional number that count, in lower case. -/
def floatChars (cs : List Char) : List Char := Text.lowerChars (cs.filter (· != '_'))

/-- Whether a text is the sign for no number. -/
def isNanSign (cs : List Char) : Bool := Tag.unsigned (floatChars cs) == ".nan".toList

/-- Reads a fractional number: infinite, no number, in base sixty with colons, else decimal. -/
def readFloat (cs : List Char) : Except Error Double := do
  let cs := floatChars cs
  let signed (d : Double) : Double := if cs.head? == some '-' then d.neg else d
  let body := Tag.unsigned cs
  if cs.isEmpty then noValue .index
  else if body == ".inf".toList then .ok (signed (.infinite false))
  else if body == ".nan".toList then .ok .nan
  else if body.contains ':' then do
    let places ← (Text.splitAt ':' body).mapM (orUnfit ∘ readFraction)
    let sum ← sexagesimalSum 1 (.zero false) places.reverse
    .ok (signed sum)
  else (orUnfit (readFraction body)).map signed

/-! ## Bytes -/

/-- The value of a digit in base sixty-four. -/
def sextet? (c : Char) : Option Nat :=
  if 'A' ≤ c && c ≤ 'Z' then some (c.toNat - 0x41)
  else if 'a' ≤ c && c ≤ 'z' then some (c.toNat - 0x61 + 26)
  else if isDigit c then some (c.toNat - 0x30 + 52)
  else if c == '+' then some 62
  else if c == '/' then some 63
  else none

/-- The bytes read so far, the last first, and the present group: `digits` counts its digits, `held` are
the bits not yet written and `padding` counts the padding marks in a row. -/
structure Sextets where
  bytes : List UInt8 := []
  digits : Nat := 0
  held : Nat := 0
  padding : Nat := 0

/-- Takes a digit into the present group. -/
def Sextets.take (s : Sextets) (n : Nat) : Sextets :=
  let write (byte : Nat) : List UInt8 := UInt8.ofNat byte :: s.bytes
  match s.digits with
  | 0 => ⟨s.bytes, 1, n, 0⟩
  | 1 => ⟨write (s.held * 4 + n / 16), 2, n % 16, 0⟩
  | 2 => ⟨write (s.held * 16 + n / 4), 3, n % 4, 0⟩
  | _ => ⟨write (s.held * 64 + n), 0, 0, 0⟩

/-- Reads the bytes of a base-sixty-four text in groups of four digits. A group may be filled up with
padding, which ends the text; other characters do not count. -/
def readBytes (s : Sextets) : List Char → Except Reason (List UInt8)
  | [] =>
    if s.digits == 0 then .ok s.bytes.reverse
    else if s.digits == 1 then .error (.loneSextet (s.bytes.length / 3 * 4))
    else .error .unpadded
  | c :: rest =>
    if c == '=' then
      if 2 ≤ s.digits then
        if 4 ≤ s.digits + s.padding + 1 then .ok s.bytes.reverse
        else readBytes { s with padding := s.padding + 1 } rest
      else readBytes s rest
    else match sextet? c with
      | none => readBytes s rest
      | some n => readBytes (s.take n) rest

/-- Whether a character is one of ASCII. -/
def isAscii (c : Char) : Bool := c.toNat < 0x80

/-- Reads bytes from a text of ASCII characters. -/
def readBinary (cs : List Char) : Except Error (List UInt8) :=
  match cs.span isAscii with
  | (_, []) => (readBytes {} cs).mapError .malformed
  | (before, c :: rest) =>
    let start := before.length
    refuse (.notAscii c start (start + 1 + (rest.takeWhile (!isAscii ·)).length))

/-! ## All of them -/

/-- Reads a truth value in any mixture of cases. -/
def readBool (cs : List Char) : Except Error Bool :=
  let word := Text.lowerChars cs
  if ["yes", "true", "on"].any (·.toList == word) then .ok true
  else if ["no", "false", "off"].any (·.toList == word) then .ok false
  else noValue .key

/-- Reads a timestamp, leaving out a line break at the end. -/
def readTimestamp (cs : List Char) : Except Error Plain :=
  match Timestamp.ofText? (if cs.getLast? == some '\n' then cs.dropLast else cs) with
  | some stamp => orUnfit stamp.toPlain
  | none => noValue .attribute

/-- Whether a tag denotes simple values. -/
def Tag.isSimple : Tag → Bool
  | null | bool | int | float | binary | timestamp | str => true
  | _ => false

/-- Whether a tag denotes collections. -/
def Tag.isCollection : Tag → Bool
  | seq | map | set | omap | pairs => true
  | _ => false

/-- The value that a text denotes under the tag of a simple value. -/
def readSimple (tag : Tag) (text : String) : Except Error Plain :=
  let cs := text.toList
  match tag with
  | .null => .ok .null
  | .bool => (readBool cs).map .bool
  | .int => (readInt cs).map .int
  | .float => (readFloat cs).map .float
  | .binary => (readBinary cs).map .bytes
  | .timestamp => readTimestamp cs
  | .str => .ok (.str text)
  | tag => refuse (.unknownTag tag.name)

end DocFilter.Yaml
