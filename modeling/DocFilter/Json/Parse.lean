import DocFilter.Fault
import DocFilter.Json.Basic
import DocFilter.Number.Decimal

/-!
# Reading JSON text

A reader of JSON text over the list of characters still to come. It accepts the standard grammar and
the three names `NaN`, `Infinity` and `-Infinity`; of equal keys in one object the last value counts
and stands where the first one was. A refusal names its reason and the place in the text, counted in
characters.
-/

namespace DocFilter.Json

/-- Why a text is not JSON. -/
inductive SyntaxReason where
  | byteOrderMark
  | value
  | propertyName
  | colon
  | comma
  | extraData
  | unterminatedString
  | controlCharacter
  | escape
  | unicodeEscape
deriving DecidableEq, Repr

/-- The wording of a reason. -/
def SyntaxReason.text : SyntaxReason → String
  | .byteOrderMark => "Unexpected UTF-8 BOM (decode using utf-8-sig)"
  | .value => "Expecting value"
  | .propertyName => "Expecting property name enclosed in double quotes"
  | .colon => "Expecting ':' delimiter"
  | .comma => "Expecting ',' delimiter"
  | .extraData => "Extra data"
  | .unterminatedString => "Unterminated string starting at"
  | .controlCharacter => "Invalid control character at"
  | .escape => "Invalid \\escape"
  | .unicodeEscape => "Invalid \\uXXXX escape"

/-- A broken rule: the reason and the text that remained at the place it is about. -/
structure Refusal where
  reason : SyntaxReason
  remaining : List Char

/-- Refuses a text for a reason at the place where some text remains. -/
def refuse {α : Type} (reason : SyntaxReason) (remaining : List Char) : Except (ReadError Refusal) α :=
  .error (.rule ⟨reason, remaining⟩)

/-- A thing that was read, and the remaining text. -/
abbrev Reading (α : Type) := α × List Char

/-- White space between tokens. -/
def isSpace (c : Char) : Bool := c == ' ' || c == '\t' || c == '\n' || c == '\r'

/-- The text after leading white space. -/
def skipSpace (cs : List Char) : List Char := cs.dropWhile isSpace

/-- The code unit that four hexadecimal digits denote, and the text after them. -/
def codeUnit? : List Char → Option (Nat × List Char)
  | a :: b :: c :: d :: rest => (natIn? 16 [a, b, c, d]).map (·, rest)
  | _ => none

/-- Reads a Unicode escape from just after its letter. A high surrogate joins a low one that follows
as an escape of its own; four digits must not be the last characters of the text. A surrogate that joins no
other is no character, and is read as the replacement character U+FFFD. -/
def readUnicodeEscape (cs : List Char) : Except (ReadError Refusal) (Reading Char) :=
  if (cs.drop 4).isEmpty then refuse .unicodeEscape ('u' :: cs)
  else match codeUnit? cs with
    | none => refuse .unicodeEscape ('u' :: cs)
    | some (unit, rest) =>
      if 0xd800 ≤ unit ∧ unit ≤ 0xdbff ∧ !(rest.drop 6).isEmpty then
        match rest with
        | '\\' :: 'u' :: low =>
          match codeUnit? low with
          | none => refuse .unicodeEscape ('u' :: low)
          | some (unit', rest') =>
            if 0xdc00 ≤ unit' ∧ unit' ≤ 0xdfff then
              .ok (Char.ofNat (0x10000 + (unit - 0xd800) * 0x400 + (unit' - 0xdc00)), rest')
            else .ok (Char.ofNat 0xfffd, rest)
        | _ => .ok (Char.ofNat 0xfffd, rest)
      else if 0xd800 ≤ unit ∧ unit ≤ 0xdfff then .ok (Char.ofNat 0xfffd, rest)
      else .ok (Char.ofNat unit, rest)

/-- The character that a one-letter escape stands for. -/
def simpleEscape? : Char → Option Char
  | '"' => some '"'
  | '\\' => some '\\'
  | '/' => some '/'
  | 'b' => some '\x08'
  | 'f' => some '\x0c'
  | 'n' => some '\n'
  | 'r' => some '\r'
  | 't' => some '\t'
  | _ => none

/-- Reads the rest of a string; `opening` is the text from its opening quote on, `read` what has been
read of it, last character first. -/
def readString (opening : List Char) : (fuel : Nat) → (read : List Char) → List Char →
    Except (ReadError Refusal) (Reading String)
  | 0, _, _ => refuse .unterminatedString opening
  | fuel + 1, read, cs => match cs with
    | [] => refuse .unterminatedString opening
    | '"' :: rest => .ok (String.ofList read.reverse, rest)
    | ['\\'] => refuse .unterminatedString opening
    | '\\' :: 'u' :: rest => do
      let (c, rest) ← readUnicodeEscape rest
      readString opening fuel (c :: read) rest
    | '\\' :: c :: rest => match simpleEscape? c with
      | some c => readString opening fuel (c :: read) rest
      | none => refuse .escape ('\\' :: c :: rest)
    | c :: rest =>
      if c.toNat < 0x20 then refuse .controlCharacter (c :: rest)
      else readString opening fuel (c :: read) rest

/-- Reads the exponent of a number; a mark without digits after it is not one. -/
def spanExponent (cs : List Char) : Option (Int × List Char) := match cs with
  | mark :: rest =>
    if mark = 'e' ∨ mark = 'E' then
      let (down, rest) := spanSign rest
      match spanDigits rest with
      | ([], _) => none
      | (digits, rest) =>
        let n : Int := natOfDigits digits
        some (if down then -n else n, rest)
    else none
  | [] => none

/-- Reads the fraction of a number; a point without digits after it is not one. -/
def spanFraction (cs : List Char) : Option (List Char × List Char) := match cs with
  | '.' :: rest => match spanDigits rest with
    | ([], _) => none
    | (digits, rest) => some (digits, rest)
  | _ => none

/-- Reads the whole part of a number, which has no leading zeros. -/
def spanWhole (cs : List Char) : Option (List Char × List Char) := match cs with
  | '0' :: rest => some (['0'], rest)
  | cs => match spanDigits cs with
    | ([], _) => none
    | (digits, rest) => some (digits, rest)

/-- Reads a number from just after its sign; `start` is the text from the sign on. -/
def readUnsigned (negative : Bool) (start body : List Char) : Except (ReadError Refusal) (Reading Json) :=
  match spanWhole body with
  | none => refuse .value start
  | some (whole, rest) =>
    let fraction := spanFraction rest
    let rest := (fraction.map (·.2)).getD rest
    let exponent := spanExponent rest
    let rest := (exponent.map (·.2)).getD rest
    if fraction.isNone && exponent.isNone then
      let n : Int := natOfDigits whole
      if digitLimit < whole.length then .error (.unfit (.longNumeral whole.length))
      else .ok (.int (if negative then -n else n), rest)
    else
      let digits := (fraction.map (·.1)).getD []
      .ok (.float (Numeral.toDouble ⟨negative, whole, digits, (exponent.map (·.1)).getD 0⟩), rest)

/-- Reads a number. -/
def readNumber (cs : List Char) : Except (ReadError Refusal) (Reading Json) := match cs with
  | '-' :: rest => readUnsigned true cs rest
  | cs => readUnsigned false cs cs

mutual

/-- Reads one value. -/
def readValue : (fuel : Nat) → List Char → Except (ReadError Refusal) (Reading Json)
  | 0, cs => refuse .value cs
  | fuel + 1, cs => match cs with
    | '"' :: rest => do
      let (s, rest) ← readString cs fuel [] rest
      .ok (.str s, rest)
    | '{' :: rest => match skipSpace rest with
      | '}' :: rest => .ok (.obj [], rest)
      | rest => do
        let (entries, rest) ← readMembers fuel rest
        .ok (.obj (Entries.ofWrites entries), rest)
    | '[' :: rest => match skipSpace rest with
      | ']' :: rest => .ok (.arr [], rest)
      | rest => do
        let (items, rest) ← readItems fuel rest
        .ok (.arr items, rest)
    | 'n' :: 'u' :: 'l' :: 'l' :: rest => .ok (.null, rest)
    | 't' :: 'r' :: 'u' :: 'e' :: rest => .ok (.bool true, rest)
    | 'f' :: 'a' :: 'l' :: 's' :: 'e' :: rest => .ok (.bool false, rest)
    | 'N' :: 'a' :: 'N' :: rest => .ok (.float .nan, rest)
    | 'I' :: 'n' :: 'f' :: 'i' :: 'n' :: 'i' :: 't' :: 'y' :: rest =>
      .ok (.float (.infinite false), rest)
    | '-' :: 'I' :: 'n' :: 'f' :: 'i' :: 'n' :: 'i' :: 't' :: 'y' :: rest =>
      .ok (.float (.infinite true), rest)
    | cs => readNumber cs

/-- Reads the items of an array from the first one to the closing bracket. -/
def readItems : (fuel : Nat) → List Char → Except (ReadError Refusal) (Reading (List Json))
  | 0, cs => refuse .value cs
  | fuel + 1, cs => do
    let (item, rest) ← readValue fuel cs
    match skipSpace rest with
    | ']' :: rest => .ok ([item], rest)
    | ',' :: rest => do
      let (items, rest) ← readItems fuel (skipSpace rest)
      .ok (item :: items, rest)
    | rest => refuse .comma rest

/-- Reads the members of an object from the first key to the closing brace. -/
def readMembers : (fuel : Nat) → List Char → Except (ReadError Refusal) (Reading (List (String × Json)))
  | 0, cs => refuse .propertyName cs
  | fuel + 1, cs => match cs with
    | '"' :: rest => do
      let (key, rest) ← readString cs fuel [] rest
      match skipSpace rest with
      | ':' :: rest => do
        let (value, rest) ← readValue fuel (skipSpace rest)
        match skipSpace rest with
        | '}' :: rest => .ok ([(key, value)], rest)
        | ',' :: rest => do
          let (members, rest) ← readMembers fuel (skipSpace rest)
          .ok ((key, value) :: members, rest)
        | rest => refuse .comma rest
      | rest => refuse .colon rest
    | cs => refuse .propertyName cs

end

/-- A refusal with its place: the number of characters before it, and the line and column, both
counted from one. -/
structure SyntaxError where
  reason : SyntaxReason
  offset : Nat
  line : Nat
  column : Nat
deriving DecidableEq, Repr

/-- Places a refusal in the whole text. -/
def Refusal.place (cs : List Char) (refusal : Refusal) : SyntaxError :=
  let offset := cs.length - refusal.remaining.length
  let before := cs.take offset
  { reason := refusal.reason
    offset := offset
    line := before.count '\n' + 1
    column := (before.reverse.takeWhile (· != '\n')).length + 1 }

/-- The wording of a placed refusal. -/
def SyntaxError.message (e : SyntaxError) : String :=
  s!"{e.reason.text}: line {e.line} column {e.column} (char {e.offset})"

/-- Reads a whole text as one value between white space. Of two readers entered one inside the other at
least one has consumed a character, so where some text remains there is more fuel than twice its
length, which is enough for the characters of a string as well. -/
def readText (cs : List Char) : Except (ReadError Refusal) Json := do
  let (value, rest) ← readValue (2 * cs.length + 2) (skipSpace cs)
  match skipSpace rest with
  | [] => .ok value
  | rest => refuse .extraData rest

/-- Parses JSON text that was decoded from bytes, where a mark of their order does not belong to it. -/
def parseDecoded (cs : List Char) : Except (ReadError SyntaxError) Json :=
  (readText cs).mapError (·.map (·.place cs))

/-- Parses JSON text, which must not open with a mark of the order of bytes. -/
def parse (text : String) : Except (ReadError SyntaxError) Json :=
  let cs := text.toList
  if cs.head? = some (Char.ofNat 0xfeff) then .error (.rule (Refusal.place cs ⟨.byteOrderMark, cs⟩))
  else parseDecoded cs

end DocFilter.Json
