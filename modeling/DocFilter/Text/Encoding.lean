/-!
# Text encodings

Decoding of bytes in the Unicode encoding forms. The form of a text that starts with a byte-order mark
or with an ASCII character is seen from its first bytes: `Encoding.detect`. A code unit of a lone
surrogate is accepted and read as the replacement character.
-/

namespace DocFilter.Text

/-- The Unicode encoding forms; a marked form starts with a byte-order mark that is not content. -/
inductive Encoding where
  | utf8
  | utf8Marked
  | utf16 (bigEndian : Bool)
  | utf16Marked
  | utf32 (bigEndian : Bool)
  | utf32Marked
deriving DecidableEq, Repr

namespace Encoding

/-- The encoding form that the first bytes show: by a byte-order mark, else by where the zero bytes of
an ASCII character stand. -/
def detect (bytes : List UInt8) : Encoding := match bytes with
  | 0 :: 0 :: 0xfe :: 0xff :: _ => .utf32Marked
  | 0xff :: 0xfe :: 0 :: 0 :: _ => .utf32Marked
  | 0xfe :: 0xff :: _ => .utf16Marked
  | 0xff :: 0xfe :: _ => .utf16Marked
  | 0xef :: 0xbb :: 0xbf :: _ => .utf8Marked
  | a :: b :: c :: d :: _ =>
    if a = 0 then (if b = 0 then .utf32 true else .utf16 true)
    else if b = 0 then (if c = 0 ∧ d = 0 then .utf32 false else .utf16 false)
    else .utf8
  | [a, b] => if a = 0 then .utf16 true else if b = 0 then .utf16 false else .utf8
  | _ => .utf8

/-- The character of a code point; a surrogate, which is none, is read as the replacement character U+FFFD. -/
def charOf (code : Nat) : Char :=
  if 0xd800 ≤ code ∧ code ≤ 0xdfff then Char.ofNat 0xfffd else Char.ofNat code

/-- The payload of a continuation byte. -/
def continuation? (b : UInt8) : Option Nat :=
  if 0x80 ≤ b ∧ b ≤ 0xbf then some (b.toNat - 0x80) else none

/-- Decodes UTF-8: no overlong forms and nothing beyond the last code point. -/
def decodeUtf8 : List UInt8 → Option (List Char)
  | [] => some []
  | a :: rest =>
    if a < 0x80 then (decodeUtf8 rest).map (Char.ofNat a.toNat :: ·)
    else if 0xc2 ≤ a ∧ a ≤ 0xdf then match rest with
      | b :: rest => do
        let x ← continuation? b
        (decodeUtf8 rest).map (Char.ofNat ((a.toNat - 0xc0) * 0x40 + x) :: ·)
      | [] => none
    else if 0xe0 ≤ a ∧ a ≤ 0xef then match rest with
      | b :: c :: rest => do
        let x ← continuation? b
        let y ← continuation? c
        let code := (a.toNat - 0xe0) * 0x1000 + x * 0x40 + y
        if code < 0x800 then none else (decodeUtf8 rest).map (charOf code :: ·)
      | _ => none
    else if 0xf0 ≤ a ∧ a ≤ 0xf4 then match rest with
      | b :: c :: d :: rest => do
        let x ← continuation? b
        let y ← continuation? c
        let z ← continuation? d
        let code := (a.toNat - 0xf0) * 0x40000 + x * 0x1000 + y * 0x40 + z
        if code < 0x10000 ∨ 0x10ffff < code then none
        else (decodeUtf8 rest).map (Char.ofNat code :: ·)
      | _ => none
    else none

/-- Groups bytes into units of two; none if one is left over. -/
def units16 (bigEndian : Bool) : List UInt8 → Option (List Nat)
  | [] => some []
  | a :: b :: rest =>
    let unit := if bigEndian then a.toNat * 0x100 + b.toNat else b.toNat * 0x100 + a.toNat
    (units16 bigEndian rest).map (unit :: ·)
  | _ => none

/-- Joins surrogate pairs. -/
def ofUnits16 : List Nat → List Char
  | [] => []
  | [unit] => [charOf unit]
  | high :: low :: rest =>
    if 0xd800 ≤ high ∧ high ≤ 0xdbff ∧ 0xdc00 ≤ low ∧ low ≤ 0xdfff then
      Char.ofNat (0x10000 + (high - 0xd800) * 0x400 + (low - 0xdc00)) :: ofUnits16 rest
    else charOf high :: ofUnits16 (low :: rest)

/-- Decodes UTF-32. -/
def decodeUtf32 (bigEndian : Bool) : List UInt8 → Option (List Char)
  | [] => some []
  | a :: b :: c :: d :: rest =>
    let code := if bigEndian
      then a.toNat * 0x1000000 + b.toNat * 0x10000 + c.toNat * 0x100 + d.toNat
      else d.toNat * 0x1000000 + c.toNat * 0x10000 + b.toNat * 0x100 + a.toNat
    if 0x10ffff < code then none else (decodeUtf32 bigEndian rest).map (charOf code :: ·)
  | _ => none

/-- Decodes bytes in an encoding form; none if they are not valid in it. -/
def decode (encoding : Encoding) (bytes : List UInt8) : Option (List Char) := match encoding with
  | .utf8 => decodeUtf8 bytes
  | .utf8Marked => decodeUtf8 (bytes.drop 3)
  | .utf16 bigEndian => (units16 bigEndian bytes).map ofUnits16
  | .utf16Marked => (units16 (bytes.head? == some 0xfe) (bytes.drop 2)).map ofUnits16
  | .utf32 bigEndian => decodeUtf32 bigEndian bytes
  | .utf32Marked => decodeUtf32 (bytes.head? == some 0) (bytes.drop 4)

end Encoding

/-- The text of bytes in the encoding form that they show themselves to be in. -/
def decodeBytes (bytes : List UInt8) : Option (List Char) :=
  (Encoding.detect bytes).decode bytes

end DocFilter.Text
