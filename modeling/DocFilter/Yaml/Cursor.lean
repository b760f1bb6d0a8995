import DocFilter.Yaml.Error

/-!
# The cursor of the YAML scanner

A position in a YAML text: the characters still to come, how many were passed, and the line and column.
The end of the text counts among the characters that end words and lines, so tests are made on
`Option Char`. A cursor also knows how far the text was looked at, since a text that comes in pieces is
refused no sooner than a piece that cannot be read is asked for. Passing a character looks at the next
one; what is looked at further on is told by `Cursor.look`.
-/

namespace DocFilter.Yaml

/-- Whether a character ends a line. -/
def isBreak (c : Char) : Bool :=
  c == '\n' || c == '\r' || c == '\x85' || c == '\u2028' || c == '\u2029'

/-- Whether a character may appear in a YAML text. -/
def isAllowed (c : Char) : Bool :=
  let n := c.toNat
  n == 0x9 || n == 0xa || n == 0xd || (0x20 ≤ n && n ≤ 0x7e) || n == 0x85 ||
    (0xa0 ≤ n && n ≤ 0xd7ff) || (0xe000 ≤ n && n ≤ 0xfffd) || 0x10000 ≤ n

/-- Whether a line ends here. -/
def endsLine : Option Char → Bool
  | none => true
  | some c => isBreak c

/-- Whether a line ends or a space stands here. -/
def endsToken : Option Char → Bool
  | none => true
  | some c => isBreak c || c == ' '

/-- Whether a line ends or a space or tab stands here. -/
def endsWord : Option Char → Bool
  | none => true
  | some c => isBreak c || c == ' ' || c == '\t'

/-- Whether a character may stand in the name of an anchor, a directive or a tag handle. -/
def isNameChar (c : Char) : Bool := c.isAlphanum || c == '-' || c == '_'

/-- A position in a text. -/
structure Cursor where
  rest : List Char
  index : Nat := 0
  line : Nat := 0
  column : Nat := 0
  /-- The furthest place that was looked at. -/
  reach : Nat := 0
deriving Repr, Inhabited

/-- Why scanning stops, and the furthest place that was looked at before. -/
structure Refusal where
  error : Error
  reach : Nat
deriving Repr, Inhabited

namespace Cursor

/-- Stops at an error. -/
def stop {α : Type} (c : Cursor) (error : Error) : Except Refusal α := .error ⟨error, c.reach⟩

/-- Stops at a broken rule. -/
def refuse {α : Type} (c : Cursor) (reason : Reason) : Except Refusal α := c.stop (.malformed reason)

/-- Looks at the character that comes after some others. -/
def look (c : Cursor) (count : Nat) : Cursor := { c with reach := max c.reach (c.index + count) }

/-- The next character. -/
def peek (c : Cursor) : Option Char := c.rest.head?

/-- A character further on. -/
def peekAt (c : Cursor) (k : Nat) : Option Char := c.rest[k]?

/-- Passes one character. A carriage return before a line feed does not end the line, and a byte-order
mark takes no column. -/
def forward (c : Cursor) : Cursor := match c.rest with
  | [] => c
  | ch :: rest =>
    let reach := max c.reach (c.index + 1)
    if isBreak ch && !(ch == '\r' && rest.head? == some '\n') then
      ⟨rest, c.index + 1, c.line + 1, 0, reach⟩
    else if ch == '\uFEFF' then ⟨rest, c.index + 1, c.line, c.column, reach⟩
    else ⟨rest, c.index + 1, c.line, c.column + 1, reach⟩

/-- Passes some characters. -/
def skip : (count : Nat) → Cursor → Cursor
  | 0, c => c
  | count + 1, c => skip count c.forward

/-- The characters up to the first that fails a test, and the position there. -/
def spanWhile (p : Char → Bool) (c : Cursor) : List Char × Cursor :=
  let run := c.rest.takeWhile p
  (run, c.skip run.length)

/-- Passes the characters up to the first that fails a test. -/
def skipWhile (p : Char → Bool) (c : Cursor) : Cursor := (c.spanWhile p).2

/-- Passes spaces. -/
def skipSpaces (c : Cursor) : Cursor := c.skipWhile (· == ' ')

/-- Passes a comment, if one starts here. -/
def skipComment (c : Cursor) : Cursor :=
  if c.peek == some '#' then c.skipWhile (!isBreak ·) else c

/-- Passes a line break, if there is one; every break but the two separators counts as a line feed. -/
def lineBreak? (c : Cursor) : Option (Char × Cursor) := match c.rest with
  | '\r' :: '\n' :: _ => some ('\n', c.skip 2)
  | ch :: _ =>
    if ch == '\u2028' || ch == '\u2029' then some (ch, c.forward)
    else if isBreak ch then some ('\n', c.forward)
    else none
  | [] => none

/-- Passes a line break, if there is one. -/
def skipBreak (c : Cursor) : Cursor := match c.lineBreak? with
  | some (_, c) => c
  | none => c

/-- Whether three given characters stand here as a word of their own. -/
def atMarker (c : Cursor) (mark : Char) : Bool := match c.rest with
  | x :: y :: z :: rest => x == mark && y == mark && z == mark && endsWord rest.head?
  | _ => false

/-- Whether a document separator stands here. -/
def atSeparator (c : Cursor) : Bool := c.atMarker '-' || c.atMarker '.'

/-- Looks as far as it takes to tell whether a document separator stands here: at three characters, and at
the one after them if they are those of a separator. -/
def lookForSeparator (c : Cursor) : Cursor :=
  let three := c.rest.take 3
  c.look (if three == ['-', '-', '-'] || three == ['.', '.', '.'] then 3 else 2)

end Cursor

end DocFilter.Yaml
