import DocFilter.Number.Decimal
import DocFilter.Text.Encoding
import DocFilter.Yaml.Cursor

/-!
# Reading YAML scalars

The five ways to write a scalar, each read from a cursor: plain, single-quoted, double-quoted, literal
and folded. Line breaks inside a scalar are folded: one break becomes a space, and of several the first
is dropped. Each reader is bounded by the number of characters that remain where a scalar begins; a reader
inside another may use what the other has left, since there is at least one character behind each unit
that was spent.
-/

namespace DocFilter.Yaml

/-! ## Plain scalars -/

/-- Whether a character has a meaning of its own inside a flow collection. -/
def isFlowIndicator (c : Char) : Bool :=
  c == ',' || c == '[' || c == ']' || c == '\x7b' || c == '\x7d'

/-- The characters of a plain scalar up to a blank or an indicator. -/
def plainRun (flow : Bool) : List Char → List Char
  | [] => []
  | c :: rest =>
    if endsWord (some c) then []
    else if c == ':' && (endsWord rest.head? || (flow && rest.head?.any isFlowIndicator)) then []
    else if flow && (isFlowIndicator c || c == '?') then []
    else c :: plainRun flow rest

/-- Passes a run of a plain scalar. Whether a colon ends it shows in the character after the colon. -/
def skipRun (run : List Char) (c : Cursor) : Cursor :=
  let c := c.skip run.length
  if c.peek == some ':' then c.look 1 else c

/-- The line breaks and leading spaces after a first break; none at a document separator. -/
def plainBreaks : (fuel : Nat) → Cursor → Option (List Char) × Cursor
  | 0, c => (some [], c)
  | fuel + 1, c =>
    if c.peek == some ' ' then plainBreaks fuel c.forward
    else match c.lineBreak? with
      | none => (some [], c)
      | some (ch, c) =>
        let c := c.lookForSeparator
        if c.atSeparator then (none, c)
        else
          let (breaks, c) := plainBreaks fuel c
          (breaks.map (ch :: ·), c)

/-- Folds a line break and the ones that follow it. -/
def foldBreaks (first : Char) (more : List Char) : List Char :=
  if first != '\n' then first :: more else if more.isEmpty then [' '] else more

/-- What separates two runs of a plain scalar, and whether a line was ended. -/
def plainSpaces (fuel : Nat) (c : Cursor) : List Char × Bool × Cursor :=
  let (blanks, c) := c.spanWhile (· == ' ')
  match c.lineBreak? with
  | none => (blanks, false, c)
  | some (first, c) =>
    let c := c.lookForSeparator
    if c.atSeparator then ([], true, c)
    else match plainBreaks fuel c with
      | (none, c) => ([], true, c)
      | (some more, c) => (foldBreaks first more, true, c)

/-- The pieces of a plain scalar, whether a line was ended after it, and the position; `read` are the
pieces that were read, the last one first. -/
def plainFrom (flow : Bool) (indent : Int) : (fuel : Nat) → (read : List (List Char)) →
    (spaces : List Char) → (ended : Bool) → Cursor → List (List Char) × Bool × Cursor
  | 0, read, _, ended, c => (read, ended, c)
  | fuel + 1, read, spaces, ended, c =>
    let run := plainRun flow c.rest
    if c.peek == some '#' then (read, ended, c)
    else if run.isEmpty then (read, ended, skipRun run c)
    else
      let read := run :: spaces :: read
      let (spaces, ended, c) := plainSpaces fuel (skipRun run c)
      if spaces.isEmpty || c.peek == some '#' || (!flow && (c.column : Int) < indent) then
        (read, ended, c)
      else plainFrom flow indent fuel read spaces ended c

/-- A plain scalar whose continuation lines are indented by at least `indent`. -/
def scanPlain (flow : Bool) (indent : Int) (c : Cursor) : String × Bool × Cursor :=
  let (pieces, ended, c) := plainFrom flow indent (c.rest.length + 1) [] [] false c
  (String.ofList pieces.reverse.flatten, ended, c)

/-! ## Quoted scalars -/

/-- The character that a one-letter escape stands for. -/
def escaped? : Char → Option Char
  | '0' => some '\x00'
  | 'a' => some '\x07'
  | 'b' => some '\x08'
  | 't' => some '\t'
  | '\t' => some '\t'
  | 'n' => some '\n'
  | 'v' => some '\x0b'
  | 'f' => some '\x0c'
  | 'r' => some '\r'
  | 'e' => some '\x1b'
  | ' ' => some ' '
  | '"' => some '"'
  | '\\' => some '\\'
  | '/' => some '/'
  | 'N' => some '\x85'
  | '_' => some '\xa0'
  | 'L' => some '\u2028'
  | 'P' => some '\u2029'
  | _ => none

/-- How many hexadecimal digits follow the letter of an escape by code point. -/
def escapeWidth? : Char → Option Nat
  | 'x' => some 2
  | 'u' => some 4
  | 'U' => some 8
  | _ => none

/-- The character of an escaped code point. -/
def charOfEscape (code : Nat) : Except Error Char :=
  if 0x7fffffff < code then noValue .overflow
  else if 0x10ffff < code then noValue (.value .codePoint)
  else .ok (Text.Encoding.charOf code)

/-- Further line breaks of a quoted scalar with the blanks around them; a document separator is not
allowed there. -/
def quotedBreaks : (fuel : Nat) → Cursor → Except Refusal (List Char × Cursor)
  | 0, c => .ok ([], c)
  | fuel + 1, c =>
    let c := c.lookForSeparator
    if c.atSeparator then c.refuse (.scanning .quoted)
    else
      let c := c.skipWhile fun ch => ch == ' ' || ch == '\t'
      match c.lineBreak? with
      | none => .ok ([], c)
      | some (ch, c) => do
        let (more, c) ← quotedBreaks fuel c
        .ok (ch :: more, c)

/-- Reads the code point of an escape, which is written with some hexadecimal digits. -/
def scanCodePoint (width : Nat) (c : Cursor) : Except Refusal (Char × Cursor) :=
  let digits := (c.rest.take width).takeWhile fun ch => (digitIn? 16 ch).isSome
  let looked := c.look (min digits.length (width - 1))
  match if digits.length < width then none else natIn? 16 digits with
  | none => looked.refuse (.scanning .doubleQuoted)
  | some code => match charOfEscape code with
    | .ok ch => .ok (ch, c.skip width)
    | .error e => looked.stop e

/-- Reads one escape, from just after the backslash. -/
def scanEscape (fuel : Nat) (c : Cursor) : Except Refusal (List Char × Cursor) := match c.peek with
  | none => c.refuse (.scanning .doubleQuoted)
  | some ch => match escaped? ch with
    | some e => .ok ([e], c.forward)
    | none => match escapeWidth? ch with
      | some width => (scanCodePoint width c.forward).map fun r => ([r.1], r.2)
      | none => match c.lineBreak? with
        | some (_, c) => quotedBreaks fuel c
        | none => c.refuse (.scanning .doubleQuoted)

/-- The characters of a quoted scalar up to a blank, a line break or its closing quote. -/
def quotedRun (double : Bool) : (fuel : Nat) → Cursor → Except Refusal (List Char × Cursor)
  | 0, c => .ok ([], c)
  | fuel + 1, c => match c.rest with
    | [] => .ok ([], c)
    | ch :: rest =>
      if endsWord (some ch) then .ok ([], c)
      else if double then
        if ch == '"' then .ok ([], c)
        else if ch == '\\' then do
          let (e, c) ← scanEscape fuel c.forward
          let (more, c) ← quotedRun double fuel c
          .ok (e ++ more, c)
        else do
          let (more, c) ← quotedRun double fuel c.forward
          .ok (ch :: more, c)
      else if ch == '\'' then
        if rest.head? == some '\'' then do
          let (more, c) ← quotedRun double fuel (c.skip 2)
          .ok ('\'' :: more, c)
        else .ok ([], c)
      else do
        let (more, c) ← quotedRun double fuel c.forward
        .ok (ch :: more, c)

/-- The blanks or folded line breaks between two runs of a quoted scalar. -/
def quotedSpaces (fuel : Nat) (c : Cursor) : Except Refusal (List Char × Cursor) :=
  let (blanks, c) := c.spanWhile fun ch => ch == ' ' || ch == '\t'
  match c.peek with
  | none => c.refuse (.scanning .quoted)
  | some _ => match c.lineBreak? with
    | none => .ok (blanks, c)
    | some (first, c) => do
      let (more, c) ← quotedBreaks fuel c
      .ok (foldBreaks first more, c)

/-- The rest of a quoted scalar up to its closing quote. -/
def quotedFrom (double : Bool) (quote : Char) :
    (fuel : Nat) → Cursor → Except Refusal (List Char × Cursor)
  | 0, c => c.refuse (.scanning .quoted)
  | fuel + 1, c => do
    let (run, c) ← quotedRun double fuel c
    if c.peek == some quote then .ok (run, c.forward)
    else do
      let (spaces, c) ← quotedSpaces fuel c
      let (more, c) ← quotedFrom double quote fuel c
      .ok (run ++ spaces ++ more, c)

/-- A quoted scalar. -/
def scanQuoted (double : Bool) (c : Cursor) : Except Refusal (String × Cursor) := do
  let (text, c) ← quotedFrom double (if double then '"' else '\'') (c.rest.length + 2) c.forward
  .ok (String.ofList text, c)

/-! ## Block scalars -/

/-- What becomes of the line breaks at the end of a block scalar. -/
inductive Chomping where
  | strip
  | clip
  | keep
deriving DecidableEq, Repr

/-- The chomping that an indicator stands for. -/
def chomping? : Option Char → Option Chomping
  | some '+' => some .keep
  | some '-' => some .strip
  | _ => none

/-- The indentation that a digit stands for. -/
def increment? (c : Option Char) : Option Nat := c.bind digitValue?

/-- Reads a chomping, if one is given here. -/
def scanChomping (c : Cursor) : Option Chomping × Cursor := match chomping? c.peek with
  | some chomping => (some chomping, c.forward)
  | none => (none, c)

/-- Reads an indentation, if one is given here; it must not be zero. -/
def scanIncrement (c : Cursor) : Except Refusal (Option Nat × Cursor) := match increment? c.peek with
  | some 0 => c.refuse (.scanning .blockScalar)
  | some n => .ok (some n, c.forward)
  | none => .ok (none, c)

/-- Reads the indicators after the mark of a block scalar, in either order. -/
def blockIndicators (c : Cursor) : Except Refusal (Chomping × Option Nat × Cursor) := do
  let (first, c) := scanChomping c
  let (increment, c) ← scanIncrement c
  let (last, c) := if first.isNone && increment.isSome then scanChomping c else (none, c)
  if endsToken c.peek then .ok ((first <|> last).getD .clip, increment, c)
  else c.refuse (.scanning .blockScalar)

/-- Passes the rest of a line of some piece, which may only hold a comment. -/
def skipLineRest (piece : Piece) (c : Cursor) : Except Refusal Cursor :=
  let c := c.skipSpaces.skipComment
  if endsLine c.peek then .ok c.skipBreak else c.refuse (.scanning piece)

/-- The line breaks before the first line of a block scalar, and the deepest indentation among them. -/
def blockIndentation : (fuel : Nat) → (deepest : Nat) → Cursor → List Char × Nat × Cursor
  | 0, deepest, c => ([], deepest, c)
  | fuel + 1, deepest, c =>
    if c.peek == some ' ' then
      let c := c.forward
      blockIndentation fuel (max deepest c.column) c
    else match c.lineBreak? with
      | none => ([], deepest, c)
      | some (ch, c) =>
        let (breaks, deepest, c) := blockIndentation fuel deepest c
        (ch :: breaks, deepest, c)

/-- Passes spaces up to a column. -/
def skipIndent (indent : Nat) (c : Cursor) : Cursor :=
  c.skip (min (indent - c.column) (c.rest.takeWhile (· == ' ')).length)

/-- The line breaks before the next line of a block scalar, whose indentation is passed. -/
def blockBreaks (indent : Nat) : (fuel : Nat) → Cursor → List Char × Cursor
  | 0, c => ([], c)
  | fuel + 1, c =>
    let c := skipIndent indent c
    match c.lineBreak? with
    | none => ([], c)
    | some (ch, c) =>
      let (breaks, c) := blockBreaks indent fuel c
      (ch :: breaks, c)

/-- Whether a line of a block scalar starts with text and not with a blank. -/
def startsWithText (c : Cursor) : Bool := !(c.peek == some ' ' || c.peek == some '\t')

/-- The lines of a block scalar from the position of one: the text, the break that ended the last line,
and the breaks after it. -/
def blockLines (folded : Bool) (indent : Nat) :
    (fuel : Nat) → (breaks : List Char) → Cursor → List Char × List Char × List Char × Cursor
  | 0, breaks, c => ([], [], breaks, c)
  | fuel + 1, breaks, c =>
    if c.column != indent || c.peek.isNone then ([], [], breaks, c)
    else
      let textual := startsWithText c
      let (line, c) := c.spanWhile (!isBreak ·)
      let (ending, c) := match c.lineBreak? with
        | some (ch, c) => ([ch], c)
        | none => ([], c)
      let (more, c) := blockBreaks indent fuel c
      if c.column == indent && c.peek.isSome then
        let joint :=
          if folded && ending == ['\n'] && textual && startsWithText c then
            (if more.isEmpty then [' '] else [])
          else ending
        let (text, last, breaks', c) := blockLines folded indent fuel more c
        (breaks ++ line ++ joint ++ text, last, breaks', c)
      else (breaks ++ line, ending, more, c)

/-- The line breaks before the first line of a block scalar, and the column at which its lines start: a given
one is counted from `least`, the first that is allowed. -/
def blockStart (least : Nat) (increment : Option Nat) (fuel : Nat) (c : Cursor) : List Char × Nat × Cursor :=
  match increment with
  | some n =>
    let column := least + n - 1
    let (breaks, c) := blockBreaks column fuel c
    (breaks, column, c)
  | none =>
    let (breaks, deepest, c) := blockIndentation fuel 0 c
    (breaks, max least deepest, c)

/-- A block scalar inside a block that is indented by `indent`. -/
def scanBlock (folded : Bool) (indent : Int) (c : Cursor) : Except Refusal (String × Cursor) := do
  let (chomping, increment, c) ← blockIndicators c.forward
  let c ← skipLineRest .blockScalar c
  let fuel := c.rest.length + 1
  let (breaks, column, c) := blockStart (max 1 (indent + 1)).toNat increment fuel c
  let (text, last, breaks, c) := blockLines folded column fuel breaks c
  let tail := match chomping with
    | .strip => []
    | .clip => last
    | .keep => last ++ breaks
  .ok (String.ofList (text ++ tail), c)

end DocFilter.Yaml
