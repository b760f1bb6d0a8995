import DocFilter.Yaml.Scalar
import DocFilter.Yaml.Token

/-!
# The YAML scanner

Turns a text into tokens. Indentation becomes tokens that open and close block collections. Whether a
value is a key is only known at the colon after it, so the scanner remembers, for each nesting of flow
collections, where the last value that may be a key began, and puts the key token there afterwards.

A text comes whole or in pieces. A piece that holds a character that no text may hold cannot be read: the
tokens end where the scanner first looks at it.
-/

namespace DocFilter.Yaml

/-! ## Pieces -/

/-- How a text comes to the scanner. -/
inductive Supply where
  | whole
  /-- In pieces of 4096 characters, but for the first one, which has twice as many. -/
  | pieces
deriving DecidableEq, Repr, Inhabited

/-- Where the piece starts that a place lies in. -/
def Supply.pieceStart : Supply → (place : Nat) → Nat
  | whole, _ => 0
  | pieces, place => if place < 8192 then 0 else place - place % 4096

/-- A piece that cannot be read: where it starts, and the first character in it that no text may hold. -/
structure Barrier where
  start : Nat
  character : Char
deriving DecidableEq, Repr, Inhabited

/-- The first piece of a text that cannot be read. -/
def Supply.barrier? (supply : Supply) (cs : List Char) : Option Barrier :=
  let readable := cs.takeWhile isAllowed
  cs[readable.length]?.map fun c => ⟨supply.pieceStart readable.length, c⟩

/-- The error of a barrier, if there is one and the text was looked at that far. -/
def Barrier.met? (barrier : Option Barrier) (reach : Nat) : Option Error :=
  barrier.bind fun b =>
    if b.start ≤ reach then some (.malformed (.character b.character)) else none

/-! ## The scanner -/

/-- A value that may turn out to be a key: the number of its first token and where it stands. It must
be one if it is the first thing at the indentation of its block. -/
structure SimpleKey where
  token : Nat
  required : Bool
  index : Nat
  line : Nat
  column : Nat
deriving Repr, Inhabited

/-- The state of the scanner. -/
structure Scanner where
  cursor : Cursor
  tokens : Array Token := #[]
  flow : Nat := 0
  indent : Int := -1
  indents : List Int := []
  allowKey : Bool := true
  keys : List (Nat × SimpleKey) := []
deriving Inhabited

namespace Scanner

/-- Adds a token. -/
def push (s : Scanner) (token : Token) : Scanner := { s with tokens := s.tokens.push token }

/-- Passes some characters. -/
def skip (s : Scanner) (count : Nat) : Scanner := { s with cursor := s.cursor.skip count }

/-- The column of the cursor. -/
def column (s : Scanner) : Int := s.cursor.column

/-- Whether the cursor is inside a flow collection. -/
def inFlow (s : Scanner) : Bool := s.flow != 0

/-! ## Keys and indentation -/

/-- Forgets the values that can no longer be keys: a key ends on its line and is not too long. -/
def dropStale (s : Scanner) : Except Refusal Scanner := do
  let stale (key : SimpleKey) : Bool :=
    key.line != s.cursor.line || 1024 < s.cursor.index - key.index
  if s.keys.any fun entry => stale entry.2 && entry.2.required then s.cursor.refuse (.scanning .simpleKey)
  else .ok { s with keys := s.keys.filter fun entry => !stale entry.2 }

/-- Forgets the value that might have been a key at the present nesting. -/
def dropKey (s : Scanner) : Except Refusal Scanner :=
  match s.keys.lookup s.flow with
  | some key =>
    if key.required then s.cursor.refuse (.scanning .simpleKey)
    else .ok { s with keys := s.keys.filter (·.1 != s.flow) }
  | none => .ok s

/-- Remembers that the next token may start a key. -/
def saveKey (s : Scanner) : Except Refusal Scanner :=
  if s.allowKey then do
    let required := !s.inFlow && s.indent == s.column
    let s ← s.dropKey
    let c := s.cursor
    let key : SimpleKey := ⟨s.tokens.size, required, c.index, c.line, c.column⟩
    .ok { s with keys := (s.flow, key) :: s.keys }
  else .ok s

/-- Closes the blocks that are indented by more than a column. -/
def unwind (s : Scanner) (column : Int) : Scanner :=
  if s.inFlow then s
  else
    let rec go (s : Scanner) : List Int → Scanner
      | [] => s
      | outer :: indents =>
        if column < s.indent then
          go { s.push .blockEnd with indent := outer, indents := indents } indents
        else s
    go s s.indents

/-- Opens a block at a column if it is further in than the present one, with a token at a place among
the tokens. -/
def openBlock (s : Scanner) (column : Int) (token : Token) (place : Nat) : Scanner :=
  if s.indent < column then
    { s with
      indents := s.indent :: s.indents
      indent := column
      tokens := s.tokens.insertIdxIfInBounds place token }
  else s

/-! ## Directives and tags -/

/-- Reads a name, which must not be empty, for some piece. -/
def scanName (piece : Piece) (c : Cursor) : Except Refusal (List Char × Cursor) :=
  let (name, c) := c.spanWhile isNameChar
  if name.isEmpty then c.refuse (.scanning piece) else .ok (name, c)

/-- Reads a decimal number of a directive. -/
def scanNumber (c : Cursor) : Except Refusal (Nat × Cursor) :=
  let (digits, c) := c.spanWhile fun ch => '0' ≤ ch && ch ≤ '9'
  if digits.isEmpty then c.refuse (.scanning .directive)
  else if digitLimit < digits.length then c.stop (.fault (.value (.longNumeral digits.length)))
  else .ok (natOfDigits digits, c)

/-- Reads a tag handle for some piece: an exclamation mark, or a name between two of them. -/
def scanHandle (piece : Piece) (c : Cursor) : Except Refusal (String × Cursor) := match c.rest with
  | '!' :: ' ' :: _ => .ok ("!", c.forward)
  | '!' :: _ =>
    let (name, c) := c.forward.spanWhile isNameChar
    if c.peek == some '!' then .ok (String.ofList ('!' :: name ++ ['!']), c.forward)
    else c.refuse (.scanning piece)
  | _ => c.refuse (.scanning piece)

/-- Whether a character may stand in the content of a tag as it is. -/
def isUriChar (c : Char) : Bool := c.isAlphanum || "-;/?:@&=+$,_.!~*'()[]".contains c

/-- Reads the two digits of an escaped byte for some piece. -/
def scanUriByte (piece : Piece) (c : Cursor) : Except Refusal (UInt8 × Cursor) :=
  let digits := (c.rest.take 2).takeWhile fun ch => (digitIn? 16 ch).isSome
  match if digits.length < 2 then none else natIn? 16 digits with
  | some n => .ok (UInt8.ofNat n, c.skip 2)
  | none => (c.look digits.length).refuse (.scanning piece)

/-- Reads a run of escaped bytes for some piece. -/
def scanUriEscapes (piece : Piece) : (fuel : Nat) → Cursor → Except Refusal (List UInt8 × Cursor)
  | 0, c => .ok ([], c)
  | fuel + 1, c =>
    if c.peek == some '%' then do
      let (byte, c) ← scanUriByte piece c.forward
      let (more, c) ← scanUriEscapes piece fuel c
      .ok (byte :: more, c)
    else .ok ([], c)

/-- Reads what may be the content of a tag for some piece; escaped bytes must be well encoded. -/
def scanUriFrom (piece : Piece) : (fuel : Nat) → Cursor → Except Refusal (List Char × Cursor)
  | 0, c => .ok ([], c)
  | fuel + 1, c =>
    let (run, c) := c.spanWhile isUriChar
    if c.peek == some '%' then do
      let (bytes, c) ← scanUriEscapes piece (c.rest.length + 1) c
      match String.fromUTF8? ⟨bytes.toArray⟩ with
      | some text => do
        let (more, c) ← scanUriFrom piece fuel c
        .ok (run ++ text.toList ++ more, c)
      | none => c.refuse (.scanning piece)
    else .ok (run, c)

/-- Reads the content of a tag for some piece, which must not be empty. -/
def scanUri (piece : Piece) (c : Cursor) : Except Refusal (String × Cursor) := do
  let (chars, after) ← scanUriFrom piece (c.rest.length + 1) c
  if after.index == c.index then after.refuse (.parsing piece) else .ok (String.ofList chars, after)

/-- Reads what the directive of a name says. -/
def scanDirectiveValue (name : List Char) (c : Cursor) : Except Refusal (Token × Cursor) :=
  match String.ofList name with
  | "YAML" => do
    let (major, c) ← scanNumber c.skipSpaces
    if c.peek != some '.' then c.refuse (.scanning .directive)
    else do
      let (_, c) ← scanNumber c.forward
      if endsToken c.peek then .ok (.version major, c) else c.refuse (.scanning .directive)
  | "TAG" => do
    let (handle, c) ← scanHandle .directive c.skipSpaces
    if c.peek != some ' ' then c.refuse (.scanning .directive)
    else do
      let (content, c) ← scanUri .directive c.skipSpaces
      if endsToken c.peek then .ok (.tagHandle handle content, c)
      else c.refuse (.scanning .directive)
  | _ => .ok (.directive, c.skipWhile (!isBreak ·))

/-- Reads a directive. -/
def scanDirective (c : Cursor) : Except Refusal (Token × Cursor) := do
  let (name, c) ← scanName .directive c.forward
  if !endsToken c.peek then c.refuse (.scanning .directive)
  else do
    let (token, c) ← scanDirectiveValue name c
    let c ← skipLineRest .directive c
    .ok (token, c)

/-- Reads the name of an anchor or an alias. -/
def scanAnchor (piece : Piece) (c : Cursor) : Except Refusal (String × Cursor) := do
  let (name, c) ← scanName piece c.forward
  if endsWord c.peek || c.peek.any fun ch => "?:,]\x7d%@\x60".contains ch then
    .ok (String.ofList name, c)
  else c.refuse (.scanning piece)

/-- Reads a tag, whatever comes after it. -/
def scanTagName (c : Cursor) : Except Refusal (Token × Cursor) :=
  let next := c.peekAt 1
  let c := c.look 1
  if next == some '<' then do
    let (content, c) ← scanUri .tag (c.skip 2)
    if c.peek == some '>' then .ok (.tag none content, c.forward)
    else c.refuse (.parsing .tag)
  else if endsWord next then .ok (.tag none "!", c.forward)
  else
    let run := (c.rest.drop 1).takeWhile fun ch => !endsToken (some ch) && ch != '!'
    let c := c.look (run.length + 1)
    if c.peekAt (run.length + 1) == some '!' then do
      let (handle, c) ← scanHandle .tag c
      let (content, c) ← scanUri .tag c
      .ok (.tag (some handle) content, c)
    else do
      let (content, c) ← scanUri .tag c.forward
      .ok (.tag (some "!") content, c)

/-- Reads a tag, which a blank or a line break must end. -/
def scanTag (c : Cursor) : Except Refusal (Token × Cursor) := do
  let (token, c) ← scanTagName c
  if endsToken c.peek then .ok (token, c) else c.refuse (.scanning .tag)

/-! ## Tokens -/

/-- Adds a token that stands between documents. -/
def fetchBetween (s : Scanner) (token : Token) (cursor : Cursor) : Except Refusal Scanner := do
  let s ← (s.unwind (-1)).dropKey
  .ok ({ s with allowKey := false, cursor := cursor }.push token)

/-- Adds the token that opens a flow collection. -/
def fetchFlowStart (s : Scanner) (token : Token) : Except Refusal Scanner := do
  let s ← s.saveKey
  .ok ({ s with flow := s.flow + 1, allowKey := true }.push token |>.skip 1)

/-- Adds the token that closes a flow collection. -/
def fetchFlowEnd (s : Scanner) (token : Token) : Except Refusal Scanner := do
  let s ← s.dropKey
  .ok ({ s with flow := s.flow - 1, allowKey := false }.push token |>.skip 1)

/-- Adds the token of a comma. -/
def fetchFlowEntry (s : Scanner) : Except Refusal Scanner := do
  let s ← s.dropKey
  .ok ({ s with allowKey := true }.push .flowEntry |>.skip 1)

/-- Adds the token of a dash, opening a block sequence where one starts. -/
def fetchBlockEntry (s : Scanner) : Except Refusal Scanner := do
  let s ← if s.inFlow then .ok s
    else if s.allowKey then .ok (s.openBlock s.column .blockSequenceStart s.tokens.size)
    else s.cursor.refuse .misplacedEntry
  let s ← s.dropKey
  .ok ({ s with allowKey := true }.push .blockEntry |>.skip 1)

/-- Adds the token of a question mark, opening a block mapping where one starts. -/
def fetchKey (s : Scanner) : Except Refusal Scanner := do
  let s ← if s.inFlow then .ok s
    else if s.allowKey then .ok (s.openBlock s.column .blockMappingStart s.tokens.size)
    else s.cursor.refuse .misplacedKey
  let s ← s.dropKey
  .ok ({ s with allowKey := !s.inFlow }.push .key |>.skip 1)

/-- Adds the token of a colon. If a value before it may be a key, it is one; else the colon starts the
value of a longer key. -/
def fetchValue (s : Scanner) : Except Refusal Scanner := do
  let s ← match s.keys.lookup s.flow with
    | some key =>
      let s := { s with
        keys := s.keys.filter (·.1 != s.flow)
        tokens := s.tokens.insertIdxIfInBounds key.token .key
        allowKey := false }
      .ok (if s.inFlow then s else s.openBlock key.column .blockMappingStart key.token)
    | none =>
      if s.inFlow then .ok { s with allowKey := false }
      else if s.allowKey then do
        let s := s.openBlock s.column .blockMappingStart s.tokens.size
        ({ s with allowKey := true }).dropKey
      else s.cursor.refuse .misplacedValue
  .ok (s.push .value |>.skip 1)

/-- Adds the token of something that may be a key. -/
def fetchNode (s : Scanner) (scan : Cursor → Except Refusal (Token × Cursor)) :
    Except Refusal Scanner := do
  let s ← s.saveKey
  let (token, cursor) ← scan s.cursor
  .ok ({ s with allowKey := false, cursor := cursor }.push token)

/-- Adds the token of a block scalar. -/
def fetchBlock (s : Scanner) (folded : Bool) : Except Refusal Scanner := do
  let s ← s.dropKey
  let (text, cursor) ← scanBlock folded s.indent s.cursor
  .ok ({ s with allowKey := true, cursor := cursor }.push (.scalar false text))

/-- Adds the token of a plain scalar. -/
def fetchPlain (s : Scanner) : Except Refusal Scanner := do
  let s ← s.saveKey
  let (text, ended, cursor) := scanPlain s.inFlow (s.indent + 1) s.cursor
  .ok ({ s with allowKey := ended, cursor := cursor }.push (.scalar true text))

/-- Passes what stands between tokens: spaces, comments and line breaks. A key may follow a line break
outside of flow collections. -/
def skipBetween (s : Scanner) : (fuel : Nat) → Scanner
  | 0 => s
  | fuel + 1 =>
    let c := s.cursor.skipSpaces.skipComment
    match c.lineBreak? with
    | some (_, c) =>
      skipBetween { s with cursor := c, allowKey := s.allowKey || !s.inFlow } fuel
    | none => { s with cursor := c }

/-- Whether a plain scalar may start here. -/
def startsPlain (s : Scanner) : Bool := match s.cursor.peek with
  | none => false
  | some c =>
    let indicator := "-?:,[]\x7b\x7d#&*!|>'\"%@\x60".contains c
    !(endsWord (some c)) &&
      (!indicator || (!endsWord (s.cursor.peekAt 1) &&
        (c == '-' || (!s.inFlow && (c == '?' || c == ':')))))

/-- Looks at what tells a separator or an indicator from the start of a plain scalar. -/
def lookAhead (s : Scanner) : Scanner :=
  let c := s.cursor
  let next := c.peek
  let c := if c.column == 0 && (next == some '-' || next == some '.') then c.lookForSeparator else c
  let asks := next == some '-' || (!s.inFlow && (next == some '?' || next == some ':'))
  { s with cursor := if asks then c.look 1 else c }

/-- Adds the token of a directive. -/
def fetchDirective (s : Scanner) : Except Refusal Scanner := do
  let s ← (s.unwind (-1)).dropKey
  let (token, cursor) ← scanDirective s.cursor
  .ok ({ s with allowKey := false, cursor := cursor }.push token)

/-- Adds the token that ends a text. -/
def fetchEnd (s : Scanner) : Except Refusal Scanner := do
  let s ← (s.unwind (-1)).dropKey
  .ok (s.push .streamEnd)

/-- Adds the token that starts with a character, which comes next. -/
def fetchFrom (ch : Char) (s : Scanner) : Except Refusal Scanner :=
  let c := s.cursor
  let apart := endsWord (c.peekAt 1)
  if ch == '%' && c.column == 0 then s.fetchDirective
  else if c.column == 0 && c.atMarker '-' then s.fetchBetween .documentStart (c.skip 3)
  else if c.column == 0 && c.atMarker '.' then s.fetchBetween .documentEnd (c.skip 3)
  else if ch == '[' then s.fetchFlowStart .flowSequenceStart
  else if ch == '\x7b' then s.fetchFlowStart .flowMappingStart
  else if ch == ']' then s.fetchFlowEnd .flowSequenceEnd
  else if ch == '\x7d' then s.fetchFlowEnd .flowMappingEnd
  else if ch == ',' then s.fetchFlowEntry
  else if ch == '-' && apart then s.fetchBlockEntry
  else if ch == '?' && (s.inFlow || apart) then s.fetchKey
  else if ch == ':' && (s.inFlow || apart) then s.fetchValue
  else if ch == '*' then s.fetchNode fun c => (scanAnchor .reference c).map fun r => (.reference r.1, r.2)
  else if ch == '&' then s.fetchNode fun c => (scanAnchor .anchor c).map fun r => (.anchor r.1, r.2)
  else if ch == '!' then s.fetchNode scanTag
  else if ch == '|' && !s.inFlow then s.fetchBlock false
  else if ch == '>' && !s.inFlow then s.fetchBlock true
  else if ch == '\'' then
    s.fetchNode fun c => (scanQuoted false c).map fun r => (.scalar false r.1, r.2)
  else if ch == '"' then
    s.fetchNode fun c => (scanQuoted true c).map fun r => (.scalar false r.1, r.2)
  else if s.startsPlain then s.fetchPlain
  else (c.look 1).refuse (.scanning .nextToken)

/-- Adds the next token, and whatever tokens the indentation shows before it. -/
def fetch (s : Scanner) : Except Refusal Scanner := do
  let c := s.cursor
  let s := if c.index == 0 && c.peek == some '\uFEFF' then { s with cursor := c.forward } else s
  let s := s.skipBetween (s.cursor.rest.length + 1)
  let s ← s.dropStale
  let s := (s.unwind s.column).lookAhead
  match s.cursor.peek with
  | none => s.fetchEnd
  | some ch => s.fetchFrom ch

/-- How many tokens are certain: whether a key token goes before a value that may still be a key is not
known yet. -/
def certain (s : Scanner) : Nat := (s.keys.map (·.2.token)).foldl min s.tokens.size

/-- Fetches tokens until the text ends, something in it is refused or a barrier is met; the refusal comes with
the tokens that were certain before it. A value that had to be a key and can no longer be one is refused before
it is known to be a token; `before` counts those known by then. -/
def run (barrier : Option Barrier) : (fuel before : Nat) → Scanner → Array Token × Option Error
  | 0, _, s => (s.tokens, some (.fault .endless))
  | fuel + 1, before, s => match s.dropStale with
    | .error refusal => (s.tokens.take before, some refusal.error)
    | .ok s => match s.fetch with
      | .error refusal =>
        (s.tokens.take s.certain, some ((Barrier.met? barrier refusal.reach).getD refusal.error))
      | .ok next => match Barrier.met? barrier next.cursor.reach with
        | some error => (s.tokens.take s.certain, some error)
        | none =>
          if next.tokens.back? == some .streamEnd then (next.tokens, none)
          else run barrier fuel s.certain next

end Scanner

/-- The tokens of a text, and why they end early if they do. Each token but the last takes at least one
character. -/
def scan (supply : Supply) (cs : List Char) : List Token × Option Error :=
  let (tokens, error) :=
    Scanner.run (supply.barrier? cs) (cs.length + 2) 0 { cursor := { rest := cs } }
  (tokens.toList, error)

end DocFilter.Yaml
