import DocFilter.Number.Decimal
import DocFilter.Toml.Error

/-!
# TOML keys and strings

Readers over the characters still to come: comments and layout, the four kinds of strings, and dotted
keys.

* No text holds control characters other than tabs, and line feeds where it may span lines.
* A string with escapes reads them as it goes; a literal one stands for itself.
* A string between three quotes drops a line feed at its start, and may end in up to two quotes of its
  own.
-/

namespace DocFilter.Toml

/-- A computation on the characters still to come. -/
abbrev Reader := StateT (List Char) (Except (ReadError Refusal))

/-! ## Characters -/

/-- Refuses the text at the present place. -/
def refuse {α : Type} (reason : Reason) : Reader α := fun cs => .error (.rule ⟨reason, cs⟩)

/-- Whether the text goes on with some characters. -/
def sees (text : String) : Reader Bool := do return text.toList.isPrefixOf (← get)

/-- The character to come. -/
def peek : Reader (Option Char) := do return (← get).head?

/-- Passes over a number of characters. -/
def advance (count : Nat) : Reader Unit := modify (·.drop count)

/-- Passes over the characters of a kind. -/
def skip (test : Char → Bool) : Reader Unit := modify (·.dropWhile test)

/-- Passes over some characters if the text goes on with them. -/
def accept (text : String) : Reader Bool := do
  if ← sees text then
    advance text.length
    return true
  else return false

/-- Whether a character is a space or a tab. -/
def isGap (c : Char) : Bool := c == ' ' || c == '\t'

/-- Whether a character is a space, a tab or a line feed. -/
def isLayout (c : Char) : Bool := isGap c || c == '\n'

/-- Whether a character may stand in a text of one line. -/
def isText (c : Char) : Bool := c == '\t' || (0x20 ≤ c.toNat && c.toNat != 0x7f)

/-- Whether a character may stand in a text of several lines. -/
def isLongText (c : Char) : Bool := isText c || c == '\n'

/-- Whether a character may stand in a bare key. -/
def isBare (c : Char) : Bool := c.isAlphanum || c == '-' || c == '_'

/-! ## Layout -/

/-- Passes over a comment, up to the end of its line. -/
def skipComment : Reader Unit := do
  if ← accept "#" then
    skip isText
    match ← peek with
    | none | some '\n' => pure ()
    | some c => refuse (.invalidCharacter c)

/-- The text after layout and comments; a comment ends with its line. -/
def afterLayout (inComment : Bool) : List Char → Except (ReadError Refusal) (List Char)
  | [] => .ok []
  | c :: rest =>
    if inComment then
      if c == '\n' then afterLayout false rest
      else if isText c then afterLayout true rest
      else .error (.rule ⟨.invalidCharacter c, c :: rest⟩)
    else if c == '#' then afterLayout true rest
    else if isLayout c then afterLayout false rest
    else .ok (c :: rest)

/-- Passes over layout and comments. -/
def skipLayout : Reader Unit := do set (← afterLayout false (← get))

/-! ## Strings -/

/-- The character that an escape letter stands for. -/
def simpleEscape? : Char → Option Char
  | 'b' => some '\x08'
  | 't' => some '\t'
  | 'n' => some '\n'
  | 'f' => some '\x0c'
  | 'r' => some '\r'
  | '"' => some '"'
  | '\\' => some '\\'
  | _ => none

/-- Reads a character from the digits of its code point. -/
def readCodePoint (count : Nat) : Reader (List Char) := do
  let digits := (← get).take count
  match natIn? 16 digits with
  | some code =>
    if digits.length == count then
      advance count
      if code.isValidChar then return [Char.ofNat code] else refuse .codePoint
    else refuse .hexDigits
  | none => refuse .hexDigits

/-- Reads an escape from its backslash on. Over several lines one may also stand at the end of a line,
blanks after it not counting, and takes away all layout up to the next text. -/
def readEscape (long : Bool) : Reader (List Char) := do
  let mark := (← get)[1]?
  advance 2
  match mark, mark.bind simpleEscape? with
  | some 'u', _ => readCodePoint 4
  | some 'U', _ => readCodePoint 8
  | _, some c => return [c]
  | some c, none =>
    if !(long && isLayout c) then refuse .escape
    else
      if c != '\n' then skip isGap
      match c, ← peek with
      | '\n', _ | _, none | _, some '\n' => do
        skip isLayout
        return []
      | _, some _ => refuse .escape
  | none, none => refuse .escape

/-- Reads the rest of a string with escapes; `read` are its characters so far, the last one first. -/
def readBasic (long : Bool) : (fuel : Nat) → (read : List Char) → Reader String
  | 0, _ => refuse .unterminated
  | fuel + 1, read => do
    match ← get with
    | [] => refuse .unterminated
    | '"' :: rest => do
      if ← accept (if long then "\"\"\"" else "\"") then return String.ofList read.reverse
      else
        set rest
        readBasic long fuel ('"' :: read)
    | '\\' :: _ => do
      let cs ← readEscape long
      readBasic long fuel (cs ++ read)
    | c :: rest =>
      if isText c || long && isLongText c then do
        set rest
        readBasic long fuel (c :: read)
      else refuse (.illegalCharacter c)

/-- The text before a mark, and the text from the mark on. -/
def splitBefore? (mark : List Char) : List Char → Option (List Char × List Char)
  | [] => none
  | c :: rest =>
    if mark.isPrefixOf (c :: rest) then some ([], c :: rest)
    else (splitBefore? mark rest).map fun (before, after) => (c :: before, after)

/-- Reads the rest of a literal string up to its closing mark. -/
def readLiteral (mark : String) (isAllowed : Char → Bool) : Reader String := do
  let cs ← get
  match splitBefore? mark.toList cs with
  | none => do
    set ([] : List Char)
    refuse (.missing mark)
  | some (text, rest) =>
    match text.find? fun c => !isAllowed c with
    | some c => do
      skip isAllowed
      refuse (.invalidCharacter c)
    | none => do
      set (rest.drop mark.length)
      return String.ofList text

/-- Reads up to two more quotes at the end of a string over several lines. -/
def readExtraQuotes (quote text : String) : Reader String := do
  if !(← accept quote) then return text
  else if !(← accept quote) then return text ++ quote
  else return text ++ quote ++ quote

/-- Reads a string of one line. -/
def readLine : Reader String := do
  if ← accept "'" then readLiteral "'" isText
  else
    advance 1
    readBasic false ((← get).length + 1) []

/-- Reads a string. -/
def readString : Reader String := do
  if ← accept "\"\"\"" then
    let _ ← accept "\n"
    let text ← readBasic true ((← get).length + 1) []
    readExtraQuotes "\"" text
  else if ← accept "'''" then
    let _ ← accept "\n"
    let text ← readLiteral "'''" isLongText
    readExtraQuotes "'" text
  else readLine

/-! ## Keys -/

/-- A dotted key: the tables it passes through, and the name at its end. -/
structure Key where
  parents : Path
  name : String
deriving DecidableEq, Repr

/-- The parts of a key. -/
def Key.path (key : Key) : Path := key.parents ++ [key.name]

/-- Reads one part of a key. -/
def readKeyPart : Reader String := do
  match ← peek with
  | some c =>
    if isBare c then do
      let name := (← get).takeWhile isBare
      skip isBare
      return String.ofList name
    else if c == '"' || c == '\'' then readLine
    else refuse .keyPart
  | none => refuse .keyPart

/-- Reads the rest of a dotted key after some parts, and the blanks after it. -/
def readKeyRest : (fuel : Nat) → (parents : Path) → (name : String) → Reader Key
  | 0, _, _ => refuse .keyPart
  | fuel + 1, parents, name => do
    skip isGap
    if ← accept "." then
      skip isGap
      let next ← readKeyPart
      readKeyRest fuel (parents ++ [name]) next
    else return ⟨parents, name⟩

/-- Reads a dotted key, and the blanks after it. -/
def readKey : Reader Key := do
  let name ← readKeyPart
  readKeyRest ((← get).length + 1) [] name

end DocFilter.Toml
