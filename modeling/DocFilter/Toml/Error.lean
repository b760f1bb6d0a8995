import DocFilter.Fault
import DocFilter.Text.Quoted

/-!
# Refusals of TOML text

Why a text is not TOML, and where. While a text is read a place is the list of characters still to come;
`Refusal.place` turns it into a line and a column.
-/

namespace DocFilter.Toml

/-- The parts of a dotted key. -/
abbrev Path := List String

/-- Why a text is not TOML. -/
inductive Reason where
  | statement
  | lineEnd
  | keyPart
  | equalsSign
  | value
  | date
  | array
  | inlineTable
  | tableEnd
  | arrayTableEnd
  | unterminated
  | escape
  | hexDigits
  | codePoint
  /-- A closing mark is missing. -/
  | missing (mark : String)
  /-- A control character in a comment or a literal text. -/
  | invalidCharacter (c : Char)
  /-- A control character in a text with escapes. -/
  | illegalCharacter (c : Char)
  | declaredTwice (path : Path)
  | redefined (path : Path)
  | immutable (path : Path)
  | duplicateKey (name : String)
  | overwritten
deriving DecidableEq, Repr

/-- A path as messages show it. -/
def shownPath : Path → String
  | [name] => "(" ++ Text.quoted name ++ ",)"
  | path => "(" ++ String.intercalate ", " (path.map Text.quoted) ++ ")"

/-- The wording of a reason. -/
def Reason.text : Reason → String
  | statement => "Invalid statement"
  | lineEnd => "Expected newline or end of document after a statement"
  | keyPart => "Invalid initial character for a key part"
  | equalsSign => "Expected '=' after a key in a key/value pair"
  | value => "Invalid value"
  | date => "Invalid date or datetime"
  | array => "Unclosed array"
  | inlineTable => "Unclosed inline table"
  | tableEnd => "Expected ']' at the end of a table declaration"
  | arrayTableEnd => "Expected ']]' at the end of an array declaration"
  | unterminated => "Unterminated string"
  | escape => "Unescaped '\\' in a string"
  | hexDigits => "Invalid hex value"
  | codePoint => "Escaped character is not a Unicode scalar value"
  | missing mark => "Expected " ++ Text.quoted mark
  | invalidCharacter c => "Found invalid character " ++ Text.quoted c.toString
  | illegalCharacter c => "Illegal character " ++ Text.quoted c.toString
  | declaredTwice path => "Cannot declare " ++ shownPath path ++ " twice"
  | redefined path => "Cannot redefine namespace " ++ shownPath path
  | immutable path => "Cannot mutate immutable namespace " ++ shownPath path
  | duplicateKey name => "Duplicate inline table key " ++ Text.quoted name
  | overwritten => "Cannot overwrite a value"

/-- A refusal: the reason and the text that remained at the place it is about. -/
structure Refusal where
  reason : Reason
  remaining : List Char
deriving Repr

/-- A reason with its line and column, both counted from one; at the end of the text there are none. -/
structure Error where
  reason : Reason
  place : Option (Nat × Nat)
deriving DecidableEq, Repr

/-- A refusal with its place in the whole text. -/
def Refusal.place (cs : List Char) (refusal : Refusal) : Error :=
  let before := cs.take (cs.length - refusal.remaining.length)
  let column := (before.reverse.takeWhile (· != '\n')).length + 1
  ⟨refusal.reason,
    if refusal.remaining.isEmpty then none else some (before.count '\n' + 1, column)⟩

/-- The wording of an error. -/
def Error.message (e : Error) : String :=
  let place := match e.place with
    | some (line, column) => s!"line {line}, column {column}"
    | none => "end of document"
  s!"{e.reason.text} (at {place})"

end DocFilter.Toml
