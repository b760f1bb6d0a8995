import DocFilter.Fault
import DocFilter.Json.Basic
import DocFilter.Number.Decimal
import DocFilter.Text.Quoted

/-!
# Writing JSON text

A value is written on one line or indented. `Style` holds the choices: the separators, the
indentation and whether characters beyond ASCII are escaped. Entries are written in their order.
`Style.forIndent` makes the choices for an indentation given as data. `text` is what a value is written as, and
`render` refuses one with a number that has too many digits to be written.
-/

namespace DocFilter.Json

/-- How a value is laid out; `indent` is what each level of nesting puts before a line. -/
structure Style where
  itemSeparator : String
  keySeparator : String
  indent : Option String
  ascii : Bool

namespace Style

/-- No white space at all. -/
def compact (ascii : Bool) : Style := ⟨",", ":", none, ascii⟩

/-- One line with a space after each separator. -/
def spaced (ascii : Bool) : Style := ⟨", ", ": ", none, ascii⟩

/-- A line for each item, indented by a text per level. -/
def indented (indent : String) (ascii : Bool) : Style := ⟨",", ": ", some indent, ascii⟩

/-- Spaces; a number that is no size at all is refused. -/
def spaces (n : Int) : Except Fault String :=
  if Nat.pow 2 63 ≤ n then .error .overflow else .ok (String.ofList (List.replicate n.toNat ' '))

/-- The layout for an indentation: compact without one, else a line for each item, indented by a number
of spaces or by a text. -/
def forIndent (indent : Json) (ascii : Bool) : Except Fault Style := match indent with
  | .null => .ok (compact ascii)
  | .bool b => .ok (indented (if b then " " else "") ascii)
  | .int n => (spaces n).map (indented · ascii)
  | .str s => .ok (indented s ascii)
  | _ => .error .type

end Style

/-- One code unit as a Unicode escape. -/
def unitEscape (unit : Nat) : List Char := '\\' :: 'u' :: Text.hexDigits 4 unit

/-- One character inside a string. -/
def stringChar (ascii : Bool) (c : Char) : List Char :=
  if c = '"' then ['\\', '"']
  else if c = '\\' then ['\\', '\\']
  else if c = '\n' then ['\\', 'n']
  else if c = '\r' then ['\\', 'r']
  else if c = '\t' then ['\\', 't']
  else if c = '\x08' then ['\\', 'b']
  else if c = '\x0c' then ['\\', 'f']
  else
    let n := c.toNat
    if n < 0x20 then unitEscape n
    else if ascii && 0x7f ≤ n then
      if n ≤ 0xffff then unitEscape n
      else unitEscape (0xd800 + (n - 0x10000) / 0x400) ++ unitEscape (0xdc00 + (n - 0x10000) % 0x400)
    else [c]

/-- A string between its quotes. -/
def stringText (ascii : Bool) (s : String) : List Char :=
  '"' :: s.toList.flatMap (stringChar ascii) ++ ['"']

/-- A fractional number; the names of the values that are not finite are those the reader accepts. -/
def floatText : Double → String
  | .nan => "NaN"
  | .infinite false => "Infinity"
  | .infinite true => "-Infinity"
  | d => d.text

/-- The line break before an item at a nesting depth. -/
def Style.newline (style : Style) (depth : Nat) : List Char := match style.indent with
  | none => []
  | some unit => '\n' :: (List.replicate depth unit.toList).flatten

mutual

/-- Writes a value at a nesting depth, before a text that is written already. -/
def write (style : Style) (depth : Nat) : Json → (after : List Char) → List Char
  | .null, after => "null".toList ++ after
  | .bool true, after => "true".toList ++ after
  | .bool false, after => "false".toList ++ after
  | .int n, after => (toString n).toList ++ after
  | .float d, after => (floatText d).toList ++ after
  | .str s, after => stringText style.ascii s ++ after
  | .arr [], after => '[' :: ']' :: after
  | .arr (item :: items), after =>
    '[' :: (style.newline (depth + 1) ++ write style (depth + 1) item
      (writeItems style (depth + 1) items (style.newline depth ++ ']' :: after)))
  | .obj [], after => '{' :: '}' :: after
  | .obj ((key, value) :: entries), after =>
    '{' :: (style.newline (depth + 1) ++ (stringText style.ascii key ++
      (style.keySeparator.toList ++ write style (depth + 1) value
        (writeEntries style (depth + 1) entries (style.newline depth ++ '}' :: after)))))

/-- Writes the items after the first one, before a text that is written already. -/
def writeItems (style : Style) (depth : Nat) : List Json → (after : List Char) → List Char
  | [], after => after
  | item :: items, after =>
    style.itemSeparator.toList ++ (style.newline depth ++
      write style depth item (writeItems style depth items after))

/-- Writes the entries after the first one, before a text that is written already. -/
def writeEntries (style : Style) (depth : Nat) :
    List (String × Json) → (after : List Char) → List Char
  | [], after => after
  | (key, value) :: entries, after =>
    style.itemSeparator.toList ++ (style.newline depth ++ (stringText style.ascii key ++
      (style.keySeparator.toList ++ write style depth value (writeEntries style depth entries after))))

end

/-- The text of a value. -/
def text (style : Style) (value : Json) : String := String.ofList (write style 0 value [])

/-- Writes a value. -/
def render (style : Style) (value : Json) : Except Fault String :=
  if value.holdsLong then .error (.value .longNumber) else .ok (value.text style)

/-- Writes a value without white space. -/
def compact (value : Json) : Except Fault String := render (.compact false) value

end DocFilter.Json
