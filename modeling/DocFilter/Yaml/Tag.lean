import DocFilter.Text.Blank
import DocFilter.Yaml.Timestamp

/-!
# YAML tags

The tag of a YAML node says what kind of value it denotes. A plain scalar that has none gets the first
tag whose notation it follows; `Tag.ofPlain` lists the notations. Numbers may hold underscores and be
written in base sixty, their places separated by colons.
-/

namespace DocFilter.Yaml

/-- What a node denotes. -/
inductive Tag where
  | null
  | bool
  | int
  | float
  | binary
  | timestamp
  | str
  | seq
  | map
  | set
  | omap
  | pairs
  /-- The key that takes over the entries of other maps. -/
  | merge
  /-- The key that holds the text of a map. -/
  | value
  /-- A full name that no reader knows. -/
  | unknown (name : String)
deriving DecidableEq, Repr, Inhabited

namespace Tag

/-- Where the names of the tags begin. -/
def space : String := "tag:yaml.org,2002:"

/-- The tags by the ends of their names. -/
def known : List (String × Tag) :=
  [("null", null), ("bool", bool), ("int", int), ("float", float), ("binary", binary),
   ("timestamp", timestamp), ("str", str), ("seq", seq), ("map", map), ("set", set), ("omap", omap),
   ("pairs", pairs), ("merge", merge), ("value", value)]

/-- The tag with a full name. -/
def ofName (name : String) : Tag :=
  ((known.find? fun entry => space ++ entry.1 == name).map (·.2)).getD (unknown name)

/-- The full name of a tag. -/
def name : Tag → String
  | unknown name => name
  | tag => space ++ ((known.find? fun entry => entry.2 == tag).map (·.1)).getD ""

/-! ## Notations -/

/-- Whether a character is a decimal digit or an underscore. -/
def isPlace (c : Char) : Bool := isDigit c || c == '_'

/-- A text without its sign. -/
def unsigned : List Char → List Char
  | '+' :: cs | '-' :: cs => cs
  | cs => cs

/-- Whether a text is one of some words in lower case, in upper case or with a capital. -/
def isWord (words : List String) (cs : List Char) : Bool :=
  let s := String.ofList cs
  words.any fun w => s == w || s == w.capitalize || s == w.toUpper

/-- Whether a text is a truth value. -/
def isBool (cs : List Char) : Bool := isWord ["yes", "no", "true", "false", "on", "off"] cs

/-- Whether a text is a name of nothing. -/
def isNull (cs : List Char) : Bool := cs == ['~'] || isWord ["null"] cs

/-- Whether a text is a place of a base-sixty number after the first. -/
def isSixtieth : List Char → Bool
  | [c] => isDigit c
  | [a, c] => '0' ≤ a && a ≤ '5' && isDigit c
  | _ => false

/-- Whether a text is a base-sixty number of at least two places; `opening` tests the first digit. -/
def isSexagesimal (opening : Char → Bool) (cs : List Char) : Bool :=
  match Text.splitAt ':' cs with
  | (c :: first) :: place :: places =>
    opening c && first.all isPlace && (place :: places).all isSixtieth
  | _ => false

/-- Whether a text is a whole number: binary, octal, decimal, hexadecimal or in base sixty. -/
def isInt (cs : List Char) : Bool :=
  let cs := unsigned cs
  let positive (c : Char) : Bool := isDigit c && c != '0'
  (match cs with
    | '0' :: 'b' :: digits => !digits.isEmpty && digits.all fun c => c == '0' || c == '1' || c == '_'
    | '0' :: 'x' :: digits => !digits.isEmpty && digits.all fun c =>
        isPlace c || ('a' ≤ c && c ≤ 'f') || ('A' ≤ c && c ≤ 'F')
    | '0' :: digits => digits.all fun c => ('0' ≤ c && c ≤ '7') || c == '_'
    | c :: digits => positive c && digits.all isPlace
    | [] => false) || isSexagesimal positive cs

/-- Whether a text is nothing or an exponent, which has a sign. -/
def isExponent : List Char → Bool
  | [] => true
  | e :: s :: digits =>
    (e == 'e' || e == 'E') && (s == '+' || s == '-') && !digits.isEmpty && digits.all isDigit
  | _ => false

/-- Whether a text is a decimal number with a point; its whole part may only be missing if it has no
sign. -/
def isDecimal (cs : List Char) : Bool :=
  let opens (cs : List Char) : Bool := cs.head?.any isDigit
  match (unsigned cs).span isPlace with
  | (whole, '.' :: rest) =>
    (opens whole || (whole.isEmpty && cs.head? == some '.' && opens rest)) &&
      isExponent (rest.dropWhile isPlace)
  | _ => false

/-- Whether a text is a base-sixty number with a point. -/
def isSexagesimalDecimal (cs : List Char) : Bool :=
  match (unsigned cs).span (· != '.') with
  | (whole, '.' :: rest) => isSexagesimal isDigit whole && rest.all isPlace
  | _ => false

/-- Whether a text is a fractional number: decimal, in base sixty, infinite or no number. -/
def isFloat (cs : List Char) : Bool :=
  isDecimal cs || isSexagesimalDecimal cs ||
    (match unsigned cs with
      | '.' :: rest => isWord ["inf"] rest
      | _ => false) ||
    cs == ".nan".toList || cs == ".NaN".toList || cs == ".NAN".toList

/-- The tag of a plain scalar. A line break at its end does not count, unless it is all of it. The marks
that open properties of a node or an alias have a tag that no reader knows. -/
def ofPlain (text : String) : Tag :=
  let cs := text.toList
  let cs := if cs.getLast? == some '\n' then cs.dropLast else cs
  if text.isEmpty then null
  else if isBool cs then bool
  else if isFloat cs then float
  else if isInt cs then int
  else if cs == "<<".toList then merge
  else if isNull cs then null
  else if (Timestamp.ofText? cs).any (·.isPlain) then timestamp
  else if cs == ['='] then value
  else if cs == ['!'] || cs == ['&'] || cs == ['*'] then unknown (space ++ "yaml")
  else str

end Tag

end DocFilter.Yaml
