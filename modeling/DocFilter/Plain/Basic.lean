import DocFilter.Fault
import DocFilter.Json.Shown
import DocFilter.Number.Decimal
import DocFilter.Plain.Date
import DocFilter.Plain.Slots

/-!
# Plain values

The values that configuration and metadata texts denote: what JSON has, and beside it bytes, dates,
sets, tuples, and maps whose keys may be any simple value. Where a list or a map holds itself, a mark
stands for it that says so; such a value has no end and cannot be written out. `Plain.text` gives a value
where a text is wanted, `Plain.shown` as messages show it.
-/

namespace DocFilter

/-- A plain value. -/
inductive Plain where
  | null
  | bool (b : Bool)
  | int (n : Int)
  | float (d : Double)
  | str (s : String)
  | bytes (bs : List UInt8)
  | date (d : Date)
  | time (t : Time)
  | moment (m : Moment)
  | list (items : List Plain)
  | set (items : List Plain)
  | tuple (items : List Plain)
  | map (entries : List (Plain × Plain))
  /-- A list, or a map, that this place lies in. -/
  | again (isMap : Bool)
deriving Inhabited, Repr

namespace Plain

mutual

/-- A JSON value as a plain one. -/
def ofJson : Json → Plain
  | .null => null
  | .bool b => bool b
  | .int n => int n
  | .float d => float d
  | .str s => str s
  | .arr items => list (ofJsonItems items)
  | .obj entries => map (ofJsonEntries entries)

/-- The items of an array as plain values. -/
def ofJsonItems : List Json → List Plain
  | [] => []
  | item :: items => ofJson item :: ofJsonItems items

/-- The entries of an object as plain values. -/
def ofJsonEntries : List (String × Json) → List (Plain × Plain)
  | [] => []
  | (key, value) :: entries => (str key, ofJson value) :: ofJsonEntries entries

end

/-- The name of the type of a value, as messages give it. -/
def typeName : Plain → String
  | null => "NoneType"
  | bool _ => "bool"
  | int _ => "int"
  | float _ => "float"
  | str _ => "str"
  | bytes _ => "bytes"
  | date _ => "date"
  | time _ => "time"
  | moment _ => "datetime"
  | list _ => "list"
  | set _ => "set"
  | tuple _ => "tuple"
  | map _ | again true => "dict"
  | again false => "list"

/-- The name of the type of a value with the part of the library that it comes from. -/
def fullTypeName : Plain → String
  | date d => "datetime." ++ (date d).typeName
  | time t => "datetime." ++ (time t).typeName
  | moment m => "datetime." ++ (moment m).typeName
  | value => value.typeName

/-- A simple value as JSON; none for the others. -/
def simple? : Plain → Option Json
  | null => some .null
  | bool b => some (.bool b)
  | int n => some (.int n)
  | float d => some (.float d)
  | str s => some (.str s)
  | _ => none

mutual

/-- Whether a value can be a key: containers cannot, and tuples can if their items can. -/
def isKey : Plain → Bool
  | list _ | set _ | map _ | again _ => false
  | tuple items => areKeys items
  | _ => true

/-- Whether values can all be keys. -/
def areKeys : List Plain → Bool
  | [] => true
  | item :: items => isKey item && areKeys items

end

/-- Whether a value is a fractional number that is no number. -/
def isNan : Plain → Bool
  | float .nan => true
  | _ => false

/-- Equality of keys: numbers compare by value, and what is not a number is one key. -/
def sameKey (a b : Plain) : Bool := match a.simple?, b.simple? with
  | some x, some y => x.same y
  | _, _ => match a, b with
    | bytes x, bytes y => x == y
    | date x, date y => x == y
    | time x, time y => x == y
    | moment x, moment y => x.same y
    | _, _ => false

/-- Writes an entry: an equal key keeps its place and its form, a new one goes last. -/
def put (key value : Plain) : List (Plain × Plain) → List (Plain × Plain)
  | [] => [(key, value)]
  | (k, v) :: rest => if k.sameKey key then (k, value) :: rest else (k, v) :: put key value rest

/-- The value under a text key. -/
def find? (key : String) (entries : List (Plain × Plain)) : Option Plain :=
  (entries.find? fun entry => match entry.1 with
    | str s => s == key
    | _ => false).map (·.2)

/-- The code of a number among the members of a set; other values have none. -/
def code? : Plain → Option Int
  | bool b => some (Slots.codeOfInt (if b then 1 else 0))
  | int n => some (Slots.codeOfInt n)
  | float d => Slots.codeOfDouble? d
  | _ => none

/-- A set of some members. Numbers are listed in the order of their slots, other members as they are given. -/
def ofMembers (members : List Plain) : Plain :=
  match members.mapM fun member => (code? member).map (·, member) with
  | some coded => set (Slots.order coded)
  | none => set members

/-- One byte between the given quotes. -/
def shownByte (quote : Char) (b : UInt8) : List Char :=
  let c := Char.ofNat b.toNat
  if c.toNat < 0x7f then Text.quotedChar quote c else '\\' :: 'x' :: Text.hexDigits 2 b.toNat

/-- Bytes as messages show them. -/
def shownBytes (bs : List UInt8) : List Char :=
  let quote := Text.quoteFor (bs.map fun b => Char.ofNat b.toNat)
  'b' :: quote :: bs.flatMap (shownByte quote) ++ [quote]

/-- The fields of a date. -/
def dateFields (d : Date) : List String := [toString d.year, toString d.month, toString d.day]

/-- The fields of a time; zero seconds and microseconds are left out at the end. -/
def timeFields (t : Time) : List String :=
  [toString t.hour, toString t.minute] ++
    (if t.microsecond != 0 then [toString t.second, toString t.microsecond]
     else if t.second != 0 then [toString t.second] else [])

/-- An offset from universal time as messages show it. -/
def shownOffset (minutes : Int) : String :=
  if minutes == 0 then "datetime.timezone.utc"
  else shownCall "datetime.timezone" [shownSpan minutes]

/-- A date or time as messages show it. -/
def shownDate : Plain → String
  | date d => shownCall "datetime.date" (dateFields d)
  | time t => shownCall "datetime.time" (timeFields t)
  | moment m =>
    let zone := match m.offset with
      | some minutes => ["tzinfo=" ++ shownOffset minutes]
      | none => []
    shownCall "datetime.datetime" (dateFields m.date ++ timeFields m.time ++ zone)
  | _ => ""

mutual

/-- A value as messages show it. -/
def shownChars : Plain → List Char
  | null => "None".toList
  | bool b => (Json.bool b).shownChars
  | int n => (toString n).toList
  | float d => d.text.toList
  | str s => (Text.quoted s).toList
  | bytes bs => shownBytes bs
  | date d => (shownDate (.date d)).toList
  | time t => (shownDate (.time t)).toList
  | moment m => (shownDate (.moment m)).toList
  | list items => '[' :: shownItems items ++ [']']
  | set [] => "set()".toList
  | set (item :: items) => '{' :: shownItems (item :: items) ++ ['}']
  | tuple [item] => '(' :: shownChars item ++ [',', ')']
  | tuple items => '(' :: shownItems items ++ [')']
  | map entries => '{' :: shownEntries entries ++ ['}']
  | again isMap => (if isMap then "\x7b...\x7d" else "[...]").toList

/-- Values separated by commas. -/
def shownItems : List Plain → List Char
  | [] => []
  | [item] => shownChars item
  | item :: items => shownChars item ++ [',', ' '] ++ shownItems items

/-- Entries separated by commas. -/
def shownEntries : List (Plain × Plain) → List Char
  | [] => []
  | [(key, value)] => shownChars key ++ [':', ' '] ++ shownChars value
  | (key, value) :: entries =>
    shownChars key ++ [':', ' '] ++ shownChars value ++ [',', ' '] ++ shownEntries entries

end

/-- A value as messages show it. -/
def shown (value : Plain) : String := String.ofList value.shownChars

/-- A value where a text is wanted: a text is itself, dates are written out, others are shown. -/
def text : Plain → String
  | str s => s
  | date d => d.text
  | time t => t.text
  | moment m => m.text " "
  | value => value.shown

/-- Whether a value counts as nothing. -/
def isUnset : Plain → Bool
  | null | bool false => true
  | int n => n == 0
  | float d => d.isZero
  | str s => s.isEmpty
  | bytes bs => bs.isEmpty
  | list items | set items | tuple items => items.isEmpty
  | map entries => entries.isEmpty
  | _ => false

/-- The digits of a whole number, which must not be too many. -/
def numeral (n : Int) : Except Fault String :=
  if isLong n then .error (.value .longNumber) else .ok (toString n)

/-- The text of a map key in JSON, which does not know all keys. -/
def jsonKey : Plain → Except Fault String
  | str s => .ok s
  | null => .ok "null"
  | bool b => .ok (if b then "true" else "false")
  | int n => numeral n
  | float d => .ok (match d with
    | .nan => "NaN"
    | .infinite false => "Infinity"
    | .infinite true => "-Infinity"
    | d => d.text)
  | _ => .error .type

mutual

/-- A value as JSON that can be written, unless it holds something that JSON does not know. -/
def toJson : Plain → Except Fault Json
  | list items | tuple items => (itemsToJson items).map .arr
  | map entries => (entriesToJson entries).map .obj
  | again _ => .error (.value .circular)
  | int n => (numeral n).map fun _ => .int n
  | value => match value.simple? with
    | some json => .ok json
    | none => .error .type

/-- The items of a list as JSON. -/
def itemsToJson : List Plain → Except Fault (List Json)
  | [] => .ok []
  | item :: items => do
    let item ← toJson item
    let items ← itemsToJson items
    .ok (item :: items)

/-- The entries of a map as JSON. -/
def entriesToJson : List (Plain × Plain) → Except Fault (List (String × Json))
  | [] => .ok []
  | (key, value) :: entries => do
    let key ← jsonKey key
    let value ← toJson value
    let entries ← entriesToJson entries
    .ok ((key, value) :: entries)

end

mutual

/-- What keeps a value from being written out, in the order of its parts: numbers that are too long, and
places that it has no end in. -/
def obstacles : Plain → List Fault
  | int n => if isLong n then [.value .longNumber] else []
  | list items | set items | tuple items => itemObstacles items
  | map entries => entryObstacles entries
  | again _ => [.endless]
  | _ => []

/-- What keeps values from being written out. -/
def itemObstacles : List Plain → List Fault
  | [] => []
  | item :: items => obstacles item ++ itemObstacles items

/-- What keeps entries from being written out. -/
def entryObstacles : List (Plain × Plain) → List Fault
  | [] => []
  | (key, value) :: entries => obstacles key ++ obstacles value ++ entryObstacles entries

end

/-- Whether a value holds a number that is too long to be shown. -/
def holdsLong (value : Plain) : Bool := value.obstacles.contains (.value .longNumber)

end Plain

end DocFilter
