import DocFilter.Number.Decimal

/-!
# JSON values

A JSON value keeps what its text shows: whole numbers and fractional numbers are different values, and
the entries of an object are ordered. `Entries` is such an ordered association of distinct keys, where
writing to a present key keeps its place and a new key goes last.
-/

namespace DocFilter

/-- Keyed values in the order in which the keys were first written. -/
abbrev Entries (α : Type) := List (String × α)

namespace Entries

variable {α β : Type}

/-- The value under a key. -/
def find? (key : String) (entries : Entries α) : Option α := entries.lookup key

/-- Whether a key is present. -/
def has (key : String) (entries : Entries α) : Bool := entries.any (·.1 == key)

/-- Writes a value: a present key keeps its place, a new one goes last. -/
def put (key : String) (value : α) : Entries α → Entries α
  | [] => [(key, value)]
  | (k, v) :: rest => if k == key then (k, value) :: rest else (k, v) :: put key value rest

/-- Removes a key. -/
def erase (key : String) (entries : Entries α) : Entries α := entries.filter (·.1 != key)

/-- The keys in order. -/
def keys (entries : Entries α) : List String := entries.map (·.1)

/-- Writes all entries of the second association over the first. -/
def update (entries new : Entries α) : Entries α :=
  new.foldl (fun acc entry => acc.put entry.1 entry.2) entries

/-- The association that a sequence of writes leaves behind. -/
def ofWrites (writes : List (String × α)) : Entries α := update [] writes

end Entries

/-- A JSON value. -/
inductive Json where
  | null
  | bool (b : Bool)
  | int (n : Int)
  | float (d : Double)
  | str (s : String)
  | arr (items : List Json)
  | obj (entries : List (String × Json))
deriving Inhabited, Repr

namespace Json

/-- The entry of an object under a key. -/
def get? (key : String) : Json → Option Json
  | .obj entries => Entries.find? key entries
  | _ => none

/-- The text of a string value. -/
def str? : Json → Option String
  | .str s => some s
  | _ => none

mutual

/-- Whether a value holds a whole number with too many digits to be written. -/
def holdsLong : Json → Bool
  | .int n => isLong n
  | .arr items => itemsHoldLong items
  | .obj entries => entriesHoldLong entries
  | _ => false

/-- Whether one of some items holds a number that is too long. -/
def itemsHoldLong : List Json → Bool
  | [] => false
  | item :: items => holdsLong item || itemsHoldLong items

/-- Whether one of some entries holds a number that is too long. -/
def entriesHoldLong : List (String × Json) → Bool
  | [] => false
  | (_, value) :: entries => holdsLong value || entriesHoldLong entries

end

/-- The name of the type of a value, as messages give it. -/
def typeName : Json → String
  | .null => "NoneType"
  | .bool _ => "bool"
  | .int _ => "int"
  | .float _ => "float"
  | .str _ => "str"
  | .arr _ => "list"
  | .obj _ => "dict"

end Json

end DocFilter
