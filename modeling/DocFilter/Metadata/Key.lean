import DocFilter.Json.Print
import DocFilter.Json.Shown

/-!
# Keys of metadata under edit

The entries of a metadata map are kept under texts, which paths lead to. An edit of a map itself may also
use a constant or a number as a key: numbers that are equal are one key, the constants counting as one
and zero, and a number is never the same as its text. `Keyed` is the association of such keys with
values, in the order in which they were first written.
-/

namespace DocFilter

/-- The key of an entry. -/
inductive MetaKey where
  | text (s : String)
  /-- A constant or a number. -/
  | simple (v : Json)
deriving Inhabited, Repr

namespace MetaKey

/-- The key that a value is; lists and objects are none. -/
def ofJson? : Json → Option MetaKey
  | .str s => some (text s)
  | .arr _ | .obj _ => none
  | v => some (simple v)

/-- A key as a value. -/
def toJson : MetaKey → Json
  | text s => .str s
  | simple v => v

/-- Whether two keys are one. -/
def same : MetaKey → MetaKey → Bool
  | text s, text t => s == t
  | simple v, simple w => v.same w
  | _, _ => false

/-- The name that an entry is written under. -/
def written : MetaKey → String
  | text s => s
  | simple v => v.text (.compact false)

end MetaKey

/-- Values under keys in the order in which the keys were first written. -/
abbrev Keyed (α : Type) := List (MetaKey × α)

namespace Keyed

variable {α : Type}

/-- The value under a key. -/
def find? (key : MetaKey) (entries : Keyed α) : Option α :=
  (List.find? (·.1.same key) entries).map (·.2)

/-- Writes a value: a present key keeps its place and its form, a new one goes last. -/
def put (key : MetaKey) (value : α) : Keyed α → Keyed α
  | [] => [(key, value)]
  | (k, v) :: rest => if k.same key then (k, value) :: rest else (k, v) :: put key value rest

/-- Removes a key. -/
def erase (key : MetaKey) (entries : Keyed α) : Keyed α := List.filter (!·.1.same key) entries

/-- Writes all entries of the second association over the first. -/
def update (entries new : Keyed α) : Keyed α :=
  List.foldl (fun acc entry => put entry.1 entry.2 acc) entries new

end Keyed

end DocFilter
