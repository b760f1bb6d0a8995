import DocFilter.Number.Double

/-!
# Slots

How a set of numbers is laid out, and so in which order it lists them. The set has a table of slots, as many
as a power of two, and lists its members from the first slot to the last. A number has a code that follows
from its value, so that equal numbers have one code. It goes to the slot that its code names, or to a free
one close behind, or where the code leads from there.

* `Slots.codeOfInt` and `Slots.codeOfDouble?` are the codes;
* `Slots.seek` finds the slot of a new member;
* `Slots.order` lists members in the order of their slots.
-/

namespace DocFilter.Slots

/-! ## Codes -/

/-- The prime that codes are taken modulo, the power of two with exponent 61 less one. -/
def modulus : Nat := 2305843009213693951

/-- A residue as a code: minus one is none, so minus two stands for it. -/
def ofResidue (residue : Int) : Int := if residue = -1 then -2 else residue

/-- The code of a whole number: what division by the prime leaves of it, with its sign. -/
def codeOfInt (n : Int) : Int := ofResidue (n.tmod modulus)

/-- The code of a fractional number, which agrees with that of an equal whole number: modulo the prime, two
to the exponent depends only on the exponent modulo 61. What is no number has none. -/
def codeOfDouble? : Double → Option Int
  | .nan => none
  | .infinite negative => some (if negative then -314159 else 314159)
  | .finite negative mantissa exponent =>
    let residue : Nat := mantissa * Nat.pow 2 (exponent % 61).toNat % modulus
    some (ofResidue (if negative then -residue else residue))

/-! ## Tables -/

/-- How many slots there are for some members. -/
def tableSize (count : Nat) : Nat := if count < 5 then 8 else Nat.pow 2 ((2 * count).log2 + 1)

/-- A code as an unsigned word of 64 bits. -/
def wordOf (code : Int) : Nat := (code % 18446744073709551616).toNat

/-- How many slots are tried in a row before the search goes elsewhere. -/
def rowLength : Nat := 10

/-- The first free slot from a place on. A whole row of slots is tried if it fits into the table, else only
the first of it; then the search goes on where the place and the upper bits of the word lead. -/
def seek {α : Type} (table : Array (Option α)) : (fuel place word : Nat) → Nat
  | 0, place, _ => place
  | fuel + 1, place, word =>
    let row := if place + rowLength ≤ table.size then rowLength else 1
    match (List.range row).find? fun k => (table[place + k]?.getD none).isNone with
    | some k => place + k
    | none =>
      let word := word / 32
      seek table fuel ((5 * place + 1 + word) % table.size) word

/-- Puts a member with a code into a table. Once all bits of the word are used up, which takes thirteen steps,
the search comes to every slot. -/
def insert {α : Type} (table : Array (Option α)) (code : Int) (member : α) : Array (Option α) :=
  let word := wordOf code
  table.setIfInBounds (seek table (table.size + 14) (word % table.size) word) (some member)

/-- Members with their codes in the order of their slots. -/
def order {α : Type} (members : List (Int × α)) : List α :=
  let empty : Array (Option α) := Array.replicate (tableSize members.length) none
  (members.foldl (fun table entry => insert table entry.1 entry.2) empty).toList.filterMap id

end DocFilter.Slots
