import DocFilter.Toml.Simple
import DocFilter.Toml.Table

/-!
# TOML values

Strings, simple values, and the two containers that hold others: arrays, which may run over lines and
hold comments, and inline tables, which stand on one line and are finished where they close.
-/

namespace DocFilter.Toml

/-- A check that refuses the text at the present place. -/
def require {α : Type} : Except Reason α → Reader α
  | .ok value => pure value
  | .error reason => refuse reason

/-- Reads the sign between a key and its value. -/
def readEquals : Reader Unit := do
  if !(← accept "=") then refuse .equalsSign
  skip isGap

mutual

/-- Reads a value. -/
def readValue : (fuel : Nat) → Reader Plain
  | 0 => refuse .value
  | fuel + 1 => do
    match ← peek with
    | some '"' | some '\'' => do
      let text ← readString
      return .str text
    | some '[' => do
      advance 1
      skipLayout
      if ← accept "]" then return .list []
      else
        let items ← readItems fuel
        return .list items
    | some '{' => do
      advance 1
      skip isGap
      if ← accept "\x7d" then return .map []
      else
        let table ← readMembers fuel {}
        return .map table
    | _ => readSimple

/-- Reads the items of an array up to its end; a comma may stand after the last one. -/
def readItems : (fuel : Nat) → Reader (List Plain)
  | 0 => refuse .array
  | fuel + 1 => do
    let item ← readValue fuel
    skipLayout
    if ← accept "]" then return [item]
    else if ← accept "," then
      skipLayout
      if ← accept "]" then return [item]
      else
        let items ← readItems fuel
        return item :: items
    else refuse .array

/-- Reads the entries of an inline table up to its end. -/
def readMembers : (fuel : Nat) → InlineDraft → Reader Table
  | 0, _ => refuse .inlineTable
  | fuel + 1, draft => do
    let key ← readKey
    readEquals
    let value ← readValue fuel
    let draft ← require (draft.assign key value)
    skip isGap
    if ← accept "\x7d" then return draft.entries
    else if ← accept "," then
      skip isGap
      readMembers fuel draft
    else refuse .inlineTable

end

end DocFilter.Toml
