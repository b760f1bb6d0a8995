import DocFilter.Toml.Value

/-!
# TOML documents

A document is read statement by statement, each on a line of its own: a header of a table, a header of
a further table in a list, or a key with a value, which goes into the table of the last header.
-/

namespace DocFilter.Toml

/-- A document so far, and the table that keys go into. -/
structure Progress where
  draft : Draft := {}
  header : Path := []
deriving Inhabited

/-- Reads a header: two brackets for a further table in a list, one for a table. -/
def readHeader (p : Progress) : Reader Progress := do
  let draft := p.draft.settle
  if ← accept "[[" then
    skip isGap
    let key ← readKey
    let draft ← require (draft.declareItem key)
    if ← accept "]]" then return ⟨draft, key.path⟩ else refuse .arrayTableEnd
  else
    advance 1
    skip isGap
    let key ← readKey
    let draft ← require (draft.declare key)
    if ← accept "]" then return ⟨draft, key.path⟩ else refuse .tableEnd

/-- Reads a key with its value. -/
def readEntry (p : Progress) : Reader Progress := do
  let key ← readKey
  readEquals
  let value ← readValue (2 * (← get).length + 2)
  let draft ← require (p.draft.assign p.header key value)
  return { p with draft := draft }

/-- Reads the statement of a line, which may be none. -/
def readStatement (p : Progress) : Reader Progress := do
  skip isGap
  match ← peek with
  | none | some '\n' | some '#' => return p
  | some c =>
    if isBare c || c == '"' || c == '\'' then readEntry p
    else if c == '[' then readHeader p
    else refuse .statement

/-- Reads the lines of a document. -/
def readLines : (fuel : Nat) → Progress → Reader Table
  | 0, _ => refuse .statement
  | fuel + 1, p => do
    let p ← readStatement p
    skip isGap
    skipComment
    match ← peek with
    | none => return p.draft.entries
    | some '\n' => do
      advance 1
      readLines fuel p
    | some _ => refuse .lineEnd

/-- A text with line feeds for pairs of carriage return and line feed. -/
def withLineFeeds : List Char → List Char
  | '\r' :: '\n' :: rest => '\n' :: withLineFeeds rest
  | c :: rest => c :: withLineFeeds rest
  | [] => []

/-- Reads a document. -/
def read (text : String) : Except (ReadError Error) Table :=
  let cs := withLineFeeds text.toList
  match (readLines (cs.length + 1) {}).run cs with
  | .ok (table, _) => .ok table
  | .error refusal => .error (refusal.map (·.place cs))

end DocFilter.Toml
