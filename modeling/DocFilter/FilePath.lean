import DocFilter.Text.Blank
import DocFilter.Text.Case

/-!
# File paths

A path is a root, which is empty for a relative path, and the names below it. Empty names and single
dots do not count; two dots are kept, since the name before them may be a link, until a path is
resolved.
-/

namespace DocFilter

/-- A path. -/
structure FilePath where
  root : String := ""
  names : List String := []
deriving DecidableEq, Repr, Inhabited

namespace FilePath

/-- The root that a number of slashes at the start means: just two of them are a root of their own. -/
def rootOf : Nat → String
  | 0 => ""
  | 2 => "//"
  | _ => "/"

/-- The path that a text denotes. -/
def ofText (text : String) : FilePath :=
  let cs := text.toList
  let names := (Text.splitAt '/' cs).map String.ofList
  ⟨rootOf (cs.takeWhile (· == '/')).length, names.filter fun name => name != "" && name != "."⟩

/-- The text of a path; the empty path is a dot. -/
def text (p : FilePath) : String :=
  if p.root.isEmpty && p.names.isEmpty then "." else p.root ++ String.intercalate "/" p.names

/-- Whether a path starts at a root. -/
def isAbsolute (p : FilePath) : Bool := !p.root.isEmpty

/-- A path as seen from a directory. -/
def under (directory p : FilePath) : FilePath :=
  if p.isAbsolute then p else ⟨directory.root, directory.names ++ p.names⟩

/-- A path with a name added. -/
def child (p : FilePath) (name : String) : FilePath := { p with names := p.names ++ [name] }

/-- A path without pairs of dots: each takes away the name before it. -/
def resolved (p : FilePath) : FilePath :=
  { p with names := p.names.foldl (fun names name =>
      if name == ".." then names.dropLast else names ++ [name]) [] }

/-- The last name of a path. -/
def name (p : FilePath) : String := p.names.getLast?.getD ""

/-- The end of the last name from its last dot on; a dot that opens or ends the name does not count. -/
def extension (p : FilePath) : String :=
  let cs := p.name.toList
  let tail := (cs.reverse.takeWhile (· != '.')).length
  if tail == 0 || cs.length ≤ tail + 1 then "" else String.ofList (cs.drop (cs.length - tail - 1))

/-- A path and the directories that hold it, the nearest first. -/
def ancestors (p : FilePath) : List FilePath :=
  (List.range (p.names.length + 1)).reverse.map fun count => { p with names := p.names.take count }

end FilePath

end DocFilter
