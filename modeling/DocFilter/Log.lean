import DocFilter.Text.Blank

/-!
# Log records

What a run reports while it goes on. A record has a level, the part of the program that it comes from and
a message; a log shows the records from some level on, in a short or a full format.
-/

namespace DocFilter.Log

/-- How much a record matters, the least first. -/
inductive Level where
  | debug
  | info
  | warning
  | error
  | critical
deriving DecidableEq, Repr, Inhabited

namespace Level

/-- The levels. -/
def all : List Level := [debug, info, warning, error, critical]

/-- The name of a level. -/
def name : Level → String
  | debug => "DEBUG"
  | info => "INFO"
  | warning => "WARNING"
  | error => "ERROR"
  | critical => "CRITICAL"

/-- The level with a name. -/
def ofName? (name : String) : Option Level := all.find? (·.name == name)

/-- The place of a level in the order. -/
def rank : Level → Nat
  | debug => 0
  | info => 1
  | warning => 2
  | error => 3
  | critical => 4

/-- Whether records of a level are shown from a threshold on. -/
def reaches (level threshold : Level) : Bool := threshold.rank ≤ level.rank

end Level

/-- Something reported. -/
structure Record where
  level : Level
  source : String
  message : String
deriving DecidableEq, Repr, Inhabited

/-- How records are written. -/
inductive Format where
  /-- With the name of the program. -/
  | short
  /-- With the part of the program that reports. -/
  | full
deriving DecidableEq, Repr, Inhabited

/-- A record as a line. -/
def Record.line (format : Format) (r : Record) : String := match format with
  | .short => s!"panfilter {r.level.name}: {r.message}"
  | .full => s!"[{r.level.name}] [{r.source}] {r.message}"

/-- The lines of the records that reach a threshold. -/
def lines (format : Format) (threshold : Level) (records : List Record) : List String :=
  (records.filter fun r => r.level.reaches threshold).map (·.line format)

/-! ## Lines -/

/-- Whether a line of a log opens like a record that matters more than the least. -/
def opensRecord (line : List Char) : Bool :=
  (Level.all.filter (·.reaches .info)).any fun level =>
    (Record.line .short ⟨level, "", ""⟩).toList.isPrefixOf line

/-- The lines of a log that open records, given its texts. In the full format a text has but one, at its
start, since the other lines lack the time. -/
def headings (format : Format) (texts : List String) : List String :=
  texts.flatMap fun text => match format with
    | .short => ((Text.splitAt '\n' text.toList).filter opensRecord).map String.ofList
    | .full => ((Text.splitAt '\n' text.toList).take 1).map String.ofList

/-- The texts of a log file, given what it held before and what a run adds to it; none if there is no
file. In the full format a text that was not ended takes in the first that is added. A file is read with
line feeds for all line ends. -/
def contents (format : Format) (old : Option String) (new : Option (List String)) :
    Option (List String) :=
  let read (text : String) : String := String.ofList (Text.withLineFeeds text.toList)
  match old.map read, new.map (·.map read) with
  | none, new => new
  | some old, new =>
    let new := new.getD []
    some (match format with
      | .short => [old ++ String.join (new.map (· ++ "\n"))]
      | .full => if old.isEmpty || old.endsWith "\n" then new else new.drop 1)

end DocFilter.Log
