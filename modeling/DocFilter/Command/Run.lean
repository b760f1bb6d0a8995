import DocFilter.Command.Line
import DocFilter.Config.Load
import DocFilter.Filter.Run

/-!
# Running a filter from the command line

A run reads its options, filters the document that it is given and writes the result. Options come from
a configuration first and from the command line after it. A run either ends well and has the whole
output, or it has no output; what went wrong then stands in its log, unless it is a failure that the
library does not report as such.
-/

namespace DocFilter.Command

/-- How a run reports. -/
structure Logging where
  level : Log.Level
  format : Log.Format
  /-- A file that the reports go to as well. -/
  file : Option FilePath
  /-- The name of that file as it was given. -/
  fileName : String
deriving Inhabited

/-- What comes of a run. -/
structure Report where
  /-- The exit status; a failure that is not reported has none. -/
  ending : Except Failure Nat
  output : String := ""
  /-- How the run reports; nothing is reported before that is settled. -/
  logging : Option Logging := none
  records : List Log.Record := []
deriving Inhabited

namespace Report

/-- That the log file cannot be opened. -/
def fileRecord (logging : Logging) (e : OpenError) : Log.Record :=
  let detail := e.text (logging.file.getD {})
  ⟨.warning, "root", s!"Could not open log file {logging.fileName}: {detail}"⟩

/-- The lines of the log, given why the log file could not be opened if it could not. -/
def lines (report : Report) (fileError : Option OpenError) : List String :=
  match report.logging with
  | none => []
  | some logging =>
    let first := (fileError.map (fileRecord logging)).toList
    Log.lines logging.format logging.level (first ++ report.records)

end Report

/-- The part of the program that reports here. -/
def source : String := "panfilter.cli"

/-- The report of a failure. -/
def errorRecord (message : String) : Log.Record := ⟨.error, source, "Error: " ++ message⟩

/-- The report of an early end. -/
def haltRecord : Log.Record := ⟨.info, source, "Filter stopped early"⟩

/-- How a run with some arguments reports at a level. -/
def Arguments.logging (args : Arguments) (host : Host) (level : Log.Level) (format : Log.Format) :
    Logging :=
  match args.logFile with
  | .str name =>
    ⟨level, format,
      if name.isEmpty then none else some (host.directory.under (.ofText name)).resolved, name⟩
  | _ => ⟨level, format, none, ""⟩

/-- Why logging cannot be settled: the name of the log file holds a null character. -/
def Arguments.logFault? (args : Arguments) : Option Fault := match args.logFile with
  | .str name => if name.contains '\x00' then some (.value .nullCharacter) else none
  | _ => none

/-- The options that the command line sets. -/
def Arguments.updates (args : Arguments) : List (String × Plain) :=
  [("output_schema", args.schema), ("json_indent", args.indent), ("log_level", args.logLevel)].filter
    fun entry => match entry.2 with
      | .null => false
      | _ => true

/-! ## Options -/

/-- Why there are no options: a message, or a value that does not fit at all. -/
abbrev Refusal := Except Fault String

/-- What a refused configuration comes to; a value that denotes nothing has words of its own. -/
def ofConfigError : ConfigError → Refusal
  | .fault (.value reason) => .ok reason.message
  | .fault f => .error f
  | e => .ok e.message

/-- What refused options come to. -/
def ofOptionsError (e : OptionsError) : Refusal := match e, e.message? with
  | .unfit reason, _ => .ok reason.message
  | _, some message => .ok message
  | _, none => .error .type

/-- The options in force. -/
def Arguments.options (args : Arguments) (host : Host) : Except Refusal Options := do
  let asked ← match args.config with
    | .null => .ok none
    | .str path => .ok (some path)
    | _ => .error (.error .type)
  let options ← (Config.options host asked {}).1.mapError ofConfigError
  (options.update args.updates).mapError ofOptionsError

/-! ## Runs -/

variable {σ : Type}

/-- Filters a text with given options; the reports made on the way come along. -/
def filterText (rules : List (Rule σ)) (shared : σ) (options : Options) (fuel : Nat)
    (format input : String) : Except Failure (Outcome × String) × List Log.Record :=
  match Document.parse input with
  | .error e => (.error (.codec e), [])
  | .ok d =>
    let filter : Filter σ := ⟨rules, options⟩
    let (result, context) := ((filter.transform fuel).run (Filter.begin d format shared)).run
    (result, context.log)

/-- Filters a text as the arguments ask. -/
def runWith (rules : List (Rule σ)) (shared : σ) (host : Host) (fuel : Nat) (args : Arguments)
    (input : String) : Report :=
  match args.options host, args.logFault? with
  | .error (.error fault), _ | _, some fault => { ending := .error (.fault fault) }
  | .error (.ok message), none =>
    let level := match args.logLevel with
      | .str name => (Log.Level.ofName? name).getD .warning
      | _ => .warning
    { ending := .ok 1
      logging := some (args.logging host level .short)
      records := [errorRecord message] }
  | .ok options, none =>
    let logging := if args.trace then args.logging host .debug .full
      else args.logging host options.threshold .short
    match filterText rules shared options fuel args.targetFormat input with
    | (.ok (outcome, output), records) =>
      { ending := .ok 0
        output := output
        logging := some logging
        records := if outcome.halted then records ++ [haltRecord] else records }
    | (.error failure, records) =>
      if failure.isReported then
        { ending := .ok 1
          logging := some logging
          records := records ++ [errorRecord (failure.message?.getD "")] }
      else { ending := .error failure, logging := some logging, records := records }

/-- Filters a text as a command line asks. -/
def run (rules : List (Rule σ)) (shared : σ) (host : Host) (fuel : Nat) (words : List String)
    (input : String) : Except Exit Report :=
  (Arguments.ofWords words).map fun args => runWith rules shared host fuel args input

end DocFilter.Command
