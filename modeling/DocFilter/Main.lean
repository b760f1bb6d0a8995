import DocFilter.Command.Run

/-!
# The program

Filters a document without rules, which writes it as the options ask. Only this module reads and writes
files and streams.
-/

namespace DocFilter

/-- How to call the program. -/
def usage : String :=
  "usage: panfilter [-h] [--config PATH] [--schema auto|v1|v2] [--indent N]\n" ++
  "                 [--log-level LEVEL] [--log-file PATH] [--trace] [target_format]\n"

/-- The bound on the steps of a run. -/
def stepBound : Nat := 1000000000

/-- What a path leads to. -/
def readContent (path : FilePath) : IO Content := do
  try
    return .bytes (← IO.FS.readBinFile path.text)
  catch
    | .permissionDenied _ _ detail => return .unreadable detail
    | _ => return .absent

/-- The surroundings of a run, with the files that its options may be read from. -/
def readHost (asked : Option String) : IO Host := do
  let directory := FilePath.ofText (← IO.currentDir).toString
  let named := (← IO.getEnv "PANFILTER_CONFIG").getD ""
  let bare : Host := ⟨directory, named, fun _ => .absent⟩
  let contents ← (Config.sources bare asked {}).mapM fun path => do
    return (path, ← readContent path)
  return ⟨directory, named, fun path => (contents.lookup path).getD .absent⟩

/-- Opens a log file; nothing if none is wanted. -/
def openLog (file : Option FilePath) : IO (Except OpenError (Option IO.FS.Handle)) := do
  match file with
  | none => return .ok none
  | some path =>
    try
      return .ok (some (← IO.FS.Handle.mk path.text .append))
    catch
      | .noFileOrDirectory _ code detail | .inappropriateType _ code detail
      | .permissionDenied _ code detail => return .error ⟨code.toNat, detail⟩
      | e => return .error ⟨0, toString e⟩

/-- Writes the log of a run. -/
def writeLog (report : Command.Report) : IO Unit := do
  let opened ← openLog (report.logging.bind (·.file))
  let fileError := match opened with
    | .ok _ => none
    | .error e => some e
  for line in report.lines fileError do
    IO.eprintln line
    if let .ok (some handle) := opened then handle.putStr (line ++ "\n")

/-- The file that the options are asked to be read from. -/
def askedFile (args : Command.Arguments) : Option String := match args.config with
  | .str path => some path
  | _ => none

/-- Runs a command and gives its exit status. -/
def runCommand (args : Command.Arguments) : IO UInt32 := do
  let host ← readHost (askedFile args)
  match String.fromUTF8? (← (← IO.getStdin).readBinToEnd) with
  | none => do
    IO.eprintln "panfilter: the input is not UTF-8"
    return 1
  | some text => do
    let report := Command.runWith ([] : List (Rule Unit)) () host stepBound args text
    writeLog report
    IO.print report.output
    match report.ending with
    | .ok status => return status.toUInt32
    | .error failure => do
      let reason := failure.message?.getD "a value does not fit"
      IO.eprintln ("panfilter: " ++ reason)
      return 1

end DocFilter

def main (words : List String) : IO UInt32 := do
  match DocFilter.Command.Arguments.ofWords words with
  | .ok args => DocFilter.runCommand args
  | .error e => do
    if e = .help then IO.print DocFilter.usage else IO.eprint DocFilter.usage
    return e.status.toUInt32
