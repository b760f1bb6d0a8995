import DocFilter.Config.Error
import DocFilter.Config.Host
import DocFilter.Toml.Document
import DocFilter.Yaml.Value

/-!
# Loading a configuration

Options may stand in a file of TOML, YAML or JSON, or in a table of a project file. The file is the one
that is asked for, else the one that a variable names, else the first that `Config.find` meets on the
way from a directory up to the root.
-/

namespace DocFilter.Config

/-- The names of configuration files, the most important first. -/
def fileNames : List String :=
  [".panfilter.toml", ".panfilter.yaml", ".panfilter.yml", ".panfilter.json"]

/-- The name of a project file. -/
def projectName : String := "pyproject.toml"

/-- The entries of a configuration. -/
abbrev Entries := List (Plain × Plain)

/-! ## Reading a file -/

/-- The text of a file. -/
def textOf (path : FilePath) : Content → Except ConfigError String
  | .absent => .error (.missing path)
  | .refused => .error (.fault .system)
  | .unreadable detail => .error (.unreadable path detail)
  | .bytes content => match String.fromUTF8? content with
    | some text => .ok text
    | none => .error (.fault (.value .encoding))

/-- The text of a file with line feeds for all line ends. -/
def linesOf (path : FilePath) (content : Content) : Except ConfigError String :=
  (textOf path content).map fun text => String.ofList (Text.withLineFeeds text.toList)

/-- Reads a file of TOML. -/
def readToml (path : FilePath) (content : Content) : Except ConfigError Entries := do
  (Toml.read (← textOf path content)).mapError (.ofRead (.toml path))

/-- The table of a project file that is about this program; it may be missing. -/
def toolTable (path : FilePath) (entries : Entries) : Except ConfigError Entries :=
  match Plain.find? "tool" entries with
  | none => .ok []
  | some (.map tools) => match Plain.find? "panfilter" tools with
    | none => .ok []
    | some (.map options) => .ok options
    | some found => .error (.notTable path found)
  | some _ => .error (.fault .attribute)

/-- Reads the table of a project file. -/
def readProject (path : FilePath) (content : Content) : Except ConfigError Entries := do
  toolTable path (← readToml path content)

/-- The value of a YAML text; one that counts as nothing is an empty map. -/
def readYaml (path : FilePath) (content : Content) : Except ConfigError Plain := do
  match Yaml.read .pieces (← linesOf path content) with
  | .ok value => .ok (if value.isUnset then .map [] else value)
  | .error (.malformed reason) => .error (.yaml path reason)
  | .error (.fault f) => .error (.fault f)

/-- The value of a JSON text. -/
def readJson (path : FilePath) (content : Content) : Except ConfigError Plain := do
  match Json.parse (← linesOf path content) with
  | .ok json => .ok (.ofJson json)
  | .error e => .error (.ofRead (.json path) e)

/-- Reads a configuration file, whose format its name tells. -/
def load (host : Host) (path : FilePath) : Except ConfigError Entries := do
  let file := host.directory.under path
  let content := host.read file
  if !(← (host.isFile file).mapError .fault) then throw (.missing path)
  if Text.lower path.name == projectName then readProject path content
  else
    let value ← match Text.lower path.extension with
      | ".toml" => (readToml path content).map .map
      | ".yaml" | ".yml" => readYaml path content
      | ".json" => readJson path content
      | extension => throw (.unsupported extension)
    match value with
    | .map entries => .ok entries
    | found => .error (.notMapping path found)

/-! ## Finding a file -/

/-- Whether a project file holds options. One that cannot be read or is no TOML does not, nor one
whose table is no table. -/
def holdsOptions (host : Host) (path : FilePath) : Except Fault Bool := do
  if !(← host.isFile path) then .ok false
  else match readProject path (host.read path) with
    | .ok entries => .ok (!entries.isEmpty)
    | .error (.fault f) => .error f
    | .error _ => .ok false

/-- The configuration file of a directory. -/
def findIn (host : Host) (directory : FilePath) : Except Fault (Option FilePath) := do
  match ← (fileNames.map directory.child).findM? host.isFile with
  | some path => .ok (some path)
  | none =>
    let project := directory.child projectName
    .ok (if ← holdsOptions host project then some project else none)

/-- The configuration file of the first of some directories that has one. -/
def findAmong (host : Host) : List FilePath → Except Fault (Option FilePath)
  | [] => .ok none
  | directory :: directories => do
    match ← findIn host directory with
    | some path => .ok (some path)
    | none => findAmong host directories

/-- The directories in which to look from one on. -/
def searched (host : Host) (start : FilePath) : List FilePath :=
  (host.directory.under start).resolved.ancestors

/-- The configuration file of a directory or of the nearest one above it that has one. -/
def find (host : Host) (start : FilePath) : Except Fault (Option FilePath) :=
  if start.names.any (·.contains '\x00') then .error (.value .nullCharacter)
  else findAmong host (searched host start)

/-! ## Options -/

/-- The file to read: the one asked for, the one that the variable names, or the one found. -/
def choose (host : Host) (asked : Option String) (start : FilePath) :
    Except ConfigError (Option String) :=
  match asked with
  | some path => .ok (some path)
  | none =>
    if !host.configVariable.isEmpty then .ok (some (FilePath.ofText host.configVariable).text)
    else match find host start with
      | .ok path => .ok (path.map FilePath.text)
      | .error f => .error (.fault f)

/-- The options in force, and the reports made while they were read. -/
def options (host : Host) (asked : Option String) (start : FilePath) :
    Except ConfigError Options × List Log.Record :=
  match choose host asked start with
  | .error e => (.error e, [])
  | .ok none => (.ok {}, [])
  | .ok (some path) => match load host (.ofText path) with
    | .error e => (.error e, [])
    | .ok entries =>
      let (result, records) := Options.ofConfig entries
      (result.mapError (.options path), records)

/-- The files that options may be read from. -/
def sources (host : Host) (asked : Option String) (start : FilePath) : List FilePath :=
  let named := (asked.toList ++ [host.configVariable]).filter (!·.isEmpty)
  named.map (host.directory.under ∘ FilePath.ofText) ++
    (searched host start).flatMap fun directory => (fileNames ++ [projectName]).map directory.child

end DocFilter.Config
