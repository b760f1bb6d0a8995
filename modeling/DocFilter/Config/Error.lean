import DocFilter.Fault
import DocFilter.FilePath
import DocFilter.Json.Parse
import DocFilter.Options
import DocFilter.Toml.Error
import DocFilter.Yaml.Error

/-!
# Configuration errors

Why a configuration cannot be used. An error has a headline that names the file, and for some causes a
detail in the words of whoever found it.
-/

namespace DocFilter

/-- Why a configuration cannot be used. -/
inductive ConfigError where
  | missing (path : FilePath)
  | unsupported (extension : String)
  | unreadable (path : FilePath) (detail : String)
  | json (path : FilePath) (error : Json.SyntaxError)
  | toml (path : FilePath) (error : Toml.Error)
  | yaml (path : FilePath) (reason : Yaml.Reason)
  | notTable (path : FilePath) (found : Plain)
  | notMapping (path : FilePath) (found : Plain)
  | options (path : String) (error : OptionsError)
  /-- A value that does not fit at all. -/
  | fault (fault : Fault)
deriving Inhabited

namespace ConfigError

/-- What an error in reading a text comes to, given what one about its rules does. -/
def ofRead {ε : Type} (rule : ε → ConfigError) : ReadError ε → ConfigError
  | .rule error => rule error
  | .unfit reason => fault (.value reason)

/-- What an error says without the words of its cause; a fault says nothing. -/
def headline? : ConfigError → Option String
  | missing path => some s!"Configuration file does not exist: {path.text}"
  | unsupported extension =>
    some s!"Unsupported config file format: {extension}. Use .json, .toml, or .yaml"
  | unreadable path _ => some s!"Error reading config file {path.text}"
  | json path _ | toml path _ | yaml path _ => some s!"Invalid configuration in {path.text}"
  | notTable path found =>
    some s!"[tool.panfilter] section in {path.text} must be a table, got {found.typeName}"
  | notMapping path found =>
    some s!"Config file {path.text} must contain a mapping, got {found.typeName}"
  | options path _ => some s!"Invalid configuration in {path}"
  | fault _ => none

/-- The words of the cause. -/
def detail? : ConfigError → Option String
  | unreadable _ detail => some detail
  | json _ error => some error.message
  | toml _ error => some error.message
  | yaml _ reason => some reason.message
  | options _ error => some error.detail
  | _ => none

/-- Whether the cause speaks in words of this library. -/
def isOwn : ConfigError → Bool
  | json .. => true
  | options _ error => error.message?.isSome
  | _ => false

/-- What an error says. -/
def message (e : ConfigError) : String :=
  let headline := e.headline?.getD ""
  match e.detail? with
  | some detail => headline ++ ": " ++ detail
  | none => headline

end ConfigError

end DocFilter
