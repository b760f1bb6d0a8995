import DocFilter.Codec.Document
import DocFilter.Log
import DocFilter.Plain.Basic
import DocFilter.Text.Case

/-!
# Options

How a run writes its output and what it reports. Options may come from configuration files, so every
field holds a plain value as it was given; `Options.check` says which values are refused. A value that
passes may still be unfit for the output, which then shows when the output is written.
-/

namespace DocFilter

/-- The options of a run. -/
structure Options where
  outputSchema : Plain := .str "auto"
  jsonIndent : Plain := .null
  ensureAscii : Plain := .bool false
  logLevel : Plain := .str "WARNING"
deriving Inhabited

/-- Why options are refused. -/
inductive OptionsError where
  | schema (found : Plain)
  | indent (found : Plain)
  | logLevel (found : Plain)
  /-- An indentation that cannot be compared with a number. -/
  | notNumber (found : Plain)
  /-- No option has a name. -/
  | unknown (name : String)
  /-- A key or a value that cannot be shown. -/
  | unfit (reason : Unfit)
deriving Inhabited

/-- Names in parentheses. -/
def choiceList (names : List String) : String :=
  "(" ++ String.intercalate ", " (names.map Text.quoted) ++ ")"

/-- The layouts that may be asked for. -/
def outputSchemas : List String := ["auto", "v1", "v2"]

/-- The wording of a refusal for a value out of its range; one that does not fit at all has none. -/
def OptionsError.message? : OptionsError → Option String
  | schema found =>
    some s!"output_schema must be one of {choiceList outputSchemas}, got {found.shown}"
  | indent found => some s!"json_indent must be non-negative, got {found.text}"
  | logLevel found =>
    let levels := choiceList (Log.Level.all.map (·.name))
    some s!"log_level must be one of {levels}, got {found.shown}"
  | notNumber _ | unknown _ | unfit _ => none

/-- What a refusal says in a report of its cause. -/
def OptionsError.detail (e : OptionsError) : String := match e with
  | notNumber found =>
    let name := Text.quoted found.fullTypeName
    s!"'<' not supported between instances of {name} and 'int'"
  | unknown name => s!"no option is named {Text.quoted name}"
  | unfit reason => reason.message
  | _ => e.message?.getD ""

namespace Options

/-- Whether a value is a number below zero; none for values that are no numbers. No value counts as
zero. -/
def isBelowZero? : Plain → Option Bool
  | .null | .bool _ => some false
  | .int n => some (n < 0)
  | .float d => some d.isNegative
  | _ => none

/-- The level that a value names, in any mixture of cases. -/
def levelOf? (value : Plain) : Option Log.Level := Log.Level.ofName? (Text.upper value.text)

/-- Whether a value is one of some texts. -/
def isOneOf (names : List String) : Plain → Bool
  | .str s => names.contains s
  | _ => false

/-- Refuses a value in words that show it. -/
def refuse (error : Plain → OptionsError) (found : Plain) : Except OptionsError Options :=
  .error (if found.holdsLong then .unfit .longNumber else error found)

/-- Refuses options with a value out of its range. -/
def check (o : Options) : Except OptionsError Options :=
  if !isOneOf outputSchemas o.outputSchema then refuse .schema o.outputSchema
  else match isBelowZero? o.jsonIndent with
    | none => .error (.notNumber o.jsonIndent)
    | some true => refuse .indent o.jsonIndent
    | some false =>
      if (levelOf? o.logLevel).isNone then refuse .logLevel o.logLevel else .ok o

/-! ## Names -/

/-- Writes an option under its name; none if no option has it. -/
def set? (o : Options) (name : String) (value : Plain) : Option Options := match name with
  | "output_schema" => some { o with outputSchema := value }
  | "json_indent" => some { o with jsonIndent := value }
  | "ensure_ascii" => some { o with ensureAscii := value }
  | "log_level" => some { o with logLevel := value }
  | _ => none

/-- Options with some values changed; every name must be one of an option. -/
def update (o : Options) (values : List (String × Plain)) : Except OptionsError Options := do
  let o ← values.foldlM (fun o (name, value) => match set? o name value with
    | some o => .ok o
    | none => .error (.unknown name)) o
  o.check

/-- Options with some values. -/
def ofValues (values : List (String × Plain)) : Except OptionsError Options :=
  update {} values

/-- A configuration key as the name of an option: dashes count as underscores. -/
def nameOfKey (key : Plain) : String := key.text.map fun c => if c == '-' then '_' else c

/-- The report of a key that no option has. -/
def unknownKey (key : Plain) : Log.Record :=
  ⟨.warning, "panfilter.options", s!"Ignoring unknown configuration key: {key.text}"⟩

/-- Options from a configuration: keys that no option has are reported and left out, up to one that
cannot be shown. -/
def ofConfig (entries : List (Plain × Plain)) : Except OptionsError Options × List Log.Record :=
  let known (entry : Plain × Plain) : Bool := (set? {} (nameOfKey entry.1) entry.2).isSome
  let (shown, rest) := entries.span fun entry => !entry.1.holdsLong
  (if rest.isEmpty then ofValues ((shown.filter known).map fun e => (nameOfKey e.1, e.2))
    else .error (.unfit .longNumber),
    (shown.filter fun e => !known e).map fun e => unknownKey e.1)

/-! ## Use -/

/-- The layout to write; none keeps that of the input. -/
def schema? (o : Options) : Option String := match o.outputSchema with
  | .str "auto" => none
  | .str s => some s
  | _ => none

/-- The layout of the output as JSON. -/
def schemaJson (o : Options) : Json := match o.schema? with
  | some s => .str s
  | none => .null

/-- How the output is laid out; dates and the like are no indentations. -/
def style (o : Options) : Except Fault Json.Style := match o.jsonIndent.simple? with
  | some indent => Json.Style.forIndent indent (!o.ensureAscii.isUnset)
  | none => .error .type

/-- The level from which on records are shown. -/
def threshold (o : Options) : Log.Level := (levelOf? o.logLevel).getD .warning

end Options

end DocFilter
