import DocFilter.Number.Reading
import DocFilter.Plain.Basic

/-!
# The command line

The words of a command line are first classified one by one, and then consumed from left to right:

* a long option may be shortened as long as it is the only one that starts so, and may carry its value
  behind an equals sign;
* a word that looks like a negative number or holds a space is an operand even after a dash;
* after a double dash all words are operands;
* the only operand is the format that the document is converted to, and it may be missing.

A call for help ends the command where it is met; any misuse ends it too.
-/

namespace DocFilter.Command

/-- How a command ends before anything is run. -/
inductive Exit where
  | help
  | misuse
deriving DecidableEq, Repr, Inhabited

/-- The exit status. -/
def Exit.status : Exit → Nat
  | help => 0
  | misuse => 2

/-- The options. -/
inductive Flag where
  | help
  | config
  | schema
  | indent
  | logLevel
  | logFile
  | trace
deriving DecidableEq, Repr, Inhabited

namespace Flag

/-- The long names of the options. -/
def longNames : List (String × Flag) :=
  [("--help", help), ("--config", config), ("--schema", schema), ("--indent", indent),
   ("--log-level", logLevel), ("--log-file", logFile), ("--trace", trace)]

/-- The short name of the call for help. -/
def shortHelp : String := "-h"

/-- The option with a name. -/
def ofName? (name : String) : Option Flag :=
  if name == shortHelp then some help else longNames.lookup name

/-- The options whose long names start in some way. -/
def startingWith (start : String) : List Flag :=
  (longNames.filter fun entry => start.toList.isPrefixOf entry.1.toList).map (·.2)

end Flag

/-! ## Words -/

/-- A word of the command line. -/
inductive Word where
  /-- The double dash. -/
  | separator
  | operand (text : String)
  | flag (flag : Flag) (value : Option String)
  /-- Letters after the short name of the call for help. -/
  | cluster (letters : String)
  /-- An option that there is not. -/
  | unknown
deriving DecidableEq, Repr, Inhabited

/-- Whether characters are decimal digits. -/
def areDigits (cs : List Char) : Bool := cs.all fun c => (Text.asciiDigit c).isDigit

/-- Whether a word is a negative number: a dash and digits, with a fraction or not. -/
def isNegativeNumber (word : String) : Bool := match word.toList with
  | '-' :: body =>
    let body := if body.getLast? == some '\n' then body.dropLast else body
    match body.span (· != '.') with
    | (whole, []) => !whole.isEmpty && areDigits whole
    | (whole, _ :: fraction) => areDigits whole && !fraction.isEmpty && areDigits fraction
  | _ => false

/-- A word cut at its first equals sign. -/
def cutAtEquals (word : String) : String × Option String :=
  match word.toList.span (· != '=') with
  | (_, []) => (word, none)
  | (name, _ :: value) => (String.ofList name, some (String.ofList value))

/-- A word that starts with a dash but is no option. -/
def classifyRest (word : String) : Word :=
  if isNegativeNumber word || word.contains ' ' then .operand word else .unknown

/-- What a word means by itself; the beginning of several options is misuse. -/
def classify (word : String) : Except Exit Word :=
  match word.toList with
  | '-' :: second :: rest =>
    let (name, value) := cutAtEquals word
    match Flag.ofName? word, Flag.ofName? name with
    | some flag, _ => .ok (.flag flag none)
    | none, some flag =>
      if name == Flag.shortHelp then .ok (.cluster (value.getD "")) else .ok (.flag flag value)
    | none, none =>
      if second == '-' then match Flag.startingWith name with
        | [flag] => .ok (.flag flag value)
        | [] => .ok (classifyRest word)
        | _ => .error .misuse
      else if second == 'h' then .ok (.cluster (String.ofList rest))
      else .ok (classifyRest word)
  | _ => .ok (.operand word)

/-- What the words of a command line mean; after a double dash all are operands. -/
def classifyAll : List String → Except Exit (List Word)
  | [] => .ok []
  | word :: words =>
    if word == "--" then .ok (.separator :: words.map .operand)
    else do
      let first ← classify word
      let rest ← classifyAll words
      .ok (first :: rest)

/-! ## Arguments -/

/-- What a command line asks for. The values of options are null where the option is missing. -/
structure Arguments where
  targetFormat : String := ""
  config : Plain := .null
  schema : Plain := .null
  indent : Plain := .null
  logLevel : Plain := .null
  logFile : Plain := .null
  trace : Bool := false
deriving Inhabited

namespace Arguments

/-- A text that is one of some. -/
def choice (choices : List String) (text : String) : Except Exit Plain :=
  if choices.contains text then .ok (.str text) else .error .misuse

/-- Takes the value of an option. A double dash as a value counts as a list of no values. -/
def set (args : Arguments) (flag : Flag) (text : String) : Except Exit Arguments := do
  let value (read : String → Except Exit Plain) : Except Exit Plain :=
    if text == "--" then .ok (.list []) else read text
  match flag with
  | .help | .trace => .error .misuse
  | .config => .ok { args with config := ← value fun s => .ok (.str s) }
  | .logFile => .ok { args with logFile := ← value fun s => .ok (.str s) }
  | .schema => .ok { args with schema := ← value (choice ["auto", "v1", "v2"]) }
  | .logLevel =>
    .ok { args with logLevel := ← value (choice ["DEBUG", "INFO", "WARNING", "ERROR"]) }
  | .indent =>
    let number (s : String) : Except Exit Plain := match readWhole 10 s.toList with
      | .ok n => .ok (.int n)
      | .error _ => .error .misuse
    .ok { args with indent := ← value number }

/-- Whether letters after a short name all call for help. -/
def isHelp (letters : String) : Bool := !letters.isEmpty && letters.all (· == 'h')

/-- Consumes words from left to right. `taken` says that the operand was met, `extra` that there was a
word for which there is no use, which is misuse in the end. -/
def consume : List Word → (args : Arguments) → (taken extra : Bool) → Except Exit Arguments
  | [], args, _, extra => if extra then .error .misuse else .ok args
  | .unknown :: words, args, taken, _ => consume words args taken true
  | .cluster letters :: _, _, _, _ => .error (if isHelp letters then .help else .misuse)
  | .flag flag (some value) :: words, args, taken, extra => do
    consume words (← args.set flag value) taken extra
  | .flag .help none :: _, _, _, _ => .error .help
  | .flag .trace none :: words, args, taken, extra =>
    consume words { args with trace := true } taken extra
  | .flag flag none :: .operand value :: words, args, taken, extra => do
    consume words (← args.set flag value) taken extra
  | .flag _ none :: _, _, _, _ => .error .misuse
  | .operand _ :: words, args, true, _ => consume words args true true
  | .separator :: words, args, true, _ => consume words args true true
  | .operand text :: .separator :: words, args, false, extra =>
    consume words { args with targetFormat := text } true extra
  | .operand text :: words, args, false, extra =>
    consume words { args with targetFormat := text } true extra
  | .separator :: .operand text :: words, args, false, extra =>
    consume words { args with targetFormat := text } true extra
  | .separator :: words, args, false, extra => consume words args true extra

/-- Reads a command line. -/
def ofWords (words : List String) : Except Exit Arguments := do
  consume (← classifyAll words) {} false false

end Arguments

end DocFilter.Command
