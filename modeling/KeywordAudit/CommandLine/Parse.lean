import KeywordAudit.CommandLine.Options

/-!
# Reading the command line

Arguments are taken from left to right.  A value that was taken is looked at only when the next
argument comes or the line ends; an argument that cannot be understood at all is reported before
that.  Two positional arguments must be there at the end.
-/

namespace KeywordAudit

/-- What ends the reading of a command line early. -/
inductive Usage where
  /-- An option that is not known, or an argument too much. -/
  | unknownArgument
  /-- Too few positional arguments. -/
  | missingArgument
  /-- The same option twice. -/
  | conflict
  /-- A value for an option that takes none. -/
  | tooManyValues
  /-- A value that is missing or not allowed. -/
  | invalidValue
  /-- The version is asked for. -/
  | version
  /-- Help is asked for. -/
  | help
deriving DecidableEq, Repr, Inhabited

/-- The wording of what ends the reading. -/
def Usage.message : Usage → String
  | unknownArgument => "error: unexpected argument found"
  | missingArgument => "error: the following required arguments were not provided: MODEL KEYWORDS"
  | conflict => "error: an argument cannot be used multiple times"
  | tooManyValues => "error: unexpected value for an option that takes none"
  | invalidValue => "error: invalid value for an argument"
  | version => "keywordtrace"
  | help => "Usage: keywordtrace [OPTIONS] <MODEL> <KEYWORDS>"

/-- The options without value. -/
inductive Switch where
  | recordContainerSymbol
  | allStatements
  | librariesOnly
  | noRoots
  | verbose
  | quiet
  | version
  | help
deriving DecidableEq, Repr, Inhabited

/-- The arguments with a value, positional ones too. -/
inductive Setting where
  | model
  | keywords
  | config
  | containerSymbol
  | format
  | output
deriving DecidableEq, Repr, Inhabited

/-- What an option is. -/
inductive OptionKind where
  | switch (s : Switch)
  | setting (s : Setting)
deriving DecidableEq, Repr, Inhabited

/-- The option of a long name. -/
def OptionKind.ofName? : String → Option OptionKind
  | "config" => some (.setting .config)
  | "record-container-symbol" => some (.switch .recordContainerSymbol)
  | "all-statements" => some (.switch .allStatements)
  | "libraries-only" => some (.switch .librariesOnly)
  | "container-symbol" => some (.setting .containerSymbol)
  | "format" => some (.setting .format)
  | "output" => some (.setting .output)
  | "no-roots" => some (.switch .noRoots)
  | "verbose" => some (.switch .verbose)
  | "quiet" => some (.switch .quiet)
  | "help" => some (.switch .help)
  | "version" => some (.switch .version)
  | _ => none

/-- The option of a letter. -/
def OptionKind.ofLetter? : Char → Option OptionKind
  | 'c' => some (.setting .config)
  | 'm' => some (.switch .recordContainerSymbol)
  | 'a' => some (.switch .allStatements)
  | 'p' => some (.switch .librariesOnly)
  | 'f' => some (.setting .format)
  | 'o' => some (.setting .output)
  | 'v' => some (.switch .verbose)
  | 'q' => some (.switch .quiet)
  | 'h' => some (.switch .help)
  | 'V' => some (.switch .version)
  | _ => none

namespace CommandLine

/-! ## Checked values -/

/-- The values that were accepted so far. -/
structure Draft where
  switches : List Switch := []
  model : Option String := none
  keywords : Option String := none
  config : Option String := none
  containerSymbol : Option String := none
  format : Option ReportFormat := none
  output : Option String := none

/-- Whether a setting has its value. -/
def Draft.has (d : Draft) : Setting → Bool
  | .model => d.model.isSome
  | .keywords => d.keywords.isSome
  | .config => d.config.isSome
  | .containerSymbol => d.containerSymbol.isSome
  | .format => d.format.isSome
  | .output => d.output.isSome

/-- A path, which is not empty. -/
def pathValue (value : String) : Except Usage String :=
  if value = "" then .error .invalidValue else .ok value

/-- The format of a name. -/
def formatValue : String → Except Usage ReportFormat
  | "terminal" => .ok .terminal
  | "json" => .ok .json
  | _ => .error .invalidValue

/-- Accepts a value; a setting has one value only. -/
def Draft.set (d : Draft) (s : Setting) (value : String) : Except Usage Draft :=
  if d.has s then .error .conflict
  else match s with
    | .model => (pathValue value).map fun v => { d with model := some v }
    | .keywords => (pathValue value).map fun v => { d with keywords := some v }
    | .config => (pathValue value).map fun v => { d with config := some v }
    | .containerSymbol => .ok { d with containerSymbol := some value }
    | .format => (formatValue value).map fun v => { d with format := some v }
    | .output => (pathValue value).map fun v => { d with output := some v }

/-- Turns a switch on; it is turned on once only. -/
def Draft.turnOn (d : Draft) (s : Switch) : Except Usage Draft :=
  match s with
  | .version => .error .version
  | .help => .error .help
  | s => if d.switches.contains s then .error .conflict
    else .ok { d with switches := s :: d.switches }

/-- The options of a whole line. -/
def Draft.finish (d : Draft) : Except Usage Options :=
  match d.model, d.keywords with
  | some model, some keywords =>
    .ok {
      model := model
      keywords := keywords
      config := d.config
      recordContainerSymbol := d.switches.contains .recordContainerSymbol
      allStatements := d.switches.contains .allStatements
      librariesOnly := d.switches.contains .librariesOnly
      containerSymbol := d.containerSymbol
      format := d.format
      output := d.output
      noRoots := d.switches.contains .noRoots
      verbose := d.switches.contains .verbose
      quiet := d.switches.contains .quiet }
  | _, _ => .error .missingArgument

/-! ## Arguments in order -/

/-- A setting whose value was taken, or is still to come. -/
structure Pending where
  setting : Setting
  value : Option String

/-- The state between two arguments. -/
structure State where
  accepted : Draft := {}
  pending : Option Pending := none
  /-- How many positional arguments there were. -/
  positionals : Nat := 0

/-- Accepts the value that was taken last. -/
def State.settle (s : State) : Except Usage State :=
  match s.pending with
  | none => .ok s
  | some ⟨_, none⟩ => .error .invalidValue
  | some ⟨setting, some value⟩ =>
    (s.accepted.set setting value).map fun d => { s with accepted := d, pending := none }

/-- Whether the value of an option is still to come. -/
def State.expectsValue (s : State) : Bool := s.pending.any fun p => p.value.isNone

/-- Takes the value of the option before. -/
def State.takeValue (s : State) (value : String) : State :=
  { s with pending := s.pending.map fun p => { p with value := some value } }

/-- Takes a positional argument. -/
def State.takePositional (s : State) (value : String) : Except Usage State :=
  match s.positionals with
  | 0 => s.settle.map fun s => { s with pending := some ⟨.model, some value⟩, positionals := 1 }
  | 1 => s.settle.map fun s => { s with pending := some ⟨.keywords, some value⟩, positionals := 2 }
  | _ => .error .unknownArgument

/-- Takes a switch. -/
def State.takeSwitch (s : State) (switch : Switch) : Except Usage State := do
  let s ← s.settle
  let accepted ← s.accepted.turnOn switch
  return { s with accepted := accepted }

/-- Takes a setting, with its value or before it. -/
def State.takeSetting (s : State) (setting : Setting) (value : Option String) :
    Except Usage State := do
  let s ← s.settle
  match value with
  | none => return { s with pending := some ⟨setting, none⟩ }
  | some value =>
    let accepted ← s.accepted.set setting value
    return { s with accepted := accepted }

/-- Takes an option by its long name, perhaps with a value behind an equals sign. -/
def State.takeLong (s : State) (name : String) (value : Option String) : Except Usage State :=
  match OptionKind.ofName? name with
  | none => .error .unknownArgument
  | some (.setting setting) => s.takeSetting setting value
  | some (.switch switch) =>
    if value.isSome then .error .tooManyValues else s.takeSwitch switch

/-- The value that follows the letter of an option directly; an equals sign before it is
dropped. -/
def attachedValue : List Char → Option String
  | [] => none
  | '=' :: rest => some (String.ofList rest)
  | cs => some (String.ofList cs)

/-- Takes options by their letters. -/
def State.takeLetters : State → List Char → Except Usage State
  | s, [] => .ok s
  | s, c :: rest =>
    match OptionKind.ofLetter? c with
    | none => .error .unknownArgument
    | some (.setting setting) => s.takeSetting setting (attachedValue rest)
    | some (.switch switch) => do
      let s ← s.takeSwitch switch
      s.takeLetters rest

/-- A long option without its hyphens: its name, and the value behind its first equals sign. -/
def nameAndValue (cs : List Char) : String × Option String :=
  match Text.cutFirst '=' cs with
  | some (name, value) => (String.ofList name, some (String.ofList value))
  | none => (String.ofList cs, none)

/-- Takes an argument that is not behind the double hyphen. -/
def State.take (s : State) (argument : String) : Except Usage State :=
  match argument.toList with
  | '-' :: '-' :: rest =>
    let (name, value) := nameAndValue rest
    s.takeLong name value
  | '-' :: c :: rest => s.takeLetters (c :: rest)
  | _ => if s.expectsValue then .ok (s.takeValue argument) else s.takePositional argument

/-- Takes all arguments; behind a double hyphen all are positional. -/
def State.takeAll : (onlyPositional : Bool) → State → List String → Except Usage State
  | _, s, [] => s.settle
  | true, s, argument :: rest => do
    let s ← s.takePositional argument
    s.takeAll true rest
  | false, s, argument :: rest =>
    if argument = "--" then s.takeAll true rest
    else do
      let s ← s.take argument
      s.takeAll false rest

end CommandLine

/-- Reads a command line. -/
def Options.parse (arguments : List String) : Except Usage Options := do
  let s ← CommandLine.State.takeAll false {} arguments
  s.accepted.finish

end KeywordAudit
