import KeywordAudit.CommandLine.Parse
import KeywordAudit.Config.Load
import KeywordAudit.KeywordList.Load
import KeywordAudit.Model.Load
import KeywordAudit.Report.Output

/-!
# A whole run

From options and files to what is printed, written and logged.  A run that fails has printed and
written nothing.
-/

namespace KeywordAudit

/-- Why a run fails. -/
inductive RunError where
  | config (error : ConfigError)
  | unknownFormat (name : String)
  | missingModel (path : String)
  | missingKeywords (path : String)
  | model (error : ModelError)
  | keywords (error : KeywordError)
  | output (error : FileError)
deriving DecidableEq, Repr, Inhabited

/-- The wording of the error, from the outermost message to its cause. -/
def RunError.messages : RunError → List String
  | config error => error.messages
  | unknownFormat name => [s!"Unknown report format in config: {name}"]
  | missingModel path => [s!"Program model doesn't exist: {path}"]
  | missingKeywords path => [s!"Keyword list doesn't exist: {path}"]
  | model error =>
    ["Failed to load program model", error.message]
      ++ (match error with
        | .unreadable _ cause => [cause.message]
        | _ => [])
  | keywords error => ["Failed to load keyword list", error.message, error.cause.message]
  | output error => [error.message]

/-- What a run did. -/
structure Outcome where
  /-- The text that was printed before the last line. -/
  printed : String := ""
  /-- The number of methods that the last line tells, if there is such a line. -/
  inspected : Option Nat := none
  files : FileTree
  events : List Event := []
  error : Option RunError := none
deriving Inhabited

namespace Outcome

/-- The last line, which tells how long the run took. -/
def closing (coloured : Bool) (elapsed : String) (methods : Nat) : String :=
  Line.render coloured
    (Line.single s!"⏱  Inspected {methods} methods in {elapsed}s" { weight := .dimmed })

/-- All that was printed. -/
def output (o : Outcome) (coloured : Bool) (elapsed : String) : String :=
  o.printed ++ ((o.inspected.map (closing coloured elapsed)).getD "")

end Outcome

namespace Run

/-- The format of the report: the one asked for, or else the configured one. -/
def reportFormat (config : Config) (options : Options) : Except RunError ReportFormat :=
  match options.format with
  | some format => .ok format
  | none =>
    match ReportFormat.ofName? config.report.format with
    | some format => .ok format
    | none => .error (.unknownFormat config.report.format)

/-- Fails if one of the two files does not exist. -/
def checkFiles (files : FileTree) (options : Options) : Except RunError Unit :=
  if !files.pathExists options.model then .error (.missingModel options.model)
  else if !files.pathExists options.keywords then .error (.missingKeywords options.keywords)
  else .ok ()

/-- The notice that no keyword can be found. -/
def emptyNotice (coloured : Bool) : String :=
  Line.render coloured
    (Line.single "Keyword list is empty, no statements can match." { colour := some .yellow })

/-- The analysis of a program and its report. -/
def analyze (config : Config) (options : Options) (format : ReportFormat) (coloured : Bool)
    (files : FileTree) (program : Program) (keywords : KeywordList) : Outcome :=
  let quiet := options.quiet || format == .json
  let notice := if keywords.isEmpty && !quiet then emptyNotice coloured else ""
  let (audit, events) := program.audit keywords config.inspection
  let reporter : Reporter := {
    format := format
    output := options.output
    showRoots := !options.noRoots
    coloured := coloured }
  match reporter.report files audit with
  | .error e => { printed := notice, files := files, events := events, error := some (.output e) }
  | .ok report =>
    { printed := notice ++ report.text
      inspected := if quiet then none else some program.methodCount
      files := report.files
      events := events }

/-- Puts events before those of an outcome. -/
def after (events : List Event) (o : Outcome) : Outcome :=
  { o with events := events ++ o.events }

/-- Loads the keywords and goes on with them. -/
def withKeywords (files : FileTree) (path : String) (next : KeywordList → Outcome) : Outcome :=
  match KeywordList.load files path with
  | (.error e, events) => { files := files, events := events, error := some (.keywords e) }
  | (.ok keywords, events) =>
    after (events ++ [.keywordsLoaded keywords.size]) (next keywords)

/-- Loads the model and goes on with its program. -/
def withProgram (classification : Classification) (files : FileTree) (path : String)
    (next : Program → Outcome) : Outcome :=
  match Model.load classification files path with
  | (.error e, events) =>
    { files := files, events := .loadingModel path :: events, error := some (.model e) }
  | (.ok program, events) => after (.loadingModel path :: events) (next program)

/-- Runs the analysis that options ask for, under a configuration. -/
def runWith (config : Config) (options : Options) (coloured : Bool) (files : FileTree) :
    Outcome :=
  match reportFormat config options, checkFiles files options with
  | .error e, _ => { files := files, error := some e }
  | .ok _, .error e => { files := files, error := some e }
  | .ok format, .ok () =>
    withProgram config.classification files options.model fun program =>
      withKeywords files options.keywords fun keywords =>
        analyze config options format coloured files program keywords

/-- The configuration that options ask for. -/
def configure (options : Options) (files : FileTree) : Except ConfigError Config :=
  (match options.config with
    | some path => Config.load files path
    | none => Config.loadDefault files ".").map options.configure

/-- Runs the analysis that options ask for. -/
def run (options : Options) (coloured : Bool) (files : FileTree) : Outcome :=
  match configure options files with
  | .error e => { files := files, error := some (.config e) }
  | .ok config => runWith config options coloured files

/-- The version of the program. -/
def version : String := "0.1.0"

/-- What a command line does. -/
inductive Command where
  /-- It is not understood. -/
  | refused (usage : Usage)
  /-- It is run. -/
  | ran (options : Options) (outcome : Outcome)

/-- Runs a command line. -/
def command (arguments : List String) (coloured : Bool) (files : FileTree) : Command :=
  match Options.parse arguments with
  | .error usage => .refused usage
  | .ok options => .ran options (run options coloured files)

/-- The least severe level that a command line wants to see. -/
def logLevel (options : Options) : Level :=
  if options.quiet then .error else if options.verbose then .debug else .info

namespace Command

/-- The exit code. -/
def exitCode : Command → Nat
  | .refused .version | .refused .help => 0
  | .refused _ => 2
  | .ran _ outcome => if outcome.error.isSome then 1 else 0

/-- The text that is printed. -/
def output (coloured : Bool) (elapsed : String) : Command → String
  | .refused .version => s!"keywordtrace {version}\n"
  | .refused _ => ""
  | .ran _ outcome => outcome.output coloured elapsed

/-- The lines of the log. -/
def log : Command → List String
  | .refused _ => []
  | .ran options outcome => logLines (logLevel options) (.started version :: outcome.events)

end Command
end Run
end KeywordAudit
