import KeywordAudit.Classification
import KeywordAudit.FileTree
import KeywordAudit.Json.Reader
import KeywordAudit.Model.Schema
import KeywordAudit.Program.Builder
import KeywordAudit.Yaml.Decoder

/-!
# Loading models

A model is read from JSON or YAML and built into a program: classes first, then methods, then
calls.  A call that names an unknown signature is skipped, and a second method of the same
signature is refused.
-/

namespace KeywordAudit

/-- Why a model cannot be loaded. -/
inductive ModelError where
  | unreadable (path : String) (cause : FileError)
  | json (fault : Json.Fault)
  | yaml
  | duplicate (method : DuplicateMethod)
deriving DecidableEq, Repr, Inhabited

/-- The wording of the error, without what a parser adds. -/
def ModelError.message : ModelError → String
  | unreadable path cause => s!"Failed to read program model {path}: {cause.message}"
  | json _ => "Failed to parse JSON program model"
  | yaml => "Failed to parse YAML program model"
  | duplicate method => method.message

namespace Model

/-! ## Building -/

/-- The statement of an entry: flags that are absent are filled in. -/
def statement (c : Classification) (entry : StatementEntry) : Statement where
  text := entry.text
  invocation := entry.invocation.map fun i => c.invocation i.target i.interesting i.library

/-- Adds the classes of a model. -/
def addClasses (b : Builder) (entries : List ClassEntry) : Builder × List Event :=
  entries.foldl (fun (b, events) entry =>
    let (b, _, more) := b.addClass (.ofEntry entry.name entry.package)
    (b, events ++ more)) (b, [])

/-- Adds the methods of a model; the first repeated signature is refused. -/
def addMethods (c : Classification) : Builder → List MethodEntry →
    Except DuplicateMethod Builder
  | b, [] => .ok b
  | b, entry :: entries =>
    match b.addMethod entry.signature entry.className (entry.body.map (statement c)) with
    | (_, .error e) => .error e
    | (b, .ok _) => addMethods c b entries

/-- Adds the calls of a model and counts those that are skipped. -/
def addCalls (b : Builder) (entries : List CallEntry) : Builder × Nat × Array Event :=
  entries.foldl (fun (b, skipped, events) entry =>
    let (b, known, more) := b.addCallBetween entry.caller entry.callee
    (b, if known then skipped else skipped + 1, events ++ more)) (b, 0, #[])

/-- The event that tells how many calls were skipped, if any. -/
def skipEvents (skipped : Nat) : List Event :=
  if skipped > 0 then [.callsSkipped skipped] else []

/-- The event that tells how large a program is. -/
def builtEvent (p : Program) : Event :=
  .modelBuilt p.classCount p.methodCount p.statementCount p.callCount

/-- Builds the program of a model. -/
def build (c : Classification) (m : Model) : Except DuplicateMethod Program × List Event :=
  let start := Builder.empty.setSynthetic c.syntheticEntryClasses
  let (b, classEvents) := addClasses start m.classes
  match addMethods c b m.methods with
  | .error e => (.error e, classEvents)
  | .ok b =>
    let (b, skipped, skippedEvents) := addCalls b m.calls
    let (p, buildEvents) := b.build
    (.ok p, classEvents ++ skippedEvents.toList ++ skipEvents skipped ++ buildEvents
      ++ [builtEvent p])

/-! ## Reading -/

/-- The language of a model file. -/
inductive Language where
  | json
  | yaml
  /-- One of the two. -/
  | either
deriving DecidableEq, Repr, Inhabited

/-- The language that a path tells. -/
def Language.ofPath (path : String) : Language :=
  match pathExtension path with
  | "json" => .json
  | "yml" | "yaml" => .yaml
  | _ => .either

/-- Reads a model from JSON. -/
def ofJson (content : String) : Except ModelError Model :=
  (Json.read Model.reader content).mapError .json

/-- Reads a model from YAML. -/
def ofYaml (content : String) : Except ModelError Model :=
  match Yaml.read? Model.reader content with
  | some m => .ok m
  | none => .error .yaml

/-- Reads a model in a language; where it is not known, JSON is tried before YAML. -/
def parse (language : Language) (content : String) : Except ModelError Model :=
  match language with
  | .json => ofJson content
  | .yaml => ofYaml content
  | .either =>
    match ofJson content with
    | .ok m => .ok m
    | .error _ => ofYaml content

/-- Builds a model that was read, or passes the error on. -/
def buildRead (c : Classification) (read : Except ModelError Model) :
    Except ModelError Program × List Event :=
  match read with
  | .error e => (.error e, [])
  | .ok m =>
    let (result, events) := m.build c
    (result.mapError .duplicate, events)

/-- Loads a model file. -/
def load (c : Classification) (files : FileTree) (path : String) :
    Except ModelError Program × List Event :=
  match files.read path with
  | .error cause => (.error (.unreadable path cause), [])
  | .ok content =>
    match parse (.ofPath path) content with
    | .error e => (.error e, [])
    | .ok m =>
      let (result, events) := buildRead c (.ok m)
      (result, .modelRead path :: events)

end Model
end KeywordAudit
