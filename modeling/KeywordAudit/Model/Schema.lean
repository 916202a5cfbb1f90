import KeywordAudit.Format.Schema
import KeywordAudit.Json.Value
import KeywordAudit.Model.Basic

/-!
# The form of model files

How a model is read from any format, and how it is written as a JSON value: fields in the order of
their declaration, and options that are absent left out.
-/

namespace KeywordAudit

variable {R : Type → Type} [Format R]

/-! ## Classes -/

/-- A class that is being read. -/
structure ClassDraft where
  name : Option String := none
  package : Option (Option String) := none

/-- Reads a class. -/
def ClassEntry.reader : R ClassEntry :=
  Format.record
    [ .optional "name" ClassDraft.name (fun v d => { d with name := some v }) Format.text,
      .optional "package" ClassDraft.package (fun v d => { d with package := some v })
        (Format.optional Format.text) ]
    {} fun d => do
      let name ← d.name
      return { name := name, package := d.package.getD none }

/-- An optional member of an object. -/
def optionalMember {α : Type} (name : String) (encode : α → Json) (value : Option α) :
    List (String × Json) :=
  match value with
  | none => []
  | some v => [(name, encode v)]

/-- Writes a class. -/
def ClassEntry.toJson (c : ClassEntry) : Json :=
  .object (("name", .string c.name) :: optionalMember "package" .string c.package)

/-! ## Statements -/

/-- A call in a statement that is being read. -/
structure InvocationDraft where
  target : Option String := none
  interesting : Option (Option Bool) := none
  library : Option (Option Bool) := none

/-- Reads a call in a statement. -/
def InvocationEntry.reader : R InvocationEntry :=
  Format.record
    [ .optional "target" InvocationDraft.target (fun v d => { d with target := some v })
        Format.text,
      .optional "interesting" InvocationDraft.interesting
        (fun v d => { d with interesting := some v }) (Format.optional Format.flag),
      .optional "library" InvocationDraft.library (fun v d => { d with library := some v })
        (Format.optional Format.flag) ]
    {} fun d => do
      let target ← d.target
      return {
        target := target
        interesting := d.interesting.getD none
        library := d.library.getD none }

/-- Writes a call in a statement. -/
def InvocationEntry.toJson (i : InvocationEntry) : Json :=
  .object (("target", .string i.target) :: (optionalMember "interesting" .bool i.interesting
    ++ optionalMember "library" .bool i.library))

/-- A statement that is being read. -/
structure StatementDraft where
  text : Option String := none
  invocation : Option (Option InvocationEntry) := none

/-- Reads a statement. -/
def StatementEntry.reader : R StatementEntry :=
  Format.record
    [ .optional "text" StatementDraft.text (fun v d => { d with text := some v }) Format.text,
      .optional "invoke" StatementDraft.invocation (fun v d => { d with invocation := some v })
        (Format.optional InvocationEntry.reader) ]
    {} fun d => do
      let text ← d.text
      return { text := text, invocation := d.invocation.getD none }

/-- Writes a statement. -/
def StatementEntry.toJson (s : StatementEntry) : Json :=
  .object (("text", .string s.text)
    :: optionalMember "invoke" InvocationEntry.toJson s.invocation)

/-! ## Methods and calls -/

/-- A method that is being read. -/
structure MethodDraft where
  signature : Option String := none
  className : Option String := none
  body : Option (List StatementEntry) := none

/-- Reads a method. -/
def MethodEntry.reader : R MethodEntry :=
  Format.record
    [ .optional "signature" MethodDraft.signature (fun v d => { d with signature := some v })
        Format.text,
      .optional "class" MethodDraft.className (fun v d => { d with className := some v })
        Format.text,
      .optional "body" MethodDraft.body (fun v d => { d with body := some v })
        (Format.list StatementEntry.reader) ]
    {} fun d => do
      let signature ← d.signature
      let className ← d.className
      return { signature := signature, className := className, body := d.body.getD [] }

/-- Writes a method. -/
def MethodEntry.toJson (m : MethodEntry) : Json :=
  .object [("signature", .string m.signature), ("class", .string m.className),
    ("body", .array (m.body.map StatementEntry.toJson))]

/-- A call that is being read. -/
structure CallDraft where
  caller : Option String := none
  callee : Option String := none

/-- Reads a call. -/
def CallEntry.reader : R CallEntry :=
  Format.record
    [ .optional "caller" CallDraft.caller (fun v d => { d with caller := some v }) Format.text,
      .optional "callee" CallDraft.callee (fun v d => { d with callee := some v }) Format.text ]
    {} fun d => do
      let caller ← d.caller
      let callee ← d.callee
      return { caller := caller, callee := callee }

/-- Writes a call. -/
def CallEntry.toJson (c : CallEntry) : Json :=
  .object [("caller", .string c.caller), ("callee", .string c.callee)]

/-! ## Models -/

/-- A model that is being read. -/
structure ModelDraft where
  classes : Option (List ClassEntry) := none
  methods : Option (List MethodEntry) := none
  calls : Option (List CallEntry) := none

/-- Reads a model. -/
def Model.reader : R Model :=
  Format.record
    [ .optional "classes" ModelDraft.classes (fun v d => { d with classes := some v })
        (Format.list ClassEntry.reader),
      .optional "methods" ModelDraft.methods (fun v d => { d with methods := some v })
        (Format.list MethodEntry.reader),
      .optional "call_edges" ModelDraft.calls (fun v d => { d with calls := some v })
        (Format.list CallEntry.reader) ]
    {} fun d => some {
      classes := d.classes.getD []
      methods := d.methods.getD []
      calls := d.calls.getD [] }

/-- Writes a model. -/
def Model.toJson (m : Model) : Json :=
  .object [("classes", .array (m.classes.map ClassEntry.toJson)),
    ("methods", .array (m.methods.map MethodEntry.toJson)),
    ("call_edges", .array (m.calls.map CallEntry.toJson))]

end KeywordAudit
