import KeywordAudit.Program.Basic

/-!
# Log events

What the library reports while it works.  An event is a value; its severity and its wording are
functions of it.
-/

namespace KeywordAudit

/-- How severe an event is. -/
inductive Level where
  | error
  | warn
  | info
  | debug
  | trace
deriving DecidableEq, Repr, Inhabited

namespace Level

/-- The place of a level, the most severe first. -/
def rank : Level → Nat
  | error => 0
  | warn => 1
  | info => 2
  | debug => 3
  | trace => 4

/-- The name that is printed in front of a message. -/
def label : Level → String
  | error => "ERROR"
  | warn => "WARN"
  | info => "INFO"
  | debug => "DEBUG"
  | trace => "TRACE"

end Level

/-- Something worth a line in the log. -/
inductive Event where
  /-- The program has started. -/
  | started (version : String)
  /-- The named model file is about to be read. -/
  | loadingModel (path : String)
  /-- A model file was read. -/
  | modelRead (path : String)
  /-- A program was built from a model. -/
  | modelBuilt (classes methods statements calls : Nat)
  /-- A class was declared again with another package. -/
  | packageKept (name given kept : String)
  /-- A call names a signature that no method has. -/
  | callSkipped (caller callee : String)
  /-- A call names a method number that no method has. -/
  | callOutOfRange (caller callee : MethodId)
  /-- A call comes from a class that only stands for the platform. -/
  | syntheticCallDropped (name : String)
  /-- How many calls were skipped for their signatures. -/
  | callsSkipped (count : Nat)
  /-- A keyword file was read. -/
  | keywordsRead (count : Nat) (path : String)
  /-- The keywords are at hand. -/
  | keywordsLoaded (count : Nat)
  /-- A keyword stands in a package name. -/
  | keywordInPackage (keyword package : String)
  /-- A keyword stands in an eligible statement. -/
  | hit (keyword signature text : String)
  /-- All methods were inspected. -/
  | inspected (hits keywords packageKeywords : Nat)
  /-- The search from one method is done. -/
  | rootsFound (count : Nat) (method : MethodId)
  /-- A root caller has no declaring class. -/
  | rootWithoutClass (method : MethodId)
  /-- All hits were traced to their root callers. -/
  | resolved (methods classes : Nat)
deriving DecidableEq, Repr, Inhabited

/-- A control character: it has no shape of its own. -/
def isControl (c : Char) : Bool := c.toNat < 0x20 || 0x7f ≤ c.toNat && c.toNat < 0xa0

/-- A character between double quotes: what would end or break the text is escaped, and the other
control characters are given by their codes. -/
def quotedChar : Char → List Char
  | '"' => ['\\', '"']
  | '\\' => ['\\', '\\']
  | '\n' => ['\\', 'n']
  | '\r' => ['\\', 'r']
  | '\t' => ['\\', 't']
  | '\x00' => ['\\', '0']
  | c =>
    if isControl c then ['\\', 'u', '\x7b'] ++ Nat.toDigits 16 c.toNat ++ ['\x7d'] else [c]

/-- A path in double quotes. -/
def quotedPath (path : String) : String :=
  String.ofList ('"' :: path.toList.flatMap quotedChar ++ ['"'])

namespace Event

/-- How severe an event is. -/
def level : Event → Level
  | packageKept .. | callSkipped .. | callOutOfRange .. => .warn
  | started .. | loadingModel .. | modelRead .. | modelBuilt .. | keywordsLoaded ..
  | inspected .. | resolved .. => .info
  | syntheticCallDropped .. | callsSkipped .. | keywordsRead .. | hit .. | rootsFound ..
  | rootWithoutClass .. => .debug
  | keywordInPackage .. => .trace

/-- The wording of an event. -/
def message : Event → String
  | started version => s!"keywordtrace v{version}"
  | loadingModel path => s!"Loading program model from {quotedPath path}..."
  | modelRead path => s!"Loaded program model from {path}"
  | modelBuilt classes methods statements calls =>
    s!"Program model: {classes} classes, {methods} methods, " ++
      s!"{statements} statements, {calls} call edges"
  | packageKept name given kept =>
    s!"Class {name} declared with package '{given}', keeping '{kept}'"
  | callSkipped caller callee => s!"Skipping call edge with unknown method: {caller} -> {callee}"
  | callOutOfRange caller callee =>
    s!"Skipping call edge with unknown method: {methodLabel caller} -> {methodLabel callee}"
  | syntheticCallDropped name => s!"Dropping edge from synthetic entry class {name}"
  | callsSkipped count => s!"Skipped {count} call edges with unknown endpoints"
  | keywordsRead count path => s!"Loaded {count} keywords from {path}"
  | keywordsLoaded count => s!"Loaded {count} keywords"
  | keywordInPackage keyword package => s!"Keyword '{keyword}' in package {package}"
  | hit keyword signature text => s!"Hit '{keyword}' in {signature}: {text}"
  | inspected hits keywords packageKeywords =>
    s!"Keyword inspection: {hits} hits, {keywords} distinct keywords, " ++
      s!"{packageKeywords} keywords in packages"
  | rootsFound count method => s!"{count} root callers for {methodLabel method}"
  | rootWithoutClass method => s!"Root caller {methodLabel method} has no declaring class"
  | resolved methods classes =>
    s!"Root caller resolution: {methods} methods traced, {classes} root caller classes"

/-- The log line of an event: its level and its wording. -/
def line (e : Event) : String := s!"{e.level.label} {e.message}"

end Event

/-- The log lines of the events at the given level or a more severe one. -/
def logLines (threshold : Level) (events : List Event) : List String :=
  (events.filter fun e => e.level.rank ≤ threshold.rank).map Event.line

end KeywordAudit
