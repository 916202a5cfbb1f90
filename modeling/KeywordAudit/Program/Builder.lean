import Std.Data.HashMap
import KeywordAudit.Glob
import KeywordAudit.Log
import KeywordAudit.Program.CallGraph

/-!
# Building programs

A builder collects classes, methods and calls.  Names and signatures are looked up in two
indexes, and numbers once given stay valid.  `Builder.build` keeps the calls between known methods
whose caller's class is no synthetic entry class, whatever the order of the steps was.
-/

namespace KeywordAudit

/-- A finished program. -/
structure Program where
  classes : Array ClassDecl
  methods : Array Method
  signatures : Std.HashMap String MethodId
  calls : CallGraph

/-- The signatures of methods with their numbers. -/
def signatureEntries (methods : List Method) : List (String × MethodId) :=
  methods.zipIdx.map fun entry => (entry.1.signature, entry.2)

/-- The index of methods by signature.  Where methods share a signature, the last one counts. -/
def signatureIndex (methods : List Method) : Std.HashMap String MethodId :=
  Std.HashMap.ofList (signatureEntries methods)

/-- The program of classes, methods and calls. -/
def Program.ofParts (classes : Array ClassDecl) (methods : Array Method)
    (calls : List (MethodId × MethodId)) : Program where
  classes := classes
  methods := methods
  signatures := signatureIndex methods.toList
  calls := CallGraph.ofCalls methods.size calls

/-- A program under construction. -/
structure Builder where
  classes : Array ClassDecl := #[]
  classIndex : Std.HashMap String ClassId := ∅
  methods : Array Method := #[]
  methodIndex : Std.HashMap String MethodId := ∅
  calls : Array (MethodId × MethodId) := #[]
  synthetic : List String := []

/-- The one thing that a builder refuses: a second method of the same signature. -/
structure DuplicateMethod where
  signature : String
deriving DecidableEq, Repr, Inhabited

/-- The wording of the refusal. -/
def DuplicateMethod.message (e : DuplicateMethod) : String :=
  s!"Method declared twice: {e.signature}"

namespace Builder

/-- The builder without classes, methods, calls and patterns. -/
def empty : Builder := {}

instance : Inhabited Builder := ⟨empty⟩

/-! ## Steps -/

/-- Replaces the patterns of the synthetic entry classes. -/
def setSynthetic (b : Builder) (patterns : List String) : Builder :=
  { b with synthetic := patterns }

/-- Adds a class.  A known name keeps its number and its package, and the log says so if the
packages differ. -/
def addClass (b : Builder) (c : ClassDecl) : Builder × ClassId × List Event :=
  match b.classIndex[c.name]? with
  | some id =>
    match b.classes[id]? with
    | some known =>
      if known.package = c.package then (b, id, [])
      else (b, id, [.packageKept c.name c.package known.package])
    | none => (b, id, [])
  | none =>
    let id := b.classes.size
    ({ b with classes := b.classes.push c, classIndex := b.classIndex.insert c.name id }, id, [])

/-- The number of a class; a name that is not known is added. -/
def classNamed (b : Builder) (name : String) : Builder × ClassId :=
  match b.classIndex[name]? with
  | some id => (b, id)
  | none =>
    let (b, id, _) := b.addClass (.ofName name)
    (b, id)

/-- Adds a method, and its class if that is not known.  A known signature is refused. -/
def addMethod (b : Builder) (signature className : String) (body : List Statement) :
    Builder × Except DuplicateMethod MethodId :=
  if b.methodIndex.contains signature then (b, .error ⟨signature⟩)
  else
    let (b, owner) := b.classNamed className
    let id := b.methods.size
    ({ b with
      methods := b.methods.push ⟨signature, owner, body⟩
      methodIndex := b.methodIndex.insert signature id }, .ok id)

/-- Adds a call between two method numbers, known or not. -/
def addCall (b : Builder) (caller callee : MethodId) : Builder :=
  { b with calls := b.calls.push (caller, callee) }

/-- The number of a method. -/
def methodId (b : Builder) (signature : String) : Option MethodId :=
  b.methodIndex[signature]?

/-- Adds a call between two signatures; tells whether both are known. -/
def addCallBetween (b : Builder) (caller callee : String) : Builder × Bool × List Event :=
  match b.methodId caller, b.methodId callee with
  | some m, some n => (b.addCall m n, true, [])
  | _, _ => (b, false, [.callSkipped caller callee])

/-! ## Finishing -/

/-- What becomes of a recorded call. -/
inductive Verdict where
  | kept
  | outOfRange
  | synthetic (className : String)
deriving DecidableEq, Repr

/-- A call is kept when both numbers are known and the caller's class fits no pattern. -/
def verdict (b : Builder) (call : MethodId × MethodId) : Verdict :=
  match b.methods[call.1]? with
  | none => .outOfRange
  | some caller =>
    if b.methods.size ≤ call.2 then .outOfRange
    else match b.classes[caller.owner]? with
      | none => .kept
      | some c => if Glob.fitsAny b.synthetic c.name then .synthetic c.name else .kept

/-- The events that a recorded call gives rise to at the end. -/
def callEvents (b : Builder) (call : MethodId × MethodId) : List Event :=
  match b.verdict call with
  | .kept => []
  | .outOfRange => [.callOutOfRange call.1 call.2]
  | .synthetic className => [.syntheticCallDropped className]

/-- The calls that are kept. -/
def keptCalls (b : Builder) : List (MethodId × MethodId) :=
  b.calls.toList.filter fun call => b.verdict call = .kept

/-- Finishes the program. -/
def build (b : Builder) : Program × List Event :=
  (.ofParts b.classes b.methods b.keptCalls, b.calls.toList.flatMap b.callEvents)

end Builder

namespace Program

/-- The number of the method with the given signature. -/
def findMethod (p : Program) (signature : String) : Option MethodId :=
  p.signatures[signature]?

/-- The number of classes. -/
def classCount (p : Program) : Nat := p.classes.size

/-- The number of methods. -/
def methodCount (p : Program) : Nat := p.methods.size

/-- The number of statements in all bodies. -/
def statementCount (p : Program) : Nat :=
  p.methods.toList.foldr (fun m n => m.body.length + n) 0

/-- The number of distinct calls. -/
def callCount (p : Program) : Nat := p.calls.callCount

end Program
end KeywordAudit
