import KeywordAudit.Text.Blank
import KeywordAudit.Text.Cut

/-!
# Method descriptors

A method is named by a descriptor such as `<com.example.App: void run(int,long)>`: the declaring
class, the return type, the method's name and its parameter types.  `Descriptor.parse?` reads a
whole descriptor and `Descriptor.classOf?` only its class, for texts that break off later.
-/

namespace KeywordAudit

open Text

/-- The parts of a method descriptor. -/
structure Descriptor where
  className : String
  returnType : String
  name : String
  parameters : List String
deriving DecidableEq, Repr, Inhabited

namespace Descriptor

/-- The text between the angle brackets, which must be the outermost characters. -/
def inner? (cs : List Char) : Option (List Char) :=
  match trimChars cs with
  | '<' :: rest =>
    match rest.reverse with
    | '>' :: inside => some inside.reverse
    | _ => none
  | _ => none

/-- The parameter types: the comma separated pieces that are not blank, trimmed. -/
def parameterTypes (cs : List Char) : List String :=
  ((pieces ',' cs).map trimChars).filterMap fun piece =>
    if piece.isEmpty then none else some (String.ofList piece)

/-- Reads the part after the class: return type, name and parameter list. -/
def parseCall? (cs : List Char) : Option (String × String × List String) := do
  let (returnType, call) ← cutFirst ' ' (trimChars cs)
  let (name, rest) ← cutFirst '(' call
  let (parameters, _) ← cutLast ')' rest
  if (trimChars name).isEmpty then none
  else some (String.ofList (trimChars returnType), String.ofList (trimChars name),
    parameterTypes parameters)

/-- Reads a descriptor. -/
def parse? (s : String) : Option Descriptor := do
  let inside ← inner? s.toList
  let (className, rest) ← cutFirst ':' inside
  let (returnType, name, parameters) ← parseCall? rest
  if (trimChars className).isEmpty then none
  else some ⟨String.ofList (trimChars className), returnType, name, parameters⟩

/-- The class that a text names between its first `<` and its first `:`. -/
def classOf? (s : String) : Option String :=
  match trimChars s.toList with
  | '<' :: rest => do
    let (className, _) ← cutFirst ':' rest
    let className := trimChars className
    if className.isEmpty then none else some (String.ofList className)
  | _ => none

/-- Writes a descriptor. -/
def render (d : Descriptor) : String :=
  "<" ++ d.className ++ ": " ++ d.returnType ++ " " ++ d.name
    ++ "(" ++ String.intercalate "," d.parameters ++ ")>"

end Descriptor
end KeywordAudit
