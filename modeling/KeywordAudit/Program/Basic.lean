import KeywordAudit.Text.Cut

/-!
# Programs as data

The pieces of an analysed program: classes, methods and their statements.  Classes and methods
are numbered in the order of their declaration, and the rest of the library refers to them by
number.
-/

namespace KeywordAudit

/-- The number of a class, counted from zero in declaration order. -/
abbrev ClassId := Nat

/-- The number of a method, counted from zero in declaration order. -/
abbrev MethodId := Nat

/-- The label that stands for a method whose signature is not known. -/
def methodLabel (id : MethodId) : String := s!"m{id}"

/-! ## Classes -/

/-- A class and the package it belongs to. -/
structure ClassDecl where
  name : String
  package : String
deriving DecidableEq, Repr, Inhabited

/-- The package part of a qualified name: what stands before its last dot. -/
def packageOf (name : String) : String :=
  match Text.cutLast '.' name.toList with
  | some (before, _) => String.ofList before
  | none => ""

namespace ClassDecl

/-- The class of a qualified name, in the package that its name says. -/
def ofName (name : String) : ClassDecl := ⟨name, packageOf name⟩

/-- The class of a name, in the given package or else in the one that its name says. -/
def ofEntry (name : String) (package : Option String) : ClassDecl :=
  ⟨name, package.getD (packageOf name)⟩

/-- The name of a class without its package: what stands after its last dot. -/
def simpleName (c : ClassDecl) : String :=
  match Text.cutLast '.' c.name.toList with
  | some (_, after) => String.ofList after
  | none => c.name

end ClassDecl

/-! ## Statements and methods -/

/-- The call that a statement makes: its target, whether the target is an interesting interface,
and whether it belongs to a library. -/
structure Invocation where
  target : String
  interesting : Bool
  library : Bool
deriving DecidableEq, Repr, Inhabited

/-- A statement: its text and the call it makes, if any. -/
structure Statement where
  text : String
  invocation : Option Invocation
deriving DecidableEq, Repr, Inhabited

/-- A method: its signature, its declaring class and its body. -/
structure Method where
  signature : String
  owner : ClassId
  body : List Statement
deriving DecidableEq, Repr, Inhabited

end KeywordAudit
