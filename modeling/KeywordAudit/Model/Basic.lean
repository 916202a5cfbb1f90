/-!
# Program models

A model lists the classes, the methods with their statements, and the calls of a program, as they
are written in a file.  Methods and classes are referred to by name.
-/

namespace KeywordAudit

/-- A class of a model; without a package, its name tells it. -/
structure ClassEntry where
  name : String
  package : Option String := none
deriving DecidableEq, Repr, Inhabited

/-- A call in a statement; flags that are absent are left to the classification. -/
structure InvocationEntry where
  target : String
  interesting : Option Bool := none
  library : Option Bool := none
deriving DecidableEq, Repr, Inhabited

/-- A statement of a model. -/
structure StatementEntry where
  text : String
  invocation : Option InvocationEntry := none
deriving DecidableEq, Repr, Inhabited

/-- A method of a model. -/
structure MethodEntry where
  signature : String
  className : String
  body : List StatementEntry := []
deriving DecidableEq, Repr, Inhabited

/-- A call between two methods of a model. -/
structure CallEntry where
  caller : String
  callee : String
deriving DecidableEq, Repr, Inhabited

/-- A program model. -/
structure Model where
  classes : List ClassEntry := []
  methods : List MethodEntry := []
  calls : List CallEntry := []
deriving DecidableEq, Repr, Inhabited

end KeywordAudit
