/-!
# Tokens of YAML

The words of the language: what stands between the indentation of a YAML text and its documents.
Beginnings and ends of block collections are tokens too, although no character stands for them.
-/

namespace KeywordAudit
namespace Yaml

/-- How a scalar is written. -/
inductive Style where
  | plain
  | singleQuoted
  | doubleQuoted
  | literal
  | folded
deriving DecidableEq, Repr, Inhabited

/-- A word of YAML. -/
inductive Token where
  | version (major minor : Nat)
  | tagHandle (handle expansion : String)
  | documentStart
  | documentEnd
  | blockSequence
  | blockMapping
  | blockEnd
  | openSequence
  | closeSequence
  | openMapping
  | closeMapping
  | blockEntry
  | flowEntry
  | key
  | value
  | reference (name : String)
  | anchor (name : String)
  | tag (handle suffix : String)
  | scalar (text : String) (style : Style)
deriving DecidableEq, Repr, Inhabited

end Yaml
end KeywordAudit
