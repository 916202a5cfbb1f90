/-!
# Name patterns

A pattern names a class exactly, or all classes that begin or end in a given way.  The star
stands for any text and is understood as the first or the last character only: elsewhere it is a
character like any other.
-/

namespace KeywordAudit

/-- What a pattern asks of a name. -/
inductive Glob where
  /-- Any name. -/
  | anything
  /-- The names that end in the given text. -/
  | ending (tail : List Char)
  /-- The names that begin with the given text. -/
  | starting (stem : List Char)
  /-- The given name only. -/
  | exactly (name : List Char)
deriving DecidableEq, Repr

namespace Glob

/-- Reads a pattern.  A star in front is looked at before a star at the end. -/
def ofChars (pattern : List Char) : Glob :=
  match pattern with
  | ['*'] => anything
  | '*' :: tail => ending tail
  | _ =>
    match pattern.reverse with
    | '*' :: stem => starting stem.reverse
    | _ => exactly pattern

/-- Whether a name is one of those asked for. -/
def accepts : Glob → List Char → Bool
  | anything, _ => true
  | ending tail, name => tail.isSuffixOf name
  | starting stem, name => stem.isPrefixOf name
  | exactly name, other => name == other

/-- Whether the text fits the pattern. -/
def fits (pattern text : String) : Bool :=
  (ofChars pattern.toList).accepts text.toList

/-- Whether the text fits one of the patterns. -/
def fitsAny (patterns : List String) (text : String) : Bool :=
  patterns.any (fits · text)

/-- A text fits none of the patterns if it fits not one of them. -/
theorem fitsAny_eq_false {patterns : List String} {text : String} :
    fitsAny patterns text = false ↔ ∀ pattern ∈ patterns, fits pattern text = false := by
  rw [fitsAny, List.any_eq_false]
  simp only [Bool.not_eq_true]

end Glob
end KeywordAudit
