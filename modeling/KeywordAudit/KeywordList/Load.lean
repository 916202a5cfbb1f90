import KeywordAudit.FileTree
import KeywordAudit.KeywordList
import KeywordAudit.Log

/-!
# Keyword files
-/

namespace KeywordAudit

/-- Why keywords cannot be loaded. -/
inductive KeywordError where
  | unreadable (path : String) (cause : FileError)
deriving DecidableEq, Repr, Inhabited

/-- The wording of the error. -/
def KeywordError.message : KeywordError → String
  | unreadable path cause => s!"Failed to read keyword list {path}: {cause.message}"

/-- What the error comes from. -/
def KeywordError.cause : KeywordError → FileError
  | unreadable _ cause => cause

/-- Loads a keyword file. -/
def KeywordList.load (files : FileTree) (path : String) :
    Except KeywordError KeywordList × List Event :=
  match files.read path with
  | .error cause => (.error (.unreadable path cause), [])
  | .ok content =>
    let keywords := KeywordList.parse content
    (.ok keywords, [.keywordsRead keywords.size path])

end KeywordAudit
