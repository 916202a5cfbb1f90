/-!
# Lines

A line ends at a line feed.  A carriage return right before the line feed belongs to the line
end, and an empty last line is no line.
-/

namespace KeywordAudit.Text

/-- A line without the carriage return that stands right before its line feed. -/
def dropReturn : List Char → List Char
  | [] => []
  | ['\r'] => []
  | c :: cs => c :: dropReturn cs

/-- The lines of a text; `line` holds the characters of the current line, last one first. -/
def linesFrom (line : List Char) : List Char → List (List Char)
  | [] => if line.isEmpty then [] else [line.reverse]
  | c :: cs =>
    if c = '\n' then dropReturn line.reverse :: linesFrom [] cs
    else linesFrom (c :: line) cs

/-- The lines of a text. -/
def lines (cs : List Char) : List (List Char) :=
  linesFrom [] cs

example : lines "a\r\n\nb\r".toList = ["a".toList, [], "b\r".toList] := by decide
example : lines "a\n".toList = ["a".toList] := by decide

end KeywordAudit.Text
