/-!
# Coloured text

A line of a terminal report is a list of spans, each with an ink.  With colours on, a span stands
between the control sequence of its ink and the one that ends all inks; wherever the text itself
ends all inks, its own is taken up again.
-/

namespace KeywordAudit

/-- The strength of a text. -/
inductive Weight where
  | normal
  | bold
  | dimmed
deriving DecidableEq, Repr, Inhabited

/-- The colour of a text. -/
inductive Colour where
  | red
  | green
  | yellow
  | cyan
  | white
deriving DecidableEq, Repr, Inhabited

/-- How a text is shown. -/
structure Ink where
  weight : Weight := .normal
  colour : Option Colour := none
deriving DecidableEq, Repr, Inhabited

namespace Ink

/-- The ink of text that has none. -/
def plain : Ink := {}

/-- The code of a strength. -/
def weightCodes : Weight → List String
  | .normal => []
  | .bold => ["1"]
  | .dimmed => ["2"]

/-- The code of a colour. -/
def colourCode : Colour → String
  | .red => "31"
  | .green => "32"
  | .yellow => "33"
  | .cyan => "36"
  | .white => "37"

/-- The codes of an ink, strength before colour. -/
def codes (ink : Ink) : List String :=
  weightCodes ink.weight ++ (ink.colour.map colourCode).toList

/-- The control sequence of codes. -/
def sequence (codes : List String) : List Char :=
  '\x1b' :: '[' :: ((String.intercalate ";" codes).toList ++ ['m'])

/-- Takes an ink up again behind each sequence that ends all inks. -/
def reopen (opening : List Char) : List Char → List Char
  | [] => []
  | '\x1b' :: '[' :: '0' :: 'm' :: rest =>
    sequence ["0"] ++ opening ++ reopen opening rest
  | c :: rest => c :: reopen opening rest

/-- A text in an ink. -/
def paint (ink : Ink) (text : String) : String :=
  if ink = plain then text
  else
    let opening := sequence ink.codes
    String.ofList (opening ++ reopen opening text.toList ++ sequence ["0"])

end Ink

/-- A piece of a line. -/
structure Span where
  text : String
  ink : Ink := Ink.plain
deriving DecidableEq, Repr, Inhabited

/-- A line of a terminal report. -/
abbrev Line := List Span

namespace Line

/-- The line of a single span. -/
def single (text : String) (ink : Ink) : Line := [⟨text, ink⟩]

/-- The line without text. -/
def blank : Line := []

/-- Writes a line, with or without colours, and ends it. -/
def render (coloured : Bool) (line : Line) : String :=
  String.join (line.map fun s => if coloured then s.ink.paint s.text else s.text) ++ "\n"

/-- Writes lines, with or without colours. -/
def renderAll (coloured : Bool) (lines : List Line) : String :=
  String.join (lines.map (render coloured))

end Line
end KeywordAudit
