import KeywordAudit.Yaml.Source

/-!
# Plain scalars

A plain scalar goes on over line breaks as long as the text is indented.  Inside of it, blanks
are kept, a line break counts as a space, and further line breaks stay.
-/

namespace KeywordAudit
namespace Yaml

/-- What white space between two words of a scalar stands for: blanks without a line break for
themselves, one line break for a space, more of them for one less. -/
def gapText (gap : List Char) : List Char :=
  match gap.filter isBreak with
  | [] => gap
  | ['\n'] => [' ']
  | '\n' :: more => more
  | breaks => breaks

/-- A plain scalar that was read: its text, the rest, and whether a line break was passed after
the text. -/
structure PlainText where
  text : String
  rest : List Glyph
  lineEnded : Bool

/-- The characters that may not follow a colon inside of flow brackets. -/
def isFlowMark (c : Char) : Bool :=
  c == ',' || c == '?' || c == '[' || c == ']' || c == '\x7b' || c == '\x7d'

/-- The characters that end a plain scalar inside of flow brackets. -/
def isFlowIndicator (c : Char) : Bool := isFlowMark c && c != '?'

/-- Whether the colon in front is followed by a mark that may not stand there. -/
def atBadColon (inFlow : Bool) : List Glyph → Bool
  | g :: h :: _ => inFlow && g.char == ':' && isFlowMark h.char
  | _ => false

/-- Whether a plain scalar ends here, in the middle of a word. -/
def endsPlain (inFlow : Bool) : List Glyph → Bool
  | [] => true
  | g :: rest => (g.char == ':' && atGap rest) || (inFlow && isFlowIndicator g.char)

/-- Reads a plain scalar: `gap` holds the white space since the last word and `text` what came
before, both last one first.  `indent` is the least column of the lines that belong to it. -/
def plainFrom (inFlow : Bool) (indent : Nat) (gap text : List Char) :
    List Glyph → Option PlainText
  | [] => some ⟨String.ofList text.reverse, [], gap.any isBreak⟩
  | g :: rest =>
    if isSpace g.char then
      if g.char = '\t' && gap.any isBreak && g.column < indent then none
      else plainFrom inFlow indent (g.char :: gap) text rest
    else if (!gap.isEmpty && ((!inFlow && g.column < indent) || g.char = '#'))
        || (marker? (g :: rest)).isSome then
      some ⟨String.ofList text.reverse, g :: rest, gap.any isBreak⟩
    else if atBadColon inFlow (g :: rest) then none
    else if endsPlain inFlow (g :: rest) then
      some ⟨String.ofList text.reverse, g :: rest, gap.any isBreak⟩
    else plainFrom inFlow indent [] (g.char :: ((gapText gap.reverse).reverse ++ text)) rest

end Yaml
end KeywordAudit
