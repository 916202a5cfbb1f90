import KeywordAudit.Text.Hex
import KeywordAudit.Yaml.Scalar.Plain

/-!
# Quoted scalars

Between single quotes, a quote is written twice and nothing else is special.  Between double
quotes, a backslash begins an escape.  White space is folded as in plain scalars, except that a
line break after a backslash stands for nothing.
-/

namespace KeywordAudit
namespace Yaml

/-- What white space inside of quotes stands for; `escaped` says that the first line break came
after a backslash. -/
def quotedGap (escaped : Bool) (gap : List Char) : List Char :=
  if escaped then gap.filter isBreak else gapText gap

/-- Puts the white space before a word to the text, both last character first. -/
def closeGap (escaped : Bool) (gap text : List Char) : List Char :=
  (quotedGap escaped gap.reverse).reverse ++ text

/-- Reads the rest of a scalar between single quotes. -/
def singleQuotedFrom (gap text : List Char) : List Glyph → Option (String × List Glyph)
  | [] => none
  | g :: rest =>
    if isSpace g.char then singleQuotedFrom (g.char :: gap) text rest
    else if (marker? (g :: rest)).isSome then none
    else
      let text := closeGap false gap text
      if g.char = '\'' then
        match rest with
        | h :: rest' =>
          if h.char = '\'' then singleQuotedFrom [] ('\'' :: text) rest'
          else some (String.ofList text.reverse, h :: rest')
        | [] => some (String.ofList text.reverse, [])
      else singleQuotedFrom [] (g.char :: text) rest

/-- The character that a letter after a backslash stands for. -/
def escaped? : Char → Option Char
  | '0' => some '\x00'
  | 'a' => some '\x07'
  | 'b' => some '\x08'
  | 't' => some '\t'
  | '\t' => some '\t'
  | 'n' => some '\n'
  | 'v' => some '\x0b'
  | 'f' => some '\x0c'
  | 'r' => some '\r'
  | 'e' => some '\x1b'
  | ' ' => some ' '
  | '"' => some '"'
  | '/' => some '/'
  | '\\' => some '\\'
  | 'N' => some '\x85'
  | '_' => some '\xa0'
  | 'L' => some '\u2028'
  | 'P' => some '\u2029'
  | _ => none

/-- How many hexadecimal digits follow a letter after a backslash. -/
def codeLength? : Char → Option Nat
  | 'x' => some 2
  | 'u' => some 4
  | 'U' => some 8
  | _ => none

/-- Reads the rest of a scalar between double quotes. -/
def doubleQuotedFrom (escaped : Bool) (gap text : List Char) (gs : List Glyph) :
    Option (String × List Glyph) :=
  match gs with
  | [] => none
  | g :: rest =>
    if isSpace g.char then doubleQuotedFrom escaped (g.char :: gap) text rest
    else if (marker? (g :: rest)).isSome then none
    else
      let text := closeGap escaped gap text
      if g.char = '"' then some (String.ofList text.reverse, rest)
      else if g.char = '\\' then
        match rest with
        | [] => none
        | h :: rest' =>
          if isBreak h.char then doubleQuotedFrom true [] text rest'
          else match escaped? h.char, codeLength? h.char with
            | some c, _ => doubleQuotedFrom false [] (c :: text) rest'
            | none, some count =>
              let code := Text.hexNumber? count 0 ((rest'.take count).map Glyph.char)
              match code.bind Text.charOfCode? with
              | some c => doubleQuotedFrom false [] (c :: text) (rest'.drop count)
              | none => none
            | none, none => none
      else doubleQuotedFrom false [] (g.char :: text) rest
termination_by gs.length

end Yaml
end KeywordAudit
