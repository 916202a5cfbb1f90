import KeywordAudit.Text.Hex

/-!
# TOML texts

Texts stand between double quotes, where a backslash begins an escape, or between single quotes,
where nothing is special.  Three quotes on either side make a text of several lines: a line break
right behind the first three is dropped, and up to two quotes may stand before the last three.
-/

namespace KeywordAudit
namespace Toml

/-! ## Characters -/

/-- Spaces and tabs. -/
def isBlank (c : Char) : Bool := c == ' ' || c == '\t'

/-- The characters of remarks and texts: all but control characters other than the tab. -/
def isPlainChar (c : Char) : Bool := c == '\t' || (0x20 ≤ c.toNat && c.toNat != 0x7F)

/-- The rest after a line break, if one stands here. -/
def afterBreak? : List Char → Option (List Char)
  | '\n' :: rest => some rest
  | '\r' :: '\n' :: rest => some rest
  | _ => none

/-- The rest after a line break, or the whole if there is none. -/
def skipBreak (cs : List Char) : List Char := (afterBreak? cs).getD cs

/-- The character that a letter after a backslash stands for. -/
def escaped? : Char → Option Char
  | 'b' => some '\x08'
  | 't' => some '\t'
  | 'n' => some '\n'
  | 'f' => some '\x0c'
  | 'r' => some '\r'
  | '"' => some '"'
  | '\\' => some '\\'
  | _ => none

/-- How many hexadecimal digits follow a letter after a backslash. -/
def codeLength? : Char → Option Nat
  | 'u' => some 4
  | 'U' => some 8
  | _ => none

/-- Reads an escape behind its backslash: the character, and how many characters it takes. -/
def escape? : List Char → Option (Char × Nat)
  | [] => none
  | c :: rest =>
    match escaped? c, codeLength? c with
    | some e, _ => some (e, 1)
    | none, some count => do
      let code ← Text.hexNumber? count 0 rest
      let e ← Text.charOfCode? code
      return (e, count + 1)
    | none, none => none

/-! ## Texts of one line -/

/-- Reads the rest of a text between double quotes. -/
def basicFrom? (text : List Char) (cs : List Char) : Option (String × List Char) :=
  match cs with
  | [] => none
  | '"' :: rest => some (String.ofList text.reverse, rest)
  | '\\' :: rest =>
    match escape? rest with
    | some (c, count) => basicFrom? (c :: text) (rest.drop count)
    | none => none
  | c :: rest => if isPlainChar c then basicFrom? (c :: text) rest else none
termination_by cs.length

/-- Reads the rest of a text between single quotes. -/
def literalFrom? (text : List Char) : List Char → Option (String × List Char)
  | [] => none
  | '\'' :: rest => some (String.ofList text.reverse, rest)
  | c :: rest => if isPlainChar c then literalFrom? (c :: text) rest else none

/-! ## Texts of several lines -/

/-- The quotes that close a text of several lines, given how many stand together: those that
belong to the text and those that are taken. -/
def closingQuotes? (count : Nat) : Option (Nat × Nat) :=
  if count < 3 then none
  else
    let inner := min (count - 3) 2
    some (inner, inner + 3)

/-- The rest after blanks and line breaks. -/
def skipBlankLines : List Char → List Char
  | [] => []
  | '\r' :: '\n' :: rest => skipBlankLines rest
  | c :: rest => if isBlank c || c == '\n' then skipBlankLines rest else c :: rest

/-- If nothing but blanks follows a backslash on its line: the rest after all blanks and line
breaks. -/
def afterJoin? (cs : List Char) : Option (List Char) :=
  (afterBreak? (cs.dropWhile isBlank)).map skipBlankLines

/-- Reads the rest of a text of several lines; `quote` closes it, and only double quotes know
escapes.  Each round takes a character, so the number of characters bounds the rounds. -/
def linesFrom? (quote : Char) : (rounds : Nat) → (text : List Char) → List Char →
    Option (String × List Char)
  | 0, _, _ => none
  | _ + 1, _, [] => none
  | rounds + 1, text, c :: rest =>
    if c = quote then
      let quotes := (c :: rest).takeWhile (· = quote)
      match closingQuotes? quotes.length with
      | some (inner, taken) =>
        some (String.ofList (List.replicate inner quote ++ text).reverse, (c :: rest).drop taken)
      | none => linesFrom? quote rounds (quotes ++ text) ((c :: rest).drop quotes.length)
    else if c = '\\' && quote = '"' then
      match afterJoin? rest, escape? rest with
      | some rest, _ => linesFrom? quote rounds text rest
      | none, some (e, count) => linesFrom? quote rounds (e :: text) (rest.drop count)
      | none, none => none
    else match afterBreak? (c :: rest) with
      | some rest => linesFrom? quote rounds ('\n' :: text) rest
      | none => if isPlainChar c then linesFrom? quote rounds (c :: text) rest else none

/-! ## All texts -/

/-- Reads a text of one line. -/
def lineText? : List Char → Option (String × List Char)
  | '"' :: rest => basicFrom? [] rest
  | '\'' :: rest => literalFrom? [] rest
  | _ => none

/-- Reads a text. -/
def text? : List Char → Option (String × List Char)
  | '"' :: '"' :: '"' :: rest => linesFrom? '"' (rest.length + 1) [] (skipBreak rest)
  | '\'' :: '\'' :: '\'' :: rest => linesFrom? '\'' (rest.length + 1) [] (skipBreak rest)
  | cs => lineText? cs

end Toml
end KeywordAudit
