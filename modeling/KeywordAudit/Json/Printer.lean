import KeywordAudit.Json.Value

/-!
# Writing JSON

Two layouts: on one line without blanks, and with one entry a line and two blanks for each level.
A text escapes the double quote, the backslash and the control characters below the space, the
common ones by a letter and the others by their code in four lower case hexadecimal digits.
-/

namespace KeywordAudit
namespace Json

/-! ## Texts -/

/-- A hexadecimal digit in lower case. -/
def hexDigit (n : Nat) : Char :=
  if n < 10 then Char.ofNat (48 + n) else Char.ofNat (87 + n)

/-- How a character is written inside a text. -/
def escapeChar (c : Char) : List Char :=
  match c with
  | '"' => ['\\', '"']
  | '\\' => ['\\', '\\']
  | '\n' => ['\\', 'n']
  | '\r' => ['\\', 'r']
  | '\t' => ['\\', 't']
  | '\x08' => ['\\', 'b']
  | '\x0c' => ['\\', 'f']
  | c =>
    if c.toNat < 32 then ['\\', 'u', '0', '0', hexDigit (c.toNat / 16), hexDigit (c.toNat % 16)]
    else [c]

/-- A text in double quotes. -/
def quote (s : String) : String :=
  String.ofList ('"' :: (s.toList.flatMap escapeChar ++ ['"']))

example : quote "a\"\n\x1b" = "\"a\\\"\\n\\u001b\"" := by decide

/-! ## One line -/

mutual

/-- Writes a value on one line without blanks. -/
def compact : Json → String
  | .null => "null"
  | .bool b => if b then "true" else "false"
  | .number literal => literal
  | .string s => quote s
  | .array xs => "[" ++ String.intercalate "," (compactElements xs) ++ "]"
  | .object entries => "\x7b" ++ String.intercalate "," (compactMembers entries) ++ "\x7d"

/-- The written elements of an array. -/
def compactElements : List Json → List String
  | [] => []
  | x :: xs => compact x :: compactElements xs

/-- The written members of an object. -/
def compactMembers : List (String × Json) → List String
  | [] => []
  | (key, value) :: rest => (quote key ++ ":" ++ compact value) :: compactMembers rest

end

/-! ## One entry a line -/

/-- The start of a line at the given level. -/
def indentation (level : Nat) : String :=
  String.ofList (List.replicate (2 * level) ' ')

/-- Entries between brackets, one a line; without entries the brackets stand together. -/
def block (level : Nat) (opening closing : String) (entries : List String) : String :=
  if entries.isEmpty then opening ++ closing
  else
    let separator := ",\n" ++ indentation (level + 1)
    opening ++ "\n" ++ indentation (level + 1) ++ String.intercalate separator entries
      ++ "\n" ++ indentation level ++ closing

mutual

/-- Writes a value with one entry a line, at the given level. -/
def prettyAt (level : Nat) : Json → String
  | .null => "null"
  | .bool b => if b then "true" else "false"
  | .number literal => literal
  | .string s => quote s
  | .array xs => block level "[" "]" (prettyElements (level + 1) xs)
  | .object entries => block level "\x7b" "\x7d" (prettyMembers (level + 1) entries)

/-- The written elements of an array. -/
def prettyElements (level : Nat) : List Json → List String
  | [] => []
  | x :: xs => prettyAt level x :: prettyElements level xs

/-- The written members of an object. -/
def prettyMembers (level : Nat) : List (String × Json) → List String
  | [] => []
  | (key, value) :: rest =>
    (quote key ++ ": " ++ prettyAt level value) :: prettyMembers level rest

end

/-- Writes a value with one entry a line. -/
def pretty (v : Json) : String := prettyAt 0 v

end Json
end KeywordAudit
