import KeywordAudit.Json.Reader.Basic
import KeywordAudit.Numeral

/-!
# Numbers in JSON
-/

namespace KeywordAudit
namespace Json
namespace Reader

/-- Whether a character is a decimal digit. -/
def isDigit (c : Char) : Bool := '0' ≤ c && c ≤ '9'

/-- The digits in front and the rest. -/
def digits (input : List Char) : List Char × Rest input :=
  (input.takeWhile isDigit, ⟨input.dropWhile isDigit, (List.dropWhile_sublist isDigit).length_le⟩)

/-- Takes the fraction of a number, if there is one. -/
def fractionPart (input : List Char) : Except Fault (List Char × Rest input) :=
  match input with
  | '.' :: more =>
    match digits more with
    | ([], _) => if more.isEmpty then .error .endOfInput else .error .malformed
    | (ds, after) => .ok (ds, after.tail)
  | _ => .ok ([], .all)

/-- Takes the digits of an exponent. -/
def exponentDigits (input : List Char) : Except Fault (List Char × Rest input) :=
  match input with
  | [] => .error .endOfInput
  | c :: more => if isDigit c then .ok (digits (c :: more)) else .error .malformed

/-- Takes the exponent of a number, if there is one: whether it is negative, and its digits. -/
def exponentPart (input : List Char) : Except Fault (Bool × List Char × Rest input) :=
  match input with
  | c :: more =>
    if c = 'e' ∨ c = 'E' then
      match more with
      | '-' :: more' => (exponentDigits more').map fun (ds, after) => (true, ds, after.tail.tail)
      | '+' :: more' => (exponentDigits more').map fun (ds, after) => (false, ds, after.tail.tail)
      | more => (exponentDigits more).map fun (ds, after) => (false, ds, after.tail)
    else .ok (false, [], .all)
  | [] => .ok (false, [], .all)

/-- Takes a number without sign that begins with the given character. -/
def numeral (first : Char) (rest : List Char) : Except Fault (Numeral × Rest rest) :=
  if !isDigit first then .error .malformed
  else
    let (more, after) := digits rest
    if first = '0' && !more.isEmpty then .error .malformed
    else do
      let (fraction, after') ← fractionPart after.val
      let (negative, exponent, after'') ← exponentPart after'.val
      return (⟨first :: more, fraction, negative, exponent⟩, after.of (after'.of after''))

/-- Takes a number after its minus sign. -/
def negatedNumeral (input : List Char) : Except Fault (Numeral × Rest input) :=
  match input with
  | [] => .error .endOfInput
  | d :: more => (numeral d more).map fun (n, after) => (n, after.tail)

end Reader
end Json
end KeywordAudit
