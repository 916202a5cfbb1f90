import KeywordAudit.Numeral
import KeywordAudit.Text.Hex
import KeywordAudit.Toml.Value

/-!
# TOML numbers, dates and times

A number or a date is checked, but only the fact that it stands there is kept.  Each reader gives
the rest of the input.  Digits may be divided by single underscores.
-/

namespace KeywordAudit
namespace Toml

/-! ## Digits -/

/-- The rest after a given character. -/
def after? (expected : Char) : List Char → Option (List Char)
  | [] => none
  | c :: rest => if c = expected then some rest else none

/-- Takes the further digits of a number, each of which may have an underscore before it. -/
def moreDigits? (isDigit : Char → Bool) (digits : List Char) :
    List Char → Option (List Char × List Char)
  | '_' :: d :: rest => if isDigit d then moreDigits? isDigit (d :: digits) rest else none
  | ['_'] => none
  | c :: rest =>
    if isDigit c then moreDigits? isDigit (c :: digits) rest else some (digits.reverse, c :: rest)
  | [] => some (digits.reverse, [])

/-- Takes the digits of a number, of which there is at least one. -/
def digits? (isDigit : Char → Bool) : List Char → Option (List Char × List Char)
  | [] => none
  | c :: rest => if isDigit c then moreDigits? isDigit [c] rest else none

/-- Takes a sign, if there is one; tells whether it is a minus. -/
def takeSign : List Char → Bool × List Char
  | '+' :: rest => (false, rest)
  | '-' :: rest => (true, rest)
  | rest => (false, rest)

/-- Takes the digits of a decimal number, which begins with a zero only if it is zero. -/
def wholeDigits? : List Char → Option (List Char × List Char)
  | '0' :: rest => some (['0'], rest)
  | cs => digits? Char.isDigit cs

/-! ## Integers -/

/-- The number of digits in a base. -/
def valueInBase (base : Nat) (digits : List Char) : Nat :=
  digits.foldl (fun n d => n * base + (Text.hexValue? d).getD 0) 0

/-- The least number that is too large for a signed integer of 64 bits. -/
def integerBound : Nat := 0x8000000000000000

/-- Reads an integer in a base other than ten, behind its mark. -/
def basedInteger? (base : Nat) (cs : List Char) : Option (List Char) := do
  let (digits, rest) ← digits? (fun c => (Text.hexValue? c).any (· < base)) cs
  if valueInBase base digits < integerBound then some rest else none

/-- Reads a decimal integer of 64 bits with its sign. -/
def decimalInteger? (cs : List Char) : Option (List Char) := do
  let (negative, cs) := takeSign cs
  let (digits, rest) ← wholeDigits? cs
  let value := valueInBase 10 digits
  if value < integerBound || (negative && value = integerBound) then some rest else none

/-- Reads an integer. -/
def integer? : List Char → Option (List Char)
  | '0' :: 'x' :: rest => basedInteger? 16 rest
  | '0' :: 'o' :: rest => basedInteger? 8 rest
  | '0' :: 'b' :: rest => basedInteger? 2 rest
  | cs => decimalInteger? cs

/-! ## Fractions -/

/-- Reads the exponent of a number: whether it is negative, and its digits. -/
def exponent? : List Char → Option (Bool × List Char × List Char)
  | c :: rest =>
    if c = 'e' ∨ c = 'E' then do
      let (negative, rest) := takeSign rest
      let (digits, rest) ← digits? Char.isDigit rest
      return (negative, digits, rest)
    else none
  | [] => none

/-- Whether the input goes on with the mark of an exponent. -/
def atExponent (cs : List Char) : Bool := cs.head? = some 'e' || cs.head? = some 'E'

/-- Reads a number with a fraction or an exponent.  A positive number must not be too large. -/
def fraction? (cs : List Char) : Option (List Char) := do
  let (negative, cs) := takeSign cs
  let (whole, rest) ← wholeDigits? cs
  let (numeral, rest) ←
    match rest with
    | '.' :: rest => do
      let (fraction, rest) ← digits? Char.isDigit rest
      if atExponent rest then
        let (down, exponent, rest) ← exponent? rest
        some ((⟨whole, fraction, down, exponent⟩ : Numeral), rest)
      else some ((⟨whole, fraction, false, []⟩ : Numeral), rest)
    | rest => do
      let (down, exponent, rest) ← exponent? rest
      some ((⟨whole, [], down, exponent⟩ : Numeral), rest)
  if !negative && numeral.isTooLarge then none else some rest

/-- Reads one of the two numbers that are words. -/
def specialNumber? (cs : List Char) : Option (List Char) :=
  match (takeSign cs).2 with
  | 'i' :: 'n' :: 'f' :: rest => some rest
  | 'n' :: 'a' :: 'n' :: rest => some rest
  | _ => none

/-! ## Dates and times -/

/-- Takes a number of the given count of digits. -/
def fixedNumber? : (count : Nat) → (value : Nat) → List Char → Option (Nat × List Char)
  | 0, value, rest => some (value, rest)
  | _ + 1, _, [] => none
  | count + 1, value, c :: rest =>
    if c.isDigit then fixedNumber? count (value * 10 + (c.toNat - 48)) rest else none

/-- Takes a number of two digits up to a bound. -/
def twoDigits? (bound : Nat) (cs : List Char) : Option (Nat × List Char) :=
  (fixedNumber? 2 0 cs).filter fun (n, _) => n ≤ bound

/-- Whether a year has a leap day. -/
def isLeapYear (year : Nat) : Bool := year % 4 = 0 && (year % 100 ≠ 0 || year % 400 = 0)

/-- The number of days of a month. -/
def daysIn (year month : Nat) : Nat :=
  if month = 2 then (if isLeapYear year then 29 else 28)
  else if month = 4 || month = 6 || month = 9 || month = 11 then 30
  else 31

/-- Reads a date. -/
def date? (cs : List Char) : Option (List Char) := do
  let (year, rest) ← fixedNumber? 4 0 cs
  let rest ← after? '-' rest
  let (month, rest) ← twoDigits? 12 rest
  let rest ← after? '-' rest
  let (day, rest) ← twoDigits? 31 rest
  if month = 0 || day = 0 || daysIn year month < day then none else some rest

/-- Drops the fraction of a second, if there is one. -/
def skipSecondFraction : List Char → List Char
  | '.' :: d :: rest => if d.isDigit then rest.dropWhile Char.isDigit else '.' :: d :: rest
  | rest => rest

/-- Reads a time of the day. -/
def time? (cs : List Char) : Option (List Char) := do
  let (_, rest) ← twoDigits? 23 cs
  let rest ← after? ':' rest
  let (_, rest) ← twoDigits? 59 rest
  let rest ← after? ':' rest
  let (_, rest) ← twoDigits? 60 rest
  return skipSecondFraction rest

/-- Reads the distance from universal time, if one is given. -/
def offset? : List Char → Option (List Char)
  | [] => some []
  | c :: rest =>
    if c = 'Z' ∨ c = 'z' then some rest
    else if c = '+' ∨ c = '-' then do
      let (_, rest) ← twoDigits? 23 rest
      let rest ← after? ':' rest
      let (_, rest) ← twoDigits? 59 rest
      return rest
    else some (c :: rest)

/-- Whether a time of the day begins here: two digits and a colon. -/
def beginsTime : List Char → Bool
  | a :: b :: ':' :: _ => a.isDigit && b.isDigit
  | _ => false

/-- Reads a date, perhaps with a time of the day. -/
def dateTime? (cs : List Char) : Option (List Char) := do
  let rest ← date? cs
  match rest with
  | c :: more =>
    if (c = 'T' ∨ c = 't' ∨ c = ' ') ∧ beginsTime more then do
      let rest ← time? more
      offset? rest
    else some rest
  | [] => some []

/-- Whether a date begins here: four digits and a hyphen. -/
def beginsDate : List Char → Bool
  | a :: b :: c :: d :: '-' :: _ => a.isDigit && b.isDigit && c.isDigit && d.isDigit
  | _ => false

/-! ## All of them -/

/-- Reads a number, a date or a time. -/
def numberOrMoment? (cs : List Char) : Option (Value × List Char) :=
  if beginsDate cs then (dateTime? cs).map fun rest => (.moment, rest)
  else if beginsTime cs then (time? cs).map fun rest => (.moment, rest)
  else match fraction? cs, specialNumber? cs with
    | some rest, _ => some (.number, rest)
    | none, some rest => some (.number, rest)
    | none, none => (integer? cs).map fun rest => (.number, rest)

end Toml
end KeywordAudit
