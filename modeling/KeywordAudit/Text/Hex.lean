/-!
# Hexadecimal digits
-/

namespace KeywordAudit
namespace Text

/-- The value of a hexadecimal digit of either case. -/
def hexValue? (c : Char) : Option Nat :=
  if '0' ≤ c ∧ c ≤ '9' then some (c.toNat - 48)
  else if 'a' ≤ c ∧ c ≤ 'f' then some (c.toNat - 87)
  else if 'A' ≤ c ∧ c ≤ 'F' then some (c.toNat - 55)
  else none

/-- The number that the next hexadecimal digits give; none if there are fewer. -/
def hexNumber? : (count : Nat) → (value : Nat) → List Char → Option Nat
  | 0, value, _ => some value
  | _ + 1, _, [] => none
  | count + 1, value, c :: rest =>
    (hexValue? c).bind fun d => hexNumber? count (value * 16 + d) rest

/-- The character of a code, unless no character has it. -/
def charOfCode? (n : Nat) : Option Char :=
  if n.isValidChar then some (Char.ofNat n) else none

end Text
end KeywordAudit
