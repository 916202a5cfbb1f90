/-!
# Reading JSON text: input and rest

The text is read once from left to right, and the first problem that is met decides: the input
ends too early, it is malformed, or a value is not of the kind that is asked for.  A reader
returns the rest of the input, which is shorter than what it was given; so every loop ends.
-/

namespace KeywordAudit
namespace Json

/-- Why a text cannot be read. -/
inductive Fault where
  /-- The input ends too early. -/
  | endOfInput
  /-- The input is no JSON. -/
  | malformed
  /-- A value is not of the kind that is asked for, or a field is missing or repeated. -/
  | mismatch
deriving DecidableEq, Repr, Inhabited

/-- A value and the rest of the input. -/
structure Taken (α : Type) (input : List Char) where
  value : α
  rest : List Char
  shorter : rest.length < input.length

/-- The input that is left after some of it, or nothing, was taken. -/
def Rest (input : List Char) : Type := { rest : List Char // rest.length ≤ input.length }

namespace Rest

/-- Nothing was taken. -/
def all {input : List Char} : Rest input := ⟨input, Nat.le_refl _⟩

/-- What is left after the first character is left of the whole. -/
def tail {c : Char} {input : List Char} (r : Rest input) : Rest (c :: input) :=
  ⟨r.val, Nat.le_succ_of_le r.property⟩

/-- What is left of a rest is left of the whole. -/
def of {input : List Char} (middle : Rest input) (r : Rest middle.val) : Rest input :=
  ⟨r.val, Nat.le_trans r.property middle.property⟩

end Rest

namespace Taken

/-- Changes the value. -/
def map {α β : Type} {input : List Char} (f : α → β) (t : Taken α input) : Taken β input :=
  ⟨f t.value, t.rest, t.shorter⟩

/-- What is taken from a rest is taken from the whole. -/
def after {α : Type} {input rest : List Char} (h : rest.length < input.length)
    (t : Taken α rest) : Taken α input :=
  ⟨t.value, t.rest, Nat.lt_trans t.shorter h⟩

/-- The input that is left. -/
def toRest {α : Type} {input : List Char} (t : Taken α input) : Rest input :=
  ⟨t.rest, Nat.le_of_lt t.shorter⟩

end Taken

/-- A value that came before a rest. -/
def Rest.taken {α : Type} {input rest : List Char} (r : Rest rest) (value : α)
    (h : rest.length < input.length) : Taken α input :=
  ⟨value, r.val, Nat.lt_of_le_of_lt r.property h⟩

/-- Reads a value from the front of the input. -/
def Reader (α : Type) : Type := (input : List Char) → Except Fault (Taken α input)

namespace Reader

/-! ## Blanks and single characters -/

/-- The four blanks of JSON. -/
def isSpace (c : Char) : Bool := c == ' ' || c == '\n' || c == '\t' || c == '\r'

/-- The input without the blanks in front. -/
def skipSpace (input : List Char) : List Char := input.dropWhile isSpace

theorem length_skipSpace (input : List Char) : (skipSpace input).length ≤ input.length :=
  (List.dropWhile_sublist isSpace).length_le

theorem length_lt_of_skipSpace {input rest : List Char} {c : Char}
    (h : skipSpace input = c :: rest) : rest.length < input.length := by
  have := length_skipSpace input
  rw [h, List.length_cons] at this
  omega

/-- The input at the next character that is no blank. -/
inductive Next (input : List Char) where
  | finished
  | char (c : Char) (rest : List Char) (shorter : rest.length < input.length)

/-- Looks at the next character that is no blank. -/
def next (input : List Char) : Next input :=
  match h : skipSpace input with
  | [] => .finished
  | c :: rest => .char c rest (length_lt_of_skipSpace h)

/-- Takes the characters of a word that has begun. -/
def word : (expected input : List Char) → Except Fault (Rest input)
  | [], _ => .ok .all
  | _ :: _, [] => .error .endOfInput
  | e :: expected, c :: input =>
    if e = c then (word expected input).map Rest.tail else .error .malformed

end Reader
end Json
end KeywordAudit
