import KeywordAudit.Json.Reader.Basic
import KeywordAudit.Text.Hex

/-!
# Texts in JSON

A text is read strictly where its value is wanted.  Where it is only passed over, its escapes may
give halves of surrogate pairs.
-/

namespace KeywordAudit
namespace Json
namespace Reader

/-- Takes four hexadecimal digits.  The input ends too early when it has fewer than four
bytes. -/
def hexCode (input : List Char) : Except Fault (Taken Nat input) :=
  match input with
  | a :: b :: c :: d :: rest =>
    match Text.hexNumber? 4 0 [a, b, c, d] with
    | some n => .ok ⟨n, rest, by simp; omega⟩
    | none => .error .malformed
  | few => if (String.ofList few).utf8ByteSize < 4 then .error .endOfInput else .error .malformed

/-- Whether a code is the first half of a surrogate pair. -/
def isHighHalf (n : Nat) : Bool := 0xD800 ≤ n && n ≤ 0xDBFF

/-- Whether a code is the second half of a surrogate pair. -/
def isLowHalf (n : Nat) : Bool := 0xDC00 ≤ n && n ≤ 0xDFFF

/-- Takes a character that is given by its code, or by the codes of the two halves of a surrogate
pair.  Unless `strict`, a half may stand alone. -/
def codedChar (strict : Bool) (input : List Char) : Except Fault (Taken Char input) :=
  match hexCode input with
  | .error f => .error f
  | .ok ⟨n, rest, h⟩ =>
    if !strict then .ok ⟨Char.ofNat n, rest, h⟩
    else if isLowHalf n then .error .malformed
    else if !isHighHalf n then .ok ⟨Char.ofNat n, rest, h⟩
    else match rest with
      | [] => .error .endOfInput
      | ['\\'] => .error .endOfInput
      | '\\' :: 'u' :: more =>
        match hexCode more with
        | .error f => .error f
        | .ok ⟨m, rest, h'⟩ =>
          if isLowHalf m then
            .ok ⟨Char.ofNat ((n - 0xD800) * 1024 + (m - 0xDC00) + 0x10000), rest, by
              simp at h; omega⟩
          else .error .malformed
      | _ => .error .malformed

/-- The character that a letter after a backslash stands for. -/
def escaped? : Char → Option Char
  | '"' => some '"'
  | '\\' => some '\\'
  | '/' => some '/'
  | 'b' => some '\x08'
  | 'f' => some '\x0c'
  | 'n' => some '\n'
  | 'r' => some '\r'
  | 't' => some '\t'
  | _ => none

/-- Takes the rest of a text, up to the double quote that ends it; `before` holds the characters
read so far, last one first. -/
def textFrom (strict : Bool) (before : List Char) (input : List Char) :
    Except Fault (Taken String input) :=
  match input with
  | [] => .error .endOfInput
  | '"' :: rest => .ok ⟨String.ofList before.reverse, rest, by simp⟩
  | ['\\'] => .error .endOfInput
  | '\\' :: 'u' :: rest =>
    match codedChar strict rest with
    | .error f => .error f
    | .ok ⟨c, more, h⟩ =>
      match textFrom strict (c :: before) more with
      | .error f => .error f
      | .ok ⟨s, rest, h'⟩ => .ok ⟨s, rest, by simp; omega⟩
  | '\\' :: c :: rest =>
    match escaped? c with
    | none => .error .malformed
    | some e =>
      match textFrom strict (e :: before) rest with
      | .error f => .error f
      | .ok ⟨s, rest, h⟩ => .ok ⟨s, rest, by simp; omega⟩
  | c :: rest =>
    if c.toNat < 32 then .error .malformed
    else
      match textFrom strict (c :: before) rest with
      | .error f => .error f
      | .ok ⟨s, rest, h⟩ => .ok ⟨s, rest, by simp; omega⟩
termination_by input.length

end Reader
end Json
end KeywordAudit
