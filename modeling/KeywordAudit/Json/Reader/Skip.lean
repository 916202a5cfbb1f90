import KeywordAudit.Json.Reader.Number
import KeywordAudit.Json.Reader.Text

/-!
# Passing over JSON values

A value under an unknown name is passed over.  It has to be well formed, but its texts may hold
halves of surrogate pairs and its numbers may be of any size.  Open brackets are kept in a list,
so that values may be nested to any depth.
-/

namespace KeywordAudit
namespace Json
namespace Reader

/-- What the input may go on with while a value is passed over. -/
inductive Place where
  /-- A value. -/
  | value
  /-- The name of an object's member. -/
  | name
  /-- The first entry of a bracket, or its end. -/
  | opened
  /-- A comma, or the end of the bracket. -/
  | after
deriving DecidableEq

/-- What a character does at its place. -/
inductive Move where
  /-- It cannot stand here. -/
  | refuse
  /-- It opens a bracket or divides two entries. -/
  | go (brackets : List Bool) (place : Place)
  /-- It closes the innermost bracket; these stay open. -/
  | close (brackets : List Bool)
  /-- It begins the name of a member. -/
  | beginName
  /-- It begins a value without parts, if any. -/
  | beginScalar

/-- The end of a bracket; objects are `true` and arrays `false`. -/
def closing (isObject : Bool) : Char := if isObject then '\x7d' else ']'

/-- What a character does, given the open brackets, innermost first. -/
def move (brackets : List Bool) (place : Place) (c : Char) : Move :=
  match place, brackets with
  | .after, [] => .refuse
  | .after, isObject :: outer =>
    if c = ',' then .go brackets (if isObject then .name else .value)
    else if c = closing isObject then .close outer
    else .refuse
  | .name, _ => if c = '"' then .beginName else .refuse
  | .opened, true :: outer =>
    if c = closing true then .close outer else if c = '"' then .beginName else .refuse
  | .opened, false :: outer =>
    if c = closing false then .close outer
    else if c = '[' then .go (false :: brackets) .opened
    else if c = '\x7b' then .go (true :: brackets) .opened
    else .beginScalar
  | _, _ =>
    if c = '[' then .go (false :: brackets) .opened
    else if c = '\x7b' then .go (true :: brackets) .opened
    else .beginScalar

/-- Passes over a value without parts that begins with the given character.  A number may be of
any size; where its digits are missing, it is malformed. -/
def skipScalar (c : Char) (rest : List Char) : Except Fault (Rest rest) :=
  match c with
  | 'n' => word ['u', 'l', 'l'] rest
  | 't' => word ['r', 'u', 'e'] rest
  | 'f' => word ['a', 'l', 's', 'e'] rest
  | '"' => (textFrom false [] rest).map Taken.toRest
  | '-' => ((negatedNumeral rest).map Prod.snd).mapError fun _ => .malformed
  | c => ((numeral c rest).map Prod.snd).mapError fun _ => .malformed

/-- Takes the colon after the name of a member. -/
def colon (input : List Char) : Except Fault (Taken Unit input) :=
  match next input with
  | .finished => .error .endOfInput
  | .char c rest h => if c = ':' then .ok ⟨(), rest, h⟩ else .error .malformed

/-- Takes the rest of a member's name, and the colon after it. -/
def nameAndColon (strict : Bool) (input : List Char) : Except Fault (Taken String input) :=
  match textFrom strict [] input with
  | .error f => .error f
  | .ok ⟨name, rest, h⟩ =>
    (colon rest).map fun t => (t.map fun _ => name).after h

/-- Passes over a value, or over the rest of one whose open brackets are given. -/
def skip (brackets : List Bool) (place : Place) (input : List Char) :
    Except Fault (Taken Unit input) :=
  match next input with
  | .finished => .error .endOfInput
  | .char c rest h =>
    match move brackets place c with
    | .refuse => .error .malformed
    | .go brackets place => (skip brackets place rest).map (Taken.after h)
    | .close [] => .ok ⟨(), rest, h⟩
    | .close brackets => (skip brackets .after rest).map (Taken.after h)
    | .beginName =>
      match nameAndColon false rest with
      | .error f => .error f
      | .ok ⟨_, rest', h'⟩ =>
        (skip brackets .value rest').map fun t => (t.after h').after h
    | .beginScalar =>
      match skipScalar c rest with
      | .error f => .error f
      | .ok ⟨rest', h'⟩ =>
        if brackets.isEmpty then .ok (Rest.taken ⟨rest', h'⟩ () h)
        else
          (skip brackets .after rest').map fun t =>
            Rest.taken (Rest.of ⟨rest', h'⟩ t.toRest) () h
termination_by input.length
decreasing_by
  · exact h
  · exact h
  · exact Nat.lt_trans h' h
  · exact Nat.lt_of_le_of_lt h' h

end Reader
end Json
end KeywordAudit
