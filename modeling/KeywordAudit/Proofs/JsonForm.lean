import Mathlib.Data.List.Forall2
import KeywordAudit.Json.Value

/-!
# Reading what was written as JSON

Records are described over any format, and each format gives the description its own meaning.  A
format reads JSON when a few laws hold, one for each kind of value; for objects, when members that
fill in a draft, one after the other, give the record that the draft is finished to.  What is shown
from these laws holds in every such format.

The reading of JSON values obeys the laws.
-/

namespace KeywordAudit

/-! ## The laws -/

/-- Members fill in a draft: each has the name of a field that is not set yet, and its value is
read as that field. -/
inductive Fills {R : Type → Type} (Reads : {α : Type} → R α → Json → α → Prop) {Draft : Type}
    (fields : List (Field R Draft)) : List (String × Json) → Draft → Draft → Prop where
  | nil {draft : Draft} : Fills Reads fields [] draft draft
  | cons {name : String} {value : Json} {rest : List (String × Json)} {draft final : Draft}
      {field : Field R Draft} {update : Draft → Draft} :
    Format.fieldNamed? fields name = some field → field.isSet draft = false →
    Reads field.read value update → Fills Reads fields rest (update draft) final →
    Fills Reads fields ((name, value) :: rest) draft final

/-- A format that reads JSON. -/
class ReadsJson (R : Type → Type) [Format R] where
  /-- `Reads r j x` says that the reader `r` reads the JSON value `j` as `x`. -/
  Reads {α : Type} : R α → Json → α → Prop
  map {α β : Type} {f : α → β} {r : R α} {j : Json} {x : α} : Reads r j x → Reads (f <$> r) j (f x)
  text (s : String) : Reads Format.text (.string s) s
  flag (b : Bool) : Reads Format.flag (.bool b) b
  list {α : Type} {r : R α} {js : List Json} {xs : List α} :
    List.Forall₂ (Reads r) js xs → Reads (Format.list r) (.array js) xs
  optional {α : Type} {r : R α} {j : Json} {x : α} :
    j ≠ .null → Reads r j x → Reads (Format.optional r) j (some x)
  record {Draft α : Type} {fields : List (Field R Draft)} {start final : Draft}
    {finish : Draft → Option α} {members : List (String × Json)} {x : α} :
    Fills Reads fields members start final → finish final = some x →
    Reads (Format.record fields start finish) (.object members) x

/-- The first of some members fills in a place of the draft that is empty. -/
theorem Fills.member {R : Type → Type} [Format R] [ReadsJson R] {Draft α : Type}
    {fields : List (Field R Draft)} {name : String} {get : Draft → Option α}
    {set : α → Draft → Draft} {r : R α} {value : Json} {x : α} {rest : List (String × Json)}
    {draft final : Draft}
    (hfield : Format.fieldNamed? fields name = some (.optional name get set r))
    (hempty : get draft = none) (hvalue : ReadsJson.Reads r value x)
    (hrest : Fills ReadsJson.Reads fields rest (set x draft) final) :
    Fills ReadsJson.Reads fields ((name, value) :: rest) draft final := by
  refine .cons hfield ?_ (ReadsJson.map hvalue) hrest
  show (get draft).isSome = false
  rw [hempty]
  rfl

/-- The written elements of a list are read as the list. -/
theorem ReadsJson.list_map {R : Type → Type} [Format R] [ReadsJson R] {α : Type} {r : R α}
    {encode : α → Json} (h : ∀ x, Reads r (encode x) x) (xs : List α) :
    Reads (Format.list r) (.array (xs.map encode)) xs := by
  refine ReadsJson.list ?_
  induction xs with
  | nil => exact .nil
  | cons x xs ih => exact .cons (h x) ih

/-! ## JSON values -/

namespace Json.Decoder

theorem mapM_of_forall₂ {α : Type} {r : Json → Option α} {js : List Json} {xs : List α}
    (h : List.Forall₂ (fun j x => r j = some x) js xs) : js.mapM r = some xs := by
  induction h with
  | nil => rfl
  | cons hx _ ih =>
    rw [List.mapM_cons, hx, ih]
    rfl

theorem members_of_fills {Draft : Type} {fields : List (Field Decoder Draft)}
    {entries : List (String × Json)} {draft final : Draft}
    (h : Fills (fun r j x => r j = some x) fields entries draft final) :
    members fields entries draft = some final := by
  induction h with
  | nil => rfl
  | cons hfield hunset hvalue _ ih =>
    rw [members, hfield]
    simp only [hunset, Bool.false_eq_true, if_false, hvalue, Option.bind_some]
    exact ih

/-- JSON values are read according to the laws. -/
instance : ReadsJson Decoder where
  Reads r j x := r j = some x
  map {α β f r j x} h := by
    show (r j).map f = some (f x)
    rw [h]
    rfl
  text _ := rfl
  flag _ := rfl
  list h := mapM_of_forall₂ h
  optional {α r j x} hj h := by
    show Decoder.optional r j = some (some x)
    cases j with
    | null => exact absurd rfl hj
    | _ =>
      rw [Decoder.optional, h]
      · rfl
      · exact hj
  record {Draft α fields start final finish entries x} hfills hfinish := by
    show (members fields entries start).bind finish = some x
    rw [members_of_fills hfills]
    exact hfinish

end Json.Decoder
end KeywordAudit
