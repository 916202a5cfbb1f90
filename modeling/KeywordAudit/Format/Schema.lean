/-!
# Reading records from a data format

The same records are read from several formats.  A record is described once, by its fields, over
any type former `R` for which the class `Format` says how texts, truth values, lists, optional
values and records are written.  Each format gives its own meaning to the description.
-/

namespace KeywordAudit

/-- One field of a record that is being filled in. -/
structure Field (R : Type → Type) (Draft : Type) where
  /-- The name under which the field is given. -/
  name : String
  /-- Whether the field was given before. -/
  isSet : Draft → Bool
  /-- Reads the field's value; the result puts it into the draft. -/
  read : R (Draft → Draft)

/-- A way to read values. -/
class Format (R : Type → Type) extends Functor R where
  /-- A text. -/
  text : R String
  /-- A truth value. -/
  flag : R Bool
  /-- Any number of values of one kind. -/
  list {α : Type} : R α → R (List α)
  /-- A value that may be absent. -/
  optional {α : Type} : R α → R (Option α)
  /-- A record with the given fields, in this order where the format goes by order.  It starts
  as the given draft; the last argument finishes the draft, or refuses it when a field is
  missing that must be there. -/
  record {Draft α : Type} : List (Field R Draft) → Draft → (Draft → Option α) → R α

/-- A field with a place in the draft that is empty until the field is given. -/
def Field.optional {R : Type → Type} [Format R] {Draft α : Type} (name : String)
    (get : Draft → Option α) (set : α → Draft → Draft) (value : R α) : Field R Draft :=
  ⟨name, fun d => (get d).isSome, set <$> value⟩

namespace Format

/-- The field that is given under a name. -/
def fieldNamed? {R : Type → Type} {Draft : Type} (fields : List (Field R Draft)) (name : String) :
    Option (Field R Draft) :=
  fields.find? fun f => f.name = name

end Format
end KeywordAudit
