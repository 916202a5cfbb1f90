import KeywordAudit.Program.Basic

/-!
# Marks

A growing row of marks, one for each method number.  The row starts with the number of methods to
expect, and grows when a larger number is marked; a number beyond the row is not marked.
-/

namespace KeywordAudit

/-- A row of marks. -/
structure Marks where
  flags : Array Bool
deriving Repr, Inhabited

namespace Marks

/-- The row of the given length without marks. -/
def none (size : Nat) : Marks := ⟨Array.replicate size false⟩

/-- Whether a number is marked. -/
def has (m : Marks) (id : MethodId) : Bool := m.flags[id]?.getD false

/-- The row with room for at least the given number of marks. -/
def grow (m : Marks) (size : Nat) : Marks :=
  if m.flags.size < size then ⟨m.flags ++ Array.replicate (size - m.flags.size) false⟩ else m

/-- Marks a number; tells whether it was not marked before. -/
def mark (m : Marks) (id : MethodId) : Bool × Marks :=
  let m := m.grow (id + 1)
  (!m.has id, ⟨m.flags.setIfInBounds id true⟩)

@[simp] theorem has_none (size id : Nat) : (none size).has id = false := by
  simp only [has, none, Array.getElem?_replicate]
  split <;> rfl

/-- Growing changes no mark. -/
@[simp] theorem has_grow (m : Marks) (size id : Nat) : (m.grow size).has id = m.has id := by
  unfold grow
  split
  · simp only [has, Array.getElem?_append]
    split
    · rfl
    next hle =>
      have h1 : m.flags[id]? = Option.none := Array.getElem?_eq_none (Nat.le_of_not_lt hle)
      rw [h1, Array.getElem?_replicate]
      split <;> rfl
  · rfl

theorem lt_size_grow (m : Marks) (id : Nat) : id < (m.grow (id + 1)).flags.size := by
  unfold grow
  split
  · simp only [Array.size_append, Array.size_replicate]
    omega
  · omega

/-- Marking sets one mark and keeps all others. -/
@[simp] theorem has_mark (m : Marks) (id other : MethodId) :
    (m.mark id).2.has other = (decide (other = id) || m.has other) := by
  have hgrow := has_grow m (id + 1) other
  have hlt := lt_size_grow m id
  by_cases h : other = id
  · subst h
    simp [mark, has, hlt]
  · rw [mark]
    simp only [has, Array.getElem?_setIfInBounds, Ne.symm h, if_false, h, decide_false,
      Bool.false_or]
    exact hgrow

/-- Marking tells whether the number was not marked before. -/
@[simp] theorem fst_mark (m : Marks) (id : MethodId) : (m.mark id).1 = !m.has id := by
  simp [mark]

end Marks
end KeywordAudit
