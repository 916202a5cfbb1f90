import KeywordAudit.Increasing

/-!
# Sets of names

The sets that a report lists: names without repetition, in the order of their code points.  The
order is part of the type, so two sets with the same members are equal.
-/

namespace KeywordAudit

/-- A set of names, listed in increasing code point order. -/
structure NameSet where
  toList : List String
  increasing : toList.Pairwise (· < ·)

namespace NameSet

/-- The set without members. -/
def empty : NameSet := ⟨[], .nil⟩

instance : Inhabited NameSet := ⟨empty⟩

instance : Membership String NameSet := ⟨fun s x => x ∈ s.toList⟩

/-- Adds a name. -/
def insert (s : NameSet) (x : String) : NameSet :=
  ⟨insertIncreasing x s.toList, pairwise_insertIncreasing x s.increasing⟩

/-- Adds every name of a list. -/
def insertAll (s : NameSet) (xs : List String) : NameSet :=
  xs.foldl insert s

/-- The set of the names in a list. -/
def ofList (xs : List String) : NameSet :=
  empty.insertAll xs

/-- The number of members. -/
def size (s : NameSet) : Nat :=
  s.toList.length

theorem mem_def {x : String} {s : NameSet} : x ∈ s ↔ x ∈ s.toList := Iff.rfl

@[simp] theorem not_mem_empty (x : String) : x ∉ (empty : NameSet) := by
  simp [mem_def, empty]

@[simp] theorem mem_insert {x z : String} {s : NameSet} : z ∈ s.insert x ↔ z = x ∨ z ∈ s := by
  simp [mem_def, insert]

@[simp] theorem mem_insertAll {z : String} {xs : List String} {s : NameSet} :
    z ∈ s.insertAll xs ↔ z ∈ xs ∨ z ∈ s := by
  induction xs generalizing s with
  | nil => simp [insertAll]
  | cons x xs ih =>
    have hstep : s.insertAll (x :: xs) = (s.insert x).insertAll xs := rfl
    rw [hstep, ih, mem_insert, List.mem_cons, or_assoc, or_left_comm]

@[simp] theorem mem_ofList {z : String} {xs : List String} : z ∈ ofList xs ↔ z ∈ xs := by
  simp [ofList]

end NameSet
end KeywordAudit
