/-!
# Occurrences of one text in another
-/

namespace KeywordAudit.Text

/-- `occurs needle cs` tells whether `needle` stands somewhere in `cs`. -/
def occurs (needle : List Char) : List Char → Bool
  | [] => needle.isEmpty
  | c :: cs => needle.isPrefixOf (c :: cs) || occurs needle cs

/-- `contains text needle` tells whether `needle` stands somewhere in `text`. -/
def contains (text needle : String) : Bool :=
  occurs needle.toList text.toList

/-- Occurring is being a contiguous part. -/
theorem occurs_iff {needle cs : List Char} : occurs needle cs = true ↔ needle <:+: cs := by
  induction cs with
  | nil => cases needle <;> simp [occurs]
  | cons c cs ih => simp [occurs, ih, List.infix_cons_iff]

end KeywordAudit.Text
