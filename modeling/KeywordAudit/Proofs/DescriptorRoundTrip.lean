import KeywordAudit.Proofs.DescriptorGrammar

/-!
# Writing descriptors and reading them again

A descriptor that was read has only trimmed parts, and none of them holds the sign that ends it.
Such descriptors are well formed.  They are exactly what the reader can give: a well formed
descriptor is read again from its written form, because the signs that the form adds are found at
the same places, whatever brackets and colons the parts behind them hold.
-/

namespace KeywordAudit

open Text

namespace Descriptor

/-- A descriptor is well formed when its parts are trimmed, none is empty, and none holds the sign
that ends it. -/
structure WellFormed (d : Descriptor) : Prop where
  trimmed : ∀ part ∈ d.className :: d.returnType :: d.name :: d.parameters,
    part ≠ "" ∧ trim part = part
  className : ':' ∉ d.className.toList
  returnType : ' ' ∉ d.returnType.toList
  name : '(' ∉ d.name.toList
  parameters : ∀ parameter ∈ d.parameters, ',' ∉ parameter.toList

/-! ## What was read is well formed -/

namespace Parts

variable {q : Parts} {s : String} {d : Descriptor}

/-- A return type is never blank: the text it stands in front of was trimmed. -/
theorem Spell.result (h : q.Spell s) : trim q.result ≠ "" := by
  rw [ne_eq, trim_eq_empty_iff]
  have hinner := inner_iff.1 h.inner
  cases hresult : q.result.toList with
  | nil =>
    -- then the trimmed text would begin with a blank
    rw [hresult, List.nil_append] at hinner
    have hblank : isBlank ' ' = false := not_blank_of_trimChars_eq_cons hinner
    exact absurd hblank (by decide)
  | cons c rest =>
    rw [hresult, List.cons_append] at hinner
    exact trimChars_cons_ne_nil (not_blank_of_trimChars_eq_cons hinner) rest

/-- Parts that spell a text mean a well formed descriptor. -/
theorem Spell.wellFormed (h : q.Spell s) (hmean : q.Mean d) : d.WellFormed := by
  obtain ⟨hclassName, hreturnType, hname, pieces, -, hcomma, -, hparameters⟩ := hmean
  have hparameter : ∀ parameter ∈ d.parameters,
      (parameter ≠ "" ∧ trim parameter = parameter) ∧ ',' ∉ parameter.toList := by
    intro parameter hmem
    rw [hparameters, List.mem_filter, decide_eq_true_eq] at hmem
    obtain ⟨hmem, hne⟩ := hmem
    obtain ⟨piece, hpiece, rfl⟩ := List.mem_map.1 hmem
    exact ⟨⟨hne, trim_trim piece⟩, not_mem_trim (hcomma piece hpiece)⟩
  refine ⟨?_, ?_, ?_, ?_, fun parameter hmem => (hparameter parameter hmem).2⟩
  · intro part hpart
    simp only [List.mem_cons] at hpart
    rcases hpart with rfl | rfl | rfl | hpart
    · rw [hclassName]
      exact ⟨h.owner, trim_trim _⟩
    · rw [hreturnType]
      exact ⟨h.result, trim_trim _⟩
    · rw [hname]
      exact ⟨h.called, trim_trim _⟩
    · exact (hparameter part hpart).1
  · rw [hclassName]
    exact not_mem_trim h.colon
  · rw [hreturnType]
    exact not_mem_trim h.space
  · rw [hname]
    exact not_mem_trim h.opening

end Parts

/-! ## What is well formed is read again -/

/-- The part of the written form that follows the colon. -/
def renderCall (d : Descriptor) : String :=
  d.returnType ++ " " ++ d.name ++ "(" ++ String.intercalate "," d.parameters ++ ")"

/-- The parts of the written form. -/
def parts (d : Descriptor) : Parts where
  owner := d.className
  rest := " " ++ d.renderCall
  result := d.returnType
  called := d.name
  arguments := String.intercalate "," d.parameters
  tail := ""

theorem toList_render (d : Descriptor) :
    d.render.toList =
      '<' :: ((d.className.toList ++ ':' :: ' ' :: d.renderCall.toList) ++ ['>']) := by
  simp [render, renderCall]

namespace WellFormed

variable {d : Descriptor} (h : d.WellFormed)

include h

theorem className_trimmed : d.className ≠ "" ∧ trim d.className = d.className :=
  h.trimmed _ (by simp)

theorem returnType_trimmed : d.returnType ≠ "" ∧ trim d.returnType = d.returnType :=
  h.trimmed _ (by simp)

theorem name_trimmed : d.name ≠ "" ∧ trim d.name = d.name :=
  h.trimmed _ (by simp)

/-- The part after the colon begins with the return type and ends with a bracket, so nothing of it
is trimmed. -/
theorem trim_renderCall : trimChars d.renderCall.toList = d.renderCall.toList := by
  obtain ⟨hne, htrim⟩ := h.returnType_trimmed
  have htrim' : trimChars d.returnType.toList = d.returnType.toList := by
    rw [← toList_trim, htrim]
  cases hresult : d.returnType.toList with
  | nil => exact absurd (String.toList_inj.1 hresult) hne
  | cons c rest =>
    rw [hresult] at htrim'
    have hc : isBlank c = false := not_blank_of_trimChars_eq_cons htrim'
    have hcall : d.renderCall.toList = c :: ((rest ++ ' ' :: (d.name.toList ++ '(' ::
        (String.intercalate "," d.parameters).toList)) ++ [')']) := by
      simp [renderCall, hresult]
    rw [hcall]
    exact trimChars_cons_concat hc (by decide) _

/-- The parts of the written form spell it. -/
theorem spell_render : d.parts.Spell d.render := by
  have houter : trimChars d.render.toList = d.render.toList := by
    rw [toList_render]
    exact trimChars_cons_concat (by decide) (by decide) _
  have hinner : trimChars d.parts.rest.toList = d.renderCall.toList := by
    show trimChars (" " ++ d.renderCall).toList = _
    rw [String.toList_append]
    exact (trimChars_cons_of_blank (by decide) _).trans h.trim_renderCall
  refine ⟨Parts.outer_iff.2 ?_, h.className, ?_, Parts.inner_iff.2 ?_, h.returnType, h.name, ?_,
    List.not_mem_nil⟩
  · rw [houter, toList_render]
    simp [parts]
  · exact h.className_trimmed.2.symm ▸ h.className_trimmed.1
  · rw [hinner]
    simp [parts, renderCall]
  · exact h.name_trimmed.2.symm ▸ h.name_trimmed.1

/-- The parts of the written form mean the descriptor. -/
theorem mean_parts : d.parts.Mean d := by
  refine ⟨h.className_trimmed.2.symm, h.returnType_trimmed.2.symm, h.name_trimmed.2.symm, ?_⟩
  by_cases hnone : d.parameters = []
  · -- no parameters are written as one blank piece
    refine ⟨[""], by decide, by decide, ?_, ?_⟩
    · show String.intercalate "," d.parameters = _
      rw [hnone]
      rfl
    · rw [hnone]
      decide
  · have htrimmed : ∀ parameter ∈ d.parameters, parameter ≠ "" ∧ trim parameter = parameter := by
      intro parameter hmem
      exact h.trimmed parameter (by simp [hmem])
    refine ⟨d.parameters, hnone, h.parameters, rfl, ?_⟩
    have hmap : d.parameters.map trim = d.parameters.map id :=
      List.map_congr_left fun parameter hmem => (htrimmed parameter hmem).2
    rw [hmap, List.map_id, List.filter_eq_self.2]
    intro parameter hmem
    exact decide_eq_true (htrimmed parameter hmem).1

theorem parse?_render : parse? d.render = some d :=
  parse?_eq_some_iff.2 ⟨d.parts, h.spell_render, h.mean_parts⟩

end WellFormed

theorem wellFormed_of_parse? {s : String} {d : Descriptor} (h : parse? s = some d) :
    d.WellFormed := by
  obtain ⟨q, hspell, hmean⟩ := parse?_eq_some_iff.1 h
  exact hspell.wellFormed hmean

/-- **Reading and writing descriptors.**  What is read from any text is well formed, and nothing
else is well formed.  A well formed descriptor is read again from its written form, so writing what
was read changes the text but not what is read from it. -/
theorem descriptor_round_trip (d : Descriptor) :
    ((∃ s, parse? s = some d) ↔ d.WellFormed) ∧
    (d.WellFormed → parse? d.render = some d) ∧
    ∀ s, parse? s = some d → parse? d.render = parse? s := by
  refine ⟨?_, fun h => h.parse?_render, fun s hs => ?_⟩
  · constructor
    · rintro ⟨s, hs⟩
      exact wellFormed_of_parse? hs
    · intro h
      exact ⟨d.render, h.parse?_render⟩
  · rw [hs]
    exact (wellFormed_of_parse? hs).parse?_render

/-- A descriptor whose parts hold signs that end others. -/
def bracketed : Descriptor := ⟨"a.B<c>", "int[]", "f:g)", ["x(y)", "z w"]⟩

/-- It is read from a loose text and from its written form alike. -/
theorem descriptor_round_trip_bracketed :
    bracketed.WellFormed ∧
    parse? "< a.B<c> :int[]  f:g)  ( x(y),, z w )!> " = some bracketed ∧
    bracketed.render = "<a.B<c>: int[] f:g)(x(y),z w)>" ∧
    parse? bracketed.render = some bracketed ∧
    parse? bracketed.render = parse? "< a.B<c> :int[]  f:g)  ( x(y),, z w )!> " := by
  have hloose : parse? "< a.B<c> :int[]  f:g)  ( x(y),, z w )!> " = some bracketed := by decide
  obtain ⟨hread, hwritten, hsame⟩ := descriptor_round_trip bracketed
  have hwellFormed : bracketed.WellFormed := hread.1 ⟨_, hloose⟩
  exact ⟨hwellFormed, hloose, by decide, hwritten hwellFormed, hsame _ hloose⟩

end Descriptor
end KeywordAudit
