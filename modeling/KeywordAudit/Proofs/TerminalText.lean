import KeywordAudit.Report.Terminal

/-!
# The text of a terminal report

A terminal report is put together from lines of spans.  Here it is followed to the text that is
written: what an ink does to a text, what lines become, and how the report reads from its first
line to its last, with or without colours.
-/

namespace KeywordAudit

namespace Ink

/-! ## Painted text -/

/-- The control sequence that ends all inks. -/
def reset : String := "\x1b[0m"

/-- The control sequence that begins an ink. -/
def opening (ink : Ink) : String :=
  "\x1b[" ++ String.intercalate ";" ink.codes ++ "m"

theorem toList_reset : reset.toList = ['\x1b', '[', '0', 'm'] := by
  decide

theorem sequence_zero : sequence ["0"] = reset.toList := by
  decide

theorem sequence_codes (ink : Ink) : sequence ink.codes = ink.opening.toList := by
  simp [sequence, opening]

section

variable (start : List Char)

theorem reopen_cons {c : Char} {cs : List Char} (h : ¬reset.toList <+: c :: cs) :
    reopen start (c :: cs) = c :: reopen start cs := by
  rw [reopen]
  rintro rest rfl rfl
  exact h ⟨rest, rfl⟩

/-- A text without the sequence that ends all inks is left as it is. -/
theorem reopen_eq_self {cs : List Char} (h : ¬reset.toList <:+: cs) : reopen start cs = cs := by
  induction cs with
  | nil => rfl
  | cons c cs ih =>
    rw [reopen_cons start fun hhere => h hhere.isInfix, ih fun hlater => h (List.infix_cons hlater)]

/-- The sequence cannot begin inside a text that is without it: it has its first character nowhere
else. -/
theorem not_reset_append {c : Char} {cs : List Char} (h : ¬reset.toList <:+: c :: cs)
    (rest : List Char) : ¬reset.toList <+: c :: (cs ++ (reset.toList ++ rest)) := by
  intro hhere
  rw [toList_reset] at h hhere
  match cs with
  | [] => simp [List.cons_prefix_cons] at hhere
  | [_] => simp [List.cons_prefix_cons] at hhere
  | [_, _] => simp [List.cons_prefix_cons] at hhere
  | d :: e :: f :: cs =>
    simp only [List.cons_append, List.cons_prefix_cons, List.nil_prefix, and_true] at hhere
    obtain ⟨rfl, rfl, rfl, rfl⟩ := hhere
    exact h ⟨[], cs, rfl⟩

theorem reopen_append {cs : List Char} (h : ¬reset.toList <:+: cs) (rest : List Char) :
    reopen start (cs ++ (reset.toList ++ rest)) =
      cs ++ (reset.toList ++ start ++ reopen start rest) := by
  induction cs with
  | nil =>
    rw [List.nil_append, List.nil_append, ← sequence_zero]
    rfl
  | cons c cs ih =>
    rw [List.cons_append, reopen_cons start (not_reset_append h rest),
      ih fun hlater => h (List.infix_cons hlater), List.cons_append]

/-- The ink is taken up again between any two parts. -/
theorem reopen_intercalate {parts : List (List Char)}
    (h : ∀ part ∈ parts, ¬reset.toList <:+: part) :
    reopen start (reset.toList.intercalate parts) =
      (reset.toList ++ start).intercalate parts := by
  induction parts with
  | nil => rfl
  | cons part parts ih =>
    obtain ⟨hpart, hparts⟩ := List.forall_mem_cons.1 h
    cases parts with
    | nil =>
      rw [List.intercalate_singleton, List.intercalate_singleton]
      exact reopen_eq_self start hpart
    | cons next parts =>
      rw [List.intercalate_cons_cons, List.intercalate_cons_cons, List.append_assoc,
        reopen_append start hpart, ih hparts, ← List.append_assoc part]

end

/-- A painted text stands between two control sequences.  Wherever it ends all inks itself, its own
begins again. -/
theorem paint_intercalate {ink : Ink} (hink : ink ≠ plain) {parts : List String}
    (h : ∀ part ∈ parts, ¬reset.toList <:+: part.toList) :
    ink.paint (String.intercalate reset parts) =
      ink.opening ++ String.intercalate (reset ++ ink.opening) parts ++ reset := by
  have hparts : ∀ part ∈ parts.map String.toList, ¬reset.toList <:+: part :=
    List.forall_mem_map.2 h
  rw [paint, if_neg hink, ← String.toList_inj]
  simp only [String.toList_ofList, String.toList_append, String.toList_intercalate, sequence_codes,
    sequence_zero, reopen_intercalate _ hparts]

/-- A text in an ink as it is written. -/
def written (coloured : Bool) (ink : Ink) (text : String) : String :=
  if coloured then ink.paint text else text

@[simp] theorem written_plain (coloured : Bool) (text : String) :
    plain.written coloured text = text := by
  cases coloured with
  | false => rfl
  | true => exact if_pos rfl

end Ink

/-! ## Written lines -/

namespace Line

variable (coloured : Bool)

@[simp] theorem render_nil : render coloured [] = "\n" := by
  simp [render]

@[simp] theorem render_cons (s : Span) (line : Line) :
    render coloured (s :: line) = s.ink.written coloured s.text ++ render coloured line := by
  rw [render, List.map_cons, String.join_cons, String.append_assoc]
  rfl

@[simp] theorem render_single (text : String) (ink : Ink) :
    render coloured (single text ink) = ink.written coloured text ++ "\n" := by
  rw [single, render_cons, render_nil]

@[simp] theorem renderAll_nil : renderAll coloured [] = "" := by
  simp [renderAll]

@[simp] theorem renderAll_cons (line : Line) (lines : List Line) :
    renderAll coloured (line :: lines) = render coloured line ++ renderAll coloured lines := by
  rw [renderAll, List.map_cons, String.join_cons, renderAll]

@[simp] theorem renderAll_append (xs ys : List Line) :
    renderAll coloured (xs ++ ys) = renderAll coloured xs ++ renderAll coloured ys := by
  rw [renderAll, List.map_append, String.join_append, renderAll, renderAll]

/-- Lines of the same kind are written one after another. -/
theorem renderAll_map {α : Type} {line : α → Line} {text : α → String}
    (h : ∀ x, render coloured (line x) = text x) (xs : List α) :
    renderAll coloured (xs.map line) = String.join (xs.map text) := by
  rw [renderAll, List.map_map]
  exact congrArg String.join (List.map_congr_left fun x _ => h x)

/-- Blocks of lines are written one after another. -/
theorem renderAll_flatMap {α : Type} {lines : α → List Line} {text : α → String}
    (h : ∀ x, renderAll coloured (lines x) = text x) (xs : List α) :
    renderAll coloured (xs.flatMap lines) = String.join (xs.map text) := by
  induction xs with
  | nil => exact renderAll_nil coloured
  | cons x xs ih => rw [List.flatMap_cons, renderAll_append, h, ih, List.map_cons, String.join_cons]

end Line

namespace TerminalReport

variable (coloured : Bool)

/-! ## Hits -/

/-- The heading over the hits of a method. -/
def headingText (signature : String) : String :=
  heading.written coloured signature ++ "\n"

/-- A hit: the place of its statement, its keyword and the text of the statement. -/
def hitText (index : Nat) (word text : String) : String :=
  "  " ++ faint.written coloured s!"#{index}" ++ " [" ++ keyword.written coloured word ++ "] "
    ++ text ++ "\n"

/-- A root caller: its short name, if it has one, and its signature. -/
def rootText (short : Option String) (signature : String) : String :=
  "    " ++ faint.written coloured "←" ++ " "
    ++ (match short with
      | some short => label.written coloured short ++ " " ++ faint.written coloured signature
      | none => name.written coloured signature)
    ++ "\n"

theorem render_headingLine (v : ProgramView) (id : MethodId) :
    Line.render coloured (headingLine v id) =
      headingText coloured (v.signatureOr unknownMethod id) := by
  rw [headingLine, Line.render_single, headingText]

theorem render_hitLine (h : Hit) :
    Line.render coloured (hitLine h) = hitText coloured h.index h.keyword h.text := by
  simp only [hitLine, hitText, Line.render_cons, Line.render_nil, Ink.written_plain,
    String.append_assoc]

theorem render_rootLine (v : ProgramView) (id : MethodId) :
    Line.render coloured (rootLine v id) =
      rootText coloured (v.shortName id) (v.signatureOr unknownMethod id) := by
  unfold rootLine rootText
  cases v.shortName id <;>
    simp only [List.cons_append, List.nil_append, Line.render_cons, Line.render_nil,
      Ink.written_plain, String.append_assoc]

/-- The root callers of a method, one after another. -/
def rootTexts (a : Audit) (id : MethodId) : List String :=
  (a.resolution.rootsFor id).map fun root =>
    rootText coloured (a.view.shortName root) (a.view.signatureOr unknownMethod root)

/-- A method with hits: its heading, its hits and, if they are shown, its root callers. -/
def groupText (a : Audit) (showRoots : Bool) (g : Group) : String :=
  headingText coloured (a.view.signatureOr unknownMethod g.method)
    ++ String.join (g.hits.map fun h => hitText coloured h.index h.keyword h.text)
    ++ if showRoots then String.join (rootTexts coloured a g.method) else ""

theorem renderAll_groupLines (a : Audit) (showRoots : Bool) (g : Group) :
    Line.renderAll coloured (groupLines a showRoots g) = groupText coloured a showRoots g := by
  rw [groupLines, Line.renderAll_append, Line.renderAll_cons, render_headingLine,
    Line.renderAll_map coloured (render_hitLine coloured), groupText]
  cases showRoots with
  | false => rfl
  | true => exact congrArg _ (Line.renderAll_map coloured (render_rootLine coloured a.view) _)

/-! ## What stands around the hits -/

/-- The line over all hits, with an empty one before it. -/
def openingText (a : Audit) : String :=
  let hits := a.inspection.hits
  "\n" ++ (if hits.isEmpty then good.written coloured "No statements with keywords found."
    else title.written coloured s!"Statements with keywords ({hits.length}):") ++ "\n"

/-- A list of names. -/
def sectionText (header : String) (items : List String) : String :=
  title.written coloured s!"{header} ({items.length}):" ++ "\n"
    ++ (if items.isEmpty then "  " ++ faint.written coloured "(none)" ++ "\n" else "")
    ++ String.join (items.map fun item => "  " ++ item ++ "\n") ++ "\n"

/-- The remark on what was searched, if there is one. -/
def noteText (p : Policy) : String :=
  if !p.interestedApiOnly then
    faint.written coloured "Note: API filtering disabled, every statement was inspected" ++ "\n"
  else if p.apiInLibrariesOnly then
    faint.written coloured "Note: library classification is best-effort and may be incomplete"
      ++ "\n"
  else ""

/-- The figures, under a rule. -/
def summaryText (a : Audit) : String :=
  let hits := a.inspection.hits.length
  let keywords := a.inspection.keywordsHit.size
  let classes := a.resolution.classes.size
  faint.written coloured (String.ofList (List.replicate 60 '─')) ++ "\n"
    ++ "Summary: " ++ figure.written coloured s!"{hits} hits" ++ ", "
    ++ figure.written coloured s!"{keywords} keywords" ++ ", "
    ++ lastFigure.written coloured s!"{classes} root caller classes" ++ "\n"
    ++ noteText coloured a.policy

/-- What comes after the hits. -/
def closingText (a : Audit) : String :=
  "\n" ++ sectionText coloured "Keywords hit" a.inspection.keywordsHit.toList
    ++ sectionText coloured "Keywords in package" a.inspection.packageKeywords.toList
    ++ (if a.policy.recordContainerSymbol then
        sectionText coloured s!"Statements using {a.policy.containerSymbol}"
          a.inspection.containerStatements
      else "")
    ++ sectionText coloured "Root caller classes" a.resolution.classes.toList
    ++ summaryText coloured a

theorem renderAll_sectionLines (header : String) (items : List String) :
    Line.renderAll coloured (sectionLines header items) = sectionText coloured header items := by
  have hitem : ∀ item : String,
      Line.render coloured (Line.single ("  " ++ item) Ink.plain) = "  " ++ item ++ "\n" := by
    intro item
    rw [Line.render_single, Ink.written_plain]
  rw [sectionLines, sectionText, Line.renderAll_append, Line.renderAll_append, Line.renderAll_cons,
    Line.renderAll_map coloured hitem, Line.render_single]
  split
  · simp [Line.blank, String.append_assoc]
  · simp [Line.blank]

theorem renderAll_containerLines (a : Audit) :
    Line.renderAll coloured (containerLines a) =
      if a.policy.recordContainerSymbol then
        sectionText coloured s!"Statements using {a.policy.containerSymbol}"
          a.inspection.containerStatements
      else "" := by
  rw [containerLines]
  split
  · exact renderAll_sectionLines coloured _ _
  · exact Line.renderAll_nil coloured

theorem renderAll_noteLines (p : Policy) :
    Line.renderAll coloured (noteLines p) = noteText coloured p := by
  rw [noteLines, noteText]
  split
  · simp
  · split
    · simp
    · simp

theorem renderAll_summaryLines (a : Audit) :
    Line.renderAll coloured (summaryLines a) = summaryText coloured a := by
  rw [summaryLines, summaryText, Line.renderAll_append, renderAll_noteLines]
  simp only [Line.renderAll_cons, Line.renderAll_nil, Line.render_single, Line.render_cons,
    Line.render_nil, Ink.written_plain, String.append_assoc, String.empty_append]

/-- The lines of the hits are written as the line over them, their groups and an empty line. -/
theorem renderAll_hitLines (a : Audit) (showRoots : Bool) :
    Line.renderAll coloured (hitLines a showRoots) =
      openingText coloured a
        ++ String.join ((groups a.inspection.hits).map (groupText coloured a showRoots))
        ++ "\n" := by
  have hgroups := Line.renderAll_flatMap coloured (renderAll_groupLines coloured a showRoots)
    (groups a.inspection.hits)
  rw [hitLines, openingText]
  split
  next hempty =>
    rw [List.isEmpty_iff.1 hempty]
    simp [Line.blank, groups, String.append_assoc]
  next hempty =>
    rw [Line.renderAll_append, Line.renderAll_append, hgroups]
    simp [Line.blank, String.append_assoc]

/-- **What a terminal report reads like**: a line over all hits, the groups of hits, and what comes
after them. -/
theorem render_eq (a : Audit) (showRoots : Bool) :
    render coloured showRoots a =
      openingText coloured a
        ++ String.join ((groups a.inspection.hits).map (groupText coloured a showRoots))
        ++ closingText coloured a := by
  simp only [render, lines, closingText, Line.renderAll_append, renderAll_hitLines,
    renderAll_sectionLines, renderAll_containerLines, renderAll_summaryLines, String.append_assoc]

end TerminalReport
end KeywordAudit
