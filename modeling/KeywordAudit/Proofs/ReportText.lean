import KeywordAudit.Proofs.JsonText
import KeywordAudit.Report.Document

/-!
# Reading the text of a report

The text of a JSON report is read again here: a reader is put together for reports, which asks for
each member by its name and for the version of the form.  From the text of a report it gets that
report, with every hit and every figure.  So the text holds the whole report, and two reports with
the same text are the same.
-/

namespace KeywordAudit

open ReadsJson (Reads)

/-! ## Numbers -/

namespace Json

theorem Layout.text_nat (l : Layout) (level n : Nat) : l.text level (.nat n) = toString n := by
  cases l with
  | oneLine =>
    show compact (.number (toString n)) = _
    rw [compact]
  | manyLines =>
    show prettyAt level (.number (toString n)) = _
    rw [prettyAt]

namespace Reader

/-- Reads a natural number. -/
def natural : Reader Nat := fun input =>
  match next input with
  | .finished => .error .endOfInput
  | .char c rest h =>
    match numeral c rest with
    | .error f => .error f
    | .ok (n, after) =>
      if n.fraction.isEmpty && n.exponent.isEmpty then
        .ok (after.taken (Numeral.decimalValue n.whole) h)
      else .error .mismatch

theorem isDigit_of_mem_toDigits {n : Nat} {c : Char} (h : c ∈ Nat.toDigits 10 n) :
    isDigit c = true := by
  have hdigit : c.isDigit = true := Nat.isDigit_of_mem_toDigits (by decide) (by decide) h
  rw [Char.isDigit, Bool.and_eq_true, decide_eq_true_eq, decide_eq_true_eq] at hdigit
  rw [isDigit, Bool.and_eq_true, decide_eq_true_eq, decide_eq_true_eq]
  exact hdigit

theorem decimalValue_toDigits (n : Nat) : Numeral.decimalValue (Nat.toDigits 10 n) = n := by
  have hvalue : Numeral.decimalValue (Nat.toDigits 10 n) =
      Nat.ofDigitChars 10 (Nat.toDigits 10 n) 0 := by
    unfold Numeral.decimalValue Nat.ofDigitChars
    congr 1
    funext value d
    rw [Nat.mul_comm]
    rfl
  rw [hvalue, Nat.ofDigitChars_ten_toDigits]

/-- Only the number zero begins with a zero. -/
theorem head_toDigits {n : Nat} (h : n ≠ 0) : (Nat.toDigits 10 n).head? ≠ some '0' := by
  induction n using Nat.strongRecOn with
  | ind n ih =>
    rw [Nat.toDigits_eq_if (by decide)]
    split
    next hlt =>
      have hdigit : ∀ d < 10, d ≠ 0 → Nat.digitChar d ≠ '0' := by decide
      rw [List.head?_cons, ne_eq, Option.some.injEq]
      exact hdigit n hlt h
    next hge =>
      have hne : Nat.toDigits 10 (n / 10) ≠ [] := Nat.toDigits_ne_nil
      rw [List.head?_append_of_ne_nil _ hne]
      exact ih (n / 10) (by omega) (by omega)

theorem toDigits_cases (n : Nat) : ∃ c more, Nat.toDigits 10 n = c :: more ∧
    (c = '0' → more = []) := by
  by_cases hzero : n = 0
  · subst hzero
    exact ⟨'0', [], rfl, fun _ => rfl⟩
  · cases hdigits : Nat.toDigits 10 n with
    | nil => exact absurd hdigits Nat.toDigits_ne_nil
    | cons c more =>
      have hhead := head_toDigits hzero
      rw [hdigits, List.head?_cons, ne_eq, Option.some.injEq] at hhead
      exact ⟨c, more, rfl, fun hc => absurd hc hhead⟩

/-- What follows a value begins with no sign that a number may go on with. -/
theorem Ends.not_number {rest : List Char} (h : Ends rest) {c : Char}
    (hc : rest.head? = some c) : isDigit c = false ∧ c ≠ '.' ∧ c ≠ 'e' ∧ c ≠ 'E' := by
  rcases h c hc with hspace | hmem
  · simp only [isSpace, Bool.or_eq_true, beq_iff_eq] at hspace
    rcases hspace with ((rfl | rfl) | rfl) | rfl <;> decide
  · simp only [List.mem_cons, List.not_mem_nil, or_false] at hmem
    rcases hmem with rfl | rfl | rfl <;> decide

/-- Digits are taken up to the end of the number. -/
theorem digits_append {ds rest : List Char} (hds : ∀ d ∈ ds, isDigit d = true) (h : Ends rest) :
    ∃ hle, digits (ds ++ rest) = (ds, ⟨rest, hle⟩) := by
  have hstop : rest.takeWhile isDigit = [] ∧ rest.dropWhile isDigit = rest := by
    cases rest with
    | nil => exact ⟨rfl, rfl⟩
    | cons c rest =>
      have hc := (h.not_number rfl).1
      simp [hc]
  have hdrop : (ds ++ rest).dropWhile isDigit = rest := by
    rw [List.dropWhile_append_of_pos hds, hstop.2]
  refine ⟨by simp, ?_⟩
  unfold digits
  congr 1
  · rw [List.takeWhile_append_of_pos hds, hstop.1, List.append_nil]
  · exact Subtype.ext hdrop

/-- A number without a fraction and an exponent ends with its digits. -/
theorem numeral_append {c : Char} {more rest : List Char} (hc : isDigit c = true)
    (hmore : ∀ d ∈ more, isDigit d = true) (hzero : c = '0' → more = []) (h : Ends rest) :
    ∃ hle, numeral c (more ++ rest) = .ok (⟨c :: more, [], false, []⟩, ⟨rest, hle⟩) := by
  obtain ⟨hle, hdigits⟩ := digits_append hmore h
  have hfraction : fractionPart rest = .ok ([], .all) := by
    unfold fractionPart
    split
    next more => exact absurd rfl (h.not_number rfl).2.1
    next => rfl
  have hexponent : exponentPart rest = .ok (false, [], .all) := by
    cases rest with
    | nil => rfl
    | cons d rest =>
      obtain ⟨-, -, he, hE⟩ := h.not_number rfl
      unfold exponentPart
      exact if_neg (by simp [he, hE])
  have hleading : (c = '0' && !more.isEmpty) = false := by
    rw [Bool.and_eq_false_iff]
    by_cases hfirst : c = '0'
    · exact .inr (by rw [hzero hfirst]; rfl)
    · exact .inl (decide_eq_false hfirst)
  refine ⟨hle, ?_⟩
  rw [numeral, hc, hdigits]
  simp only [Bool.not_true, Bool.false_eq_true, if_false, hleading]
  rw [hfraction]
  show (Except.bind (exponentPart rest) _) = _
  rw [hexponent]
  rfl

/-- A natural number is read as it was written. -/
theorem natural_nat (n : Nat) : ReadsText natural (.nat n) n := by
  intro l level
  obtain ⟨c, more, hdigits, hzero⟩ := toDigits_cases n
  have hall : ∀ d ∈ c :: more, isDigit d = true := by
    intro d hd
    rw [← hdigits] at hd
    exact isDigit_of_mem_toDigits hd
  have hc := hall c List.mem_cons_self
  have hchars : (l.text level (.nat n)).toList = c :: more := by
    rw [Layout.text_nat, Nat.toString_eq_ofList_toDigits, String.toList_ofList, hdigits]
  have hsign : isSpace c = false ∧ c ≠ ']' ∧ c ≠ 'n' := by
    refine ⟨?_, ?_, ?_⟩
    · rw [Bool.eq_false_iff]
      intro hspace
      simp only [isSpace, Bool.or_eq_true, beq_iff_eq] at hspace
      rcases hspace with ((rfl | rfl) | rfl) | rfl <;> exact absurd hc (by decide)
    · rintro rfl
      exact absurd hc (by decide)
    · rintro rfl
      exact absurd hc (by decide)
  rw [hchars]
  refine ⟨begins_cons hsign more _, fun blanks rest hblanks hends => ?_⟩
  obtain ⟨hle, hnumeral⟩ := numeral_append hc
    (fun d hd => hall d (List.mem_cons_of_mem c hd)) hzero hends
  rw [List.cons_append]
  refine ⟨by simp; omega, ?_⟩
  rw [natural, next_cons hblanks _ hsign.1]
  simp only [hnumeral]
  have hvalue : Numeral.decimalValue (c :: more) = n := by
    rw [← hdigits, decimalValue_toDigits]
  simp only [hvalue]
  rfl

end Reader
end Json

/-! ## The readers -/

namespace ReportDocument

/-- A policy that is being read. -/
structure PolicyDraft where
  interestedApiOnly : Option Bool := none
  apiInLibrariesOnly : Option Bool := none
  recordContainerSymbol : Option Bool := none
  containerSymbol : Option String := none

/-- Reads a policy. -/
def policyReader : Json.Reader Policy :=
  Format.record
    [ .optional "interested_api_only" PolicyDraft.interestedApiOnly
        (fun v d => { d with interestedApiOnly := some v }) Format.flag,
      .optional "api_in_libraries_only" PolicyDraft.apiInLibrariesOnly
        (fun v d => { d with apiInLibrariesOnly := some v }) Format.flag,
      .optional "record_container_symbol" PolicyDraft.recordContainerSymbol
        (fun v d => { d with recordContainerSymbol := some v }) Format.flag,
      .optional "container_symbol" PolicyDraft.containerSymbol
        (fun v d => { d with containerSymbol := some v }) Format.text ]
    {} fun d => do
      let interestedApiOnly ← d.interestedApiOnly
      let apiInLibrariesOnly ← d.apiInLibrariesOnly
      let recordContainerSymbol ← d.recordContainerSymbol
      let containerSymbol ← d.containerSymbol
      return ⟨interestedApiOnly, apiInLibrariesOnly, recordContainerSymbol, containerSymbol⟩

/-- A hit that is being read. -/
structure HitDraft where
  keyword : Option String := none
  method : Option String := none
  methodName : Option String := none
  className : Option (Option String) := none
  index : Option Nat := none
  text : Option String := none
  scope : Option String := none
  rootCallers : Option (List String) := none

/-- Reads a hit. -/
def hitReader : Json.Reader HitRecord :=
  Format.record
    [ .optional "keyword" HitDraft.keyword (fun v d => { d with keyword := some v }) Format.text,
      .optional "method" HitDraft.method (fun v d => { d with method := some v }) Format.text,
      .optional "method_name" HitDraft.methodName (fun v d => { d with methodName := some v })
        Format.text,
      .optional "class" HitDraft.className (fun v d => { d with className := some v })
        (Format.optional Format.text),
      .optional "statement_index" HitDraft.index (fun v d => { d with index := some v })
        Json.Reader.natural,
      .optional "statement" HitDraft.text (fun v d => { d with text := some v }) Format.text,
      .optional "scope" HitDraft.scope (fun v d => { d with scope := some v }) Format.text,
      .optional "root_callers" HitDraft.rootCallers (fun v d => { d with rootCallers := some v })
        (Format.list Format.text) ]
    {} fun d => do
      let keyword ← d.keyword
      let method ← d.method
      let className ← d.className
      let index ← d.index
      let text ← d.text
      let scope ← d.scope
      let rootCallers ← d.rootCallers
      return ⟨keyword, method, d.methodName, className, index, text, scope, rootCallers⟩

/-- Figures that are being read. -/
structure SummaryDraft where
  totalHits : Option Nat := none
  distinctKeywords : Option Nat := none
  methodsWithHits : Option Nat := none
  rootCallerClasses : Option Nat := none

/-- Reads the figures. -/
def summaryReader : Json.Reader Summary :=
  Format.record
    [ .optional "total_hits" SummaryDraft.totalHits (fun v d => { d with totalHits := some v })
        Json.Reader.natural,
      .optional "distinct_keywords" SummaryDraft.distinctKeywords
        (fun v d => { d with distinctKeywords := some v }) Json.Reader.natural,
      .optional "methods_with_hits" SummaryDraft.methodsWithHits
        (fun v d => { d with methodsWithHits := some v }) Json.Reader.natural,
      .optional "root_caller_classes" SummaryDraft.rootCallerClasses
        (fun v d => { d with rootCallerClasses := some v }) Json.Reader.natural ]
    {} fun d => do
      let totalHits ← d.totalHits
      let distinctKeywords ← d.distinctKeywords
      let methodsWithHits ← d.methodsWithHits
      let rootCallerClasses ← d.rootCallerClasses
      return ⟨totalHits, distinctKeywords, methodsWithHits, rootCallerClasses⟩

/-- A report that is being read. -/
structure Draft where
  version : Option String := none
  policy : Option Policy := none
  hits : Option (List HitRecord) := none
  keywordsHit : Option (List String) := none
  packageKeywords : Option (List String) := none
  containerStatements : Option (List String) := none
  rootCallerClasses : Option (List String) := none
  summary : Option Summary := none

/-- Reads a report of version 1.0. -/
def reader : Json.Reader ReportDocument :=
  Format.record
    [ .optional "version" Draft.version (fun v d => { d with version := some v }) Format.text,
      .optional "policy" Draft.policy (fun v d => { d with policy := some v }) policyReader,
      .optional "hits" Draft.hits (fun v d => { d with hits := some v }) (Format.list hitReader),
      .optional "keywords_hit" Draft.keywordsHit (fun v d => { d with keywordsHit := some v })
        (Format.list Format.text),
      .optional "keywords_in_package" Draft.packageKeywords
        (fun v d => { d with packageKeywords := some v }) (Format.list Format.text),
      .optional "container_symbol_statements" Draft.containerStatements
        (fun v d => { d with containerStatements := some v }) (Format.list Format.text),
      .optional "root_caller_classes" Draft.rootCallerClasses
        (fun v d => { d with rootCallerClasses := some v }) (Format.list Format.text),
      .optional "summary" Draft.summary (fun v d => { d with summary := some v }) summaryReader ]
    {} fun d => do
      let version ← d.version
      guard (version = "1.0")
      let policy ← d.policy
      let hits ← d.hits
      let keywordsHit ← d.keywordsHit
      let packageKeywords ← d.packageKeywords
      let rootCallerClasses ← d.rootCallerClasses
      let summary ← d.summary
      return ⟨policy, hits, keywordsHit, packageKeywords, d.containerStatements, rootCallerClasses,
        summary⟩

/-- Reads a report from its text. -/
def ofText? (text : String) : Option ReportDocument :=
  match Json.read reader text with
  | .ok d => some d
  | .error _ => none

/-! ## Reports are read as they were written -/

theorem reads_strings (xs : List String) :
    Reads (Format.list Format.text : Json.Reader (List String)) (.strings xs) xs :=
  ReadsJson.list_map ReadsJson.text xs

theorem reads_policyJson (p : Policy) : Reads policyReader (policyJson p) p := by
  have hinterested := ReadsJson.flag (R := Json.Reader) p.interestedApiOnly
  have hlibraries := ReadsJson.flag (R := Json.Reader) p.apiInLibrariesOnly
  have hrecord := ReadsJson.flag (R := Json.Reader) p.recordContainerSymbol
  have hsymbol := ReadsJson.text (R := Json.Reader) p.containerSymbol
  exact ReadsJson.record (.member rfl rfl hinterested (.member rfl rfl hlibraries
    (.member rfl rfl hrecord (.member rfl rfl hsymbol .nil)))) rfl

theorem reads_summaryJson (s : Summary) : Reads summaryReader (summaryJson s) s := by
  have htotal := Json.Reader.natural_nat s.totalHits
  have hkeywords := Json.Reader.natural_nat s.distinctKeywords
  have hmethods := Json.Reader.natural_nat s.methodsWithHits
  have hclasses := Json.Reader.natural_nat s.rootCallerClasses
  exact ReadsJson.record (.member rfl rfl htotal (.member rfl rfl hkeywords
    (.member rfl rfl hmethods (.member rfl rfl hclasses .nil)))) rfl

theorem reads_textOrNull (s : Option String) :
    Reads (Format.optional Format.text : Json.Reader (Option String)) (textOrNull s) s := by
  cases s with
  | none => exact Json.Reader.optional_null _
  | some s => exact ReadsJson.optional Json.noConfusion (ReadsJson.text s)

/-- A hit is read as it was written, with or without a short name and a class. -/
theorem reads_hitJson (h : HitRecord) : Reads hitReader (hitJson h) h := by
  obtain ⟨keyword, method, methodName, className, index, text, scope, rootCallers⟩ := h
  have hkeyword := ReadsJson.text (R := Json.Reader) keyword
  have hmethod := ReadsJson.text (R := Json.Reader) method
  have hclass := reads_textOrNull className
  have hindex := Json.Reader.natural_nat index
  have htext := ReadsJson.text (R := Json.Reader) text
  have hscope := ReadsJson.text (R := Json.Reader) scope
  have hroots := reads_strings rootCallers
  cases methodName with
  | none =>
    exact ReadsJson.record (.member rfl rfl hkeyword (.member rfl rfl hmethod
      (.member rfl rfl hclass (.member rfl rfl hindex (.member rfl rfl htext
        (.member rfl rfl hscope (.member rfl rfl hroots .nil))))))) rfl
  | some name =>
    have hname := ReadsJson.text (R := Json.Reader) name
    exact ReadsJson.record (.member rfl rfl hkeyword (.member rfl rfl hmethod
      (.member rfl rfl hname (.member rfl rfl hclass (.member rfl rfl hindex
        (.member rfl rfl htext (.member rfl rfl hscope (.member rfl rfl hroots .nil)))))))) rfl

/-- A report is read as it was written, with or without container statements. -/
theorem reads_toJson (d : ReportDocument) : Reads reader d.toJson d := by
  obtain ⟨policy, hits, keywordsHit, packageKeywords, containerStatements, rootCallerClasses,
    summary⟩ := d
  have hversion := ReadsJson.text (R := Json.Reader) formVersion
  have hpolicy := reads_policyJson policy
  have hhits := ReadsJson.list_map reads_hitJson hits
  have hkeywords := reads_strings keywordsHit
  have hpackages := reads_strings packageKeywords
  have hclasses := reads_strings rootCallerClasses
  have hsummary := reads_summaryJson summary
  cases containerStatements with
  | none =>
    exact ReadsJson.record (.member rfl rfl hversion (.member rfl rfl hpolicy
      (.member rfl rfl hhits (.member rfl rfl hkeywords (.member rfl rfl hpackages
        (.member rfl rfl hclasses (.member rfl rfl hsummary .nil))))))) rfl
  | some statements =>
    have hstatements := reads_strings statements
    exact ReadsJson.record (.member rfl rfl hversion (.member rfl rfl hpolicy
      (.member rfl rfl hhits (.member rfl rfl hkeywords (.member rfl rfl hpackages
        (.member rfl rfl hstatements (.member rfl rfl hclasses
          (.member rfl rfl hsummary .nil)))))))) rfl

/-- **The text of a report holds the whole report.** -/
theorem ofText?_render (d : ReportDocument) : ofText? d.render = some d := by
  have hread : Json.read reader d.render = .ok d := (reads_toJson d).read_text .manyLines
  rw [ofText?, hread]

end ReportDocument
end KeywordAudit
