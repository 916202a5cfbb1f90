import KeywordAudit.Proofs.FileWrites
import KeywordAudit.Proofs.ModelBuild
import KeywordAudit.Proofs.ModelRoundTrip
import KeywordAudit.Proofs.ReportText
import KeywordAudit.Run

/-!
# What a run prints and writes

A run prints at three points, and it can fail before and between them: the notice of an empty
keyword list comes before the report is given out, and giving it out can fail.  It fails only when a
JSON report is written to a file, and a run that makes a JSON report is quiet.  So a run that fails
has printed nothing and written nothing, at whatever point it fails.

A run that succeeds with a JSON report gives out exactly the text of the report, in one of two ways:
it prints it, or it puts it in the named file and prints one line about that.  The report can be
read again from the text, and the file from every path that leads to it; all other files are as they
were.
-/

namespace KeywordAudit
namespace Run

/-- All that a run needs is there: a format, the two files, a model that can be built, and
keywords. -/
structure Prepared (config : Config) (options : Options) (files : FileTree) (format : ReportFormat)
    (program : Program) (keywords : KeywordList) : Prop where
  format : reportFormat config options = .ok format
  present : checkFiles files options = .ok ()
  model : (Model.load config.classification files options.model).1 = .ok program
  keywords : (KeywordList.load files options.keywords).1 = .ok keywords

/-- The report on a program. -/
def document (config : Config) (program : Program) (keywords : KeywordList) : ReportDocument :=
  ReportDocument.ofAudit (program.audit keywords config.inspection).1

/-- A text is that of a report: it is the JSON value of the report with one entry a line, and the
report is read from it. -/
structure IsText (text : String) (report : ReportDocument) : Prop where
  layout : text = report.toJson.pretty
  read : ReportDocument.ofText? text = some report

theorem isText_render (report : ReportDocument) : IsText report.render report :=
  ⟨rfl, report.ofText?_render⟩

section

variable {config : Config} {options : Options} {coloured : Bool} {files : FileTree}

/-- A run is prepared in one way only. -/
theorem Prepared.unique {format format' : ReportFormat} {program program' : Program}
    {keywords keywords' : KeywordList}
    (h : Prepared config options files format program keywords)
    (h' : Prepared config options files format' program' keywords') :
    format = format' ∧ program = program' ∧ keywords = keywords' := by
  have hformat := h.format.symm.trans h'.format
  have hmodel := h.model.symm.trans h'.model
  have hkeywords := h.keywords.symm.trans h'.keywords
  exact ⟨Except.ok.inj hformat, Except.ok.inj hmodel, Except.ok.inj hkeywords⟩

/-! ## Before the analysis -/

/-- What comes of loading something: the run goes on with it, or it fails and has changed no
file. -/
inductive Proceeds {ε α : Type} (files : FileTree) (next : α → Outcome) :
    Except ε α → Outcome → Prop where
  | loaded {x : α} {events : List Event} : Proceeds files next (.ok x) (after events (next x))
  | failed {cause : ε} {e : RunError} {events : List Event} :
    Proceeds files next (.error cause) { files := files, events := events, error := some e }

theorem withProgram_proceeds (classification : Classification) (files : FileTree) (path : String)
    (next : Program → Outcome) :
    Proceeds files next (Model.load classification files path).1
      (withProgram classification files path next) := by
  unfold withProgram
  rcases Model.load classification files path with ⟨result, events⟩
  cases result with
  | error e => exact .failed
  | ok program => exact .loaded

theorem withKeywords_proceeds (files : FileTree) (path : String) (next : KeywordList → Outcome) :
    Proceeds files next (KeywordList.load files path).1 (withKeywords files path next) := by
  unfold withKeywords
  rcases KeywordList.load files path with ⟨result, events⟩
  cases result with
  | error e => exact .failed
  | ok keywords => exact .loaded

/-- A run that is prepared comes to the analysis; any other fails before it. -/
theorem runWith_cases (config : Config) (options : Options) (coloured : Bool) (files : FileTree) :
    (∃ format program keywords events, Prepared config options files format program keywords ∧
      runWith config options coloured files =
        after events (analyze config options format coloured files program keywords)) ∨
    (∀ format program keywords, ¬ Prepared config options files format program keywords) ∧
      ∃ e events, runWith config options coloured files =
        { files := files, events := events, error := some e } := by
  cases hformat : reportFormat config options with
  | error e =>
    refine .inr ⟨fun _ _ _ h => (nomatch hformat.symm.trans h.format), e, [], ?_⟩
    rw [runWith, hformat]
  | ok format =>
    cases hpresent : checkFiles files options with
    | error e =>
      refine .inr ⟨fun _ _ _ h => (nomatch hpresent.symm.trans h.present), e, [], ?_⟩
      rw [runWith, hformat, hpresent]
    | ok _ =>
      have hrun : runWith config options coloured files =
          withProgram config.classification files options.model fun program =>
            withKeywords files options.keywords fun keywords =>
              analyze config options format coloured files program keywords := by
        rw [runWith, hformat, hpresent]
      rw [hrun]
      have hprogram := withProgram_proceeds config.classification files options.model fun program =>
        withKeywords files options.keywords fun keywords =>
          analyze config options format coloured files program keywords
      -- the result and the outcome have to be variables, so that the two ways can be told apart
      generalize hmodel :
        (Model.load config.classification files options.model).1 = model at hprogram
      generalize withProgram _ _ _ _ = o at hprogram ⊢
      cases hprogram with
      | failed => exact .inr ⟨fun _ _ _ h => (nomatch hmodel.symm.trans h.model), _, _, rfl⟩
      | @loaded program modelEvents =>
        have hanalysis := withKeywords_proceeds files options.keywords fun keywords =>
          analyze config options format coloured files program keywords
        generalize hkeywords : (KeywordList.load files options.keywords).1 = list at hanalysis
        generalize withKeywords _ _ _ = o at hanalysis ⊢
        cases hanalysis with
        | failed => exact .inr ⟨fun _ _ _ h => (nomatch hkeywords.symm.trans h.keywords), _, _, rfl⟩
        | @loaded keywords keywordEvents =>
          refine .inl ⟨format, program, keywords, modelEvents ++ keywordEvents,
            ⟨hformat, hpresent, hmodel, hkeywords⟩, ?_⟩
          rw [after, after, after, List.append_assoc]

/-! ## The analysis and its report -/

/-- The line that is printed after a report was written. -/
def writtenLine (path : String) : String := s!"Report written to: {path}\n"

/-- The analysis with a JSON report is quiet: nothing is printed but the document, or the line about
the file that holds it. -/
theorem analyze_json (program : Program) (keywords : KeywordList) :
    analyze config options .json coloured files program keywords =
      let events := (program.audit keywords config.inspection).2
      match options.output with
      | none => ⟨(document config program keywords).render ++ "\n", none, files, events, none⟩
      | some path =>
        match files.write path (document config program keywords).render with
        | .error e => ⟨"", none, files, events, some (.output e)⟩
        | .ok after => ⟨writtenLine path, none, after, events, none⟩ := by
  have hquiet : (options.quiet || ReportFormat.json == ReportFormat.json) = true := by
    rw [Bool.or_eq_true]
    exact .inr rfl
  unfold analyze Reporter.report
  simp only [hquiet, Bool.not_true, Bool.and_false, Bool.false_eq_true, if_false, if_true]
  cases options.output with
  | none =>
    simp only [String.empty_append]
    rfl
  | some path =>
    simp only [document]
    cases files.write path _ <;> rfl

/-- The report can be given out: where a JSON report goes to a file, the path of the file names a
place for it. -/
def Deliverable (files : FileTree) (format : ReportFormat) (output : Option String) : Prop :=
  format = .json → ∀ path, output = some path → ∃ place, files.Names path place

/-- What was printed, and the files afterwards, when a report was given out. -/
structure Delivered (files : FileTree) (format : ReportFormat) (output : Option String)
    (report : ReportDocument) (printed : String) (after : FileTree) : Prop where
  /-- A report for the terminal changes no file, whatever file is named for it. -/
  terminal : format = .terminal → after = files
  /-- A JSON report for which no file is named is printed, and no file is changed. -/
  shown : format = .json → output = none →
    (∃ text, IsText text report ∧ printed = text ++ "\n") ∧ after = files
  /-- A JSON report for which a file is named is in that file, one line is printed, and everything
  else in the tree is as it was. -/
  stored : format = .json → ∀ path, output = some path → printed = writtenLine path ∧
    ∃ place text, files.Names path place ∧ IsText text report ∧ after.read path = .ok text ∧
      files.Wrote place text after

/-- The analysis succeeds and delivers the report, or the report cannot be delivered, and then the
analysis fails, and has printed nothing and changed no file. -/
theorem analyze_cases (format : ReportFormat) (program : Program) (keywords : KeywordList)
    (elapsed : String) :
    let o := analyze config options format coloured files program keywords
    (Deliverable files format options.output ∧ o.error = none ∧
      Delivered files format options.output (document config program keywords)
        (o.output coloured elapsed) o.files) ∨
    (¬ Deliverable files format options.output ∧
      o.error ≠ none ∧ o.output coloured elapsed = "" ∧ o.files = files) := by
  intro o
  cases format with
  | terminal =>
    -- this report is only printed, and printing it cannot fail
    exact .inl ⟨nofun, rfl, fun _ => rfl, nofun, nofun⟩
  | json =>
    have ho : o = _ := analyze_json program keywords
    cases houtput : options.output with
    | none =>
      rw [houtput] at ho
      refine .inl ⟨nofun, ?_, nofun, fun _ _ => ?_, nofun⟩
      · rw [ho]
      · rw [ho]
        exact ⟨⟨_, isText_render _, String.append_empty⟩, rfl⟩
    | some path =>
      simp only [houtput] at ho
      rcases files.write_cases path (document config program keywords).render with
        ⟨place, after, hnames, hwrite, hwrote⟩ | ⟨hnone, e, hwrite⟩
      · simp only [hwrite] at ho
        refine .inl ⟨fun _ other hpath => ?_, ?_, nofun, nofun, fun _ other hpath => ?_⟩
        · rw [← Option.some.inj hpath]
          exact ⟨place, hnames⟩
        · rw [ho]
        · rw [← Option.some.inj hpath, ho]
          exact ⟨String.append_empty, place, _, hnames, isText_render _,
            hwrote.here path hnames.resolve, hwrote⟩
      · simp only [hwrite] at ho
        refine .inr ⟨fun h => ?_, ?_, ?_⟩
        · obtain ⟨place, hnames⟩ := h rfl path rfl
          exact hnone place hnames
        · rw [ho]
          exact Option.some_ne_none _
        · rw [ho]
          exact ⟨rfl, rfl⟩

end

/-- **All or nothing.**  A run succeeds exactly when it is prepared and its report can be delivered.
A run that fails has printed nothing and changed no file; a run that succeeds has delivered its
report and done nothing else. -/
theorem run_all_or_nothing (config : Config) (options : Options) (coloured : Bool)
    (elapsed : String) (files : FileTree) :
    let o := runWith config options coloured files
    (o.error = none ↔ ∃ format program keywords,
      Prepared config options files format program keywords ∧
      Deliverable files format options.output) ∧
    (o.error ≠ none → o.output coloured elapsed = "" ∧ o.files = files) ∧
    ∀ format program keywords, Prepared config options files format program keywords →
      o.error = none → Delivered files format options.output (document config program keywords)
        (o.output coloured elapsed) o.files := by
  intro o
  rcases runWith_cases config options coloured files with
    ⟨format, program, keywords, events, hprepared, hrun⟩ | ⟨hnone, e, events, hrun⟩
  · have ho : o = after events
        (analyze config options format coloured files program keywords) := hrun
    rw [ho]
    rcases analyze_cases format program keywords elapsed with
      ⟨hable, hok, hdelivered⟩ | ⟨hunable, hfailed, hnothing⟩
    · refine ⟨⟨fun _ => ⟨format, program, keywords, hprepared, hable⟩, fun _ => hok⟩,
        fun herror => absurd hok herror, fun format' program' keywords' hprepared' _ => ?_⟩
      obtain ⟨rfl, rfl, rfl⟩ := hprepared.unique hprepared'
      exact hdelivered
    · refine ⟨⟨fun hok => absurd hok hfailed, ?_⟩, fun _ => hnothing,
        fun _ _ _ _ hok => absurd hok hfailed⟩
      rintro ⟨format', program', keywords', hprepared', hable⟩
      obtain ⟨rfl, rfl, rfl⟩ := hprepared.unique hprepared'
      exact absurd hable hunable
  · have ho : o = { files := files, events := events, error := some e } := hrun
    rw [ho]
    exact ⟨⟨nofun, fun ⟨_, _, _, h, _⟩ => absurd h (hnone _ _ _)⟩,
      fun _ => ⟨rfl, rfl⟩, fun _ _ _ h => absurd h (hnone _ _ _)⟩

/-- A model of one method. -/
def noteModel : Model where
  methods := [{ signature := "run", className := "a.Main", body := [{ text := "say key" }] }]

/-- A tree of that model and a list of one keyword, both in the current directory. -/
def noteFiles : FileTree where
  entries := [(["home", "m.json"], .file (.text noteModel.toJson.compact)),
    (["home", "k.txt"], .file (.text "key"))]
  current := ["home"]

/-- The options for a JSON report on them, in a given file. -/
def noteOptions (output : String) : Options where
  model := "m.json"
  keywords := "k.txt"
  format := some .json
  output := some output

theorem exists_prepared_note (output : String) : ∃ program keywords,
    Prepared {} (noteOptions output) noteFiles .json program keywords := by
  have hpresent : checkFiles noteFiles (noteOptions output) = .ok () := by
    have hmodel : noteFiles.pathExists "m.json" = true := rfl
    have hkeywords : noteFiles.pathExists "k.txt" = true := rfl
    show (if !noteFiles.pathExists "m.json" then _
      else if !noteFiles.pathExists "k.txt" then _ else _) = _
    rw [hmodel, hkeywords]
    rfl
  have hread : noteFiles.read "m.json" = .ok noteModel.toJson.compact := rfl
  have hparse : Model.parse (.ofPath "m.json") noteModel.toJson.compact = .ok noteModel :=
    Model.ofJson_compact noteModel
  obtain ⟨program, hbuild, -⟩ := noteModel.exists_program {} (by decide)
  have hmodel : (Model.load {} noteFiles "m.json").1 = .ok program := by
    rw [Model.load, hread]
    simp only [hparse, Model.buildRead, hbuild]
    rfl
  have hkeywords : (KeywordList.load noteFiles "k.txt").1 = .ok (KeywordList.parse "key") := by
    have hlist : noteFiles.read "k.txt" = .ok "key" := rfl
    rw [KeywordList.load, hlist]
  exact ⟨program, KeywordList.parse "key", rfl, hpresent, hmodel, hkeywords⟩

/-- The report on them can be stored beside them, and then it is read by any path to it, and they
are as they were, by whatever path they are found; in a directory that is not there it cannot be
stored, and nothing is printed. -/
theorem run_all_or_nothing_note :
    let stored := runWith {} (noteOptions "../home/r.json") false noteFiles
    let failed := runWith {} (noteOptions "no/r.json") false noteFiles
    (stored.error = none ∧ stored.output false "0" = "Report written to: ../home/r.json\n" ∧
      (∃ program keywords text, stored.files.read "r.json" = .ok text ∧
        ReportDocument.ofText? text = some (document {} program keywords)) ∧
      stored.files.find "/home/m.json" = noteFiles.find "m.json") ∧
    failed.error ≠ none ∧ failed.output false "0" = "" ∧ failed.files = noteFiles := by
  have hbeside : noteFiles.Names "../home/r.json" ["home", "r.json"] :=
    ⟨rfl, ⟨["..", "home"], "r.json", rfl, by decide, by decide, by decide⟩, nofun⟩
  have haway : noteFiles.resolve "no/r.json" = .error .notFound := rfl
  obtain ⟨program, keywords, hprepared⟩ := exists_prepared_note "../home/r.json"
  obtain ⟨hstored, -, hdelivered⟩ :=
    run_all_or_nothing {} (noteOptions "../home/r.json") false "0" noteFiles
  have hable : Deliverable noteFiles .json (some "../home/r.json") := by
    intro _ path hpath
    rw [← Option.some.inj hpath]
    exact ⟨_, hbeside⟩
  have hok := hstored.2 ⟨.json, program, keywords, hprepared, hable⟩
  obtain ⟨hline, place, text, hnames, htext, -, hwrote⟩ :=
    (hdelivered _ _ _ hprepared hok).stored rfl "../home/r.json" rfl
  have hplace : ["home", "r.json"] = place :=
    Except.ok.inj (hbeside.resolve.symm.trans hnames.resolve)
  subst hplace
  have hmodel : noteFiles.resolve "/home/m.json" ≠ .ok ["home", "r.json"] := by
    show Except.ok ["home", "m.json"] ≠ _
    decide
  obtain ⟨hfailed, hnothing, -⟩ :=
    run_all_or_nothing {} (noteOptions "no/r.json") false "0" noteFiles
  have herror : (runWith {} (noteOptions "no/r.json") false noteFiles).error ≠ none := by
    intro hnone
    obtain ⟨format, program', keywords', hprepared', hable'⟩ := hfailed.1 hnone
    have hjson : format = .json := (Except.ok.inj hprepared'.format).symm
    obtain ⟨place, hnames⟩ := hable' hjson "no/r.json" rfl
    exact nomatch haway.symm.trans hnames.resolve
  refine ⟨⟨hok, hline, ⟨program, keywords, text, hwrote.here "r.json" rfl, htext.read⟩, ?_⟩, herror,
    hnothing herror⟩
  exact (hwrote.elsewhere "/home/m.json" hmodel _).2 rfl

end Run
end KeywordAudit
