import KeywordAudit.Model.Load
import KeywordAudit.Proofs.JsonText

/-!
# Writing a model and reading it again

A model file has five kinds of records, and each of their fields has its own rule: it must be there,
it may be left out and then has a default, or it may be absent and is not written then.  Writing
and reading follow the same rules in every combination, at every depth, so a model is read back as
it was written: from its JSON value and from its text on one line.

A model that was read from elsewhere, with unknown members, with members in another order or with
arrays in place of objects, is not written as it was read.  But it is the same model when it is read
again, and from then on it is always written the same way.
-/

namespace KeywordAudit

open ReadsJson (Reads)

section Records

variable {R : Type → Type} [Format R] [ReadsJson R]

/-- A class is read as it was written, with or without a package. -/
theorem ClassEntry.reads_toJson (c : ClassEntry) : Reads (reader : R ClassEntry) c.toJson c := by
  obtain ⟨name, package⟩ := c
  have hname := ReadsJson.text (R := R) name
  cases package with
  | none => exact ReadsJson.record (.member rfl rfl hname .nil) rfl
  | some package =>
    have hpackage := ReadsJson.optional (R := R) Json.noConfusion (ReadsJson.text package)
    exact ReadsJson.record (.member rfl rfl hname (.member rfl rfl hpackage .nil)) rfl

/-- A call in a statement is read as it was written, whichever of its flags it gives. -/
theorem InvocationEntry.reads_toJson (i : InvocationEntry) :
    Reads (reader : R InvocationEntry) i.toJson i := by
  obtain ⟨target, interesting, library⟩ := i
  have htarget := ReadsJson.text (R := R) target
  have hflag : ∀ b, Reads (Format.optional Format.flag : R (Option Bool)) (.bool b) (some b) :=
    fun b => ReadsJson.optional Json.noConfusion (ReadsJson.flag b)
  cases interesting with
  | none =>
    cases library with
    | none => exact ReadsJson.record (.member rfl rfl htarget .nil) rfl
    | some library =>
      exact ReadsJson.record (.member rfl rfl htarget (.member rfl rfl (hflag library) .nil)) rfl
  | some interesting =>
    cases library with
    | none =>
      exact ReadsJson.record
        (.member rfl rfl htarget (.member rfl rfl (hflag interesting) .nil)) rfl
    | some library =>
      exact ReadsJson.record (.member rfl rfl htarget
        (.member rfl rfl (hflag interesting) (.member rfl rfl (hflag library) .nil))) rfl

/-- A statement is read as it was written, with or without a call. -/
theorem StatementEntry.reads_toJson (s : StatementEntry) :
    Reads (reader : R StatementEntry) s.toJson s := by
  obtain ⟨text, invocation⟩ := s
  have htext := ReadsJson.text (R := R) text
  cases invocation with
  | none => exact ReadsJson.record (.member rfl rfl htext .nil) rfl
  | some invocation =>
    have hcall := ReadsJson.optional (R := R) Json.noConfusion invocation.reads_toJson
    exact ReadsJson.record (.member rfl rfl htext (.member rfl rfl hcall .nil)) rfl

/-- A method is read as it was written; its body is written also when it is empty. -/
theorem MethodEntry.reads_toJson (m : MethodEntry) :
    Reads (reader : R MethodEntry) m.toJson m := by
  have hsignature := ReadsJson.text (R := R) m.signature
  have hclass := ReadsJson.text (R := R) m.className
  have hbody := ReadsJson.list_map (R := R) StatementEntry.reads_toJson m.body
  exact ReadsJson.record (.member rfl rfl hsignature
    (.member rfl rfl hclass (.member rfl rfl hbody .nil))) rfl

/-- A call is read as it was written. -/
theorem CallEntry.reads_toJson (c : CallEntry) : Reads (reader : R CallEntry) c.toJson c := by
  have hcaller := ReadsJson.text (R := R) c.caller
  have hcallee := ReadsJson.text (R := R) c.callee
  exact ReadsJson.record (.member rfl rfl hcaller (.member rfl rfl hcallee .nil)) rfl

/-- A model is read as it was written, in every format that reads JSON. -/
theorem Model.reads_toJson (m : Model) : Reads (reader : R Model) m.toJson m := by
  have hclasses := ReadsJson.list_map (R := R) ClassEntry.reads_toJson m.classes
  have hmethods := ReadsJson.list_map (R := R) MethodEntry.reads_toJson m.methods
  have hcalls := ReadsJson.list_map (R := R) CallEntry.reads_toJson m.calls
  exact ReadsJson.record (.member rfl rfl hclasses
    (.member rfl rfl hmethods (.member rfl rfl hcalls .nil))) rfl

end Records

namespace Model

/-- Reads a model from a JSON value. -/
def ofValue? (j : Json) : Option Model := (reader : Json.Decoder Model) j

theorem ofValue?_toJson (m : Model) : ofValue? m.toJson = some m :=
  reads_toJson (R := Json.Decoder) m

theorem ofJson_compact (m : Model) : ofJson m.toJson.compact = .ok m := by
  have hread := (reads_toJson (R := Json.Reader) m).read_text .oneLine
  rw [ofJson, show Json.read reader m.toJson.compact = .ok m from hread]
  rfl

/-- **Models are read as they were written.**  The JSON value of any model is read back as that
model, and so is its text.  So whatever JSON value or text a model was read from, writing it and
reading it again gives the same model, which is then written the same way, and building it gives
the same program, or the same error, and the same events. -/
theorem model_round_trip :
    (∀ m : Model, ofValue? m.toJson = some m ∧ ofJson m.toJson.compact = .ok m) ∧
    (∀ (j : Json) (m : Model), ofValue? j = some m →
      ofValue? m.toJson = some m ∧
      (ofValue? m.toJson).map toJson = some m.toJson ∧
      ∀ c, (ofValue? m.toJson).map (build c) = (ofValue? j).map (build c)) ∧
    (∀ (content : String) (m : Model), ofJson content = .ok m →
      ofJson m.toJson.compact = .ok m ∧
      (ofJson m.toJson.compact).map (fun m => m.toJson.compact) = .ok m.toJson.compact ∧
      ∀ c, buildRead c (ofJson m.toJson.compact) = buildRead c (ofJson content)) := by
  refine ⟨fun m => ⟨ofValue?_toJson m, ofJson_compact m⟩, fun j m hj => ?_, fun content m hm => ?_⟩
  · have hagain := ofValue?_toJson m
    refine ⟨hagain, ?_, fun c => ?_⟩
    · rw [hagain, Option.map_some]
    · rw [hagain, hj]
  · have hagain := ofJson_compact m
    refine ⟨hagain, ?_, fun c => ?_⟩
    · rw [hagain]
      rfl
    · rw [hagain, hm]

/-- A model in another form: members in another order, one of them unknown, a call as an array and
an option that is `null`. -/
def looseValue : Json :=
  .object [("call_edges", .array [.array [.string "run", .string "log"]]), ("comment", .null),
    ("methods", .array [.object [("class", .string "a.Main"), ("signature", .string "run"),
      ("body", .array [.object [("text", .string "say \"hi\"\n"), ("invoke", .object
        [("library", .null), ("interesting", .bool true), ("target", .string "log")])]])]])]

/-- The model of that value. -/
def looseModel : Model where
  methods := [{ signature := "run", className := "a.Main", body := [
    { text := "say \"hi\"\n", invocation := some { target := "log", interesting := some true } }] }]
  calls := [{ caller := "run", callee := "log" }]

/-- The loose value is written in another way, but read again as the same model; so is the text of
an empty array, which stands for the empty model. -/
theorem model_round_trip_loose :
    ofValue? looseValue = some looseModel ∧ looseModel.toJson.compact ≠ looseValue.compact ∧
    ofValue? looseModel.toJson = some looseModel ∧
    (ofValue? looseModel.toJson).map (build {}) = (ofValue? looseValue).map (build {}) ∧
    ofJson "[]" = .ok {} ∧ ofJson ({} : Model).toJson.compact = .ok {} := by
  have hread : ofValue? looseValue = some looseModel := by decide
  have htakes : Json.Reader.Takes reader ['[', ']'] ({} : Model) [] := ⟨by decide, by cbv⟩
  have hempty : ofJson "[]" = .ok {} := by
    rw [ofJson, Json.Reader.read_of_takes htakes]
    rfl
  obtain ⟨-, hvalue, htext⟩ := model_round_trip
  obtain ⟨hagain, -, hbuild⟩ := hvalue looseValue looseModel hread
  exact ⟨hread, by decide, hagain, hbuild {}, hempty, (htext "[]" {} hempty).1⟩

end Model
end KeywordAudit
