import Marksheet.CommandLine
import Marksheet.Proofs.Json.Records
import Marksheet.Proofs.Sheet.Records
import Marksheet.Proofs.Sheet.Sums

/-!
# Marksheet.Proofs.CommandLine.Restoring

What `compile` prints can be kept in a file and restored. The record comes back as it was printed,
whatever characters the formula is written with, and with the same kind of weightings nothing else
in it changes.

* `CommandLine.request?_compile`, `request?_restore` : what the two lines of arguments ask for.
* `Sheet.ofRecord_ofScheme` : a sheet without marks comes back from its record.
* `CommandLine.run_restore` : what is answered for a file with such a record.
* `CommandLine.restored_of_compile` : the one line after the other.
-/

namespace Marksheet

/-! ## Sheets without marks -/

/-- The record of a scheme that was compiled from a text, all marks unknown. -/
def Scheme.record (scheme : Scheme) (text : String) : Record Float where
  formula := text
  entities := scheme.entries.map fun entry => { name := entry.name, weighting := entry.weighting }

namespace Sheet

variable {options : Options} {text : String} {scheme : Scheme}

theorem toRecord_ofScheme (h : Scheme.compile options text = .ok scheme) :
    (ofScheme text scheme : Sheet Float).toRecord = scheme.record text := by
  rw [toRecord, entities_ofScheme h, ofScheme, formula_ofEntities]
  rfl

theorem ofRecord_ofScheme (h : Scheme.compile options text = .ok scheme) :
    ofRecord options (scheme.record text) = .ok (ofScheme text scheme) := by
  have hactions : (ofScheme text scheme : Sheet Float).entities.flatMap Entity.actions = [] := by
    rw [entities_ofScheme h, List.flatMap_eq_nil_iff]
    intro entity he
    obtain ⟨entry, -, rfl⟩ := List.mem_map.mp he
    rfl
  have hformula : (ofScheme text scheme : Sheet Float).formula = text := formula_ofEntities text _
  rw [← toRecord_ofScheme h, ofRecord_of_names h hformula (namesOf_ofScheme h), hactions]
  rfl

theorem isComplete_ofScheme (h : Scheme.compile options text = .ok scheme) :
    (ofScheme text scheme : Sheet Float).isComplete = scheme.entries.isEmpty := by
  rw [isComplete, entities_ofScheme h]
  cases scheme.entries <;> simp

theorem average_ofScheme (h : Scheme.compile options text = .ok scheme) :
    (ofScheme text scheme : Sheet Float).average = 0 := by
  have hknown : knownMarks (ofScheme text scheme : Sheet Float).entities = [] := by
    rw [entities_ofScheme h, knownMarks, List.filterMap_map]
    exact List.filterMap_eq_nil_iff.mpr fun _ _ => rfl
  have hzero : Scalar.isZero (0 : Float) = true := by decide +kernel
  rw [average, hknown]
  exact if_pos hzero

end Sheet

/-- Weightings that come of a text fit, so the lines of the record are read back. -/
theorem Scheme.fresh_record {options : Options} {text : String} {scheme : Scheme}
    (h : compile options text = .ok scheme) : ∀ entity ∈ (scheme.record text).entities, entity.Fresh := by
  obtain ⟨formula, hp, hs⟩ := ok_of_bind h
  intro entity he
  obtain ⟨entry, hentry, rfl⟩ := List.mem_map.mp he
  have hle := ((limited_of_parse hp hs).each entry hentry).2
  exact ⟨rfl, Nat.lt_of_le_of_lt hle (by decide)⟩

namespace CommandLine

/-! ## Two lines of arguments -/

def nameOf : Normalization → String
  | .commonDenominator => "common-denominator"
  | .numeratorOnly => "numerator-only"

def compileArguments (normalization : Normalization) (formula : String) : List String :=
  ["compile", "--normalization", nameOf normalization, "--json", "--", formula]

def restoreArguments (normalization : Normalization) (path : String) : List String :=
  ["restore", path, "--normalization", nameOf normalization, "--json"]

section Parts

variable {command : Command} {normalization : Normalization} {argument : String}

theorem spelling_nameOf (normalization : Normalization) :
    spelling (nameOf normalization) = .plain := by
  cases normalization <;> decide

theorem parts_normalization (hc : command.takesValue "normalization" = true) (rest : List String) :
    parts command ("--normalization" :: nameOf normalization :: rest) =
      (parts command rest).map (.option "normalization" (nameOf normalization) :: ·) := by
  have hs : spelling "--normalization" = .long "normalization" none := by decide
  have hf : isFlag "normalization" = false := by decide
  rw [parts, hs]
  simp [hf, hc, spelling_nameOf]

theorem parts_json (command : Command) (rest : List String) :
    parts command ("--json" :: rest) = (parts command rest).map (.flag "json" :: ·) := by
  have hs : spelling "--json" = .long "json" none := by decide
  have hf : isFlag "json" = true := by decide
  rw [parts, hs]
  simp [hf]

theorem parts_separator (command : Command) (rest : List String) :
    parts command ("--" :: rest) = some (rest.map .plain) := by
  have hs : spelling "--" = .separator := by decide
  rw [parts, hs]

theorem parts_plain (h : spelling argument = .plain) (rest : List String) :
    parts command (argument :: rest) = (parts command rest).map (.plain argument :: ·) := by
  rw [parts, h]

theorem normalizationOf?_nameOf (normalization : Normalization) :
    normalizationOf? [nameOf normalization] = some normalization := by
  cases normalization <;> decide

/-- The settings of a kind of weightings and an answer in JSON, wherever the plain argument is. -/
theorem settingsOf?_parts (normalization : Normalization) (given : List Part)
    (hn : valuesOf "normalization" given = [nameOf normalization])
    (hj : given.filter (· = .flag "json") = [.flag "json"]) :
    settingsOf? given = some { normalization, json := true } := by
  rw [settingsOf?, hn, normalizationOf?_nameOf, flag?, hj]
  rfl

theorem request?_of_parts {rest : List String} {given : List Part}
    (hv : isVerbosity argument = false) (hn : Command.ofName? argument = some command)
    (hp : parts command rest = some given) :
    request? (argument :: rest) = command.request? given := by
  rw [request?, hv, hn]
  simp [hp]

end Parts

theorem request?_compile (normalization : Normalization) (formula : String) :
    request? (compileArguments normalization formula) =
      some (.compile formula { normalization, json := true }) := by
  have hparts : parts .compile ["--normalization", nameOf normalization, "--json", "--", formula] =
      some [.option "normalization" (nameOf normalization), .flag "json", .plain formula] := by
    rw [parts_normalization (by decide), parts_json, parts_separator]
    rfl
  have hsettings := settingsOf?_parts normalization
    [.option "normalization" (nameOf normalization), .flag "json", .plain formula]
    (by simp [valuesOf]) (by simp)
  rw [compileArguments, request?_of_parts (by decide) (by decide) hparts, Command.request?,
    hsettings]
  rfl

theorem request?_restore (normalization : Normalization) {path : String} (hp : path ≠ "")
    (hs : spelling path = .plain) :
    request? (restoreArguments normalization path) =
      some (.restore path { normalization, json := true }) := by
  have hparts : parts .restore [path, "--normalization", nameOf normalization, "--json"] =
      some [.plain path, .option "normalization" (nameOf normalization), .flag "json"] := by
    rw [parts_plain hs, parts_normalization (by decide), parts_json]
    rfl
  have hsettings := settingsOf?_parts normalization
    [.plain path, .option "normalization" (nameOf normalization), .flag "json"]
    (by simp [valuesOf]) (by simp)
  rw [restoreArguments, request?_of_parts (by decide) (by decide) hparts, Command.request?,
    hsettings]
  simp [pathOf?, plainValues, only?, hp]

/-! ## Answers -/

def zero : Json := .number { whole := ['0'], fraction := ['0'] }

theorem written_zero : zero.Written :=
  .number
    { whole := List.forall_mem_singleton.mpr rfl
      some_digit := List.cons_ne_nil _ _
      zero := fun _ => rfl
      fraction := List.forall_mem_singleton.mpr rfl }

variable {normalization : Normalization} {formula path text : String} {scheme : Scheme}
  {files : String → Option String}

theorem perform_compile (hs : Scheme.compile { normalization } formula = .ok scheme) :
    perform files (.compile formula { normalization, json := true }) =
      .ok (Report.ofJson (scheme.record formula).toJson) := by
  have hsheet : sheetOf formula { normalization, json := true } =
      .ok (Sheet.ofScheme formula scheme) := by
    rw [sheetOf, Settings.options, Sheet.ofFormula, hs]
    rfl
  rw [perform, hsheet, ok_bind, ← Sheet.toRecord_ofScheme hs]
  rfl

theorem perform_compile_error {fault : Fault}
    (hs : Scheme.compile { normalization } formula = .error fault) :
    perform files (.compile formula { normalization, json := true }) =
      .error (.compiling formula fault) := by
  rw [perform, sheetOf, Settings.options, Sheet.ofFormula, hs]
  rfl

/-- Where compiling is answered, it is answered with the record of the scheme. -/
theorem run_compile (h : (run files (compileArguments normalization formula)).exitCode = 0) :
    ∃ scheme, Scheme.compile { normalization } formula = .ok scheme ∧
      run files (compileArguments normalization formula) =
        .printed (Report.ofJson (scheme.record formula).toJson) := by
  rw [run, request?_compile] at h ⊢
  dsimp only at h ⊢
  cases hs : Scheme.compile { normalization } formula with
  | error fault =>
    rw [perform_compile_error hs] at h
    cases h
  | ok scheme => exact ⟨scheme, rfl, by rw [perform_compile hs]⟩

def state (scheme : Scheme) (formula : String) : Json :=
  .ofMembers [("average", zero), ("complete", .bool scheme.entries.isEmpty),
    ("record", (scheme.record formula).toJson)]

theorem averageJson_ofScheme (hs : Scheme.compile { normalization } formula = .ok scheme) :
    Report.averageJson (Sheet.ofScheme formula scheme) = Report.ofJson (state scheme formula) := by
  have hexact : Binary64.ofFloat? 0 =
      some { negative := false, mantissa := 0, exponent := -1074 } := by
    decide +kernel
  have hzero : Json.ofDouble 0 = zero := by
    rw [Json.ofDouble, hexact]
    rfl
  rw [Report.averageJson, Sheet.average_ofScheme hs, Sheet.isComplete_ofScheme hs,
    Sheet.toRecord_ofScheme hs, hzero]
  rfl

theorem written_state (hs : Scheme.compile { normalization } formula = .ok scheme) :
    (state scheme formula).Written := by
  refine Json.written_ofMembers ?_
  simp only [List.forall_mem_cons]
  exact ⟨written_zero, .bool _, Record.written_toJson (Scheme.fresh_record hs), by simp⟩

/-- Restoring a file with this record. -/
theorem run_restore (hs : Scheme.compile { normalization } formula = .ok scheme) (hp : path ≠ "")
    (hplain : spelling path = .plain)
    (hf : files path = some (Report.ofJson (scheme.record formula).toJson)) :
    run files (restoreArguments normalization path) =
      .printed (Report.ofJson (state scheme formula)) := by
  have hrecord : Record.parse? (Report.ofJson (scheme.record formula).toJson) =
      some (scheme.record formula) := Record.parse?_ofJson (Scheme.fresh_record hs)
  have hrestored : restored files path { normalization, json := true } =
      .ok (Sheet.ofScheme formula scheme) := by
    simp only [restored, hf, hrecord, Settings.options, Sheet.ofRecord_ofScheme hs]
    rfl
  rw [run, request?_restore normalization hp hplain]
  dsimp only
  rw [perform, hrestored, ok_bind, ← averageJson_ofScheme hs]
  rfl

/-- What compiling a formula prints as JSON, restored from a file with the same kind of weightings,
gives the same record again, together with an average of zero. -/
theorem restored_of_compile (normalization : Normalization) (formula : String)
    (files : String → Option String)
    (h : (run files (compileArguments normalization formula)).exitCode = 0) :
    ∃ scheme printed, Scheme.compile { normalization } formula = .ok scheme ∧
      run files (compileArguments normalization formula) = .printed printed ∧
      Json.parse? printed = some (scheme.record formula).toJson ∧
      ∀ (later : String → Option String) (path : String), path ≠ "" → spelling path = .plain →
        later path = some printed →
        ∃ answer, run later (restoreArguments normalization path) = .printed answer ∧
          (run later (restoreArguments normalization path)).exitCode = 0 ∧
          Json.parse? answer = some (state scheme formula) := by
  obtain ⟨scheme, hs, hrun⟩ := run_compile h
  refine ⟨scheme, _, hs, hrun, ?_, ?_⟩
  · exact Json.parse?_ofJson (Record.written_toJson (Scheme.fresh_record hs))
  · intro later path hp hplain hf
    have hanswer := run_restore hs hp hplain hf
    refine ⟨_, hanswer, by rw [hanswer]; rfl, ?_⟩
    exact Json.parse?_ofJson (written_state hs)

/-- A formula with a control character for a blank, and a letter outside ASCII. -/
theorem restored_of_verticalTab :
    ∃ scheme printed answer,
      Scheme.compile { normalization := .numeratorOnly } "a/2\x0b+ \u00e9/3" = .ok scheme ∧
      run (fun _ => none) (compileArguments .numeratorOnly "a/2\x0b+ \u00e9/3") =
        .printed printed ∧
      Json.parse? printed = some (scheme.record "a/2\x0b+ \u00e9/3").toJson ∧
      run (fun _ => some printed) (restoreArguments .numeratorOnly "saved.json") =
        .printed answer ∧
      Json.parse? answer = some (state scheme "a/2\x0b+ \u00e9/3") := by
  obtain ⟨scheme, printed, hs, hp, hj, hrestore⟩ := restored_of_compile .numeratorOnly
    "a/2\x0b+ \u00e9/3" (fun _ => none) (by decide +kernel)
  obtain ⟨answer, ha, -, hstate⟩ :=
    hrestore (fun _ => some printed) "saved.json" (by decide) (by decide) rfl
  exact ⟨scheme, printed, answer, hs, hp, hj, ha, hstate⟩

end CommandLine

end Marksheet
