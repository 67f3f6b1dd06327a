import Marksheet.Record
import Marksheet.Proofs.Sheet.History

/-!
# Marksheet.Proofs.Sheet.Records

A sheet that is kept as a record and restored from it. A record keeps the text and the marks; the
names and weightings come from the text again, so restoring is a history of its own: every mark that
was known is set once more.

* `Entity.actions` : what restoring one entity does.
* `Sheet.foldlM_restoreLine` : restoring all of them is to run these actions.
* `Sheet.markAfter_actions` : they leave each entity the mark it had.
* `Sheet.restored_of_history` : with the same options the sheet comes back as it was, with others
  with the weightings that these give.
-/

namespace Marksheet

variable {α : Type}

/-- Setting the mark of an entity again, if it has one. -/
def Entity.actions (line : Entity α) : List (Action α) :=
  match line.mark with
  | some mark => [.set line.name mark]
  | none => []

namespace Sheet

variable {sheet start : Sheet α} {line : Entity α} {lines : List (Entity α)} {name : String}

/-! ## Restoring as a history -/

theorem run_append (before after : List (Action α)) (sheet : Sheet α) :
    run (before ++ after) sheet = run after (run before sheet) :=
  List.foldl_append

theorem restoreLine_of_mem (h : line.name ∈ namesOf sheet.entities) :
    sheet.restoreLine line = .ok (run line.actions sheet) := by
  obtain ⟨entity, he, hn⟩ := mem_namesOf.mp h
  rw [restoreLine, ← hn, requireName_of_mem he, ok_bind, hn, Entity.actions]
  cases line.mark with
  | none => rfl
  | some mark =>
    obtain ⟨next, hnext, -⟩ := enter_of_mem h (some mark)
    have hset : sheet.set line.name mark = .ok next := hnext
    simp [run, act, outcome, hset]

/-- Restoring goes through when all names are known, by induction on the lines: no line changes
which names there are. -/
theorem foldlM_restoreLine (h : ∀ line ∈ lines, line.name ∈ namesOf sheet.entities) :
    lines.foldlM restoreLine sheet = .ok (run (lines.flatMap Entity.actions) sheet) := by
  induction lines generalizing sheet with
  | nil => rfl
  | cons line lines ih =>
    have hrest : ∀ other ∈ lines, other.name ∈ namesOf (run line.actions sheet).entities := by
      intro other ho
      rw [namesOf_run]
      exact h other (List.mem_cons_of_mem line ho)
    rw [List.foldlM_cons, restoreLine_of_mem (h line List.mem_cons_self), ok_bind, ih hrest,
      List.flatMap_cons, run_append]

/-! ## The marks that are left -/

theorem markAfter_append (before after : List (Action α)) (name : String) (mark : Option α) :
    markAfter (before ++ after) name mark = markAfter after name (markAfter before name mark) := by
  induction after using List.reverseRecOn with
  | nil => simp [markAfter]
  | append_singleton after action ih =>
    rw [← List.append_assoc, markAfter_concat, markAfter_concat, ih]

theorem markAfter_line (line : Entity α) (name : String) (mark : Option α) :
    markAfter line.actions name mark = if line.name = name then line.mark.or mark else mark := by
  cases hm : line.mark with
  | none => simp [Entity.actions, hm, markAfter]
  | some mark =>
    by_cases hn : line.name = name <;>
      simp [Entity.actions, hm, markAfter, Action.concerns, Action.name?, Action.mark?, hn]

theorem markAfter_of_notMem (h : name ∉ namesOf lines) (mark : Option α) :
    markAfter (lines.flatMap Entity.actions) name mark = mark := by
  have hnone : (lines.flatMap Entity.actions).filter (Action.concerns name) = [] := by
    refine List.filter_eq_nil_iff.mpr fun action ha => ?_
    obtain ⟨line, hl, ha⟩ := List.mem_flatMap.mp ha
    have hne : line.name ≠ name := fun hn => h (mem_namesOf.mpr ⟨line, hl, hn⟩)
    unfold Entity.actions at ha
    split at ha <;> simp_all [Action.concerns, Action.name?]
  simp [markAfter, hnone]

/-- Of entities with different names, each gets its own mark back. -/
theorem markAfter_actions (hn : (namesOf lines).Nodup) (h : line ∈ lines) :
    markAfter (lines.flatMap Entity.actions) line.name none = line.mark := by
  induction lines with
  | nil => cases h
  | cons first rest ih =>
    obtain ⟨hfirst, hrest⟩ := List.nodup_cons.mp hn
    rw [List.flatMap_cons, markAfter_append, markAfter_line]
    rcases List.mem_cons.mp h with rfl | h
    · rw [if_pos rfl, Option.or_none, markAfter_of_notMem hfirst]
    · have hne : first.name ≠ line.name := by
        intro he
        exact hfirst (mem_namesOf.mpr ⟨line, h, he.symm⟩)
      rw [if_neg hne, ih hrest h]

/-! ## The sheet that comes back -/

theorem entities_ext {entities other : List (Entity α)} (hn : namesOf entities = namesOf other)
    (hw : entities.map Entity.weighting = other.map Entity.weighting)
    (hm : entities.map Entity.mark = other.map Entity.mark) : entities = other := by
  induction entities generalizing other with
  | nil =>
    cases other with
    | nil => rfl
    | cons first rest => cases hn
  | cons entity entities ih =>
    cases other with
    | nil => cases hn
    | cons first rest =>
      obtain ⟨name, weighting, mark⟩ := entity
      obtain ⟨name', weighting', mark'⟩ := first
      simp only [namesOf, List.map_cons, List.cons.injEq] at hn hw hm
      obtain ⟨rfl, hn⟩ := hn
      obtain ⟨rfl, hw⟩ := hw
      obtain ⟨rfl, hm⟩ := hm
      rw [ih hn hw hm]

theorem eq_of_parts {sheet other : Sheet α} (hf : sheet.formula = other.formula)
    (he : sheet.entities = other.entities) (hi : sheet.index = other.index) : sheet = other := by
  cases sheet
  cases other
  simp_all

theorem index_outcome {result : Except Fault (Sheet α)}
    (h : ∀ next, result = .ok next → next.index = sheet.index) :
    (sheet.outcome result).2.index = sheet.index := by
  cases result with
  | ok next => exact h next rfl
  | error fault => rfl

theorem index_enter {next : Sheet α} {mark : Option α} (h : sheet.enter name mark = .ok next) :
    next.index = sheet.index := by
  obtain ⟨position, -, h⟩ := ok_of_bind h
  cases h
  rfl

theorem index_act (sheet : Sheet α) (action : Action α) :
    (sheet.act action).2.index = sheet.index := by
  cases action with
  | set name mark => exact index_outcome fun _ => index_enter
  | clear name => exact index_outcome fun _ => index_enter
  | clearAll => rfl

theorem index_run (history : List (Action α)) (sheet : Sheet α) :
    (run history sheet).index = sheet.index := by
  induction history using List.reverseRecOn with
  | nil => rfl
  | append_singleton history action ih => rw [run_concat, index_act, ih]

theorem ofFormula_eq_ok {options : Options} {text : String}
    (h : ofFormula options text = .ok start) :
    ∃ scheme, Scheme.compile options text = .ok scheme ∧ start = ofScheme text scheme := by
  obtain ⟨scheme, hs, h⟩ := ok_of_bind h
  cases h
  exact ⟨scheme, hs, rfl⟩

theorem namesOf_ofScheme {options : Options} {text : String} {scheme : Scheme}
    (h : Scheme.compile options text = .ok scheme) :
    namesOf (ofScheme text scheme : Sheet α).entities = scheme.entries.map Entry.name := by
  rw [entities_ofScheme h, namesOf, List.map_map]
  rfl

/-- What a restored sheet has in common with the one that was kept; its weightings are those of the
scheme. -/
structure Restores (restored sheet : Sheet α) (scheme : Scheme) : Prop where
  formula : restored.formula = sheet.formula
  names : namesOf restored.entities = namesOf sheet.entities
  marks : restored.entities.map Entity.mark = sheet.entities.map Entity.mark
  weightings : restored.entities.map Entity.weighting = scheme.entries.map Entry.weighting

section Restoring

variable {options : Options} {text : String} {scheme : Scheme}

/-- A record is restored by setting all marks in a new sheet of its text. -/
theorem ofRecord_of_names (hs : Scheme.compile options text = .ok scheme)
    (hf : sheet.formula = text) (hn : namesOf sheet.entities = scheme.entries.map Entry.name) :
    ofRecord options sheet.toRecord =
      .ok (run (sheet.entities.flatMap Entity.actions) (ofScheme text scheme)) := by
  have hknown : ∀ line ∈ sheet.entities,
      line.name ∈ namesOf (ofScheme text scheme : Sheet α).entities := by
    intro line hl
    rw [namesOf_ofScheme hs, ← hn]
    exact mem_namesOf.mpr ⟨line, hl, rfl⟩
  rw [ofRecord, toRecord, hf, ofFormula, hs]
  exact foldlM_restoreLine hknown

theorem marks_of_actions (hs : Scheme.compile options text = .ok scheme)
    (hn : namesOf sheet.entities = scheme.entries.map Entry.name) :
    (run (sheet.entities.flatMap Entity.actions) (ofScheme text scheme)).entities.map Entity.mark =
      sheet.entities.map Entity.mark := by
  let left (name : String) : Option α := markAfter (sheet.entities.flatMap Entity.actions) name none
  calc (run (sheet.entities.flatMap Entity.actions) (ofScheme text scheme)).entities.map Entity.mark
    _ = (scheme.entries.map Entry.name).map left := by
      rw [entities_run, entities_ofScheme hs, List.map_map, List.map_map, List.map_map]
      rfl
    _ = sheet.entities.map fun entity => left entity.name := by
      rw [← hn, namesOf, List.map_map]
      rfl
    _ = sheet.entities.map Entity.mark :=
      List.map_congr_left fun entity he => markAfter_actions sheet.nodup_namesOf he

theorem restores_of_names (hs : Scheme.compile options text = .ok scheme)
    (hf : sheet.formula = text) (hn : namesOf sheet.entities = scheme.entries.map Entry.name) :
    (run (sheet.entities.flatMap Entity.actions) (ofScheme text scheme)).Restores sheet scheme where
  formula := by
    rw [formula_run, hf]
    exact formula_ofEntities text _
  names := by rw [namesOf_run, namesOf_ofScheme hs, hn]
  marks := marks_of_actions hs hn
  weightings := weightings_run hs _

end Restoring

/-- A sheet of a formula, after any history, comes back from its record. With the options that it
was made with it is the same sheet. With others the formula is refused as it is refused in the first
place, or all but the weightings is as it was, and these are the ones of the new scheme. -/
theorem restored_of_history (options : Options) (text : String) (start : Sheet α)
    (history : List (Action α)) (h : ofFormula options text = .ok start) :
    ofRecord options (run history start).toRecord = .ok (run history start) ∧
    ∀ other : Options,
      (∀ fault, Scheme.compile other text = .error fault →
        ofRecord other (run history start).toRecord = .error fault) ∧
      ∀ scheme, Scheme.compile other text = .ok scheme →
        ∃ restored, ofRecord other (run history start).toRecord = .ok restored ∧
          restored.Restores (run history start) scheme := by
  obtain ⟨first, hfirst, rfl⟩ := ofFormula_eq_ok h
  have hformula : (run history (ofScheme text first : Sheet α)).formula = text := by
    rw [formula_run]
    exact formula_ofEntities text _
  have hnames : namesOf (run history (ofScheme text first : Sheet α)).entities =
      first.entries.map Entry.name := by
    rw [namesOf_run, namesOf_ofScheme hfirst]
  have hweightings := weightings_run (α := α) hfirst history
  have hindex := index_run history (ofScheme text first : Sheet α)
  generalize run history (ofScheme text first) = sheet at *
  refine ⟨?_, fun other => ⟨?_, ?_⟩⟩
  · have hsame := restores_of_names hfirst hformula hnames
    rw [ofRecord_of_names hfirst hformula hnames]
    refine congrArg Except.ok (eq_of_parts hsame.formula ?_ ?_)
    · exact entities_ext hsame.names (hsame.weightings.trans hweightings.symm) hsame.marks
    · rw [index_run, hindex]
  · intro fault hf
    rw [ofRecord, toRecord, hformula, ofFormula, hf]
    rfl
  · intro scheme hs
    have hn := hnames.trans (Scheme.names_of_options hfirst hs)
    exact ⟨_, ofRecord_of_names hs hformula hn, restores_of_names hs hformula hn⟩

theorem restored_of_notNumber :
    ∃ start : Sheet Float, ∃ scheme restored, ofFormula {} "(a + b/2 + 3a)/4" = .ok start ∧
      ofRecord {} (run [.set "b" 2.5, .clear "b", .set "a" (0 / 0)] start).toRecord =
        .ok (run [.set "b" 2.5, .clear "b", .set "a" (0 / 0)] start) ∧
      Scheme.compile ⟨.numeratorOnly, 300⟩ "(a + b/2 + 3a)/4" = .ok scheme ∧
      ofRecord ⟨.numeratorOnly, 300⟩
        (run [.set "b" 2.5, .clear "b", .set "a" (0 / 0)] start).toRecord = .ok restored ∧
      restored.Restores (run [.set "b" 2.5, .clear "b", .set "a" (0 / 0)] start) scheme := by
  obtain ⟨start, h⟩ := exists_ok (x := (ofFormula {} "(a + b/2 + 3a)/4" : Except Fault (Sheet Float)))
    (by decide +kernel)
  obtain ⟨scheme, hs⟩ := exists_ok (x := Scheme.compile ⟨.numeratorOnly, 300⟩ "(a + b/2 + 3a)/4")
    (by decide +kernel)
  obtain ⟨hsame, hother⟩ := restored_of_history {} "(a + b/2 + 3a)/4" start
    [.set "b" 2.5, .clear "b", .set "a" (0 / 0)] h
  obtain ⟨restored, hr, hrestores⟩ := (hother ⟨.numeratorOnly, 300⟩).2 scheme hs
  exact ⟨start, scheme, restored, h, hsame, hs, hr, hrestores⟩

end Sheet

end Marksheet
