import Marksheet.Proofs.Sheet.History

/-!
# Marksheet.Proofs.Sheet.Answers

What the average and the mark needed for a target are taken from: known marks with their weightings,
in the order of the entities, and nothing else. Solving leaves one entity out by its name. As no
other entity has this name, what is left out is this entity and nothing more.

* `othersOf_of_split` : leaving out a name leaves the entities before and behind its own.
* `Sheet.average_congr`, `Sheet.solveFor_eq` : what the answers are taken from.
* `Sheet.sameAnswers_of_marks` : sheets that agree in this have the same answers, and so have two
  histories of one sheet that leave the same marks.
-/

namespace Marksheet

variable {α : Type}

/-! ## One entity and the others -/

section Others

variable {entities before after : List (Entity α)} {entity : Entity α} {name : String}

def othersOf (name : String) (entities : List (Entity α)) : List (Entity α) :=
  entities.filter fun other => other.name ≠ name

theorem othersOf_of_notMem (h : name ∉ namesOf entities) : othersOf name entities = entities := by
  refine List.filter_eq_self.mpr fun other ho => ?_
  have hne : other.name ≠ name := fun hn => h (mem_namesOf.mpr ⟨other, ho, hn⟩)
  simp [hne]

/-- Among entities of different names, the others of one are those around it. -/
theorem othersOf_of_split (h : (namesOf (before ++ entity :: after)).Nodup) :
    othersOf entity.name (before ++ entity :: after) = before ++ after := by
  have hmiddle : (entity.name :: namesOf (before ++ after)).Nodup := by
    rw [namesOf, List.map_append, ← List.nodup_middle]
    simpa [namesOf] using h
  have hself : othersOf entity.name (before ++ entity :: after) =
      othersOf entity.name (before ++ after) := by
    simp [othersOf, List.filter_append]
  rw [hself, othersOf_of_notMem (List.nodup_cons.mp hmiddle).1]

theorem othersOf_mark (name : String) (entities : List (Entity α)) (mark : Option α) :
    othersOf name (entities.map fun entity =>
      if entity.name = name then { entity with mark } else entity) = othersOf name entities := by
  induction entities with
  | nil => rfl
  | cons first rest ih =>
    by_cases hf : first.name = name <;> simp_all [othersOf]

end Others

namespace Sheet

/-! ## Histories and the others -/

/-- Two histories leave the same marks on these entities. -/
def LeaveSame (history other : List (Action α)) (entities : List (Entity α)) : Prop :=
  ∀ entity ∈ entities,
    markAfter history entity.name entity.mark = markAfter other entity.name entity.mark

def afterward (history : List (Action α)) (entity : Entity α) : Entity α :=
  { entity with mark := markAfter history entity.name entity.mark }

theorem map_afterward {history other : List (Action α)} {entities : List (Entity α)}
    (h : LeaveSame history other entities) :
    entities.map (afterward history) = entities.map (afterward other) := by
  refine List.map_congr_left fun entity he => ?_
  rw [afterward, afterward, h entity he]

theorem othersOf_afterward (history : List (Action α)) (name : String)
    (entities : List (Entity α)) :
    othersOf name (entities.map (afterward history)) =
      (othersOf name entities).map (afterward history) :=
  List.filter_map

variable [Scalar α] {sheet other : Sheet α} {entity : Entity α} {name : String} {target : α}

/-! ## What the answers are taken from -/

theorem average_congr (h : knownMarks sheet.entities = knownMarks other.entities) :
    sheet.average = other.average := by
  unfold average
  rw [h]

/-- The mark that takes some known marks to a target, by the weighting that it would have. -/
def neededMark (weighting : Nat) (marks : List (α × Nat)) (target : α) : Except Fault α :=
  if weighting = 0 then .error .divisionByZero
  else .ok ((target * (Scalar.ofWeighting weighting + (weightedSums marks).2) -
    (weightedSums marks).1) / Scalar.ofWeighting weighting)

theorem solveFor_eq (h : entity ∈ sheet.entities) (target : α) :
    sheet.solveFor entity.name target =
      neededMark entity.weighting (knownMarks (othersOf entity.name sheet.entities)) target := by
  rw [solveFor, requireName_of_mem h, ok_bind, neededMark]
  split <;> rfl

theorem solveFor_of_notMem (h : name ∉ namesOf sheet.entities) (target : α) :
    sheet.solveFor name target = .error (.unknownEntity name) := by
  rw [solveFor, requireName_of_notMem h]
  rfl

theorem solveFor_of_split {before after : List (Entity α)}
    (h : sheet.entities = before ++ entity :: after) (target : α) :
    sheet.solveFor entity.name target =
      neededMark entity.weighting (knownMarks (before ++ after)) target := by
  have hnodup := sheet.nodup_namesOf
  rw [h] at hnodup
  rw [solveFor_eq (by simp [h]), h, othersOf_of_split hnodup]

/-! ## Two sheets -/

/-- Whatever mark is entered for an entity or taken from it, solving for it answers the same. -/
theorem solveFor_enter (h : name ∈ namesOf sheet.entities) (mark : Option α) (target : α) :
    ∃ next, sheet.enter name mark = .ok next ∧
      next.solveFor name target = sheet.solveFor name target := by
  obtain ⟨next, hn, -, he⟩ := enter_of_mem h mark
  obtain ⟨entity, hentity, rfl⟩ := mem_namesOf.mp h
  have hmem : { entity with mark } ∈ next.entities := by
    rw [he]
    exact List.mem_map.mpr ⟨entity, hentity, if_pos rfl⟩
  have hnext := solveFor_eq hmem target
  dsimp only at hnext
  rw [he, othersOf_mark] at hnext
  exact ⟨next, hn, hnext.trans (solveFor_eq hentity target).symm⟩

/-! ## Two histories -/

theorem average_run {history other : List (Action α)}
    (h : LeaveSame history other sheet.entities) :
    (run history sheet).average = (run other sheet).average := by
  refine average_congr (congrArg knownMarks ?_)
  rw [entities_run, entities_run]
  exact map_afterward h

/-- What the histories leave on the entity itself may differ. -/
theorem solveFor_run {history other : List (Action α)}
    (h : LeaveSame history other (othersOf name sheet.entities)) (target : α) :
    (run history sheet).solveFor name target = (run other sheet).solveFor name target := by
  by_cases hm : name ∈ namesOf sheet.entities
  · obtain ⟨entity, he, rfl⟩ := mem_namesOf.mp hm
    have hrun : ∀ history : List (Action α), (run history sheet).solveFor entity.name target =
        neededMark entity.weighting
          (knownMarks ((othersOf entity.name sheet.entities).map (afterward history))) target := by
      intro history
      have hentities : (run history sheet).entities = sheet.entities.map (afterward history) :=
        entities_run history sheet
      have hmem : afterward history entity ∈ (run history sheet).entities := by
        rw [hentities]
        exact List.mem_map_of_mem he
      rw [← othersOf_afterward, ← hentities]
      exact solveFor_eq hmem target
    rw [hrun history, hrun other, map_afterward h]
  · rw [solveFor_of_notMem (by rwa [namesOf_run]), solveFor_of_notMem (by rwa [namesOf_run])]

/-- Solving for an entity answers the same whatever mark this entity has. It answers the same on two
sheets where the entities solved for weigh the same and the known marks and weightings around them
are the same in order, and averages are the same where all known marks and weightings are. So
unknown marks, the formula, the names, and the order in which marks were entered decide nothing. -/
theorem sameAnswers_of_marks (sheet other : Sheet α) :
    (∀ name ∈ namesOf sheet.entities, ∀ mark target, ∃ next, sheet.enter name mark = .ok next ∧
      next.solveFor name target = sheet.solveFor name target) ∧
    (∀ before entity after before' entity' after' target,
      sheet.entities = before ++ entity :: after → other.entities = before' ++ entity' :: after' →
      entity.weighting = entity'.weighting →
      knownMarks (before ++ after) = knownMarks (before' ++ after') →
      sheet.solveFor entity.name target = other.solveFor entity'.name target) ∧
    (knownMarks sheet.entities = knownMarks other.entities → sheet.average = other.average) ∧
    ∀ history history' : List (Action α),
      (LeaveSame history history' sheet.entities →
        (run history sheet).average = (run history' sheet).average) ∧
      ∀ name target, LeaveSame history history' (othersOf name sheet.entities) →
        (run history sheet).solveFor name target = (run history' sheet).solveFor name target := by
  refine ⟨?_, ?_, average_congr, ?_⟩
  · intro name hm mark target
    exact solveFor_enter hm mark target
  · intro before entity after before' entity' after' target hs ho hw hk
    rw [solveFor_of_split hs, solveFor_of_split ho, hw, hk]
  · intro history history'
    exact ⟨average_run, fun name target h => solveFor_run h target⟩

theorem sameAnswers_of_renamed :
    let sheet : Sheet Float := ofEntities "a + 2b + 3c"
      [⟨"a", 1, none⟩, ⟨"b", 2, some 3⟩, ⟨"c", 3, some (0 / 0)⟩, ⟨"b", 9, some 1⟩]
    let other : Sheet Float := ofEntities "3x + y + 2z"
      [⟨"x", 3, none⟩, ⟨"y", 1, none⟩, ⟨"z", 2, some 3⟩]
    sheet.solveFor "c" 2.5 = other.solveFor "x" 2.5 ∧
      (run [.set "a" 1, .set "b" 4] sheet).solveFor "c" 2.5 =
        (run [.set "c" 7, .set "b" 4, .set "a" 1, .clear "c"] sheet).solveFor "c" 2.5 := by
  intro sheet other
  obtain ⟨-, hsolve, -, hrun⟩ := sameAnswers_of_marks sheet other
  refine ⟨?_, ?_⟩
  · exact hsolve [⟨"a", 1, none⟩, ⟨"b", 2, some 3⟩] ⟨"c", 3, some (0 / 0)⟩ [] [] ⟨"x", 3, none⟩
      [⟨"y", 1, none⟩, ⟨"z", 2, some 3⟩] 2.5 rfl rfl rfl rfl
  · refine (hrun _ _).2 "c" 2.5 ?_
    have hothers : othersOf "c" sheet.entities = [⟨"a", 1, none⟩, ⟨"b", 2, some 3⟩] := rfl
    rw [hothers]
    intro entity he
    rcases List.mem_pair.mp he with rfl | rfl <;> rfl

end Sheet

end Marksheet
