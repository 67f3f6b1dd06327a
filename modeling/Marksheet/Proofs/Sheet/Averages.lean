import Mathlib.Algebra.Order.BigOperators.Group.List
import Mathlib.Algebra.Order.Ring.Rat
import Mathlib.Tactic.FieldSimp
import Mathlib.Tactic.Linarith
import Marksheet.Proofs.Sheet.Answers

/-!
# Marksheet.Proofs.Sheet.Averages

Solving for a mark undoes averaging, where marks are exact numbers. The average adds up whatever is
known in the order of the entities; solving leaves one entity out by its name and counts its
weighting separately. Both come down to the same two sums over the other entities.

* `perm_othersOf` : entities of different names are one of them and the others.
* `Sheet.average_of_mark` : the average once that entity has a mark.
* `Sheet.solveFor_of_mem` : the mark that solving answers.
* `Sheet.solution_of_target` : with this mark and no other the average is the target.
-/

namespace Marksheet

/-! ## Sums of exact marks -/

theorem weightedSums_eq (marks : List (ℚ × Nat)) :
    weightedSums marks = ((marks.map fun known => known.1 * (known.2 : ℚ)).sum,
      (marks.map fun known => (known.2 : ℚ)).sum) := by
  induction marks using List.reverseRecOn with
  | nil => rfl
  | append_singleton marks last ih =>
    rw [weightedSums] at ih
    rw [weightedSums, List.foldl_append, ih]
    simp [Scalar.ofWeighting]

/-- Exact sums do not depend on the order. -/
theorem weightedSums_of_perm {marks other : List (ℚ × Nat)} (h : marks.Perm other) :
    weightedSums marks = weightedSums other := by
  rw [weightedSums_eq, weightedSums_eq, (h.map _).sum_eq,
    (h.map fun known => (known.2 : ℚ)).sum_eq]

theorem weightedSums_cons (mark : ℚ) (weighting : Nat) (marks : List (ℚ × Nat)) :
    weightedSums ((mark, weighting) :: marks) =
      (mark * weighting + (weightedSums marks).1, weighting + (weightedSums marks).2) := by
  simp [weightedSums_eq]

theorem weight_nonneg (marks : List (ℚ × Nat)) : 0 ≤ (weightedSums marks).2 := by
  rw [weightedSums_eq]
  refine List.sum_nonneg fun weight hw => ?_
  obtain ⟨known, -, rfl⟩ := List.mem_map.mp hw
  exact Nat.cast_nonneg known.2

/-! ## One entity and the others -/

section Others

variable {α : Type} {entities : List (Entity α)} {entity : Entity α}

theorem perm_othersOf (hn : (namesOf entities).Nodup) (h : entity ∈ entities) :
    entities.Perm (entity :: othersOf entity.name entities) := by
  obtain ⟨before, after, rfl⟩ := List.append_of_mem h
  rw [othersOf_of_split hn]
  exact List.perm_middle

theorem knownMarks_cons_mark (entity : Entity α) (mark : α) (entities : List (Entity α)) :
    knownMarks ({ entity with mark := some mark } :: entities) =
      (mark, entity.weighting) :: knownMarks entities := rfl

end Others

namespace Sheet

variable {sheet next : Sheet ℚ} {entity : Entity ℚ} {name : String}

/-! ## Averages -/

theorem average_eq (sheet : Sheet ℚ) :
    sheet.average = (weightedSums (knownMarks sheet.entities)).1 /
      (weightedSums (knownMarks sheet.entities)).2 := by
  unfold average
  dsimp only
  split
  · rename_i hz
    have hzero : (weightedSums (knownMarks sheet.entities)).2 = 0 := by
      simpa [Scalar.isZero] using hz
    rw [hzero, div_zero]
    rfl
  · rfl

/-- The average of a sheet in which one entity has a mark. -/
theorem average_of_mark (h : entity ∈ sheet.entities) {mark : ℚ} (hm : entity.mark = some mark) :
    sheet.average =
      (mark * entity.weighting + (weightedSums (knownMarks (othersOf entity.name sheet.entities))).1) /
      (entity.weighting + (weightedSums (knownMarks (othersOf entity.name sheet.entities))).2) := by
  have hperm := perm_othersOf sheet.nodup_namesOf h
  have hself : entity = { entity with mark := some mark } := by rw [← hm]
  have hknown : (knownMarks sheet.entities).Perm
      ((mark, entity.weighting) :: knownMarks (othersOf entity.name sheet.entities)) := by
    rw [← knownMarks_cons_mark, ← hself]
    exact hperm.filterMap _
  rw [average_eq, weightedSums_of_perm hknown, weightedSums_cons]

theorem solveFor_of_mem (h : entity ∈ sheet.entities) (hw : entity.weighting ≠ 0) (target : ℚ) :
    sheet.solveFor entity.name target = .ok
      ((target * (entity.weighting +
          (weightedSums (knownMarks (othersOf entity.name sheet.entities))).2) -
        (weightedSums (knownMarks (othersOf entity.name sheet.entities))).1) / entity.weighting) := by
  rw [solveFor_eq h, neededMark, if_neg hw]
  rfl

theorem solveFor_of_weightless (h : entity ∈ sheet.entities) (hw : entity.weighting = 0)
    (target : ℚ) : sheet.solveFor entity.name target = .error .divisionByZero := by
  rw [solveFor_eq h, neededMark, if_pos hw]

/-- The mark can be entered, and it is the only one to make the average the target. -/
def IsSolution (sheet : Sheet ℚ) (name : String) (target answer : ℚ) : Prop :=
  ∀ mark, ∃ next, sheet.set name mark = .ok next ∧ (next.average = target ↔ mark = answer)

/-- A weighted mean over a positive weight, solved for one of its values. -/
theorem mean_eq_iff {mark own weight sum target : ℚ} (ho : 0 < own) (hw : 0 ≤ weight) :
    (mark * own + sum) / (own + weight) = target ↔
      mark = (target * (own + weight) - sum) / own := by
  have hpos : 0 < own + weight := add_pos_of_pos_of_nonneg ho hw
  rw [div_eq_iff hpos.ne', eq_div_iff ho.ne']
  constructor <;> intro h <;> linarith

theorem isSolution_of_mem (h : entity ∈ sheet.entities) (hw : 1 ≤ entity.weighting) (target : ℚ) :
    ∃ answer, sheet.solveFor entity.name target = .ok answer ∧
      sheet.IsSolution entity.name target answer := by
  refine ⟨_, solveFor_of_mem h (by omega) target, fun mark => ?_⟩
  obtain ⟨next, hn, -, he⟩ := enter_of_mem (mem_namesOf.mpr ⟨entity, h, rfl⟩) (some mark)
  have hmem : { entity with mark := some mark } ∈ next.entities := by
    rw [he]
    exact List.mem_map.mpr ⟨entity, h, if_pos rfl⟩
  have hothers : othersOf entity.name next.entities = othersOf entity.name sheet.entities := by
    rw [he, othersOf_mark]
  refine ⟨next, hn, ?_⟩
  rw [average_of_mark hmem rfl]
  dsimp only
  rw [hothers]
  exact mean_eq_iff (by exact_mod_cast hw) (weight_nonneg _)

/-- Whatever marks are known, the mark that an entity needs for a target can be told, unless its
weighting is zero; the average is the target with this mark and with no other. Only a name that is
not held and a weighting of zero are refused. -/
theorem solution_of_target (sheet : Sheet ℚ) (name : String) (target : ℚ) :
    (∀ entity ∈ sheet.entities, entity.name = name → 1 ≤ entity.weighting →
      ∃ answer, sheet.solveFor name target = .ok answer ∧ sheet.IsSolution name target answer) ∧
    ∀ fault, sheet.solveFor name target = .error fault ↔
      (fault = .unknownEntity name ∧ name ∉ namesOf sheet.entities) ∨
        (fault = .divisionByZero ∧
          ∃ entity ∈ sheet.entities, entity.name = name ∧ entity.weighting = 0) := by
  refine ⟨?_, fun fault => ⟨?_, ?_⟩⟩
  · rintro entity h rfl hw
    exact isSolution_of_mem h hw target
  · intro hf
    by_cases hm : name ∈ namesOf sheet.entities
    · obtain ⟨entity, h, rfl⟩ := mem_namesOf.mp hm
      by_cases hw : entity.weighting = 0
      · rw [solveFor_of_weightless h hw] at hf
        cases hf
        exact .inr ⟨rfl, entity, h, rfl, hw⟩
      · rw [solveFor_of_mem h hw] at hf
        cases hf
    · rw [solveFor_of_notMem hm] at hf
      cases hf
      exact .inl ⟨rfl, hm⟩
  · rintro (⟨rfl, hm⟩ | ⟨rfl, entity, h, rfl, hw⟩)
    · exact solveFor_of_notMem hm target
    · exact solveFor_of_weightless h hw target

theorem solution_of_three :
    let sheet : Sheet ℚ := ofEntities "" [⟨"a", 1, some 2⟩, ⟨"b", 2, some 3⟩, ⟨"c", 1, some 100⟩,
      ⟨"d", 7, none⟩]
    sheet.solveFor "c" 3 = .ok 4 ∧ sheet.IsSolution "c" 3 4 := by
  intro sheet
  have hmem : (⟨"c", 1, some 100⟩ : Entity ℚ) ∈ sheet.entities :=
    List.mem_of_getElem? (i := 2) (by rfl)
  obtain ⟨answer, ha, hs⟩ := (solution_of_target sheet "c" 3).1 _ hmem rfl (by decide)
  have h4 : sheet.solveFor "c" 3 = .ok 4 := by decide +kernel
  rw [h4] at ha
  cases ha
  exact ⟨h4, hs⟩

end Sheet

end Marksheet
