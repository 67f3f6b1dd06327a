import Mathlib.Data.List.Nodup
import Marksheet.Sheet
import Marksheet.Proofs.Scheme.Weightings

/-!
# Marksheet.Proofs.Sheet.Entities

What a sheet holds. The index that is kept beside the entities finds each of them by its name, also
where entities with a name already held were passed over when the sheet was made.

* `Sheet.get?_eq_some_iff` : looking up a name finds the entity that has it.
* `Sheet.nodup_namesOf` : no two entities of a sheet have one name.
* `Sheet.firstOfEachName_ofEntities` : a sheet holds the first of the given entities of each name.
* `Sheet.entities_ofScheme` : it holds all entries of a scheme.
-/

namespace Marksheet

variable {α : Type}

theorem mem_namesOf {entities : List (Entity α)} {name : String} :
    name ∈ namesOf entities ↔ ∃ entity ∈ entities, entity.name = name :=
  List.mem_map

theorem namesOf_concat (entities : List (Entity α)) (last : Entity α) :
    namesOf (entities ++ [last]) = namesOf entities ++ [last.name] := by
  simp [namesOf]

/-- `held` are the first entities of each name, in their order. -/
structure FirstOfEachName (given held : List (Entity α)) : Prop where
  names : InFirstOrder (namesOf given) (namesOf held)
  first : ∀ entity ∈ held, given.find? (fun other => other.name = entity.name) = some entity

namespace Sheet

variable {sheet : Sheet α} {entity : Entity α} {name : String} {position : Nat}

/-! ## The index -/

theorem lookup_eq_some_iff :
    sheet.index.lookup name = some position ↔
      ∃ entity, sheet.entities[position]? = some entity ∧ entity.name = name := by
  rw [sheet.indexed, namesOf, List.getElem?_map, Option.map_eq_some_iff]

theorem lookup_eq_none_iff :
    sheet.index.lookup name = none ↔ name ∉ namesOf sheet.entities := by
  rw [← not_iff_not, not_not, ← ne_eq, Option.ne_none_iff_exists', List.mem_iff_getElem?]
  exact exists_congr fun position => sheet.indexed name position

theorem nodup_namesOf (sheet : Sheet α) : (namesOf sheet.entities).Nodup := by
  rw [List.nodup_iff_getElem?_ne_getElem?]
  intro i j hij hj he
  obtain ⟨name, hn⟩ : ∃ name, (namesOf sheet.entities)[j]? = some name :=
    ⟨_, List.getElem?_eq_getElem hj⟩
  have hi := (sheet.indexed name i).mpr (he.trans hn)
  have hj := (sheet.indexed name j).mpr hn
  rw [hi] at hj
  cases hj
  exact Nat.lt_irrefl _ hij

theorem get?_eq_some_iff :
    sheet.get? name = some entity ↔ entity ∈ sheet.entities ∧ entity.name = name := by
  constructor
  · intro h
    obtain ⟨position, hp, he⟩ := Option.bind_eq_some_iff.mp h
    obtain ⟨other, ho, hn⟩ := lookup_eq_some_iff.mp hp
    rw [ho] at he
    cases he
    exact ⟨List.mem_of_getElem? ho, hn⟩
  · rintro ⟨he, hn⟩
    obtain ⟨position, hp⟩ := List.mem_iff_getElem?.mp he
    exact Option.bind_eq_some_iff.mpr ⟨position, lookup_eq_some_iff.mpr ⟨entity, hp, hn⟩, hp⟩

theorem requireName_of_mem (h : entity ∈ sheet.entities) :
    sheet.requireName entity.name = .ok entity := by
  rw [requireName, get?_eq_some_iff.mpr ⟨h, rfl⟩]

theorem requireName_of_notMem (h : name ∉ namesOf sheet.entities) :
    sheet.requireName name = .error (.unknownEntity name) := by
  have hget : sheet.get? name = none := by
    rw [get?, lookup_eq_none_iff.mpr h]
    rfl
  rw [requireName, hget]

/-! ## Making a sheet -/

theorem enroll_of_mem (h : entity.name ∈ namesOf sheet.entities) : sheet.enroll entity = sheet := by
  unfold enroll
  split
  · rfl
  · rename_i hn
    exact absurd h (lookup_eq_none_iff.mp hn)

theorem entities_enroll (h : entity.name ∉ namesOf sheet.entities) :
    (sheet.enroll entity).entities = sheet.entities ++ [entity] := by
  unfold enroll
  split
  · rename_i position hp
    rw [lookup_eq_none_iff.mpr h] at hp
    cases hp
  · rfl

theorem formula_enroll (sheet : Sheet α) (entity : Entity α) :
    (sheet.enroll entity).formula = sheet.formula := by
  unfold enroll
  split <;> rfl

theorem ofEntities_concat (formula : String) (given : List (Entity α)) (entity : Entity α) :
    ofEntities formula (given ++ [entity]) = (ofEntities formula given).enroll entity := by
  rw [ofEntities, List.foldl_append]
  rfl

theorem formula_ofEntities (formula : String) (given : List (Entity α)) :
    (ofEntities formula given).formula = formula := by
  induction given using List.reverseRecOn with
  | nil => rfl
  | append_singleton given entity ih => rw [ofEntities_concat, formula_enroll, ih]

theorem namesOf_ofEntities (formula : String) (given : List (Entity α)) :
    namesOf (ofEntities formula given).entities = (namesOf given).eraseDups := by
  induction given using List.reverseRecOn with
  | nil => rfl
  | append_singleton given entity ih =>
    have hmem : entity.name ∈ namesOf (ofEntities formula given).entities ↔
        entity.name ∈ namesOf given := by rw [ih, List.mem_eraseDups]
    rw [ofEntities_concat, namesOf_concat, eraseDups_concat]
    split
    · rename_i h
      rw [enroll_of_mem (hmem.mpr h), ih]
    · rename_i h
      rw [entities_enroll fun he => h (hmem.mp he), namesOf_concat, ih]

/-- An entity whose name is held already is passed over, any other goes behind the ones before. -/
theorem firstOfEachName_ofEntities (formula : String) (given : List (Entity α)) :
    FirstOfEachName given (ofEntities formula given).entities where
  names := by
    rw [namesOf_ofEntities]
    exact inFirstOrder_eraseDups _
  first := by
    induction given using List.reverseRecOn with
    | nil => exact fun entity he => absurd he List.not_mem_nil
    | append_singleton given last ih =>
      intro entity he
      rw [List.find?_append]
      rw [ofEntities_concat] at he
      by_cases hl : last.name ∈ namesOf (ofEntities formula given).entities
      · rw [enroll_of_mem hl] at he
        rw [ih entity he, Option.some_or]
      · rw [entities_enroll hl] at he
        rcases List.mem_append.mp he with he | he
        · rw [ih entity he, Option.some_or]
        · obtain rfl := List.mem_singleton.mp he
          have hnone : given.find? (fun other => other.name = entity.name) = none := by
            rw [namesOf_ofEntities, List.mem_eraseDups, mem_namesOf] at hl
            simpa using hl
          rw [hnone, Option.none_or]
          simp

/-- Entities of different names are all held. -/
theorem entities_ofEntities {given : List (Entity α)} (formula : String)
    (h : (namesOf given).Nodup) : (ofEntities formula given).entities = given := by
  induction given using List.reverseRecOn with
  | nil => rfl
  | append_singleton given last ih =>
    rw [namesOf_concat, List.nodup_append] at h
    obtain ⟨hn, -, hdisjoint⟩ := h
    have hlast : last.name ∉ namesOf (ofEntities formula given).entities := by
      rw [ih hn]
      exact fun hm => hdisjoint _ hm _ List.mem_cons_self rfl
    rw [ofEntities_concat, entities_enroll hlast, ih hn]

/-! ## Schemes -/

theorem entities_ofScheme {options : Options} {text : String} {scheme : Scheme}
    (h : Scheme.compile options text = .ok scheme) (formula : String) :
    (ofScheme formula scheme : Sheet α).entities =
      scheme.entries.map fun entry => { name := entry.name, weighting := entry.weighting } := by
  refine entities_ofEntities formula ?_
  have hnames := Scheme.names_of_compile h
  rw [namesOf, List.map_map]
  exact hnames

end Sheet

end Marksheet
