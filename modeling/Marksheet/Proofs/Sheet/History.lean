import Marksheet.Proofs.Sheet.Entities

/-!
# Marksheet.Proofs.Sheet.History

A sheet after any sequence of entering and clearing marks. Actions change marks and nothing else,
each the mark of the one entity it names, or all marks; an action on a name that is not held is
refused and changes nothing.

* `Action`, `Sheet.act`, `Sheet.run` : one action, with its answer, and a history of them.
* `Sheet.act_changes` : what one action does to each entity.
* `Sheet.entities_run` : so it is the last action on an entity that says its mark.
* `Sheet.follows_of_history` : every sheet that can come about holds what it should.
-/

namespace Marksheet

inductive Action (α : Type) where
  | set (name : String) (mark : α)
  | clear (name : String)
  | clearAll

namespace Action

variable {α : Type}

def name? : Action α → Option String
  | set name _ => some name
  | clear name => some name
  | clearAll => none

def mark? : Action α → Option α
  | set _ mark => some mark
  | clear _ => none
  | clearAll => none

/-- An action is on a name if it is on that one or on all. -/
def concerns (name : String) (action : Action α) : Bool :=
  action.name?.all (· == name)

def change (action : Action α) (entity : Entity α) : Entity α :=
  if action.concerns entity.name then { entity with mark := action.mark? } else entity

theorem change_of_name (action : Action α) {name : String} (hn : action.name? = some name) :
    action.change = fun entity =>
      if entity.name = name then { entity with mark := action.mark? } else entity := by
  funext entity
  simp [change, concerns, hn, eq_comm (a := name)]

end Action

/-- The mark that the last action on a name leaves; without one, the mark that there was. -/
def markAfter {α : Type} (history : List (Action α)) (name : String) (mark : Option α) : Option α :=
  match (history.filter (Action.concerns name)).getLast? with
  | some action => action.mark?
  | none => mark

namespace Sheet

variable {α : Type} {sheet : Sheet α} {name : String} {position : Nat}

/-- What a change answers, and the sheet after it. One that is refused leaves the sheet as it was.
-/
def outcome (sheet : Sheet α) : Except Fault (Sheet α) → Except Fault Unit × Sheet α
  | .ok next => (.ok (), next)
  | .error fault => (.error fault, sheet)

def act (sheet : Sheet α) : Action α → Except Fault Unit × Sheet α
  | .set name mark => sheet.outcome (sheet.set name mark)
  | .clear name => sheet.outcome (sheet.clear name)
  | .clearAll => (.ok (), sheet.clearAll)

def run (history : List (Action α)) (sheet : Sheet α) : Sheet α :=
  history.foldl (fun sheet action => (sheet.act action).2) sheet

/-! ## One action -/

/-- The position of a name is that of no other entity. -/
theorem entities_replaceMark (h : sheet.index.lookup name = some position) (mark : Option α) :
    (sheet.replaceMark position mark).entities = sheet.entities.map fun entity =>
      if entity.name = name then { entity with mark } else entity := by
  refine List.ext_getElem? fun i => ?_
  rw [replaceMark, List.getElem?_modify, List.getElem?_map]
  cases he : sheet.entities[i]? with
  | none => simp
  | some entity =>
    have hiff : position = i ↔ entity.name = name := by
      constructor
      · rintro rfl
        obtain ⟨other, ho, hn⟩ := lookup_eq_some_iff.mp h
        rw [he] at ho
        cases ho
        exact hn
      · intro hn
        have hi := lookup_eq_some_iff.mpr ⟨entity, he, hn⟩
        rw [h] at hi
        exact Option.some.inj hi
    by_cases hp : position = i
    · simp [hp, hiff.mp hp]
    · simp [hp, mt hiff.mpr hp]

theorem enter_of_mem (h : name ∈ namesOf sheet.entities) (mark : Option α) :
    ∃ next, sheet.enter name mark = .ok next ∧ next.formula = sheet.formula ∧
      next.entities = sheet.entities.map fun entity =>
        if entity.name = name then { entity with mark } else entity := by
  obtain ⟨position, hp⟩ := Option.ne_none_iff_exists'.mp (mt lookup_eq_none_iff.mp (not_not.mpr h))
  refine ⟨sheet.replaceMark position mark, ?_, rfl, entities_replaceMark hp mark⟩
  rw [enter, positionOf, hp]
  rfl

theorem enter_of_notMem (h : name ∉ namesOf sheet.entities) (mark : Option α) :
    sheet.enter name mark = .error (.unknownEntity name) := by
  rw [enter, positionOf, lookup_eq_none_iff.mpr h]
  rfl

/-- An action on what is held goes through, and changes the marks of the entities it is on. -/
theorem act_of_mem {action : Action α}
    (h : ∀ name, action.name? = some name → name ∈ namesOf sheet.entities) :
    (sheet.act action).1 = .ok () ∧ (sheet.act action).2.formula = sheet.formula ∧
      (sheet.act action).2.entities = sheet.entities.map action.change := by
  cases action with
  | set name mark =>
    obtain ⟨next, hn, hf, he⟩ := enter_of_mem (h name rfl) (some mark)
    rw [act, set, hn]
    refine ⟨rfl, hf, ?_⟩
    rw [Action.change_of_name (.set name mark) rfl]
    exact he
  | clear name =>
    obtain ⟨next, hn, hf, he⟩ := enter_of_mem (h name rfl) none
    rw [act, clear, hn]
    refine ⟨rfl, hf, ?_⟩
    rw [Action.change_of_name (.clear name) rfl]
    exact he
  | clearAll => exact ⟨rfl, rfl, rfl⟩

theorem act_of_notMem {action : Action α} (hn : action.name? = some name)
    (h : name ∉ namesOf sheet.entities) :
    sheet.act action = (.error (.unknownEntity name), sheet) := by
  cases action with
  | set other mark =>
    cases hn
    rw [act, set, enter_of_notMem h, outcome]
  | clear other =>
    cases hn
    rw [act, clear, enter_of_notMem h, outcome]
  | clearAll => cases hn

theorem map_change_of_notMem {action : Action α} (hn : action.name? = some name)
    (h : name ∉ namesOf sheet.entities) :
    sheet.entities.map action.change = sheet.entities := by
  refine (List.map_congr_left fun entity he => ?_).trans (List.map_id _)
  rw [Action.change_of_name action hn]
  refine if_neg ?_
  rintro rfl
  exact h (mem_namesOf.mpr ⟨entity, he, rfl⟩)

theorem act_changes (sheet : Sheet α) (action : Action α) :
    (sheet.act action).2.formula = sheet.formula ∧
      (sheet.act action).2.entities = sheet.entities.map action.change := by
  by_cases h : ∀ name, action.name? = some name → name ∈ namesOf sheet.entities
  · exact (act_of_mem h).2
  · push Not at h
    obtain ⟨name, hn, hm⟩ := h
    rw [act_of_notMem hn hm]
    exact ⟨rfl, (map_change_of_notMem hn hm).symm⟩

/-! ## Histories -/

theorem run_concat (history : List (Action α)) (action : Action α) (sheet : Sheet α) :
    run (history ++ [action]) sheet = ((run history sheet).act action).2 := by
  rw [run, List.foldl_append]
  rfl

theorem markAfter_concat (history : List (Action α)) (action : Action α) (name : String)
    (mark : Option α) :
    markAfter (history ++ [action]) name mark =
      if action.concerns name then action.mark? else markAfter history name mark := by
  unfold markAfter
  rw [List.filter_append]
  by_cases h : action.concerns name <;> simp [h]

theorem formula_run (history : List (Action α)) (sheet : Sheet α) :
    (run history sheet).formula = sheet.formula := by
  induction history using List.reverseRecOn with
  | nil => rfl
  | append_singleton history action ih => rw [run_concat, (act_changes _ action).1, ih]

/-- The last action on an entity says its mark, by induction on the history. -/
theorem entities_run (history : List (Action α)) (sheet : Sheet α) :
    (run history sheet).entities = sheet.entities.map fun entity =>
      { entity with mark := markAfter history entity.name entity.mark } := by
  induction history using List.reverseRecOn with
  | nil => exact (List.map_id _).symm
  | append_singleton history action ih =>
    rw [run_concat, (act_changes _ action).2, ih, List.map_map]
    refine List.map_congr_left ?_
    intro entity _
    rw [markAfter_concat, Function.comp_apply, Action.change]
    split <;> rfl

theorem namesOf_run (history : List (Action α)) (sheet : Sheet α) :
    namesOf (run history sheet).entities = namesOf sheet.entities := by
  rw [entities_run, namesOf, List.map_map]
  rfl

theorem weightings_run {options : Options} {text : String} {scheme : Scheme}
    (h : Scheme.compile options text = .ok scheme) (history : List (Action α)) :
    (run history (ofScheme text scheme : Sheet α)).weightings =
      scheme.entries.map Entry.weighting := by
  rw [weightings, entities_run, entities_ofScheme h, List.map_map, List.map_map]
  rfl

/-- What holds of a sheet that was made of `given` entities, after a history of actions. -/
structure Follows (sheet : Sheet α) (formula : String) (given : List (Entity α))
    (history : List (Action α)) : Prop where
  formula : sheet.formula = formula
  names : InFirstOrder (namesOf given) (namesOf sheet.entities)
  entity : ∀ entity ∈ sheet.entities, ∃ first,
    given.find? (fun other => other.name = entity.name) = some first ∧
      entity = { first with mark := markAfter history entity.name first.mark }
  found : ∀ name entity, sheet.get? name = some entity ↔
    entity ∈ sheet.entities ∧ entity.name = name
  known : ∀ action : Action α, (∀ name, action.name? = some name → name ∈ namesOf given) →
    (sheet.act action).1 = .ok ()
  unknown : ∀ action : Action α, ∀ name, action.name? = some name → name ∉ namesOf given →
    sheet.act action = (.error (.unknownEntity name), sheet)

/-- Whatever is done with a sheet, it holds the first of the given entities of each name, in their
order, with the marks last entered. The sheet of a formula holds all entities of its scheme. -/
theorem follows_of_history (formula : String) (given : List (Entity α))
    (history : List (Action α)) :
    (run history (ofEntities formula given)).Follows formula given history ∧
      ∀ options text scheme, Scheme.compile options text = .ok scheme →
        ∃ sheet : Sheet α, ofFormula options text = .ok sheet ∧ sheet.formula = text ∧
          sheet.entities = scheme.entries.map fun entry =>
            { name := entry.name, weighting := entry.weighting } := by
  have hnames : namesOf (run history (ofEntities formula given)).entities =
      namesOf (ofEntities formula given).entities := namesOf_run history _
  have hfirst := firstOfEachName_ofEntities formula given
  have hmem : ∀ name, name ∈ namesOf (run history (ofEntities formula given)).entities ↔
      name ∈ namesOf given := by
    intro name
    rw [hnames]
    exact hfirst.names.mem_iff name
  refine ⟨⟨?_, ?_, ?_, ?_, ?_, ?_⟩, ?_⟩
  · rw [formula_run, formula_ofEntities]
  · rw [hnames]
    exact hfirst.names
  · intro entity he
    rw [entities_run] at he
    obtain ⟨first, hf, rfl⟩ := List.mem_map.mp he
    exact ⟨first, hfirst.first first hf, rfl⟩
  · exact fun name entity => get?_eq_some_iff
  · intro action hn
    exact (act_of_mem fun name hname => (hmem name).mpr (hn name hname)).1
  · intro action name hn hname
    exact act_of_notMem hn (mt (hmem name).mp hname)
  · intro options text scheme h
    refine ⟨ofScheme text scheme, ?_, formula_ofEntities text _, entities_ofScheme h text⟩
    rw [ofFormula, h]
    rfl

/-- A name behind one that was passed over is found in its own place. -/
example :
    (run [.set "c" 1, .set "b" 2, .set "z" 3, .clear "a", .set "c" 4]
      (ofEntities "" [⟨"a", 1, some 0⟩, ⟨"b", 2, none⟩, ⟨"a", 3, some 9⟩, ⟨"c", 4, none⟩])).entities =
      [⟨"a", 1, none⟩, ⟨"b", 2, some 2⟩, ⟨"c", 4, some 4⟩] := by
  decide

end Sheet

end Marksheet
