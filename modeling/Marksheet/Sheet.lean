import Marksheet.Binary64
import Marksheet.Scheme

/-!
# Marksheet.Sheet

A sheet holds the entities of one formula, each name once, and the marks known so far. An index
tells where each name stands. Marks are numbers with the four operations, into which weightings can
be turned: doubles are what a user enters, exact fractions give the same calculations without
rounding.

* `Sheet.set`, `clear`, `clearAll` : entering and removing marks.
* `Sheet.totalWeighting`, `markedWeighting` : sums of weightings in 64 bits, which nothing checks.
* `Sheet.totalWeighting?`, `markedWeighting?` : the same in a build that checks additions, none where
  it stops.
* `Sheet.average`  : the weighted mean of the marks that are known.
* `Sheet.solveFor` : the mark that one entity needs for a target average.

The last two depend on nothing but the known marks and their weightings, in the order of the
entities.
-/

namespace Marksheet

class Scalar (α : Type) extends Add α, Sub α, Mul α, Div α where
  zero : α
  ofWeighting : Nat → α
  isZero : α → Bool

instance : Scalar Float where
  zero := 0
  ofWeighting := Binary64.ofNat
  isZero x := x == 0

instance : Scalar Rat where
  zero := 0
  ofWeighting n := (n : Rat)
  isZero x := x = 0

structure Entity (α : Type) where
  name : String
  weighting : Nat
  mark : Option α := none
  deriving BEq, DecidableEq, Repr

/-- The index finds every name where it stands, and no other name. -/
def IndexOf (names : List String) (index : List (String × Nat)) : Prop :=
  ∀ name position, index.lookup name = some position ↔ names[position]? = some name

theorem getElem?_concat_eq_some {names : List String} {name other : String} {position : Nat} :
    (names ++ [name])[position]? = some other ↔
      names[position]? = some other ∨ (position = names.length ∧ name = other) := by
  rcases Nat.lt_trichotomy position names.length with hp | hp | hp
  · simp [List.getElem?_append_left hp, Nat.ne_of_lt hp]
  · simp [hp]
  · have hend : (names ++ [name]).length ≤ position := by simp; omega
    simp [List.getElem?_eq_none hend, List.getElem?_eq_none (Nat.le_of_lt hp), Nat.ne_of_gt hp]

theorem IndexOf.append {names : List String} {index : List (String × Nat)} {name : String}
    (h : IndexOf names index) (hn : index.lookup name = none) :
    IndexOf (names ++ [name]) ((name, names.length) :: index) := by
  intro other position
  rw [getElem?_concat_eq_some, ← h, List.lookup_cons]
  by_cases ho : other = name
  · subst ho
    simp [hn, eq_comm]
  · have hbeq : (other == name) = false := by simp [ho]
    simp [hbeq, Ne.symm ho]

def namesOf {α : Type} (entities : List (Entity α)) : List String := entities.map Entity.name

structure Sheet (α : Type) where
  formula : String
  entities : List (Entity α)
  index : List (String × Nat)
  indexed : IndexOf (namesOf entities) index

def knownMarks {α : Type} (entities : List (Entity α)) : List (α × Nat) :=
  entities.filterMap fun entity => entity.mark.map fun mark => (mark, entity.weighting)

/-- The sum of mark times weighting and the sum of the weightings, from left to right. -/
def weightedSums {α : Type} [Scalar α] (marks : List (α × Nat)) : α × α :=
  marks.foldl
    (fun (sum, weight) (mark, weighting) =>
      (sum + mark * Scalar.ofWeighting weighting, weight + Scalar.ofWeighting weighting))
    (Scalar.zero, Scalar.zero)

/-- The sum in 64 bits without a sign. A carry out of them is lost. -/
def wrappingSum (weightings : List Nat) : UInt64 :=
  weightings.foldl (fun sum weighting => sum + .ofNat weighting) 0

/-- The same sum in a program that checks its additions: it stops at one that does not fit. -/
def checkedSum? (weightings : List Nat) : Option UInt64 :=
  weightings.foldlM
    (fun sum weighting =>
      if sum.toNat + weighting < UInt64.size then some (sum + .ofNat weighting) else none)
    0

namespace Sheet

variable {α : Type}

/-! ## Making a sheet -/

def blank (formula : String) : Sheet α where
  formula
  entities := []
  index := []
  indexed := by simp [IndexOf, namesOf]

/-- The sheet with one more entity, unless its name is there already. -/
def enroll (sheet : Sheet α) (entity : Entity α) : Sheet α :=
  match h : sheet.index.lookup entity.name with
  | some _ => sheet
  | none =>
    { sheet with
      entities := sheet.entities ++ [entity]
      index := (entity.name, sheet.entities.length) :: sheet.index
      indexed := by simpa [namesOf] using sheet.indexed.append h }

/-- A sheet of entities that have their weightings; of two with one name the first is kept. -/
def ofEntities (formula : String) (entities : List (Entity α)) : Sheet α :=
  entities.foldl enroll (blank formula)

def ofScheme (formula : String) (scheme : Scheme) : Sheet α :=
  ofEntities formula <| scheme.entries.map fun entry =>
    { name := entry.name, weighting := entry.weighting }

def ofFormula (options : Options) (formula : String) : Except Fault (Sheet α) := do
  let scheme ← Scheme.compile options formula
  return ofScheme formula scheme

/-! ## Marks -/

def get? (sheet : Sheet α) (name : String) : Option (Entity α) := do
  let position ← sheet.index.lookup name
  sheet.entities[position]?

def requireName (sheet : Sheet α) (name : String) : Except Fault (Entity α) :=
  match sheet.get? name with
  | some entity => .ok entity
  | none => .error (.unknownEntity name)

def positionOf (sheet : Sheet α) (name : String) : Except Fault Nat :=
  match sheet.index.lookup name with
  | some position => .ok position
  | none => .error (.unknownEntity name)

theorem namesOf_modify (entities : List (Entity α)) (position : Nat) (mark : Option α) :
    namesOf (entities.modify position fun entity => { entity with mark }) = namesOf entities := by
  refine List.ext_getElem? fun i => ?_
  simp only [namesOf, List.getElem?_map, List.getElem?_modify]
  split <;> cases entities[i]? <;> rfl

def replaceMark (sheet : Sheet α) (position : Nat) (mark : Option α) : Sheet α :=
  { sheet with
    entities := sheet.entities.modify position fun entity => { entity with mark }
    indexed := by rw [namesOf_modify]; exact sheet.indexed }

def enter (sheet : Sheet α) (name : String) (mark : Option α) : Except Fault (Sheet α) := do
  let position ← sheet.positionOf name
  return sheet.replaceMark position mark

def set (sheet : Sheet α) (name : String) (mark : α) : Except Fault (Sheet α) :=
  sheet.enter name (some mark)

def clear (sheet : Sheet α) (name : String) : Except Fault (Sheet α) :=
  sheet.enter name none

def clearAll (sheet : Sheet α) : Sheet α :=
  { sheet with
    entities := sheet.entities.map fun entity => { entity with mark := none }
    indexed := by simpa [namesOf, Function.comp_def] using sheet.indexed }

/-! ## Weightings -/

def weightings (sheet : Sheet α) : List Nat := sheet.entities.map Entity.weighting

def markedWeightings (sheet : Sheet α) : List Nat :=
  (sheet.entities.filter fun entity => entity.mark.isSome).map Entity.weighting

def totalWeighting (sheet : Sheet α) : UInt64 := wrappingSum sheet.weightings

def totalWeighting? (sheet : Sheet α) : Option UInt64 := checkedSum? sheet.weightings

def markedWeighting (sheet : Sheet α) : UInt64 := wrappingSum sheet.markedWeightings

def markedWeighting? (sheet : Sheet α) : Option UInt64 := checkedSum? sheet.markedWeightings

def isComplete (sheet : Sheet α) : Bool :=
  sheet.entities.all fun entity => entity.mark.isSome

/-! ## Averages -/

variable [Scalar α]

/-- The weighted mean of the known marks; zero when no weight is known. -/
def average (sheet : Sheet α) : α :=
  let (sum, weight) := weightedSums (knownMarks sheet.entities)
  if Scalar.isZero weight then Scalar.zero else sum / weight

/-- The mark that the entity of that name needs for the average to become `target`. The mark it has
is left out of account. -/
def solveFor (sheet : Sheet α) (name : String) (target : α) : Except Fault α := do
  let entity ← sheet.requireName name
  if entity.weighting = 0 then throw .divisionByZero
  let others := sheet.entities.filter fun other => other.name ≠ name
  let (sum, weight) := weightedSums (knownMarks others)
  let own : α := Scalar.ofWeighting entity.weighting
  return (target * (own + weight) - sum) / own

end Sheet

/-! ## Comparison -/

/-- Formula, names, weightings and marks agree; marks are compared as numbers. The index follows
from the names. -/
instance {α : Type} [BEq α] : BEq (Sheet α) where
  beq a b := a.formula == b.formula && a.entities == b.entities

end Marksheet
