import Marksheet.Json.Double
import Marksheet.Json.Reader
import Marksheet.Sheet

/-!
# Marksheet.Record

A sheet is kept as its formula and one line for each entity. Restoring it reads the formula again
and enters the marks again, so the weightings of a record tell a reader something and decide
nothing.

Written as JSON, a record is an object with the formula and the list of entities, an entity an
object with name, weighting and value. Read, either may also be an array of the same parts in that
order; the list of entities and a value may be left out, further keys of an object count for
nothing, and none of its own keys may stand twice.

* `Sheet.toRecord`, `Sheet.ofRecord` : keeping a sheet and restoring it.
* `Record.toJson`, `Record.ofJson?` : writing a record and reading it.
-/

namespace Marksheet

structure Record (α : Type) where
  formula : String
  /-- Any entities: names may be unknown or repeated, weightings out of date. -/
  entities : List (Entity α)
  deriving BEq, DecidableEq, Repr

namespace Sheet

variable {α : Type}

def toRecord (sheet : Sheet α) : Record α where
  formula := sheet.formula
  entities := sheet.entities

/-- Enters the mark of one line, if it has one. The name has to be known in any case. -/
def restoreLine (sheet : Sheet α) (line : Entity α) : Except Fault (Sheet α) := do
  let _ ← sheet.requireName line.name
  match line.mark with
  | some mark => sheet.set line.name mark
  | none => return sheet

def ofRecord (options : Options) (record : Record α) : Except Fault (Sheet α) := do
  let sheet ← Sheet.ofFormula options record.formula
  record.entities.foldlM restoreLine sheet

end Sheet

/-! ## Writing -/

def Json.ofMembers (members : List (String × Json)) : Json :=
  .object (members.map fun (key, value) => (some key, value))

def Json.ofText (text : String) : Json := .string (some text)

def Json.ofMark : Option Float → Json
  | some mark => .ofDouble mark
  | none => .null

def Entity.toJson (entity : Entity Float) : Json :=
  .ofMembers
    [("name", .ofText entity.name), ("weighting", .number (.ofNat entity.weighting)),
      ("value", .ofMark entity.mark)]

def Record.toJson (record : Record Float) : Json :=
  .ofMembers
    [("formula", .ofText record.formula), ("entities", .array (record.entities.map Entity.toJson))]

/-! ## Reading -/

namespace Json

/-- The parts of a structure, as far as they are there. An array gives them in the order of `keys`
and may end early; an object gives them by name, each at most once. -/
def parts? (keys : List String) : Json → Option (List (Option Json))
  | .array items =>
    if items.length ≤ keys.length then
      some (items.map some ++ List.replicate (keys.length - items.length) none)
    else none
  | .object members =>
    if members.any fun member => member.1.isNone then none
    else
      keys.mapM fun key =>
        match members.filter fun member => member.1 = some key with
        | [] => some none
        | [member] => some (some member.2)
        | _ => none
  | _ => none

def toText? : Json → Option String
  | .string text => text
  | _ => none

def toWeighting? : Json → Option Nat
  | .number written => written.toNat?
  | _ => none

/-- The mark of an entity; null and nothing at all are none. -/
def toMark? : Option Json → Option (Option Float)
  | none => some none
  | some .null => some none
  | some (.number written) => written.toDouble?.map some
  | some _ => none

end Json

def Entity.ofJson? (json : Json) : Option (Entity Float) := do
  match ← json.parts? ["name", "weighting", "value"] with
  | [some name, some weighting, mark] =>
    let name ← name.toText?
    let weighting ← weighting.toWeighting?
    let mark ← Json.toMark? mark
    return { name, weighting, mark }
  | _ => none

def Record.entitiesOfJson? : Option Json → Option (List (Entity Float))
  | none => some []
  | some (.array items) => items.mapM Entity.ofJson?
  | some _ => none

def Record.ofJson? (json : Json) : Option (Record Float) := do
  match ← json.parts? ["formula", "entities"] with
  | [some formula, entities] =>
    let formula ← formula.toText?
    let entities ← Record.entitiesOfJson? entities
    return { formula, entities }
  | _ => none

def Record.parse? (text : String) : Option (Record Float) := do
  Record.ofJson? (← Json.parse? text)

end Marksheet
