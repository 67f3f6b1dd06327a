import Marksheet.Decimal
import Marksheet.Record

/-!
# Marksheet.Report

What the commands print, as text for a reader or as JSON.

A sheet is shown as a table: a heading, a divider of dashes and a line for each entity. Names stand
at the left of their column, weightings and marks at the right; a column is as wide as its widest
cell, counted in characters, and two blanks stand between columns.
-/

namespace Marksheet

namespace Table

structure Row where
  name : List Char
  weighting : List Char
  mark : List Char

def heading : Row where
  name := "name".toList
  weighting := "weighting".toList
  mark := "value".toList

/-- An entity's line; a dash stands for a mark that is not known. -/
def rowOf (entity : Entity Float) : Row where
  name := entity.name.toList
  weighting := decimalDigits entity.weighting
  mark :=
    match entity.mark with
    | some mark => (Decimal.shown mark).toList
    | none => ['-']

def padding (width : Nat) (cell : List Char) : List Char :=
  List.replicate (width - cell.length) ' '

def leftAligned (width : Nat) (cell : List Char) : List Char :=
  cell ++ padding width cell

def rightAligned (width : Nat) (cell : List Char) : List Char :=
  padding width cell ++ cell

structure Widths where
  name : Nat
  weighting : Nat
  mark : Nat

def widest (cells : List (List Char)) : Nat :=
  (cells.map List.length).foldl max 0

def widthsOf (rows : List Row) : Widths where
  name := widest ((heading :: rows).map Row.name)
  weighting := widest ((heading :: rows).map Row.weighting)
  mark := widest ((heading :: rows).map Row.mark)

def gap : List Char := [' ', ' ']

def headingLine (widths : Widths) : List Char :=
  leftAligned widths.name heading.name ++ gap ++ leftAligned widths.weighting heading.weighting
    ++ gap ++ leftAligned widths.mark heading.mark

/-- A dash for every byte of the line above. -/
def divider (above : List Char) : List Char :=
  List.replicate (String.ofList above).utf8ByteSize '-'

def rowLine (widths : Widths) (row : Row) : List Char :=
  leftAligned widths.name row.name ++ gap ++ rightAligned widths.weighting row.weighting
    ++ gap ++ rightAligned widths.mark row.mark

def trimmedLine (line : List Char) : List Char :=
  Text.dropEndWhile Text.isBlank line

def linesOf (rows : List Row) : List (List Char) :=
  let widths := widthsOf rows
  trimmedLine (headingLine widths) :: divider (headingLine widths) ::
    rows.map fun row => trimmedLine (rowLine widths row)

/-- The table of a sheet, without the end of its last line. -/
def render (sheet : Sheet Float) : String :=
  if sheet.entities.isEmpty then "(no entities)"
  else "\n".intercalate ((linesOf (sheet.entities.map rowOf)).map String.ofList)

end Table

namespace Report

def ofJson (json : Json) : String :=
  json.toText ++ "\n"

/-! ## Entities -/

def entities (sheet : Sheet Float) : String :=
  Table.render sheet ++ "\n"

def record (sheet : Sheet Float) : String :=
  ofJson sheet.toRecord.toJson

/-! ## Averages -/

def average (sheet : Sheet Float) : String :=
  entities sheet ++ "\n" ++ s!"average: {Decimal.shown sheet.average}" ++ "\n"

def state (sheet : Sheet Float) : String :=
  sheet.formula ++ "\n\n" ++ average sheet

def averageJson (sheet : Sheet Float) : String :=
  ofJson <| .ofMembers
    [("average", .ofDouble sheet.average), ("complete", .bool sheet.isComplete),
      ("record", sheet.toRecord.toJson)]

/-! ## Needed marks -/

def needed (name : String) (target mark : Float) : String :=
  s!"{name} needs {Decimal.shown mark} for an average of {Decimal.shown target}" ++ "\n"

def neededJson (name : String) (target mark : Float) : String :=
  ofJson <| .ofMembers
    [("entity", .ofText name), ("target", .ofDouble target), ("value", .ofDouble mark)]

end Report

end Marksheet
