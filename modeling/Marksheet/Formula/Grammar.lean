import Marksheet.Formula
import Marksheet.Fraction.Approximation
import Marksheet.Numeral
import Marksheet.Word

/-!
# Marksheet.Formula.Grammar

Reading a formula:

    formula := term ('+' term)*
    term    := [number ['*']] operand ['/' number]
    operand := '(' term ('+' term)* ')' [['*'] number]
             | function '(' term (',' term)* ')'
             | name
             | nothing, behind a number without '*'

Blanks may stand between all parts but a function and its parenthesis. A number in front of an
operand has no exponent, so that `5exam` is five times `exam`. A number behind a parenthesis counts
only where none stands in front. Factors and divisors are applied as soon as a term ends, so a
number that does not fit is found in the order of the text.

* `term limit depth`   : one term, with `depth` levels of nesting left out of `limit`.
* `Formula.parse`      : the formula that a whole text is.

Each item of a list passes at least one character, which is why reading ends.
-/

namespace Marksheet.Formula

variable {σ : Type} [Feed σ] {α : Type}

structure Item (σ α : Type) [Feed σ] where
  scan : Scan σ α
  advancing : Scan.Advancing scan

/-- One item, and further ones as long as a separator follows. -/
def separated (separator : Char) (item : Item σ α) (cursor : Cursor σ) :
    EStateM.Result Fault (Cursor σ) (List α) :=
  match h : item.scan cursor with
  | .error fault behind => .error fault behind
  | .ok first behind =>
    match ha : behind.accept separator with
    | (false, behind) => .ok [first] behind
    | (true, next) =>
      have : next.size < cursor.size := by
        have hn := Cursor.size_accept_le separator behind
        rw [ha] at hn
        exact Nat.lt_of_le_of_lt hn (item.advancing _ _ _ h)
      match separated separator item next with
      | .error fault behind => .error fault behind
      | .ok others behind => .ok (first :: others) behind
termination_by cursor.size

theorem advancing_separated (separator : Char) (item : Item σ α) :
    Scan.Advancing (separated separator item : Scan σ (List α)) := by
  intro cursor items behind h
  fun_induction separated separator item cursor generalizing items behind with
  | case1 => cases h
  | case2 cursor first between hs after ha =>
    cases h
    have hn := Cursor.size_accept_le separator between
    rw [ha] at hn
    exact Nat.lt_of_le_of_lt hn (item.advancing _ _ _ hs)
  | case3 => cases h
  | case4 cursor first between hs next ha hlt others after hr ih =>
    cases h
    exact Nat.lt_trans (ih _ _ hr) hlt

/-- The items up to a closing parenthesis whose partner has been passed. -/
def enclosed (separator : Char) (item : Item σ α) : Scan σ (List α) := do
  let items ← separated separator item
  Scan.expect ')'
  return items

def requiredNumber : Scan σ Float := do
  Scan.skipBlanks
  let position ← Scan.position
  match ← Number.scan true with
  | some value => return value
  | none => throw (.numberExpected position)

/-- A number right behind a group starts with a digit or a point; a sign would be the `+` in front
of the next term. -/
def startsFactor (current : Option Char) : Bool :=
  match current with
  | some c => c.isDigit || c == '.'
  | none => false

def trailingFactor : Scan σ (Option Float) := do
  if ← Scan.accept '*' then return some (← requiredNumber)
  else if startsFactor (← Scan.current) then Number.scan true
  else return none

/-- The factor of a group: the number in front of it or, without one, the number behind it. -/
def groupFactor : (leading : Option Float) → Scan σ (Option Float)
  | some value => pure (some value)
  | none => trailingFactor

def starred : (leading : Option Float) → Scan σ Bool
  | some _ => Scan.accept '*'
  | none => pure false

def divisor : Scan σ (Option Float) := do
  if ← Scan.accept '/' then return some (← requiredNumber)
  else return none

/-- A call whose name and opening parenthesis have been passed. An unknown function is refused
before its arguments are read. -/
def callOf (name : String) (item : Item σ Formula) : Scan σ Formula := do
  match NamedFunction.ofName? name with
  | none => throw (.unknownFunction name)
  | some function =>
    let arguments ← enclosed ',' item
    function.checkArity arguments.length
    ofCall function arguments

/-- The fault of a term that started at `start` and has no operand. -/
def missingOperand (start : Nat) (cursor : Cursor σ) : Fault :=
  match cursor.current with
  | some c => if c ∈ [')', '+', ',', '/', '*'] then .termExpected start else cursor.unexpected
  | none => .termExpected start

def operand (item : Item σ Formula) (start : Nat) (leading : Option Float) (starred : Bool) :
    Scan σ (Formula × Option Float) := do
  if ← Scan.accept '(' then
    let members ← enclosed '+' item
    let factor ← groupFactor leading
    return (← ofGroup members, factor)
  else
    match ← Name.scan with
    | some name =>
      if (← Scan.current) = some '(' then
        Scan.advance
        return (← callOf name item, leading)
      else return (ofLeaf (some name) leading, leading)
    | none =>
      if leading.isSome && !starred then return (ofLeaf none leading, leading)
      else throw (missingOperand start (← get))

/-- A node with its factor and its divisor applied, the factor first. -/
def applyFactors (formula : Formula) (factor divisor : Option Float) : Except Fault Formula := do
  let scaled ← match factor with
    | some x => formula.scale (← Fraction.ofFloat x)
    | none => .ok formula
  match divisor with
  | some x => scaled.divide (← Fraction.ofFloat x)
  | none => .ok scaled

/-- One term, given a scan for the terms nested in it. -/
def termOf (item : Item σ Formula) : Scan σ Formula := do
  Scan.skipBlanks
  let start ← Scan.position
  let leading ← Number.scan false
  let (formula, factor) ← operand item start leading (← starred leading)
  applyFactors formula factor (← divisor)

/-! ## Progress -/

theorem advancing_enclosed (separator : Char) (item : Item σ α) :
    Scan.Advancing (enclosed separator item : Scan σ (List α)) :=
  Scan.Advancing.bind (advancing_separated separator item) fun _ =>
    Scan.Forward.bind (Scan.forward_expect _) fun _ => Scan.forward_pure _

theorem forward_requiredNumber : Scan.Forward (requiredNumber : Scan σ Float) := by
  refine Scan.Forward.bind Scan.forward_skipBlanks fun _ => ?_
  refine Scan.Forward.bind Scan.forward_position fun _ => ?_
  refine Scan.Forward.bind (Number.forward_scan _) fun _ => ?_
  split
  · exact Scan.forward_pure _
  · exact Scan.forward_throw _

theorem forward_trailingFactor : Scan.Forward (trailingFactor : Scan σ (Option Float)) := by
  refine Scan.Forward.bind (Scan.forward_accept _) fun _ => ?_
  split
  · exact Scan.Forward.bind forward_requiredNumber fun _ => Scan.forward_pure _
  · refine Scan.Forward.bind Scan.forward_current fun _ => ?_
    split
    · exact Number.forward_scan _
    · exact Scan.forward_pure _

theorem forward_groupFactor :
    (leading : Option Float) → Scan.Forward (groupFactor leading : Scan σ (Option Float))
  | some _ => Scan.forward_pure _
  | none => forward_trailingFactor

theorem forward_starred : (leading : Option Float) → Scan.Forward (starred leading : Scan σ Bool)
  | some _ => Scan.forward_accept _
  | none => Scan.forward_pure _

theorem forward_divisor : Scan.Forward (divisor : Scan σ (Option Float)) := by
  refine Scan.Forward.bind (Scan.forward_accept _) fun _ => ?_
  split
  · exact Scan.Forward.bind forward_requiredNumber fun _ => Scan.forward_pure _
  · exact Scan.forward_pure _

theorem forward_callOf (name : String) (item : Item σ Formula) :
    Scan.Forward (callOf name item) := by
  unfold callOf
  split
  · exact Scan.forward_throw _
  · refine Scan.Forward.bind (advancing_enclosed _ _).forward fun _ => ?_
    exact Scan.Forward.bind (Scan.forward_lift _) fun _ => Scan.forward_lift _

theorem forward_operand (item : Item σ Formula) (start : Nat) (leading : Option Float)
    (starred : Bool) : Scan.Forward (operand item start leading starred) := by
  refine Scan.Forward.bind (Scan.forward_accept _) fun _ => ?_
  split
  · refine Scan.Forward.bind (advancing_enclosed _ _).forward fun _ => ?_
    refine Scan.Forward.bind (forward_groupFactor _) fun _ => ?_
    exact Scan.Forward.bind (Scan.forward_lift _) fun _ => Scan.forward_pure _
  · refine Scan.Forward.bind Name.forward_scan fun _ => ?_
    split
    · refine Scan.Forward.bind Scan.forward_current fun _ => ?_
      split
      · refine Scan.Forward.bind Scan.forward_advance fun _ => ?_
        exact Scan.Forward.bind (forward_callOf _ _) fun _ => Scan.forward_pure _
      · exact Scan.forward_pure _
    · split
      · exact Scan.forward_pure _
      · exact Scan.Forward.bind Scan.forward_get fun _ => Scan.forward_throw _

theorem advancing_operand (item : Item σ Formula) (start : Nat) (starred : Bool) :
    Scan.Advancing (operand item start none starred) := by
  intro cursor x behind h
  obtain ⟨found, opened, h₁, h⟩ := Scan.bind_ok h
  split at h
  · rename_i hf
    subst hf
    refine Nat.lt_of_le_of_lt ?_ (Scan.accept_lt h₁)
    refine Scan.Forward.bind (advancing_enclosed _ _).forward (fun _ => ?_) _ _ _ h
    refine Scan.Forward.bind (forward_groupFactor _) fun _ => ?_
    exact Scan.Forward.bind (Scan.forward_lift _) fun _ => Scan.forward_pure _
  · refine Nat.lt_of_lt_of_le ?_ (Scan.forward_accept _ _ _ _ h₁)
    obtain ⟨name, named, h₂, h⟩ := Scan.bind_ok h
    split at h
    · refine Nat.lt_of_le_of_lt ?_ (Name.scan_lt h₂)
      refine Scan.Forward.bind Scan.forward_current (fun _ => ?_) _ _ _ h
      split
      · refine Scan.Forward.bind Scan.forward_advance fun _ => ?_
        exact Scan.Forward.bind (forward_callOf _ _) fun _ => Scan.forward_pure _
      · exact Scan.forward_pure _
    · obtain ⟨_, _, _, h⟩ := Scan.bind_ok h
      cases h

theorem advancing_termOf (item : Item σ Formula) : Scan.Advancing (termOf item) := by
  refine Scan.Forward.bind_advancing Scan.forward_skipBlanks fun _ => ?_
  refine Scan.Forward.bind_advancing Scan.forward_position fun start => ?_
  intro cursor x behind h
  obtain ⟨leading, between, h₁, h⟩ := Scan.bind_ok h
  cases leading with
  | none =>
    refine Nat.lt_of_lt_of_le ?_ (Number.forward_scan _ _ _ _ h₁)
    refine Scan.Forward.bind_advancing (forward_starred _) (fun _ => ?_) _ _ _ h
    refine Scan.Advancing.bind (advancing_operand _ _ _) fun _ => ?_
    exact Scan.Forward.bind forward_divisor fun _ => Scan.forward_lift _
  | some value =>
    refine Nat.lt_of_le_of_lt ?_ (Number.scan_lt h₁)
    refine Scan.Forward.bind (forward_starred _) (fun _ => ?_) _ _ _ h
    refine Scan.Forward.bind (forward_operand _ _ _ _) fun _ => ?_
    exact Scan.Forward.bind forward_divisor fun _ => Scan.forward_lift _

/-! ## The whole text -/

/-- One term with `depth` levels of nesting left, its own included. The scan for the level below is
formed only where a term is read, so a limit costs nothing until it is used. -/
def term (limit : Nat) : (depth : Nat) → Item σ Formula
  | 0 => ⟨throw (.tooDeep limit), Scan.advancing_throw _⟩
  | depth + 1 => ⟨fun cursor => termOf (term limit depth) cursor, advancing_termOf _⟩

def wholeText (limit : Nat) : Scan σ Formula := do
  let terms ← separated '+' (term limit limit)
  Scan.skipBlanks
  if ← Scan.atEnd then ofGroup terms
  else throw (← get).unexpected

/-- Reads a formula, with parentheses and calls nested no deeper than `limit`; the terms of the
whole text count as one level. -/
def parse (limit : Nat) (text : String) : Except Fault Formula :=
  (wholeText limit).run text.toList

end Marksheet.Formula
