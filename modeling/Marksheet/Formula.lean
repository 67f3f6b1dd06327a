import Marksheet.Fraction

/-!
# Marksheet.Formula

A formula as a tree. Every node carries its weight: a leaf the product of all factors that apply to
it, a group or call the sum of what it holds. A factor is pushed down to the leaves at once, so a
leaf always shows its final weight. A call weighs its arguments as a group does; the name of its
function only fixes how many there may be.

* `NamedFunction` : the functions that a formula may call.
* `Formula.ofLeaf`, `ofGroup`, `ofCall` : building a node with the weight it has.
* `scale`, `divide` : a factor or divisor for a node and all it holds.
* `shares` : the named leaves from left to right, with their weights.
-/

namespace Marksheet

inductive NamedFunction where
  | root
  deriving DecidableEq, Repr

namespace NamedFunction

def name : NamedFunction → String
  | .root => "root"

def ofName? (name : String) : Option NamedFunction :=
  if name = "root" then some .root else none

theorem ofName?_eq_some_iff {text : String} {f : NamedFunction} :
    ofName? text = some f ↔ text = f.name := by
  cases f
  simp [ofName?, name]

def leastArguments : NamedFunction → Nat
  | .root => 1

def mostArguments : NamedFunction → Nat
  | .root => 2

def checkArity (f : NamedFunction) (given : Nat) : Except Fault Unit :=
  if f.leastArguments ≤ given ∧ given ≤ f.mostArguments then .ok ()
  else .error (.arity f.name f.leastArguments f.mostArguments given)

end NamedFunction

inductive Formula where
  /-- A name or, without one, a number; with the number that was written in front of it. -/
  | leaf (name : Option String) (multiplier : Option Float) (weight : Fraction)
  | group (members : List Formula) (weight : Fraction)
  | call (function : NamedFunction) (arguments : List Formula) (weight : Fraction)
  deriving Inhabited

structure Share where
  name : String
  weight : Fraction
  deriving DecidableEq, Repr

namespace Formula

def weight : Formula → Fraction
  | leaf _ _ weight => weight
  | group _ weight => weight
  | call _ _ weight => weight

def totalWeight (formulas : List Formula) : Except Fault Fraction := do
  let sum ← Fraction.sum (formulas.map weight)
  return sum.reduced

/-- A leaf of weight one. -/
def ofLeaf (name : Option String) (multiplier : Option Float) : Formula :=
  leaf name multiplier .one

def ofGroup (members : List Formula) : Except Fault Formula := do
  return group members (← totalWeight members)

def ofCall (function : NamedFunction) (arguments : List Formula) : Except Fault Formula := do
  return call function arguments (← totalWeight arguments)

mutual

/-- Changes the weight of every leaf, and sums the weights above it anew. -/
def mapWeights (change : Fraction → Except Fault Fraction) : Formula → Except Fault Formula
  | leaf name multiplier weight => do return leaf name multiplier (← change weight)
  | group members _ => do ofGroup (← mapAllWeights change members)
  | call function arguments _ => do ofCall function (← mapAllWeights change arguments)

def mapAllWeights (change : Fraction → Except Fault Fraction) :
    List Formula → Except Fault (List Formula)
  | [] => .ok []
  | first :: others => do
    let first ← mapWeights change first
    let others ← mapAllWeights change others
    return first :: others

end

def scale (formula : Formula) (factor : Fraction) : Except Fault Formula :=
  mapWeights (fun weight => weight.multiply factor) formula

def divide (formula : Formula) (divisor : Fraction) : Except Fault Formula :=
  mapWeights (fun weight => weight.divide divisor) formula

mutual

/-- The named leaves from left to right. -/
def shares : Formula → List Share
  | leaf (some name) _ weight => [{ name, weight }]
  | leaf none _ _ => []
  | group members _ => allShares members
  | call _ arguments _ => allShares arguments

def allShares : List Formula → List Share
  | [] => []
  | first :: others => shares first ++ allShares others

end

end Formula

end Marksheet
