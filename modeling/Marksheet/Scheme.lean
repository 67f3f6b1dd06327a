import Marksheet.Formula.Grammar

/-!
# Marksheet.Scheme

A scheme is what a formula amounts to: its names, each once and in the order in which they first
occur, with whole-number weightings, and the exact weight of the whole formula.

* `Scheme.merge`   : one share for each name, carrying all of its weights.
* `Normalization.weightings` : whole numbers for the merged shares.
* `Scheme.compile` : the scheme of a formula's text.
-/

namespace Marksheet

inductive Normalization where
  /-- Over the least common denominator; the ratios between all names are kept. -/
  | commonDenominator
  /-- Each numerator in lowest terms by itself; names with different denominators are not
  comparable. -/
  | numeratorOnly
  deriving DecidableEq, Repr, Inhabited

structure Options where
  normalization : Normalization := .commonDenominator
  /-- The deepest nesting of parentheses and calls. -/
  depthLimit : Nat := 200

structure Entry where
  name : String
  weighting : Nat
  deriving DecidableEq, Repr

structure Scheme where
  entries : List Entry
  total : Fraction

namespace Scheme

def distinctNames (shares : List Share) : List String :=
  (shares.map Share.name).eraseDups

def weightsOf (name : String) (shares : List Share) : List Fraction :=
  (shares.filter fun share => share.name = name).map Share.weight

/-- One share for each name, in the order of first occurrence, with the sum of its weights. -/
def merge (shares : List Share) : Except Fault (List Share) :=
  (distinctNames shares).mapM fun name => do
    return { name, weight := ← Fraction.sum (weightsOf name shares) }

end Scheme

namespace Normalization

/-- Multiplies by a denominator and divides by it again, unless it is the weight's own. -/
def throughDenominator (weight : Fraction) (den : Int) : Except Fault Fraction :=
  if weight.den = den then .ok weight
  else do
    let multiplied ← weight.multiply (.ofInt den)
    multiplied.divide (.ofInt den)

def weightings (normalization : Normalization) (shares : List Share) : Except Fault (List Int) :=
  match normalization with
  | .commonDenominator => do
    let den ← Fraction.commonDenominator (shares.map Share.weight)
    shares.mapM fun share => share.weight.numeratorOver den
  | .numeratorOnly => do
    let denominators := (shares.map fun share => share.weight.den).eraseDups
    shares.mapM fun share => do
      let weight ← denominators.foldlM throughDenominator share.weight
      return weight.reduced.num

end Normalization

namespace Scheme

/-- A weighting has to be at least one. -/
def entry (name : String) (weighting : Int) : Except Fault Entry :=
  if 1 ≤ weighting then .ok { name, weighting := weighting.toNat }
  else .error (.weightNotPositive name)

/-- Entries for shares and their weightings; the first that is not positive is the one told. -/
def entriesOf (shares : List Share) (weightings : List Int) : Except Fault (List Entry) :=
  (shares.zip weightings).mapM fun (share, weighting) => entry share.name weighting

def ofFormula (normalization : Normalization) (formula : Formula) : Except Fault Scheme := do
  let shares ← merge formula.shares
  let weightings ← normalization.weightings shares
  let entries ← entriesOf shares weightings
  return { entries, total := formula.weight }

def compile (options : Options) (text : String) : Except Fault Scheme := do
  let formula ← Formula.parse options.depthLimit text
  ofFormula options.normalization formula

end Scheme

end Marksheet
