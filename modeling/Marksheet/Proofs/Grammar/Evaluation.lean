import Marksheet.Proofs.Grammar.Terms
import Marksheet.Proofs.Outcome

/-!
# Marksheet.Proofs.Grammar.Evaluation

What the terms of a formula come to.

* `Term.formula` : a term evaluated from the bottom up.
* `Term.height`, `Term.RootCalls` : how deep terms are nested, and that all calls are allowed.
* `Term.reading` : the same with all that can go wrong, in the order in which it is met.
  `reading_eq_ok_iff` takes the three together.
-/

namespace Marksheet.Term

open Formula (ofLeaf ofGroup ofCall applyFactors)

mutual

/-- The formula of a term: what it holds first, then its factor, then its divisor. -/
def formula : Term → Except Fault Formula
  | number factor divisor => applyFactors (ofLeaf none (some factor)) (some factor) divisor
  | name factor word divisor => applyFactors (ofLeaf (some word) factor) factor divisor
  | group factor members divisor => do
    let whole ← ofGroup (← allFormulas members)
    applyFactors whole factor divisor
  | call factor function arguments divisor =>
    match NamedFunction.ofName? function with
    | none => .error (.unknownFunction function)
    | some function => do
      let whole ← ofCall function (← allFormulas arguments)
      applyFactors whole factor divisor

def allFormulas : List Term → Except Fault (List Formula)
  | [] => .ok []
  | first :: others => do
    let first ← formula first
    let others ← allFormulas others
    return first :: others

end

def sumFormula (terms : List Term) : Except Fault Formula := do
  ofGroup (← allFormulas terms)

mutual

/-- How deep terms are nested, the term itself counted as one. -/
def height : Term → Nat
  | number _ _ => 1
  | name _ _ _ => 1
  | group _ members _ => allHeights members + 1
  | call _ _ arguments _ => allHeights arguments + 1

def allHeights : List Term → Nat
  | [] => 0
  | first :: others => max (height first) (allHeights others)

end

mutual

def RootCalls : Term → Prop
  | number _ _ => True
  | name _ _ _ => True
  | group _ members _ => AllRootCalls members
  | call _ function arguments _ =>
    function = "root" ∧ (arguments.length = 1 ∨ arguments.length = 2) ∧ AllRootCalls arguments

def AllRootCalls : List Term → Prop
  | [] => True
  | first :: others => RootCalls first ∧ AllRootCalls others

end

mutual

/-- The formula of a term with `depth` levels of nesting left of `limit`, its own included. The
faults are in the order of reading: nesting, an unknown function, what a call or group holds, the
number of arguments, the weights. -/
def reading (limit : Nat) : (depth : Nat) → Term → Except Fault Formula
  | 0, _ => .error (.tooDeep limit)
  | _ + 1, number factor divisor => applyFactors (ofLeaf none (some factor)) (some factor) divisor
  | _ + 1, name factor word divisor => applyFactors (ofLeaf (some word) factor) factor divisor
  | depth + 1, group factor members divisor => do
    let whole ← ofGroup (← allReadings limit depth members)
    applyFactors whole factor divisor
  | depth + 1, call factor function arguments divisor =>
    match NamedFunction.ofName? function with
    | none => .error (.unknownFunction function)
    | some function => do
      let arguments ← allReadings limit depth arguments
      function.checkArity arguments.length
      let whole ← ofCall function arguments
      applyFactors whole factor divisor

def allReadings (limit : Nat) : (depth : Nat) → List Term → Except Fault (List Formula)
  | _, [] => .ok []
  | depth, first :: others => do
    let first ← reading limit depth first
    let others ← allReadings limit depth others
    return first :: others

end

def called (limit depth : Nat) (function : String) (arguments : List Term) :
    Except Fault Formula :=
  match NamedFunction.ofName? function with
  | none => .error (.unknownFunction function)
  | some function => do
    let arguments ← allReadings limit depth arguments
    function.checkArity arguments.length
    ofCall function arguments

theorem reading_call (limit depth : Nat) (factor : Option Float) (function : String)
    (arguments : List Term) (divisor : Option Float) :
    (call factor function arguments divisor).reading limit (depth + 1) = (do
      let whole ← called limit depth function arguments
      applyFactors whole factor divisor) := by
  rw [reading, called]
  cases NamedFunction.ofName? function with
  | none => rfl
  | some function =>
    dsimp only
    cases allReadings limit depth arguments with
    | error fault => rfl
    | ok formulas =>
      rw [ok_bind, ok_bind]
      cases function.checkArity formulas.length <;> rfl

theorem allFormulas_length {terms : List Term} {formulas : List Formula}
    (h : allFormulas terms = .ok formulas) : formulas.length = terms.length := by
  induction terms generalizing formulas with
  | nil => cases h; rfl
  | cons first others ih =>
    rw [allFormulas] at h
    obtain ⟨one, _, h⟩ := ok_of_bind h
    obtain ⟨rest, hr, h⟩ := ok_of_bind h
    cases h
    rw [List.length_cons, List.length_cons, ih hr]

theorem checkArity_root_eq_ok_iff {given : Nat} :
    NamedFunction.root.checkArity given = .ok () ↔ given = 1 ∨ given = 2 := by
  unfold NamedFunction.checkArity
  split
  · rename_i h
    simp only [NamedFunction.leastArguments, NamedFunction.mostArguments] at h
    simp only [true_iff]
    omega
  · rename_i h
    simp only [NamedFunction.leastArguments, NamedFunction.mostArguments] at h
    simp only [reduceCtorEq, false_iff]
    omega

theorem ofName?_root : NamedFunction.ofName? "root" = some .root := rfl

mutual

/-- Reading a term within a depth is evaluating it, where it is not too high and its calls are
allowed. -/
theorem reading_eq_ok_iff (limit : Nat) : (term : Term) → ∀ {depth : Nat} {result : Formula},
    term.reading limit depth = .ok result ↔
      term.height ≤ depth ∧ term.RootCalls ∧ term.formula = .ok result
  | term, 0, result => by
    have hpos : 0 < term.height := by cases term <;> simp [height]
    rw [reading]
    constructor
    · intro h; cases h
    · rintro ⟨h, _⟩; omega
  | .number factor divisor, depth + 1, result => by
    simp [reading, formula, height, RootCalls]
  | .name factor word divisor, depth + 1, result => by
    simp [reading, formula, height, RootCalls]
  | .group factor members divisor, depth + 1, result => by
    rw [reading, formula, height, RootCalls, Nat.add_le_add_iff_right]
    constructor
    · intro h
      obtain ⟨whole, hw, h⟩ := ok_of_bind h
      obtain ⟨hh, hc, hf⟩ := (allReadings_eq_ok_iff limit members).mp hw
      refine ⟨hh, hc, ?_⟩
      rw [hf]
      exact h
    · rintro ⟨hh, hc, h⟩
      obtain ⟨whole, hw, h⟩ := ok_of_bind h
      rw [(allReadings_eq_ok_iff limit members).mpr ⟨hh, hc, hw⟩]
      exact h
  | .call factor function arguments divisor, depth + 1, result => by
    rw [reading, formula, height, RootCalls, Nat.add_le_add_iff_right]
    constructor
    · intro h
      cases hn : NamedFunction.ofName? function with
      | none => rw [hn] at h; cases h
      | some known =>
        rw [hn] at h
        obtain ⟨whole, hw, h⟩ := ok_of_bind h
        obtain ⟨⟨⟩, ha, h⟩ := ok_of_bind h
        obtain ⟨hh, hc, hf⟩ := (allReadings_eq_ok_iff limit arguments).mp hw
        have hname := NamedFunction.ofName?_eq_some_iff.mp hn
        cases known
        rw [checkArity_root_eq_ok_iff, allFormulas_length hf] at ha
        refine ⟨hh, ⟨hname, ha, hc⟩, ?_⟩
        simp only [hf, ok_bind]
        exact h
    · rintro ⟨hh, ⟨rfl, ha, hc⟩, h⟩
      rw [ofName?_root] at h ⊢
      obtain ⟨whole, hw, h⟩ := ok_of_bind h
      simp only at h ⊢
      rw [(allReadings_eq_ok_iff limit arguments).mpr ⟨hh, hc, hw⟩, ok_bind,
        checkArity_root_eq_ok_iff.mpr (by rwa [allFormulas_length hw]), ok_bind]
      exact h

theorem allReadings_eq_ok_iff (limit : Nat) :
    (terms : List Term) → ∀ {depth : Nat} {results : List Formula},
    allReadings limit depth terms = .ok results ↔
      allHeights terms ≤ depth ∧ AllRootCalls terms ∧ allFormulas terms = .ok results
  | [], depth, results => by simp [allReadings, allHeights, AllRootCalls, allFormulas]
  | first :: others, depth, results => by
    rw [allReadings, allHeights, AllRootCalls, allFormulas, Nat.max_le]
    constructor
    · intro h
      obtain ⟨one, ho, h⟩ := ok_of_bind h
      obtain ⟨rest, hr, h⟩ := ok_of_bind h
      obtain ⟨hh₁, hc₁, hf₁⟩ := (reading_eq_ok_iff limit first).mp ho
      obtain ⟨hh₂, hc₂, hf₂⟩ := (allReadings_eq_ok_iff limit others).mp hr
      refine ⟨⟨hh₁, hh₂⟩, ⟨hc₁, hc₂⟩, ?_⟩
      rw [hf₁, ok_bind, hf₂]
      exact h
    · rintro ⟨⟨hh₁, hh₂⟩, ⟨hc₁, hc₂⟩, h⟩
      obtain ⟨one, ho, h⟩ := ok_of_bind h
      obtain ⟨rest, hr, h⟩ := ok_of_bind h
      rw [(reading_eq_ok_iff limit first).mpr ⟨hh₁, hc₁, ho⟩, ok_bind,
        (allReadings_eq_ok_iff limit others).mpr ⟨hh₂, hc₂, hr⟩]
      exact h

end

end Marksheet.Term
