import Marksheet.Proofs.Reading.Formulas

/-!
# Marksheet.Proofs.Reading.Depth

What a limit of nesting changes. Reading with a limit is compared step by step with reading under a
higher one (`Follows`): the two do the same until the lower limit is met, which takes as many
characters as there are levels.

* `Formula.within_term`, `parse_follows` : this is so of a term at every depth, and of a whole text.
* `Formula.fold` : what can be said of a formula that does not depend on its weights; factors leave
  it as it is (`fold_applyFactors`).
* `Formula.levels`, `levels_le_iff_of_parse` : a formula is as deep as the terms it was read from.
* `Formula.nesting_of_parse` : a limit above the length of the text is never met, and any other
  decides by the depth of the formula alone whether it is read.
-/

namespace Marksheet

open Cursor (ask)

variable {α β : Type} {limit limit' depth depth' : Nat}

def Fault.IsTooDeep : Fault → Prop
  | .tooDeep _ => True
  | _ => False

theorem Fault.not_isTooDeep_of_position? {fault : Fault} (h : fault.position? ≠ none) :
    ¬ fault.IsTooDeep := by
  cases fault <;> first | exact id | exact absurd rfl h

theorem Fault.OfNumber.not_isTooDeep {fault : Fault} (h : fault.OfNumber) :
    ¬ fault.IsTooDeep :=
  not_isTooDeep_of_position? h.position?_ne_none

theorem Fault.OfEvaluation.not_isTooDeep {fault : Fault} (h : fault.OfEvaluation) :
    ¬ fault.IsTooDeep := by
  cases fault <;> first | exact id | cases h

namespace Scan

/-- How a scan ends under a limit, against the same scan under a higher one: in the same way, unless
there was `room` for the limit to be met. -/
inductive Follows (limit : Nat) (room : Prop) :
    (result deeper : EStateM.Result Fault (Cursor (List Char)) α) → Prop where
  | ok {x : α} {behind : Cursor (List Char)} : Follows limit room (.ok x behind) (.ok x behind)
  | fault {fault : Fault} {behind : Cursor (List Char)} : ¬ fault.IsTooDeep →
      Follows limit room (.error fault behind) (.error fault behind)
  | met {behind : Cursor (List Char)} {deeper : EStateM.Result Fault (Cursor (List Char)) α} :
      room → Follows limit room (.error (.tooDeep limit) behind) deeper

namespace Follows

variable {room other : Prop} {scan deeper : Scan (List Char) α}
  {next deeperNext : α → Scan (List Char) β} {cursor : Cursor (List Char)}

theorem mono {result deeper : EStateM.Result Fault (Cursor (List Char)) α}
    (h : Follows limit room result deeper) (hr : room → other) :
    Follows limit other result deeper := by
  cases h with
  | ok => exact .ok
  | fault hf => exact .fault hf
  | met hm => exact .met (hr hm)

theorem same (h : OnlyFaults (fun fault => ¬ fault.IsTooDeep) scan) :
    Follows limit room (scan cursor) (scan cursor) := by
  cases he : scan cursor with
  | ok x behind => exact .ok
  | error fault behind => exact .fault (h _ _ _ he)

theorem eq_of_ok {x : α} {behind : Cursor (List Char)}
    {deeper : EStateM.Result Fault (Cursor (List Char)) α}
    (h : Follows limit room (.ok x behind) deeper) : deeper = .ok x behind := by
  cases h
  rfl

theorem bind (hs : Follows limit room (scan cursor) (deeper cursor))
    (hn : ∀ x behind, scan cursor = .ok x behind →
      Follows limit room (next x behind) (deeperNext x behind)) :
    Follows limit room ((scan >>= next) cursor) ((deeper >>= deeperNext) cursor) := by
  cases hr : scan cursor with
  | ok x behind =>
    rw [hr] at hs
    rw [bind_of_ok hr, bind_of_ok hs.eq_of_ok]
    exact hn x behind hr
  | error fault behind =>
    rw [bind_of_error hr]
    cases hd : deeper cursor with
    | ok y other =>
      rw [hr, hd] at hs
      cases hs with
      | met hm => exact .met hm
    | error other place =>
      rw [hr, hd] at hs
      rw [bind_of_error hd]
      cases hs with
      | fault hf => exact .fault hf
      | met hm => exact .met hm

end Follows

/-- The limit is met only where at least `depth` characters are still to be passed. -/
def Within (limit depth : Nat) (scan deeper : Scan (List Char) α) : Prop :=
  ∀ cursor, Follows limit (depth ≤ cursor.size) (scan cursor) (deeper cursor)

variable {scan deeper : Scan (List Char) α} {next deeperNext : α → Scan (List Char) β}

theorem Within.same (h : OnlyFaults (fun fault => ¬ fault.IsTooDeep) scan) :
    Within limit depth scan scan :=
  fun _ => .same h

theorem Within.bind (hs : Within limit depth scan deeper) (hf : Forward scan)
    (hn : ∀ x, Within limit depth (next x) (deeperNext x)) :
    Within limit depth (scan >>= next) (deeper >>= deeperNext) := by
  intro cursor
  refine (hs cursor).bind ?_
  intro x behind h
  have hle := hf _ _ _ h
  exact (hn x behind).mono fun hd => Nat.le_trans hd hle

theorem Within.bind_same (h : OnlyFaults (fun fault => ¬ fault.IsTooDeep) scan) (hf : Forward scan)
    (hn : ∀ x, Within limit depth (next x) (deeperNext x)) :
    Within limit depth (scan >>= next) (scan >>= deeperNext) :=
  (Within.same h).bind hf hn

/-- Behind a character that has been passed there is one level less to go. -/
theorem Follows.of_within {cursor behind : Cursor (List Char)} (h : Within limit depth scan deeper)
    (hlt : behind.size < cursor.size) :
    Follows limit (depth + 1 ≤ cursor.size) (scan behind) (deeper behind) :=
  (h behind).mono fun hd => by omega

end Scan

namespace Formula

open Scan (Follows Within OnlyFaults Forward)

variable {item deeper : Item (List Char) Formula}

/-! ## Lists -/

theorem within_separated (separator : Char) (hi : Within limit depth item.scan deeper.scan) :
    Within limit depth (separated separator item) (separated separator deeper) := by
  intro cursor
  induction hn : cursor.size using Nat.strongRecOn generalizing cursor with
  | _ n ih =>
    subst hn
    -- what is left behind an item is shorter, so there is room for the limit here if there is later
    rw [separated_eq separator item, separated_eq separator deeper]
    refine (hi cursor).bind ?_
    intro first between h
    have hlt := item.advancing _ _ _ h
    refine Follows.bind (.same (Scan.onlyFaults_accept separator)) ?_
    intro found behind ha
    have hle := Scan.forward_accept _ _ _ _ ha
    cases found with
    | false => exact .same (Scan.onlyFaults_pure _)
    | true =>
      refine Follows.bind ?_ fun _ _ _ => .same (Scan.onlyFaults_pure _)
      exact (ih behind.size (by omega) behind rfl).mono (by omega)

theorem within_enclosed (separator : Char) (hi : Within limit depth item.scan deeper.scan) :
    Within limit depth (enclosed separator item) (enclosed separator deeper) := by
  refine (within_separated separator hi).bind (advancing_separated separator item).forward ?_
  intro items
  exact .same (.bind (Scan.onlyFaults_expect fun _ => id) fun _ => Scan.onlyFaults_pure items)

/-! ## Terms -/

theorem within_callOf (name : String) (hi : Within limit depth item.scan deeper.scan) :
    Within limit depth (callOf name item) (callOf name deeper) := by
  unfold callOf
  cases NamedFunction.ofName? name with
  | none => exact .same (Scan.onlyFaults_throw id)
  | some function =>
    refine (within_enclosed ',' hi).bind (advancing_enclosed _ _).forward ?_
    intro arguments
    have hkind := onlyFaults_ofCall function arguments
    exact .same (hkind.mono fun _ => Fault.OfEvaluation.not_isTooDeep)

theorem within_group (leading : Option Float) (hi : Within limit depth item.scan deeper.scan) :
    Within limit depth
      (enclosed '+' item >>= fun members => groupFactor leading >>= fun factor =>
        Scan.lift (ofGroup members) >>= fun whole => pure (whole, factor))
      (enclosed '+' deeper >>= fun members => groupFactor leading >>= fun factor =>
        Scan.lift (ofGroup members) >>= fun whole => pure (whole, factor)) := by
  refine (within_enclosed '+' hi).bind (advancing_enclosed _ _).forward ?_
  intro members
  refine .same (.bind (onlyFaults_groupFactor.mono fun _ => Fault.OfNumber.not_isTooDeep) ?_)
  intro factor
  exact (onlyFaults_ofGroup members factor).mono fun _ => Fault.OfEvaluation.not_isTooDeep

/-- What is nested in an operand stands behind a parenthesis, which takes one character more. -/
theorem within_operand (start : Nat) (leading : Option Float) (star : Bool)
    (hi : Within limit depth item.scan deeper.scan) :
    Within limit (depth + 1) (operand item start leading star)
      (operand deeper start leading star) := by
  intro cursor
  refine Follows.bind (.same (Scan.onlyFaults_accept '(')) ?_
  intro found opened ha
  cases found with
  | true => exact .of_within (within_group leading hi) (Scan.accept_lt ha)
  | false =>
    refine Follows.bind (.same Name.onlyFaults_scan) ?_
    intro name named hn
    cases name with
    | some name =>
      refine Follows.bind (.same Scan.onlyFaults_current) ?_
      intro current _ hc
      cases hc
      by_cases hp : named.current = some '('
      · rw [if_pos hp, if_pos hp]
        refine Follows.bind (.same Scan.onlyFaults_advance) ?_
        intro _ behind hadvance
        have hlt : behind.size < cursor.size := by
          have hopened := Scan.forward_accept _ _ _ _ ha
          have hnamed := Name.forward_scan _ _ _ hn
          cases hadvance
          have hbehind := Cursor.size_advance_lt hp
          omega
        refine Follows.bind (.of_within (within_callOf name hi) hlt) ?_
        exact fun _ _ _ => .same (Scan.onlyFaults_pure _)
      · rw [if_neg hp, if_neg hp]
        exact .same (Scan.onlyFaults_pure _)
    | none =>
      by_cases hl : (leading.isSome && !star) = true
      · simp only [hl, if_true]
        exact .same (Scan.onlyFaults_pure _)
      · simp only [hl]
        refine .same (Scan.onlyFaults_throw_get fun cursor => ?_)
        exact Fault.not_isTooDeep_of_position? (position?_missingOperand_ne_none start cursor)

theorem within_termOf (hi : Within limit depth item.scan deeper.scan) :
    Within limit (depth + 1) (termOf item) (termOf deeper) := by
  refine Within.bind_same Scan.onlyFaults_skipBlanks Scan.forward_skipBlanks fun _ => ?_
  refine Within.bind_same Scan.onlyFaults_position Scan.forward_position fun start => ?_
  refine Within.bind_same (Number.onlyFaults_scan.mono fun _ => Fault.OfNumber.not_isTooDeep)
    (Number.forward_scan false) fun leading => ?_
  refine Within.bind_same onlyFaults_starred (forward_starred leading) fun star => ?_
  refine (within_operand start leading star hi).bind (forward_operand item start leading star) ?_
  rintro ⟨formula, factor⟩
  refine .same (.bind (onlyFaults_divisor.mono fun _ => Fault.OfNumber.not_isTooDeep) ?_)
  intro divisor
  have hkind := Scan.onlyFaults_lift (ofEvaluation_applyFactors formula factor divisor)
  exact hkind.mono fun _ => Fault.OfEvaluation.not_isTooDeep

/-- At every depth, a lower limit is followed by a higher one. -/
theorem within_term (h : depth ≤ depth') :
    Within limit depth (term limit depth : Item (List Char) Formula).scan
      (term limit' depth').scan := by
  induction depth generalizing depth' with
  | zero => exact fun cursor => .met (Nat.zero_le _)
  | succ depth ih =>
    cases depth' with
    | zero => omega
    | succ depth' => exact within_termOf (ih (Nat.le_of_succ_le_succ h))

theorem within_wholeText (h : limit ≤ limit') :
    Within limit limit (wholeText limit) (wholeText limit') := by
  refine (within_separated '+' (within_term h)).bind (advancing_separated _ _).forward ?_
  intro terms
  refine .same (.bind Scan.onlyFaults_skipBlanks fun _ => ?_)
  refine .bind Scan.onlyFaults_atEnd ?_
  intro atEnd
  cases atEnd with
  | true =>
    have hkind := Scan.onlyFaults_lift (ofEvaluation_ofGroup terms)
    exact hkind.mono fun _ => Fault.OfEvaluation.not_isTooDeep
  | false =>
    refine Scan.onlyFaults_throw_get fun cursor => ?_
    exact Fault.not_isTooDeep_of_position? cursor.position?_unexpected_ne_none

/-! ## The shape of a formula -/

mutual

/-- The levels below the top of a formula. What a group or call holds stands one level below it. -/
def levels : Formula → Nat
  | leaf _ _ _ => 0
  | group members _ => allLevels members
  | call _ arguments _ => allLevels arguments

def allLevels : List Formula → Nat
  | [] => 0
  | first :: others => max (levels first + 1) (allLevels others)

end

mutual

/-- A measure of how a formula is built, whatever its weights are: `join` takes what stands below a
node together with what there is of its neighbours to the right. -/
def fold (join : Nat → Nat → Nat) : Formula → Nat
  | leaf _ _ _ => 0
  | group members _ => allFold join members
  | call _ arguments _ => allFold join arguments

def allFold (join : Nat → Nat → Nat) : List Formula → Nat
  | [] => 0
  | first :: others => join (fold join first) (allFold join others)

end

variable {join : Nat → Nat → Nat}

theorem fold_ofGroup {members : List Formula} {formula : Formula}
    (h : ofGroup members = .ok formula) : formula.fold join = allFold join members := by
  obtain ⟨total, _, h⟩ := ok_of_bind h
  cases h
  rw [fold]

theorem fold_ofCall {function : NamedFunction} {arguments : List Formula} {formula : Formula}
    (h : ofCall function arguments = .ok formula) :
    formula.fold join = allFold join arguments := by
  obtain ⟨total, _, h⟩ := ok_of_bind h
  cases h
  rw [fold]

mutual

/-- A change of weights changes nothing of the shape. -/
theorem fold_mapWeights {change : Fraction → Except Fault Fraction} :
    (formula : Formula) → ∀ {result : Formula}, mapWeights change formula = .ok result →
      result.fold join = formula.fold join
  | .leaf name multiplier weight, result, h => by
    rw [mapWeights] at h
    obtain ⟨changed, _, h⟩ := ok_of_bind h
    cases h
    rw [fold, fold]
  | .group members _, result, h => by
    rw [mapWeights] at h
    obtain ⟨changed, hc, h⟩ := ok_of_bind h
    rw [fold_ofGroup h, allFold_mapAllWeights members hc, fold]
  | .call function arguments _, result, h => by
    rw [mapWeights] at h
    obtain ⟨changed, hc, h⟩ := ok_of_bind h
    rw [fold_ofCall h, allFold_mapAllWeights arguments hc, fold]

theorem allFold_mapAllWeights {change : Fraction → Except Fault Fraction} :
    (formulas : List Formula) → ∀ {results : List Formula},
      mapAllWeights change formulas = .ok results → allFold join results = allFold join formulas
  | [], results, h => by
    cases h
    rfl
  | first :: others, results, h => by
    rw [mapAllWeights] at h
    obtain ⟨one, ho, h⟩ := ok_of_bind h
    obtain ⟨rest, hr, h⟩ := ok_of_bind h
    cases h
    rw [allFold, allFold, fold_mapWeights first ho, allFold_mapAllWeights others hr]

end

theorem fold_applyFactors {formula result : Formula} {factor divisor : Option Float}
    (h : applyFactors formula factor divisor = .ok result) :
    result.fold join = formula.fold join := by
  rw [applyFactors_eq] at h
  obtain ⟨scaled, hs, hd⟩ := ok_of_bind h
  have hscaled : scaled.fold join = formula.fold join := by
    cases factor with
    | none => cases hs; rfl
    | some x =>
      obtain ⟨y, _, hs⟩ := ok_of_bind hs
      exact fold_mapWeights formula hs
  cases divisor with
  | none => cases hd; exact hscaled
  | some x =>
    obtain ⟨y, _, hd⟩ := ok_of_bind hd
    rw [← hscaled]
    exact fold_mapWeights scaled hd

mutual

theorem levels_eq_fold : (formula : Formula) →
    formula.levels = formula.fold fun below others => max (below + 1) others
  | .leaf _ _ _ => by rw [levels, fold]
  | .group members _ => by rw [levels, fold, allLevels_eq_allFold members]
  | .call _ arguments _ => by rw [levels, fold, allLevels_eq_allFold arguments]

theorem allLevels_eq_allFold : (formulas : List Formula) →
    allLevels formulas = allFold (fun below others => max (below + 1) others) formulas
  | [] => rfl
  | first :: others => by
    rw [allLevels, allFold, levels_eq_fold first, allLevels_eq_allFold others]

end

theorem levels_ofGroup {members : List Formula} {formula : Formula}
    (h : ofGroup members = .ok formula) : formula.levels = allLevels members := by
  rw [levels_eq_fold, fold_ofGroup h, allLevels_eq_allFold]

theorem levels_ofCall {function : NamedFunction} {arguments : List Formula} {formula : Formula}
    (h : ofCall function arguments = .ok formula) : formula.levels = allLevels arguments := by
  rw [levels_eq_fold, fold_ofCall h, allLevels_eq_allFold]

theorem levels_applyFactors {formula result : Formula} {factor divisor : Option Float}
    (h : applyFactors formula factor divisor = .ok result) : result.levels = formula.levels := by
  rw [levels_eq_fold, levels_eq_fold, fold_applyFactors h]

mutual

/-- A term is one level higher than its formula is deep. -/
theorem height_of_formula : (term : Term) → ∀ {formula : Formula},
    term.formula = .ok formula → term.height = formula.levels + 1
  | .number factor divisor, formula, h => by
    rw [Term.formula] at h
    rw [Term.height, levels_applyFactors h, ofLeaf, levels]
  | .name factor word divisor, formula, h => by
    rw [Term.formula] at h
    rw [Term.height, levels_applyFactors h, ofLeaf, levels]
  | .group factor members divisor, formula, h => by
    rw [Term.formula] at h
    obtain ⟨formulas, hf, h⟩ := ok_of_bind h
    obtain ⟨whole, hw, h⟩ := ok_of_bind h
    rw [Term.height, levels_applyFactors h, levels_ofGroup hw, allHeights_of_formulas members hf]
  | .call factor function arguments divisor, formula, h => by
    rw [Term.formula] at h
    cases hn : NamedFunction.ofName? function with
    | none =>
      rw [hn] at h
      cases h
    | some known =>
      rw [hn] at h
      obtain ⟨formulas, hf, h⟩ := ok_of_bind h
      obtain ⟨whole, hw, h⟩ := ok_of_bind h
      rw [Term.height, levels_applyFactors h, levels_ofCall hw,
        allHeights_of_formulas arguments hf]

theorem allHeights_of_formulas : (terms : List Term) → ∀ {formulas : List Formula},
    Term.allFormulas terms = .ok formulas → Term.allHeights terms = allLevels formulas
  | [], formulas, h => by
    cases h
    rfl
  | first :: others, formulas, h => by
    rw [Term.allFormulas] at h
    obtain ⟨one, ho, h⟩ := ok_of_bind h
    obtain ⟨rest, hr, h⟩ := ok_of_bind h
    cases h
    rw [Term.allHeights, allLevels, height_of_formula first ho, allHeights_of_formulas others hr]

end

/-! ## The whole text -/

variable {text : String} {formula : Formula}

/-- A formula that has been read is as deep as the terms it was read from. -/
theorem levels_le_iff_of_parse (h : parse limit' text = .ok formula) :
    formula.levels ≤ limit ↔ parse limit text = .ok formula := by
  obtain ⟨terms, ht, hr⟩ := formulaText_of_parse h
  obtain ⟨hheight, hc, hs⟩ := readSum_eq_ok_iff.mp hr
  obtain ⟨formulas, hf, hw⟩ := ok_of_bind hs
  rw [parse_of_formulaText ht, readSum_eq_ok_iff, levels_ofGroup hw,
    allHeights_of_formulas terms hf]
  simp [hc, hs]

/-- A lower limit reads the same as a higher one, or it is met, and then it is no higher than the
text is long. -/
theorem parse_follows (text : String) (h : limit ≤ limit') :
    (parse limit text = parse limit' text ∧ ∀ met, parse limit text ≠ .error (.tooDeep met)) ∨
      (limit ≤ text.length ∧ parse limit text = .error (.tooDeep limit)) := by
  have hf := within_wholeText h (ask text.toList 0)
  generalize hl : wholeText limit (ask text.toList 0) = result at hf
  generalize hd : wholeText limit' (ask text.toList 0) = deeper at hf
  cases hf with
  | ok =>
    rw [parse_of_ok hl, parse_of_ok hd]
    exact .inl ⟨rfl, by simp⟩
  | @fault fault _ hk =>
    rw [parse_of_error hl, parse_of_error hd]
    refine .inl ⟨rfl, ?_⟩
    intro met e
    cases e
    exact hk trivial
  | met hroom =>
    have hsize : (ask text.toList 0).size ≤ text.length := Cursor.size_ask_le text.toList 0
    exact .inr ⟨Nat.le_trans hroom hsize, parse_of_error hl⟩

/-- A limit above the length of the text is never met. A formula that is read under it is read under
every limit from its own depth on, and any lower limit is met. A fault that is found under it is
found under every limit that is not met first. So a higher limit changes only what met the lower
one. -/
theorem nesting_of_parse (text : String) (deep : Nat) (h : text.length < deep) :
    (∀ met, parse deep text ≠ .error (.tooDeep met)) ∧
    (∀ limit formula, parse deep text = .ok formula → parse limit text =
      if formula.levels ≤ limit then .ok formula else .error (.tooDeep limit)) ∧
    (∀ limit fault, parse deep text = .error fault →
      parse limit text = .error fault ∨ parse limit text = .error (.tooDeep limit)) ∧
    ∀ limit higher, limit ≤ higher → (∀ met, parse limit text ≠ .error (.tooDeep met)) →
      parse higher text = parse limit text := by
  have hnever : ∀ limit', deep ≤ limit' → parse deep text = parse limit' text ∧
      ∀ met, parse deep text ≠ .error (.tooDeep met) := by
    intro limit' hle
    rcases parse_follows text hle with hsame | ⟨hmet, _⟩
    · exact hsame
    · omega
  have hlimit : ∀ limit, parse limit text = parse deep text ∨
      parse limit text = .error (.tooDeep limit) := by
    intro limit
    by_cases hle : deep ≤ limit
    · exact .inl (hnever limit hle).1.symm
    · exact (parse_follows text (by omega)).imp And.left And.right
  refine ⟨(hnever deep (Nat.le_refl _)).2, ?_, ?_, ?_⟩
  · intro limit formula hf
    by_cases hl : formula.levels ≤ limit
    · rw [if_pos hl]
      exact (levels_le_iff_of_parse hf).mp hl
    · rw [if_neg hl]
      rcases hlimit limit with hsame | hmet
      · exact absurd ((levels_le_iff_of_parse hf).mpr (hsame.trans hf)) hl
      · exact hmet
  · intro limit fault hf
    rw [← hf]
    exact hlimit limit
  · intro limit higher hle hnot
    rcases parse_follows text hle with ⟨hsame, _⟩ | ⟨_, hmet⟩
    · exact hsame.symm
    · exact absurd hmet (hnot limit)

theorem nesting_of_nested :
    "a + ((b) + c) + root(d, (e))".length < 29 ∧
    parse 2 "a + ((b) + c) + root(d, (e))" = .error (.tooDeep 2) ∧
    ∃ formula, parse 3 "a + ((b) + c) + root(d, (e))" = .ok formula ∧ formula.levels = 3 := by
  have hlength : "a + ((b) + c) + root(d, (e))".length < 29 := by decide
  have hlevels : (parse 29 "a + ((b) + c) + root(d, (e))").toOption.map levels = some 3 := by
    decide +kernel
  obtain ⟨_, hlimits, _, _⟩ := nesting_of_parse "a + ((b) + c) + root(d, (e))" 29 hlength
  cases hf : parse 29 "a + ((b) + c) + root(d, (e))" with
  | error fault =>
    rw [hf] at hlevels
    cases hlevels
  | ok formula =>
    have hdepth : formula.levels = 3 := by
      rw [hf] at hlevels
      exact Option.some.inj hlevels
    refine ⟨hlength, ?_, formula, ?_, hdepth⟩
    · rw [hlimits 2 formula hf, hdepth]
      rfl
    · rw [hlimits 3 formula hf, hdepth]
      rfl

end Formula

end Marksheet
