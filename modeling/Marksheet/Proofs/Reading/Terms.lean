import Marksheet.Proofs.Reading.Lists
import Marksheet.Proofs.Calculation

/-!
# Marksheet.Proofs.Reading.Terms

Reading a term agrees with the grammar of terms, at every depth of nesting.

* `opens_of_operand` : an operand that has been passed makes a term with any divisor behind it.
* `operand_number`, `operand_name`, `operand_group`, `operand_call` : an operand that is written is
  passed.
* `viable_of_operand` : where a character is misplaced in an operand a term could have been
  completed.
* `reads_term` : the scan for terms reads terms, by induction on the levels left.
-/

namespace Marksheet.Formula

open Cursor (ask Ahead)
open Scan (Sequential OnlyFaults Yields)
open Grammar
open Term (allReadings)

variable {item : Item (List Char) Formula} {limit depth start : Nat}
  {text blanks lead gap rest following : List Char} {position place : Nat}
  {leading factor : Option Float} {star : Bool} {formula : Formula} {fault : Fault}
  {cursor behind : Cursor (List Char)}

/-! ## From left to right -/

theorem sequential_callOf (hi : item.Reads limit depth) (name : String) :
    Sequential (callOf name item) text position := by
  unfold callOf
  split
  · exact Scan.sequential_throw (Scan.placed_of_calculation trivial)
  · rename_i function _
    refine (sequential_enclosed ',' hi _ _).bind ?_
    intro arguments _ _ _ _
    refine (Scan.sequential_lift (function.ofEvaluation_checkArity _)).bind ?_
    intro _ _ _ _ _
    exact Scan.sequential_lift (ofEvaluation_ofCall _ _)

theorem placed_missingOperand (hs : start ≤ position) :
    Scan.Placed (missingOperand start (ask text position)) position text.head? := by
  have hexpected : Scan.Placed (.termExpected start) position text.head? :=
    Scan.placed_of_le rfl hs id
  unfold missingOperand
  split
  · split
    · exact hexpected
    · exact Scan.placed_unexpected text position
  · exact hexpected

theorem position?_missingOperand_ne_none (start : Nat) (cursor : Cursor (List Char)) :
    (missingOperand start cursor).position? ≠ none := by
  unfold missingOperand
  split
  · split
    · exact Option.some_ne_none _
    · exact cursor.position?_unexpected_ne_none
  · exact Option.some_ne_none _

theorem missingOperand_of_head? {other : List Char} (h : other.head? = text.head?) :
    missingOperand start (ask other position) = missingOperand start (ask text position) := by
  simp only [missingOperand, Cursor.current_ask, h, Scan.unexpected_of_head? h]

theorem sequential_operand (hi : item.Reads limit depth) (hs : start ≤ position) :
    Sequential (operand item start leading star) text position := by
  refine (Scan.sequential_accept _).bind ?_
  intro found used rest _ _
  cases found with
  | true =>
    refine (sequential_enclosed '+' hi _ _).bind ?_
    intro members _ _ _ _
    refine sequential_groupFactor.bind ?_
    intro factor _ _ _ _
    exact (Scan.sequential_lift (ofEvaluation_ofGroup members)).bind fun _ _ _ _ _ =>
      Scan.sequential_pure _
  | false =>
    refine Name.sequential_scan.bind ?_
    intro name more last _ _
    cases name with
    | some name =>
      refine .bind_current ?_
      split
      · rename_i hc
        obtain ⟨others, rfl⟩ := List.head?_eq_some_iff.mp hc
        refine (Scan.sequential_advance_cons _).bind ?_
        intro _ _ _ _ _
        exact (sequential_callOf hi name).bind fun _ _ _ _ _ => Scan.sequential_pure _
      · exact Scan.sequential_pure _
    | none =>
      dsimp only
      split
      · exact Scan.sequential_pure _
      · exact Scan.sequential_throw_get (placed_missingOperand (by omega)) fun _ =>
          missingOperand_of_head?

theorem sequential_termOf (hi : item.Reads limit depth) (text : List Char) (position : Nat) :
    Sequential (termOf item) text position := by
  refine Scan.sequential_skipBlanks.bind fun _ _ _ _ _ => .bind_position ?_
  refine Number.sequential_scan.bind ?_
  intro leading _ _ _ _
  refine sequential_starred.bind ?_
  intro star _ _ _ _
  refine (sequential_operand hi (by omega)).bind ?_
  rintro ⟨formula, factor⟩ _ _ _ _
  refine sequential_divisor.bind ?_
  intro divisor _ _ _ _
  exact Scan.sequential_lift (ofEvaluation_applyFactors formula factor divisor)

/-! ## What has been passed -/

/-- What is written makes a term with any divisor behind it, of this formula and factor. -/
def Opens (limit depth : Nat) (written : List Char) (formula : Formula) (factor : Option Float)
    (rest : List Char) : Prop :=
  ∀ divided divisor following, rest = divided ++ following →
    DivisorText divided divisor following →
    ∃ term, TermText (written ++ divided) term following ∧
      term.reading limit (depth + 1) = applyFactors formula factor divisor

theorem opens_number {value : Float} (hb : IsBlanks blanks) (hn : NumeralToken lead value rest) :
    Opens limit depth (blanks ++ (lead ++ [])) (ofLeaf none (some value)) (some value) rest := by
  rintro divided divisor following rfl hd
  refine ⟨.number value divisor, ?_, by rw [Term.reading]⟩
  rw [List.append_nil, List.append_assoc]
  exact .number hb hn hd

theorem opens_name {token : List Char} (hb : IsBlanks blanks)
    (hl : LeadText lead leading (gap ++ (token ++ rest))) (hg : IsBlanks gap)
    (ht : NameToken token rest) :
    Opens limit depth (blanks ++ (lead ++ (gap ++ token)))
      (ofLeaf (some (String.ofList token)) leading) leading rest := by
  rintro divided divisor following rfl hd
  refine ⟨.name leading (String.ofList token) divisor, ?_, by rw [Term.reading]⟩
  simp only [List.append_assoc]
  exact .name hb hl hg ht hd

theorem opens_group {inner trail : List Char} {members : List Term} {formulas : List Formula}
    {trailing : Option Float} (hb : IsBlanks blanks)
    (hl : LeadText lead leading (gap ++ '(' :: (inner ++ (trail ++ rest)))) (hg : IsBlanks gap)
    (he : EnclosedText '+' inner members (trail ++ rest)) (ht : TrailText trail trailing rest)
    (hone : leading = none ∨ trailing = none)
    (hf : allReadings limit depth members = .ok formulas) (hw : ofGroup formulas = .ok formula) :
    Opens limit depth (blanks ++ (lead ++ (gap ++ '(' :: (inner ++ trail)))) formula
      (leading.or trailing) rest := by
  rintro divided divisor following rfl hd
  refine ⟨.group (leading.or trailing) members divisor, ?_, ?_⟩
  · simp only [List.append_assoc, List.cons_append]
    exact .group hb hl hg he ht hone hd
  · rw [Term.reading, hf, ok_bind, hw, ok_bind]

theorem opens_call {token inner : List Char} {arguments : List Term} {formulas : List Formula}
    {function : NamedFunction} (hb : IsBlanks blanks)
    (hl : LeadText lead leading (gap ++ (token ++ '(' :: (inner ++ rest)))) (hg : IsBlanks gap)
    (ht : NameToken token ('(' :: (inner ++ rest))) (he : EnclosedText ',' inner arguments rest)
    (hn : NamedFunction.ofName? (String.ofList token) = some function)
    (hf : allReadings limit depth arguments = .ok formulas)
    (ha : function.checkArity formulas.length = .ok ())
    (hw : ofCall function formulas = .ok formula) :
    Opens limit depth (blanks ++ (lead ++ (gap ++ (token ++ '(' :: inner)))) formula leading
      rest := by
  rintro divided divisor following rfl hd
  refine ⟨.call leading (String.ofList token) arguments divisor, ?_, ?_⟩
  · simp only [List.append_assoc, List.cons_append]
    exact .call hb hl hg ht he hd
  · rw [Term.reading, hn]
    dsimp only
    rw [hf, ok_bind, ha, ok_bind, hw, ok_bind]

theorem enclosedText_of_callOf (hi : item.Reads limit depth) {name : String}
    (h : callOf name item (ask text position) = .ok formula behind) :
    ∃ function inner arguments formulas rest, text = inner ++ rest ∧
      EnclosedText ',' inner arguments rest ∧ behind = ask rest (position + inner.length) ∧
      NamedFunction.ofName? name = some function ∧
      allReadings limit depth arguments = .ok formulas ∧
      function.checkArity formulas.length = .ok () ∧ ofCall function formulas = .ok formula := by
  unfold callOf at h
  cases hn : NamedFunction.ofName? name with
  | none => rw [hn] at h; cases h
  | some function =>
    rw [hn] at h
    obtain ⟨formulas, _, h₁, k₁⟩ := Scan.bind_ok h
    obtain ⟨inner, arguments, rest, rfl, he, rfl, hf⟩ := enclosedText_of_enclosed hi h₁
    obtain ⟨⟨⟩, _, h₂, k₂⟩ := Scan.bind_ok k₁
    obtain ⟨ha, rfl⟩ := Scan.lift_ok h₂
    obtain ⟨hw, rfl⟩ := Scan.lift_ok k₂
    exact ⟨function, inner, arguments, formulas, rest, rfl, he, rfl, rfl, hf, ha, hw⟩

theorem opens_of_operand (hi : item.Reads limit depth) (hb : IsBlanks blanks)
    (hl : LeadText lead leading rest)
    (hnum : ∀ value, leading = some value → star = false → NumeralToken lead value rest)
    (ha : Ahead rest place cursor)
    (h : operand item start leading star cursor = .ok (formula, factor) behind) :
    ∃ core last, rest = core ++ last ∧ Ahead last (place + core.length) behind ∧
      Opens limit depth (blanks ++ (lead ++ core)) formula factor last := by
  obtain ⟨found, between, h₁, k₁⟩ := Scan.bind_ok h
  rw [ha.accept] at h₁
  cases found with
  | true =>
    obtain ⟨gap, inside, rfl, hg, rfl⟩ := Scan.accept_found h₁
    obtain ⟨formulas, _, h₂, k₂⟩ := Scan.bind_ok k₁
    obtain ⟨inner, members, last, rfl, he, rfl, hf⟩ := enclosedText_of_enclosed hi h₂
    obtain ⟨_, _, h₃, k₃⟩ := Scan.bind_ok k₂
    obtain ⟨trail, trailing, last, rfl, ht, hone, rfl, hb'⟩ := trailText_of_groupFactor h₃
    obtain ⟨whole, _, h₄, k₄⟩ := Scan.bind_ok k₃
    obtain ⟨hw, rfl⟩ := Scan.lift_ok h₄
    cases k₄
    refine ⟨gap ++ '(' :: (inner ++ trail), last, ?_, ?_, opens_group hb hl hg he ht hone hf hw⟩
    · simp only [List.append_assoc, List.cons_append]
    · have hp : place + (gap ++ '(' :: (inner ++ trail)).length =
          place + gap.length + 1 + inner.length + trail.length := by
        simp only [List.length_append, List.length_cons]
        omega
      rw [hp]
      exact hb'
  | false =>
    obtain ⟨gap, inside, rfl, hg, rfl, _⟩ := Scan.accept_missed h₁
    obtain ⟨name, _, h₂, k₂⟩ := Scan.bind_ok k₁
    cases name with
    | some name =>
      obtain ⟨token, last, rfl, rfl, rfl, ht⟩ := Name.nameToken_of_scan h₂
      obtain ⟨current, _, h₃, k₃⟩ := Scan.bind_ok k₂
      obtain ⟨rfl, rfl⟩ := Scan.current_ok h₃
      rw [Cursor.current_ask] at k₃
      split at k₃
      · rename_i hc
        obtain ⟨others, rfl⟩ := List.head?_eq_some_iff.mp hc
        obtain ⟨_, _, h₄, k₄⟩ := Scan.bind_ok k₃
        cases h₄
        rw [Cursor.advance_ask_cons] at k₄
        obtain ⟨whole, _, h₅, k₅⟩ := Scan.bind_ok k₄
        cases k₅
        obtain ⟨function, inner, arguments, formulas, last, rfl, he, rfl, hn, hf, hc, hw⟩ :=
          enclosedText_of_callOf hi h₅
        refine ⟨gap ++ (token ++ '(' :: inner), last, ?_, ?_,
          opens_call hb hl hg ht he hn hf hc hw⟩
        · simp only [List.append_assoc, List.cons_append]
        · have hp : place + (gap ++ (token ++ '(' :: inner)).length =
              place + gap.length + token.length + 1 + inner.length := by
            simp only [List.length_append, List.length_cons]
            omega
          rw [hp]
          exact .refl _ _
      · cases k₃
        refine ⟨gap ++ token, last, by rw [List.append_assoc], ?_, opens_name hb hl hg ht⟩
        rw [List.length_append, ← Nat.add_assoc]
        exact .refl _ _
    | none =>
      obtain ⟨rfl, _⟩ := Name.none_of_scan h₂
      dsimp only at k₂
      split at k₂
      · rename_i hc
        cases k₂
        obtain ⟨value, rfl⟩ : ∃ value, leading = some value := by
          cases leading with
          | none => simp at hc
          | some value => exact ⟨value, rfl⟩
        have hs : star = false := by simpa using hc
        exact ⟨[], gap ++ inside, rfl, .of_gap hg (.refl _ _), opens_number hb (hnum value rfl hs)⟩
      · obtain ⟨_, _, _, k₃⟩ := Scan.bind_ok k₂
        cases k₃

theorem termText_of_termOf (hi : item.Reads limit depth)
    (h : termOf item (ask text position) = .ok formula behind) :
    ∃ used term rest, text = used ++ rest ∧ TermText used term rest ∧
      Ahead rest (position + used.length) behind ∧
      term.reading limit (depth + 1) = .ok formula := by
  obtain ⟨_, opened, h₁, k₁⟩ := Scan.bind_ok h
  obtain ⟨start, _, h₂, k₂⟩ := Scan.bind_ok k₁
  cases h₂
  obtain ⟨leading, between, h₃, k₃⟩ := Scan.bind_ok k₂
  obtain ⟨star, cursor, h₄, k₄⟩ := Scan.bind_ok k₃
  obtain ⟨blanks, lead, rest, rfl, hb, hl, ha, hnum⟩ :=
    leadText_of_scan ⟨opened, between, h₁, h₃, h₄⟩
  obtain ⟨⟨whole, factor⟩, _, h₅, k₅⟩ := Scan.bind_ok k₄
  obtain ⟨core, last, rfl, ha', ho⟩ := opens_of_operand hi hb hl hnum ha h₅
  obtain ⟨divisor, _, h₆, k₆⟩ := Scan.bind_ok k₅
  obtain ⟨hf, rfl⟩ := Scan.lift_ok k₆
  have hdiv := (Scan.bind_congr (ha'.accept '/')).symm.trans h₆
  obtain ⟨divided, following, rfl, hd, ha''⟩ := divisorText_of_divisor hdiv
  obtain ⟨term, ht, hr⟩ := ho divided divisor following rfl hd
  refine ⟨_, term, following, ?_, ht, ?_, hr.trans hf⟩
  · simp only [List.append_assoc]
  · have hp : position + (blanks ++ (lead ++ core) ++ divided).length =
        position + blanks.length + lead.length + core.length + divided.length := by
      simp only [List.length_append]
      omega
    rw [hp]
    exact ha''

/-! ## What is passed -/

theorem callOf_enclosedText (hi : item.Reads limit depth) {name : String} {inner : List Char}
    {arguments : List Term} (h : EnclosedText ',' inner arguments rest) :
    Yields (callOf name item (ask (inner ++ rest) position))
      (Term.called limit depth name arguments) (ask rest (position + inner.length)) := by
  unfold callOf Term.called
  cases NamedFunction.ofName? name with
  | none => exact ⟨_, rfl⟩
  | some function =>
    refine (enclosed_enclosedText (.inr rfl) hi h).bind ?_
    intro formulas _
    refine (Yields.lift (function.checkArity _)).bind ?_
    intro _ _
    exact .lift (ofCall function formulas)

theorem operand_number (item : Item (List Char) Formula) (start : Nat) {value : Float}
    (ha : Ahead rest place cursor) (hr : AfterOperand rest) :
    ∃ behind, operand item start (some value) false cursor =
        .ok (ofLeaf none (some value), some value) behind ∧ Ahead rest place behind := by
  have hn : ∀ c, (rest.dropWhile Text.isBlank).head? = some c → Text.isNameStart c = false := by
    intro c hc
    rcases hr c hc with rfl | rfl | rfl | rfl <;> decide
  have hp : next rest ≠ some '(' := hr.next_ne (by decide)
  refine ⟨_, ?_, .dropWhile rest place⟩
  refine (Scan.bind_of_ok ((ha.accept '(').trans (Scan.accept_missing hp))).trans ?_
  exact Scan.bind_of_ok (Name.scan_none hn)

theorem accept_name {token : List Char} {wanted : Char} (hg : IsBlanks gap) (ht : NameText token)
    (hw : Text.isNameStart wanted = false) (ha : Ahead (gap ++ (token ++ rest)) place cursor) :
    Scan.accept wanted cursor = .ok false (ask (token ++ rest) (place + gap.length)) := by
  obtain ⟨first, others, rfl, hf, _⟩ := ht
  have hstop : ∀ c, (first :: others ++ rest).head? = some c → Text.isBlank c = false := by
    intro c hc
    cases hc
    exact isBlank_of_isNameStart hf
  have hn : next (gap ++ (first :: others ++ rest)) ≠ some wanted := by
    rw [List.cons_append, next_gap_cons hg (isBlank_of_isNameStart hf)]
    intro e
    cases e
    rw [hw] at hf
    cases hf
  rw [ha.accept, Scan.accept_missing hn, takeWhile_run hg hstop, dropWhile_run hg hstop]

theorem operand_name (item : Item (List Char) Formula) (start : Nat) (leading : Option Float)
    (star : Bool) {token : List Char} (hg : IsBlanks gap) (ht : NameText token)
    (hr : AfterOperand rest) (ha : Ahead (gap ++ (token ++ rest)) place cursor) :
    operand item start leading star cursor =
      .ok (ofLeaf (some (String.ofList token)) leading, leading)
        (ask rest (place + gap.length + token.length)) := by
  have hs : ∀ c, rest.head? = some c → Text.isNameChar c = false :=
    fun c => hr.endsToken.isNameChar_eq_false
  have hp : rest.head? ≠ some '(' := by
    intro hc
    obtain ⟨others, rfl⟩ := List.head?_eq_some_iff.mp hc
    exact hr.next_ne (by decide) (next_cons (by decide) others)
  refine (Scan.bind_of_ok (accept_name hg ht (by decide) ha)).trans ?_
  refine (Scan.bind_of_ok (Name.scan_nameText ht hs)).trans ?_
  refine (Scan.bind_of_ok Scan.current_ask).trans (Scan.of_eq _ (if_neg hp) rfl)

theorem operand_group (start : Nat) (star : Bool) (hi : item.Reads limit depth)
    {inner trail : List Char} {members : List Term} {trailing : Option Float} (hg : IsBlanks gap)
    (he : EnclosedText '+' inner members (trail ++ rest)) (ht : TrailText trail trailing rest)
    (hone : leading = none ∨ trailing = none) (hr : AfterOperand rest)
    (ha : Ahead (gap ++ '(' :: (inner ++ (trail ++ rest))) place cursor) :
    ∃ behind, Ahead rest (place + gap.length + 1 + inner.length + trail.length) behind ∧
      Yields (operand item start leading star cursor)
        (do
          let whole ← ofGroup (← allReadings limit depth members)
          return (whole, leading.or trailing)) behind := by
  obtain ⟨behind, hf, hb⟩ := groupFactor_trailText ht hone hr
  refine ⟨behind, hb, ?_⟩
  refine .bind_ok ((ha.accept '(').trans (Scan.accept_gap hg (by decide))) ?_
  refine (enclosed_enclosedText (.inl rfl) hi he).bind fun formulas _ => .bind_ok hf ?_
  exact (Yields.lift (ofGroup formulas)).bind fun whole _ => .pure (whole, leading.or trailing)

theorem operand_call (start : Nat) (leading : Option Float) (star : Bool)
    (hi : item.Reads limit depth) {token inner : List Char} {arguments : List Term}
    (hg : IsBlanks gap) (ht : NameText token) (he : EnclosedText ',' inner arguments rest)
    (ha : Ahead (gap ++ (token ++ '(' :: (inner ++ rest))) place cursor) :
    Yields (operand item start leading star cursor)
      (do return (← Term.called limit depth (String.ofList token) arguments, leading))
      (ask rest (place + gap.length + token.length + 1 + inner.length)) := by
  have hs : ∀ c, ('(' :: (inner ++ rest)).head? = some c → Text.isNameChar c = false :=
    fun c => (endsToken_symbol (by decide) _).isNameChar_eq_false
  refine .bind_ok (accept_name hg ht (by decide) ha) ?_
  refine .bind_ok (Name.scan_nameText ht hs) ?_
  refine .bind_ok Scan.current_ask ?_
  refine .bind_ok (Scan.advance_ask_cons _) ?_
  exact (callOf_enclosedText hi he).bind fun whole _ => .pure (whole, leading)

theorem termOf_of_leads (item : Item (List Char) Formula) (hl : Leads cursor leading star behind) :
    ∃ start, termOf item cursor = (operand item start leading star >>= fun x =>
      divisor >>= fun divided => Scan.lift (applyFactors x.1 x.2 divided)) behind := by
  obtain ⟨opened, between, h₁, h₂, h₃⟩ := hl
  refine ⟨opened.position, (Scan.bind_of_ok h₁).trans ?_⟩
  have hp : Scan.position opened = .ok opened.position opened := rfl
  exact (Scan.bind_of_ok hp).trans ((Scan.bind_of_ok h₂).trans (Scan.bind_of_ok h₃))

theorem yields_divided {divided : List Char} {divisor : Option Float}
    (hd : DivisorText divided divisor following) (haf : AfterTerm following)
    (ha : Ahead (divided ++ following) place cursor) :
    ∃ behind, Ahead following (place + divided.length) behind ∧
      ∀ formula factor, Yields ((Formula.divisor >>= fun divided =>
        Scan.lift (applyFactors formula factor divided)) cursor)
        (applyFactors formula factor divisor) behind := by
  obtain ⟨behind, h, hb⟩ := divisor_divisorText place hd haf
  refine ⟨behind, hb, fun formula factor => .bind_ok ?_ (.lift _)⟩
  exact (Scan.bind_congr (ha.accept '/')).trans h

theorem termOf_termText (hi : item.Reads limit depth) {term : Term} (position : Nat)
    (h : TermText text term following) (haf : AfterTerm following) :
    ∃ behind, Ahead following (position + text.length) behind ∧
      Yields (termOf item (ask (text ++ following) position)) (term.reading limit (depth + 1))
        behind := by
  cases h with
  | @number blanks token divided _ value _ hb ht hd =>
    have hr := hd.afterOperand haf
    obtain ⟨between, hl, ha⟩ := lead_numeral position hb ht.1
      hr.endsToken.startsFactor_eq_false (hr.next_ne (by decide))
    obtain ⟨start, hs⟩ := termOf_of_leads item hl
    obtain ⟨cursor, ho, hac⟩ := operand_number item start ha hr
    obtain ⟨behind, hb', hy⟩ := yields_divided hd haf hac
    refine ⟨behind, hb'.at_place ?_, ?_⟩
    · simp only [List.length_append]
      omega
    · simp only [List.append_assoc]
      rw [hs, Term.reading]
      exact .bind_ok ho (hy _ _)
  | @name blanks lead gap token divided _ leading _ hb hl hg ht hd =>
    have hr := hd.afterOperand haf
    obtain ⟨star, between, hl', ha⟩ := lead_leadText position hb hl hg
      (startsOperand_name ht.1 _)
    obtain ⟨start, hs⟩ := termOf_of_leads item hl'
    have ho := operand_name item start leading star hg ht.1 hr ha
    obtain ⟨behind, hb', hy⟩ := yields_divided hd haf
      (.refl _ (position + blanks.length + lead.length + gap.length + token.length))
    refine ⟨behind, hb'.at_place ?_, ?_⟩
    · simp only [List.length_append]
      omega
    · simp only [List.append_assoc]
      rw [hs, Term.reading]
      exact .bind_ok ho (hy _ _)
  | @group blanks lead gap inner trail divided _ leading trailing _ members hb hl hg he ht hone
      hd =>
    have hr := hd.afterOperand haf
    obtain ⟨star, between, hl', ha⟩ := lead_leadText position hb hl hg
      ⟨'(', _, rfl, .inl rfl⟩
    obtain ⟨start, hs⟩ := termOf_of_leads item hl'
    obtain ⟨cursor, hac, ho⟩ := operand_group start star hi hg he ht hone hr ha
    obtain ⟨behind, hb', hy⟩ := yields_divided hd haf hac
    refine ⟨behind, hb'.at_place ?_, ?_⟩
    · simp only [List.length_append, List.length_cons]
      omega
    · have hall := ho.bind fun x _ => hy x.1 x.2
      simp only [List.append_assoc, List.cons_append]
      rw [hs, Term.reading]
      simpa only [bind_assoc, pure_bind] using hall
  | @call blanks lead gap token inner divided _ leading _ arguments hb hl hg ht he hd =>
    obtain ⟨star, between, hl', ha⟩ := lead_leadText position hb hl hg
      (startsOperand_name ht.1 _)
    obtain ⟨start, hs⟩ := termOf_of_leads item hl'
    have ho := operand_call start leading star hi hg ht.1 he ha
    obtain ⟨behind, hb', hy⟩ := yields_divided hd haf
      (.refl _ (position + blanks.length + lead.length + gap.length + token.length + 1 +
        inner.length))
    refine ⟨behind, hb'.at_place ?_, ?_⟩
    · simp only [List.length_append, List.length_cons]
      omega
    · have hall := ho.bind fun x _ => hy x.1 x.2
      simp only [List.append_assoc, List.cons_append]
      rw [hs, Term.reading_call]
      simpa only [bind_assoc, pure_bind] using hall

/-! ## Where a term could have been completed -/

/-- A name makes a term of whatever may stand in front of an operand. -/
theorem viable_lead (hb : IsBlanks blanks) (hl : LeadText lead leading (gap ++ rest))
    (hg : IsBlanks gap) : ViableTerm (blanks ++ (lead ++ gap)) := by
  refine ⟨['x'], .name leading "x" none, ?_⟩
  intro following haf
  have hx : NameText ['x'] := ⟨'x', [], rfl, by decide +kernel, by simp⟩
  have hf := startsFactor_gap hg (hx.startsFactor_eq_false following)
  have hn : NameToken ['x'] ([] ++ following) :=
    maximal_name hx fun _ => haf.endsToken.isNameChar_eq_false
  have ht := TermText.name hb (hl.before hf) hg hn .none
  simpa only [List.append_assoc, List.append_nil] using ht

theorem viable_group {used : List Char} (hb : IsBlanks blanks)
    (hl : LeadText lead leading (gap ++ '(' :: rest)) (hg : IsBlanks gap)
    (hv : ViableEnclosed '+' used) : ViableTerm (blanks ++ (lead ++ (gap ++ '(' :: used))) := by
  obtain ⟨completion, members, he⟩ := hv
  refine ⟨completion, .group (leading.or none) members none, ?_⟩
  intro following haf
  have hf : startsFactor (gap ++ '(' :: (used ++ completion ++ following)).head? = false :=
    startsFactor_gap hg rfl
  have hd : DivisorText [] none following := .none
  have htrail : TrailText [] none ([] ++ following) := .none
  have ht := TermText.group hb (hl.before hf) hg (he following) htrail (.inr rfl) hd
  simpa only [List.append_assoc, List.append_nil, List.cons_append] using ht

theorem viable_call {token used : List Char} (hb : IsBlanks blanks)
    (hl : LeadText lead leading (gap ++ (token ++ '(' :: rest))) (hg : IsBlanks gap)
    (ht : NameText token) (hv : ViableEnclosed ',' used) :
    ViableTerm (blanks ++ (lead ++ (gap ++ (token ++ '(' :: used)))) := by
  obtain ⟨completion, arguments, he⟩ := hv
  refine ⟨completion, .call leading (String.ofList token) arguments none, ?_⟩
  intro following haf
  have hs : EndsToken ('(' :: (used ++ completion ++ following)) := endsToken_symbol (by decide) _
  have hf := startsFactor_gap hg
    (ht.startsFactor_eq_false ('(' :: (used ++ completion ++ following)))
  have hd : DivisorText [] none following := .none
  have ht := TermText.call hb (hl.before hf) hg
    (maximal_name ht fun _ => hs.isNameChar_eq_false) (he following) hd
  simpa only [List.append_assoc, List.append_nil, List.cons_append] using ht

theorem onlyFaults_ofGroup (members : List Formula) (factor : Option Float) :
    OnlyFaults Fault.OfEvaluation
      (Scan.lift (ofGroup members) >>= fun whole => pure (whole, factor)) :=
  .bind (Scan.onlyFaults_lift (ofEvaluation_ofGroup members)) fun _ => Scan.onlyFaults_pure _

theorem onlyFaults_ofCall (function : NamedFunction) (arguments : List Formula) :
    OnlyFaults Fault.OfEvaluation (Scan.lift (function.checkArity arguments.length) >>= fun _ =>
      Scan.lift (ofCall function arguments)) :=
  .bind (Scan.onlyFaults_lift (function.ofEvaluation_checkArity _)) fun _ =>
    Scan.onlyFaults_lift (ofEvaluation_ofCall function arguments)

theorem viable_of_callOf (hi : item.Reads limit depth) {name : String}
    (h : callOf name item (ask text position) = .error fault behind) (hm : fault.IsMisplaced) :
    StopsAt (ViableEnclosed ',') text position behind := by
  unfold callOf at h
  cases hn : NamedFunction.ofName? name with
  | none =>
    rw [hn] at h
    cases h
    exact hm.elim
  | some function =>
    rw [hn] at h
    rcases Scan.bind_error h with h₁ | ⟨formulas, _, _, k₁⟩
    · exact viable_of_enclosed (.inr rfl) hi h₁ hm
    · exact absurd hm (onlyFaults_ofCall function formulas _ _ _ k₁).not_isMisplaced

theorem viable_of_operand (hi : item.Reads limit depth) (hb : IsBlanks blanks)
    (hl : LeadText lead leading rest) (ha : Ahead rest place cursor)
    (h : operand item start leading star cursor = .error fault behind) (hm : fault.IsMisplaced) :
    StopsAt (fun more => ViableTerm (blanks ++ (lead ++ more))) rest place behind := by
  rcases Scan.bind_error h with h₁ | ⟨found, _, h₁, k₁⟩
  · cases h₁
  rw [ha.accept] at h₁
  cases found with
  | true =>
    obtain ⟨gap, inside, rfl, hg, rfl⟩ := Scan.accept_found h₁
    rcases Scan.bind_error k₁ with h₂ | ⟨formulas, _, _, k₂⟩
    · obtain ⟨used, last, rfl, rfl, hv⟩ := viable_of_enclosed (.inl rfl) hi h₂ hm
      refine ⟨gap ++ '(' :: used, last, ?_, ?_, viable_group hb hl hg hv⟩
      · simp only [List.append_assoc, List.cons_append]
      · rw [List.length_append, List.length_cons]
        congr 1
        omega
    · rcases Scan.bind_error k₂ with h₃ | ⟨factor, _, _, k₃⟩
      · exact absurd hm (onlyFaults_groupFactor _ _ _ h₃).not_isMisplaced
      · exact absurd hm (onlyFaults_ofGroup formulas factor _ _ _ k₃).not_isMisplaced
  | false =>
    obtain ⟨gap, inside, rfl, hg, rfl, _⟩ := Scan.accept_missed h₁
    rcases Scan.bind_error k₁ with h₂ | ⟨name, _, h₂, k₂⟩
    · have hkind : OnlyFaults (fun _ => False) (Name.scan : Scan (List Char) (Option String)) :=
        Name.onlyFaults_scan
      exact (hkind _ _ _ h₂).elim
    cases name with
    | some name =>
      obtain ⟨token, last, rfl, rfl, rfl, ht⟩ := Name.nameToken_of_scan h₂
      rcases Scan.bind_error k₂ with h₃ | ⟨current, _, h₃, k₃⟩
      · cases h₃
      obtain ⟨rfl, rfl⟩ := Scan.current_ok h₃
      rw [Cursor.current_ask] at k₃
      split at k₃
      · rename_i hc
        obtain ⟨others, rfl⟩ := List.head?_eq_some_iff.mp hc
        rcases Scan.bind_error k₃ with h₄ | ⟨_, _, h₄, k₄⟩
        · cases h₄
        cases h₄
        rw [Cursor.advance_ask_cons] at k₄
        rcases Scan.bind_error k₄ with h₅ | ⟨_, _, _, k₅⟩
        · obtain ⟨used, last, rfl, rfl, hv⟩ := viable_of_callOf hi h₅ hm
          refine ⟨gap ++ (token ++ '(' :: used), last, ?_, ?_, viable_call hb hl hg ht.1 hv⟩
          · simp only [List.append_assoc, List.cons_append]
          · rw [List.length_append, List.length_append, List.length_cons]
            congr 1
            omega
        · cases k₅
      · cases k₃
    | none =>
      obtain ⟨rfl, _⟩ := Name.none_of_scan h₂
      dsimp only at k₂
      split at k₂
      · cases k₂
      · cases k₂
        exact ⟨gap, inside, rfl, rfl, viable_lead hb hl hg⟩

theorem viable_of_termOf (hi : item.Reads limit depth)
    (h : termOf item (ask text position) = .error fault behind) (hm : fault.IsMisplaced) :
    StopsAt ViableTerm text position behind := by
  rcases Scan.bind_error h with h₁ | ⟨_, opened, h₁, k₁⟩
  · cases h₁
  rcases Scan.bind_error k₁ with h₂ | ⟨start, _, h₂, k₂⟩
  · cases h₂
  cases h₂
  rcases Scan.bind_error k₂ with h₃ | ⟨leading, between, h₃, k₃⟩
  · exact absurd hm (Number.onlyFaults_scan _ _ _ h₃).not_isMisplaced
  rcases Scan.bind_error k₃ with h₄ | ⟨star, cursor, h₄, k₄⟩
  · cases leading <;> cases h₄
  obtain ⟨blanks, lead, rest, rfl, hb, hl, ha, _⟩ :=
    leadText_of_scan ⟨opened, between, h₁, h₃, h₄⟩
  rcases Scan.bind_error k₄ with h₅ | ⟨⟨whole, factor⟩, _, _, k₅⟩
  · obtain ⟨more, last, rfl, rfl, hv⟩ := viable_of_operand hi hb hl ha h₅ hm
    refine ⟨blanks ++ (lead ++ more), last, ?_, ?_, hv⟩
    · simp only [List.append_assoc]
    · simp only [List.length_append, Nat.add_assoc]
  · rcases Scan.bind_error k₅ with h₆ | ⟨divided, _, _, k₆⟩
    · exact absurd hm (onlyFaults_divisor _ _ _ h₆).not_isMisplaced
    · have hkind := ofEvaluation_applyFactors whole factor divided
      exact absurd hm (hkind _ (Scan.lift_error k₆)).not_isMisplaced

/-! ## Every depth -/

theorem reads_term (limit depth : Nat) :
    (term limit depth : Item (List Char) Formula).Reads limit depth := by
  induction depth with
  | zero =>
    refine ⟨?_, ?_, ?_, ?_⟩
    · intro text position
      exact Scan.sequential_throw (Scan.placed_of_calculation trivial)
    · intro text position formula behind h
      cases h
    · intro text term following position _ _
      refine ⟨_, .refl _ _, ?_⟩
      rw [Term.reading]
      exact ⟨_, rfl⟩
    · intro text position fault behind h hm
      cases h
      exact hm.elim
  | succ depth ih =>
    exact ⟨sequential_termOf ih, termText_of_termOf ih, termOf_termText ih, viable_of_termOf ih⟩

end Marksheet.Formula
