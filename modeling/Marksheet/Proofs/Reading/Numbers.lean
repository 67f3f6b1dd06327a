import Marksheet.Proofs.Grammar.Terms
import Marksheet.Proofs.Reading.Numerals

/-!
# Marksheet.Proofs.Reading.Numbers

Reading numbers agrees with the grammar of numbers, with exponents and without.

* `numeralToken_of_scan`, `numberToken_of_scan` : what is passed is a number, as long as possible.
* `scan_numeralText`, `scan_numberText` : a number in front of what cannot go on with it is passed.
* `scan_none`, `none_of_scan` : where no number starts nothing is passed.
* `sequential_scan`, `onlyFaults_scan` : as for numerals.
-/

namespace Marksheet.Number

open Cursor (ask)
open Scan (Sequential)
open Formula (startsFactor)
open Grammar

variable {text rest : List Char} {position place : Nat} {exponents : Bool}

theorem scan_plain {numeral : Numeral}
    (h : Numeral.scan (ask text position) = .ok numeral (ask rest place))
    (hm : (exponents && isMarker rest.head?) = false) :
    scan exponents (ask text position) =
      (if numeral.isEmpty then pure none
        else do return some (← Scan.lift (numeral.valueAt position)) : Scan _ _)
        (ask rest place) := by
  refine (Scan.bind_of_ok Scan.position_ask).trans ((Scan.bind_of_ok h).trans ?_)
  refine (Scan.bind_of_ok Scan.current_ask).trans (Scan.of_eq _ ?_ rfl)
  rw [hm]
  rfl

theorem scan_marked {numeral : Numeral}
    (h : Numeral.scan (ask text position) = .ok numeral (ask rest place))
    (hm : isMarker rest.head? = true) :
    scan true (ask text position) =
      (if numeral.isEmpty then throw (.leadingExponent position)
        else do return some (← scanExponent position numeral) : Scan _ _)
        (ask rest place) := by
  refine (Scan.bind_of_ok Scan.position_ask).trans ((Scan.bind_of_ok h).trans ?_)
  refine (Scan.bind_of_ok Scan.current_ask).trans (Scan.of_eq _ ?_ rfl)
  rw [hm]
  rfl

/-! ## What has been passed -/

theorem none_of_scan {behind : Cursor (List Char)}
    (h : scan exponents (ask text position) = .ok none behind) : behind = ask text position := by
  obtain ⟨start, _, h₁, h⟩ := Scan.bind_ok h
  cases h₁
  obtain ⟨numeral, between, h₂, h⟩ := Scan.bind_ok h
  obtain ⟨rest, rfl, rfl, _, _⟩ := Numeral.numeral_of_scan h₂
  obtain ⟨current, _, h₃, h⟩ := Scan.bind_ok h
  obtain ⟨_, rfl⟩ := Scan.current_ok h₃
  split at h
  · split at h
    · cases h
    · obtain ⟨_, _, _, h⟩ := Scan.bind_ok h
      cases h
  · split at h
    · rename_i he
      cases h
      rw [Numeral.text_of_isEmpty he]
      rfl
    · obtain ⟨_, _, _, h⟩ := Scan.bind_ok h
      cases h

theorem value_of_lift {numeral : Numeral} {value : Float} {cursor behind : Cursor (List Char)}
    (h : Scan.lift (numeral.valueAt position) cursor = .ok value behind) :
    numeral.value? = some value ∧ behind = cursor := by
  obtain ⟨hv, hb⟩ := Scan.lift_ok h
  exact ⟨Numeral.valueAt_eq_ok_iff.mp hv, hb⟩

theorem numeralToken_of_scan {value : Float} {behind : Cursor (List Char)}
    (h : scan false (ask text position) = .ok (some value) behind) :
    ∃ token rest, text = token ++ rest ∧ behind = ask rest (position + token.length) ∧
      NumeralToken token value rest := by
  obtain ⟨start, _, h₁, h⟩ := Scan.bind_ok h
  cases h₁
  obtain ⟨numeral, between, h₂, h⟩ := Scan.bind_ok h
  obtain ⟨rest, rfl, rfl, hd, hs⟩ := Numeral.numeral_of_scan h₂
  obtain ⟨current, _, h₃, h⟩ := Scan.bind_ok h
  obtain ⟨_, rfl⟩ := Scan.current_ok h₃
  simp only [Bool.false_and, Bool.false_eq_true, if_false] at h
  split at h
  · cases h
  · obtain ⟨v, _, h₄, h⟩ := Scan.bind_ok h
    obtain ⟨hv, rfl⟩ := value_of_lift h₄
    cases h
    exact ⟨_, rest, rfl, rfl, maximal_numeral ⟨numeral, hd, rfl, hv⟩ hs⟩

theorem numberToken_of_scan {value : Float} {behind : Cursor (List Char)}
    (h : scan true (ask text position) = .ok (some value) behind) :
    ∃ token rest, text = token ++ rest ∧ behind = ask rest (position + token.length) ∧
      NumberToken token value rest := by
  obtain ⟨start, _, h₁, h⟩ := Scan.bind_ok h
  cases h₁
  obtain ⟨numeral, between, h₂, h⟩ := Scan.bind_ok h
  obtain ⟨rest, rfl, rfl, hd, hs⟩ := Numeral.numeral_of_scan h₂
  obtain ⟨current, _, h₃, h⟩ := Scan.bind_ok h
  obtain ⟨rfl, rfl⟩ := Scan.current_ok h₃
  rw [Cursor.current_ask, Bool.true_and] at h
  split at h
  · rename_i hm
    split at h
    · cases h
    · obtain ⟨v, _, h₄, h⟩ := Scan.bind_ok h
      cases h
      obtain ⟨_, _, h₅, h⟩ := Scan.bind_ok h₄
      obtain ⟨marker, others, rfl⟩ := exists_of_isMarker hm
      cases h₅
      obtain ⟨mantissa, _, h₆, h⟩ := Scan.bind_ok h
      obtain ⟨hv, rfl⟩ := value_of_lift h₆
      obtain ⟨place, _, h₇, h⟩ := Scan.bind_ok h
      cases h₇
      obtain ⟨exponent, _, h₈, h⟩ := Scan.bind_ok h
      rw [Cursor.advance_ask_cons] at h₈
      obtain ⟨last, rfl, rfl, hd', hs'⟩ := Numeral.numeral_of_scan h₈
      obtain ⟨power, _, h₉, h⟩ := Scan.bind_ok h
      obtain ⟨hp, rfl⟩ := value_of_lift h₉
      cases h
      refine ⟨numeral.text ++ marker :: exponent.text, last, ?_, ?_, ?_⟩
      · rw [List.append_assoc, List.cons_append]
      · rw [List.length_append, List.length_cons]
        congr 1
        omega
      · exact maximal_scaled ⟨numeral, hd, rfl, hv⟩ hm ⟨exponent, hd', rfl, hp⟩ hs'
  · rename_i hm
    split at h
    · cases h
    · obtain ⟨v, _, h₄, h⟩ := Scan.bind_ok h
      obtain ⟨hv, rfl⟩ := value_of_lift h₄
      cases h
      exact ⟨_, rest, rfl, rfl, maximal_plain ⟨numeral, hd, rfl, hv⟩ hs (by simpa using hm)⟩

/-! ## What is passed -/

theorem scan_none (hp : text.head? ≠ some '+') (hm : text.head? ≠ some '-')
    (hf : startsFactor text.head? = false) :
    scan false (ask text position) = .ok none (ask text position) :=
  scan_plain (Numeral.scan_empty hp hm hf) rfl

theorem lift_valueAt {numeral : Numeral} {value : Float} {cursor : Cursor (List Char)}
    (h : numeral.value? = some value) :
    Scan.lift (numeral.valueAt position) cursor = .ok value cursor := by
  rw [Numeral.valueAt_eq_ok_iff.mpr h]
  rfl

/-- A numeral is passed as a number when no exponent is allowed or no marker follows. -/
theorem scan_numeralText {token : List Char} {value : Float} (h : NumeralText token value)
    (hs : startsFactor rest.head? = false) (hm : (exponents && isMarker rest.head?) = false) :
    scan exponents (ask (token ++ rest) position) =
      .ok (some value) (ask rest (position + token.length)) := by
  obtain ⟨numeral, hd, rfl, hv⟩ := h
  rw [scan_plain (Numeral.scan_numeral hd (Numeral.digits_ne_nil hv) hs) hm,
    Numeral.isEmpty_eq_false hv, if_neg (by simp)]
  exact Scan.bind_of_ok (lift_valueAt hv)

theorem scan_ask_marker {mantissa : List Char} {marker : Char} {value : Float}
    (h : NumeralText mantissa value) (hk : isMarker (some marker) = true) :
    scan true (ask (mantissa ++ marker :: rest) position) =
      (do
        let exponent ← Numeral.scan
        let power ← Scan.lift (exponent.valueAt (position + mantissa.length + 1))
        return some (scale value power) : Scan (List Char) (Option Float))
        (ask rest (position + mantissa.length + 1)) := by
  obtain ⟨numeral, hd, rfl, hv⟩ := h
  have hscan : Numeral.scan (ask (numeral.text ++ marker :: rest) position) =
      .ok numeral (ask (marker :: rest) (position + numeral.text.length)) :=
    Numeral.scan_numeral hd (Numeral.digits_ne_nil hv) (startsFactor_eq_false_of_isMarker hk)
  rw [scan_marked hscan hk, Numeral.isEmpty_eq_false hv, if_neg (by simp)]
  simp only [scanExponent, bind_assoc, pure_bind]
  refine (Scan.bind_of_ok (Scan.advance_ask_cons _)).trans ?_
  exact (Scan.bind_of_ok (lift_valueAt hv)).trans (Scan.bind_of_ok Scan.position_ask)

theorem scan_scaled {mantissa exponent : List Char} {marker : Char} {value power : Float}
    (h : NumeralText mantissa value) (hk : isMarker (some marker) = true)
    (he : NumeralText exponent power) (hs : startsFactor rest.head? = false) :
    scan true (ask (mantissa ++ marker :: (exponent ++ rest)) position) =
      .ok (some (scale value power))
        (ask rest (position + (mantissa ++ marker :: exponent).length)) := by
  obtain ⟨numeral, hd, rfl, hv⟩ := he
  rw [scan_ask_marker h hk,
    Scan.bind_of_ok (Numeral.scan_numeral hd (Numeral.digits_ne_nil hv) hs),
    Scan.bind_of_ok (lift_valueAt hv), List.length_append, List.length_cons]
  simp only [Nat.add_assoc, Nat.add_comm 1]
  rfl

theorem scan_numberText {token : List Char} {value : Float} (h : NumberText token value)
    (hs : startsFactor rest.head? = false) (hm : isMarker rest.head? = false) :
    scan true (ask (token ++ rest) position) =
      .ok (some value) (ask rest (position + token.length)) := by
  cases h with
  | plain h => exact scan_numeralText h hs hm
  | scaled h hk he =>
    rw [List.append_assoc, List.cons_append]
    exact scan_scaled h hk he hs

/-! ## From left to right -/

theorem sequential_scanExponent {numeral : Numeral} {start : Nat} (hs : start ≤ position)
    (hm : isMarker text.head? = true) : Sequential (scanExponent start numeral) text position := by
  obtain ⟨marker, others, rfl⟩ := exists_of_isMarker hm
  refine (Scan.sequential_advance_cons _).bind ?_
  intro _ used _ _ _
  refine (Numeral.sequential_valueAt (by omega)).bind fun _ used _ _ _ => .bind_position ?_
  refine Numeral.sequential_scan.bind ?_
  intro _ used _ _ _
  refine (Numeral.sequential_valueAt (by omega)).bind ?_
  intro _ used _ _ _
  exact Scan.sequential_pure _

theorem sequential_scan : Sequential (scan exponents) text position := by
  refine .bind_position (Numeral.sequential_scan.bind ?_)
  intro numeral used rest _ _
  refine .bind_current ?_
  split
  · rename_i hm
    rw [Bool.and_eq_true] at hm
    split
    · exact Scan.sequential_throw (Scan.placed_of_le rfl (Nat.le_add_right _ _) id)
    · exact (sequential_scanExponent (Nat.le_add_right _ _) hm.2).bind fun _ _ _ _ _ =>
        Scan.sequential_pure _
  · split
    · exact Scan.sequential_pure _
    · exact (Numeral.sequential_valueAt (Nat.le_add_right _ _)).bind fun _ _ _ _ _ =>
        Scan.sequential_pure _

theorem onlyFaults_scanExponent {start : Nat} {mantissa : Numeral} :
    Scan.OnlyFaults Fault.OfNumber (scanExponent start mantissa : Scan (List Char) Float) := by
  refine .bind Scan.onlyFaults_advance fun _ => .bind Numeral.onlyFaults_valueAt ?_
  intro value
  refine .bind Scan.onlyFaults_position fun _ => .bind Numeral.onlyFaults_scan ?_
  intro exponent
  exact .bind Numeral.onlyFaults_valueAt fun _ => Scan.onlyFaults_pure _

theorem onlyFaults_scan :
    Scan.OnlyFaults Fault.OfNumber (scan exponents : Scan (List Char) (Option Float)) := by
  refine .bind Scan.onlyFaults_position fun _ => .bind Numeral.onlyFaults_scan ?_
  intro numeral
  refine .bind Scan.onlyFaults_current ?_
  intro current
  split
  · split
    · exact Scan.onlyFaults_throw trivial
    · exact .bind onlyFaults_scanExponent fun _ => Scan.onlyFaults_pure _
  · split
    · exact Scan.onlyFaults_pure _
    · exact .bind Numeral.onlyFaults_valueAt fun _ => Scan.onlyFaults_pure _

end Marksheet.Number
