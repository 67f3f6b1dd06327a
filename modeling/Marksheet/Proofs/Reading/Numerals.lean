import Marksheet.Proofs.Grammar.Terms
import Marksheet.Proofs.Reading.Sequential

/-!
# Marksheet.Proofs.Reading.Numerals

Reading numerals agrees with the grammar of numerals.

* `numeral_of_scan` : what is passed is a numeral, and nothing behind it goes on with it.
* `scan_numeral`, `scan_empty` : a numeral in front of what cannot go on with it is passed, and
  where none starts nothing is.
* `sequential_scan`, `onlyFaults_scan` : reading a numeral looks one character ahead, and its faults
  are those of numbers.
-/

namespace Marksheet

open Cursor (ask)
open Scan (Sequential)
open Formula (startsFactor)
open Grammar

namespace Numeral

variable {text rest : List Char} {position : Nat}

/-! ## The parts of a numeral -/

theorem scanSign_ask_sign (sign : Sign) :
    scanSign (ask (sign.char :: rest) position) = .ok (some sign) (ask rest (position + 1)) := by
  cases sign <;> rfl

theorem scanSign_ask_none (hp : text.head? ≠ some '+') (hm : text.head? ≠ some '-') :
    scanSign (ask text position) = .ok none (ask text position) := by
  refine (Scan.bind_of_ok Scan.current_ask).trans (Scan.of_eq (pure none) ?_ rfl)
  split
  · rename_i h; exact absurd h hp
  · rename_i h; exact absurd h hm
  · rfl

theorem sign_of_scan {sign : Option Sign} {behind : Cursor (List Char)}
    (h : scanSign (ask text position) = .ok sign behind) :
    ∃ rest, text = signText sign ++ rest ∧
      behind = ask rest (position + (signText sign).length) := by
  by_cases hp : text.head? = some '+'
  · obtain ⟨rest, rfl⟩ := List.head?_eq_some_iff.mp hp
    rw [show '+' = Sign.plus.char from rfl, scanSign_ask_sign] at h
    cases h
    exact ⟨rest, rfl, rfl⟩
  by_cases hm : text.head? = some '-'
  · obtain ⟨rest, rfl⟩ := List.head?_eq_some_iff.mp hm
    rw [show '-' = Sign.minus.char from rfl, scanSign_ask_sign] at h
    cases h
    exact ⟨rest, rfl, rfl⟩
  · rw [scanSign_ask_none hp hm] at h
    cases h
    exact ⟨text, rfl, rfl⟩

theorem scanFraction_ask_none (h : text.head? ≠ some '.') :
    scanFraction (ask text position) = .ok none (ask text position) := by
  rw [scanFraction, Scan.bind_of_ok Scan.current_ask, if_neg h]
  rfl

theorem scanFraction_ask_point {digits : List Char} (hd : ∀ c ∈ digits, c.isDigit = true)
    (hs : ∀ c, rest.head? = some c → c.isDigit = false) :
    scanFraction (ask ('.' :: (digits ++ rest)) position) =
      if rest.head? = some '.' then
        .error (.secondPoint (position + 1 + digits.length))
          (ask rest (position + 1 + digits.length))
      else .ok (some digits) (ask rest (position + 1 + digits.length)) := by
  rw [scanFraction, Scan.bind_of_ok Scan.current_ask, List.head?_cons, if_pos rfl,
    Scan.bind_of_ok (Scan.advance_ask_cons _), Scan.bind_of_ok (Scan.takeWhile_ask _),
    takeWhile_run hd hs, dropWhile_run hd hs, Scan.bind_of_ok Scan.current_ask]
  split
  · exact (Scan.bind_of_ok Scan.position_ask).trans (Scan.bind_of_error rfl)
  · rfl

theorem fraction_of_scan {fraction : Option (List Char)} {behind : Cursor (List Char)}
    (ht : ∀ c, text.head? = some c → c.isDigit = false)
    (h : scanFraction (ask text position) = .ok fraction behind) :
    ∃ rest, text = fractionText fraction ++ rest ∧
      behind = ask rest (position + (fractionText fraction).length) ∧
      (∀ c ∈ fraction.getD [], c.isDigit = true) ∧ startsFactor rest.head? = false := by
  have hstop : ∀ rest : List Char, (∀ c, rest.head? = some c → c.isDigit = false) →
      rest.head? ≠ some '.' → startsFactor rest.head? = false := by
    intro rest hd hp
    cases rest with
    | nil => rfl
    | cons c rest =>
      have hc : c ≠ '.' := fun e => hp (by rw [e]; rfl)
      simp [startsFactor, hd c rfl, hc]
  by_cases hp : text.head? = some '.'
  · obtain ⟨rest, rfl⟩ := List.head?_eq_some_iff.mp hp
    have hd := takeWhile_all Char.isDigit rest
    have hs := dropWhile_stops Char.isDigit rest
    rw [← List.takeWhile_append_dropWhile (p := Char.isDigit) (l := rest),
      scanFraction_ask_point hd hs] at h
    split at h
    · cases h
    · rename_i hnp
      cases h
      refine ⟨rest.dropWhile Char.isDigit, ?_, ?_, hd, hstop _ hs hnp⟩
      · rw [fractionText, List.cons_append, List.takeWhile_append_dropWhile]
      · rw [fractionText, List.length_cons, Nat.add_assoc, Nat.add_comm 1]
  · rw [scanFraction_ask_none hp] at h
    cases h
    exact ⟨text, rfl, rfl, by simp, hstop _ ht hp⟩

/-! ## A numeral -/

/-- What is passed is a numeral, possibly an empty one, and nothing behind it goes on with it. -/
theorem numeral_of_scan {numeral : Numeral} {behind : Cursor (List Char)}
    (h : scan (ask text position) = .ok numeral behind) :
    ∃ rest, text = numeral.text ++ rest ∧ behind = ask rest (position + numeral.text.length) ∧
      numeral.IsDecimal ∧ startsFactor rest.head? = false := by
  obtain ⟨sign, afterSign, h₁, h⟩ := Scan.bind_ok h
  obtain ⟨whole, afterWhole, h₂, h⟩ := Scan.bind_ok h
  obtain ⟨fraction, afterFraction, h₃, h⟩ := Scan.bind_ok h
  cases h
  obtain ⟨rest, rfl, rfl⟩ := sign_of_scan h₁
  rw [Scan.takeWhile_ask] at h₂
  cases h₂
  have hd := takeWhile_all Char.isDigit rest
  obtain ⟨last, hl, rfl, hf, hs⟩ := fraction_of_scan (dropWhile_stops Char.isDigit rest) h₃
  refine ⟨last, ?_, ?_, ?_, hs⟩
  · rw [Numeral.text, List.append_assoc, List.append_assoc, ← hl, List.takeWhile_append_dropWhile]
  · simp only [Numeral.text, List.length_append, Nat.add_assoc]
  · intro c hc
    rcases List.mem_append.mp hc with hc | hc
    · exact hd c hc
    · exact hf c hc

theorem scan_of_parts {sign : Option Sign} {whole : List Char} {fraction : Option (List Char)}
    (hs : scanSign (ask (signText sign ++ (whole ++ (fractionText fraction ++ rest))) position) =
      .ok sign (ask (whole ++ (fractionText fraction ++ rest))
        (position + (signText sign).length)))
    (hw : ∀ c ∈ whole, c.isDigit = true) (hf : ∀ c ∈ fraction.getD [], c.isDigit = true)
    (hr : startsFactor rest.head? = false) :
    scan (ask ((Numeral.mk sign whole fraction).text ++ rest) position) =
      .ok ⟨sign, whole, fraction⟩
        (ask rest (position + (Numeral.mk sign whole fraction).text.length)) := by
  have hrd : ∀ c, rest.head? = some c → c.isDigit = false := by
    intro c hc
    rw [hc] at hr
    simp only [startsFactor, Bool.or_eq_false_iff] at hr
    exact hr.1
  have hrp : rest.head? ≠ some '.' := by
    intro hc
    rw [hc] at hr
    exact absurd hr (by decide)
  rw [scan, Numeral.text, List.append_assoc, List.append_assoc, Scan.bind_of_ok hs]
  cases fraction with
  | none =>
    rw [fractionText, List.nil_append, Scan.bind_of_ok (Scan.takeWhile_ask _),
      takeWhile_run hw hrd, dropWhile_run hw hrd, Scan.bind_of_ok (scanFraction_ask_none hrp)]
    simp only [List.append_nil, List.length_append, Nat.add_assoc]
    rfl
  | some digits =>
    have hf : ∀ c ∈ digits, c.isDigit = true := hf
    have hp : ∀ c, ('.' :: (digits ++ rest)).head? = some c → c.isDigit = false := by
      intro c hc
      cases hc
      decide
    rw [fractionText, List.cons_append, Scan.bind_of_ok (Scan.takeWhile_ask _),
      takeWhile_run hw hp, dropWhile_run hw hp,
      Scan.bind_of_ok ((scanFraction_ask_point hf hrd).trans (if_neg hrp))]
    simp only [List.length_append, List.length_cons, Nat.add_assoc, Nat.add_comm 1]
    rfl

/-- A numeral with a digit is passed in front of what cannot go on with it. -/
theorem scan_numeral {numeral : Numeral} (hd : numeral.IsDecimal) (hn : numeral.digits ≠ [])
    (hr : startsFactor rest.head? = false) :
    scan (ask (numeral.text ++ rest) position) =
      .ok numeral (ask rest (position + numeral.text.length)) := by
  obtain ⟨sign, whole, fraction⟩ := numeral
  refine scan_of_parts ?_ (fun c hc => hd c (List.mem_append_left _ hc))
    (fun c hc => hd c (List.mem_append_right _ hc)) hr
  cases sign with
  | some sign => exact scanSign_ask_sign sign
  | none =>
    refine scanSign_ask_none ?_ ?_
    all_goals
      intro hc
      cases whole with
      | cons c whole =>
        cases hc
        exact absurd (hd _ List.mem_cons_self) (by decide)
      | nil =>
        cases fraction with
        | some digits => cases hc
        | none => exact hn rfl

theorem scan_empty (hp : text.head? ≠ some '+') (hm : text.head? ≠ some '-')
    (hf : startsFactor text.head? = false) :
    scan (ask text position) = .ok ⟨none, [], none⟩ (ask text position) := by
  have hs : scanSign (ask (signText none ++ ([] ++ (fractionText none ++ text))) position) =
      .ok none (ask ([] ++ (fractionText none ++ text)) (position + (signText none).length)) :=
    scanSign_ask_none hp hm
  exact scan_of_parts hs (by simp) (by simp) hf

theorem text_of_isEmpty {numeral : Numeral} (h : numeral.isEmpty = true) : numeral.text = [] := by
  obtain ⟨sign, whole, fraction⟩ := numeral
  simp only [isEmpty, Bool.and_eq_true, Option.isNone_iff_eq_none, List.isEmpty_iff] at h
  obtain ⟨⟨rfl, rfl⟩, rfl⟩ := h
  rfl

theorem digits_ne_nil {numeral : Numeral} {value : Float} (h : numeral.value? = some value) :
    numeral.digits ≠ [] := by
  intro hd
  rw [value?, hd] at h
  cases h

theorem isEmpty_eq_false {numeral : Numeral} {value : Float} (h : numeral.value? = some value) :
    numeral.isEmpty = false := by
  cases he : numeral.isEmpty with
  | false => rfl
  | true =>
    obtain ⟨sign, whole, fraction⟩ := numeral
    simp only [isEmpty, Bool.and_eq_true, Option.isNone_iff_eq_none, List.isEmpty_iff] at he
    obtain ⟨⟨rfl, rfl⟩, rfl⟩ := he
    cases h

theorem valueAt_eq_ok_iff {numeral : Numeral} {value : Float} :
    numeral.valueAt position = .ok value ↔ numeral.value? = some value := by
  unfold valueAt
  cases numeral.value? <;> simp

theorem noDigit_of_valueAt {numeral : Numeral} {fault : Fault}
    (h : numeral.valueAt position = .error fault) : fault = .noDigit position := by
  unfold valueAt at h
  cases hv : numeral.value? with
  | some value => rw [hv] at h; cases h
  | none => rw [hv] at h; cases h; rfl

/-! ## From left to right -/

theorem sequential_scanSign : Sequential scanSign text position := by
  refine .bind_current ?_
  split
  · rename_i h
    obtain ⟨rest, rfl⟩ := List.head?_eq_some_iff.mp h
    exact (Scan.sequential_advance_cons _).bind fun _ _ _ _ _ => Scan.sequential_pure _
  · rename_i h
    obtain ⟨rest, rfl⟩ := List.head?_eq_some_iff.mp h
    exact (Scan.sequential_advance_cons _).bind fun _ _ _ _ _ => Scan.sequential_pure _
  · exact Scan.sequential_pure _

theorem sequential_scanFraction : Sequential scanFraction text position := by
  refine .bind_current ?_
  split
  · rename_i h
    obtain ⟨rest, rfl⟩ := List.head?_eq_some_iff.mp h
    refine (Scan.sequential_advance_cons _).bind ?_
    intro _ _ _ _ _
    refine (Scan.sequential_takeWhile _).bind fun _ _ _ _ _ => .bind_current ?_
    split
    · refine .bind_position ?_
      refine (Scan.sequential_throw ?_).bind fun _ _ _ _ _ => Scan.sequential_pure _
      exact Scan.placed_of_le rfl (Nat.le_refl _) id
    · exact Scan.sequential_pure _
  · exact Scan.sequential_pure _

theorem sequential_scan : Sequential scan text position :=
  sequential_scanSign.bind fun _ _ _ _ _ =>
    (Scan.sequential_takeWhile _).bind fun _ _ _ _ _ =>
      sequential_scanFraction.bind fun _ _ _ _ _ => Scan.sequential_pure _

theorem onlyFaults_scanSign :
    Scan.OnlyFaults Fault.OfNumber (scanSign : Scan (List Char) (Option Sign)) := by
  refine .bind Scan.onlyFaults_current ?_
  intro current
  split
  · exact .bind Scan.onlyFaults_advance fun _ => Scan.onlyFaults_pure _
  · exact .bind Scan.onlyFaults_advance fun _ => Scan.onlyFaults_pure _
  · exact Scan.onlyFaults_pure none

theorem onlyFaults_scanFraction :
    Scan.OnlyFaults Fault.OfNumber (scanFraction : Scan (List Char) (Option (List Char))) := by
  refine .bind Scan.onlyFaults_current ?_
  intro current
  split
  · refine .bind Scan.onlyFaults_advance fun _ => .bind (Scan.onlyFaults_takeWhile _) ?_
    intro digits
    refine .bind Scan.onlyFaults_current ?_
    intro current
    split
    · exact .bind Scan.onlyFaults_position fun _ =>
        .bind (Scan.onlyFaults_throw trivial) fun _ => Scan.onlyFaults_pure _
    · exact Scan.onlyFaults_pure _
  · exact Scan.onlyFaults_pure none

theorem onlyFaults_scan :
    Scan.OnlyFaults Fault.OfNumber (scan : Scan (List Char) Numeral) := by
  refine .bind onlyFaults_scanSign fun _ => .bind (Scan.onlyFaults_takeWhile _) ?_
  intro whole
  exact .bind onlyFaults_scanFraction fun _ => Scan.onlyFaults_pure _

/-! ## The value of a numeral -/

theorem sequential_valueAt {numeral : Numeral} {start : Nat} (hs : start ≤ position) :
    Sequential (Scan.lift (numeral.valueAt start)) text position := by
  cases hv : numeral.valueAt start with
  | ok value => exact Scan.sequential_pure value
  | error fault =>
    obtain rfl := noDigit_of_valueAt hv
    exact Scan.sequential_throw (Scan.placed_of_le rfl hs id)

theorem onlyFaults_valueAt {numeral : Numeral} {start : Nat} :
    Scan.OnlyFaults Fault.OfNumber
      (Scan.lift (numeral.valueAt start) : Scan (List Char) Float) := by
  refine Scan.onlyFaults_lift ?_
  intro fault h
  obtain rfl := noDigit_of_valueAt h
  exact trivial

end Numeral

end Marksheet
