import Marksheet.Numeral
import Marksheet.Word

/-!
# Marksheet.Proofs.Reading.Simulation

A scan learns of its feed only the current character and the place, and moves on only by passing a
character. So it does the same on two feeds, of whatever kind, whose cursors agree in these and stay
so related behind each character that is passed.

* `Cursor.Simulation` : what is asked of such a relation.
* `Scan.Simulates` : two scans end alike, with cursors that are related again.
* `simulates_scan` of numbers, names, truth words and quoted texts.
-/

namespace Marksheet

variable {σ τ α β : Type}

/-- Related cursors show the same character and the same place, and so they do further on. -/
structure Cursor.Simulation [Feed σ] [Feed τ] (related : Cursor σ → Cursor τ → Prop) : Prop where
  current : ∀ {cursor copy}, related cursor copy → copy.current = cursor.current
  position : ∀ {cursor copy}, related cursor copy → copy.position = cursor.position
  advance : ∀ {cursor copy}, related cursor copy → related cursor.advance copy.advance

namespace Scan

/-- The same answer or the same fault, with related cursors. -/
inductive Alike (related : Cursor σ → Cursor τ → Prop) :
    EStateM.Result Fault (Cursor σ) α → EStateM.Result Fault (Cursor τ) α → Prop where
  | ok {x : α} {behind : Cursor σ} {copy : Cursor τ} : related behind copy →
      Alike related (.ok x behind) (.ok x copy)
  | error {fault : Fault} {behind : Cursor σ} {copy : Cursor τ} : related behind copy →
      Alike related (.error fault behind) (.error fault copy)

/-- From related cursors the two scans end alike. -/
def Simulates (related : Cursor σ → Cursor τ → Prop) (scan : Scan σ α) (other : Scan τ α) : Prop :=
  ∀ cursor copy, related cursor copy → Alike related (scan cursor) (other copy)

variable {related : Cursor σ → Cursor τ → Prop} {scan : Scan σ α} {other : Scan τ α}
  {next : α → Scan σ β} {otherNext : α → Scan τ β}

theorem simulates_pure (x : α) : Simulates related (pure x) (pure x) :=
  fun _ _ h => .ok h

theorem simulates_throw (fault : Fault) :
    Simulates related (throw fault : Scan σ α) (throw fault) :=
  fun _ _ h => .error h

theorem simulates_lift (r : Except Fault α) : Simulates related (lift r) (lift r) := by
  cases r with
  | ok x => exact simulates_pure x
  | error fault => exact simulates_throw fault

theorem Simulates.bind (hs : Simulates related scan other)
    (hn : ∀ x, Simulates related (next x) (otherNext x)) :
    Simulates related (scan >>= next) (other >>= otherNext) := by
  intro cursor copy h
  have hend := hs cursor copy h
  simp only [Bind.bind, EStateM.bind]
  generalize scan cursor = result at hend
  generalize other copy = again at hend
  cases hend with
  | ok hb => exact hn _ _ _ hb
  | error hb => exact .error hb

/-! ## Single steps -/

variable [Feed σ] [Feed τ] (hr : Cursor.Simulation related)
include hr

theorem simulates_current : Simulates related current current := by
  intro cursor copy h
  have he : current copy = .ok cursor.current copy := by
    rw [← hr.current h]
    rfl
  rw [he]
  exact .ok h

theorem simulates_position : Simulates related Scan.position Scan.position := by
  intro cursor copy h
  have he : Scan.position copy = .ok cursor.position copy := by
    rw [← hr.position h]
    rfl
  rw [he]
  exact .ok h

theorem simulates_atEnd : Simulates related atEnd atEnd := by
  intro cursor copy h
  have he : atEnd copy = .ok cursor.atEnd copy := by
    rw [Cursor.atEnd, ← hr.current h]
    rfl
  rw [he]
  exact .ok h

theorem simulates_advance : Simulates related advance advance :=
  fun _ _ h => .ok (hr.advance h)

theorem simulates_pop : Simulates related pop pop := by
  intro cursor copy h
  have he : pop copy = .ok cursor.current copy.advance := by
    rw [← hr.current h]
    rfl
  rw [he]
  exact .ok (hr.advance h)

theorem related_takeWhile (p : Char → Bool) {cursor : Cursor σ} {copy : Cursor τ}
    (h : related cursor copy) :
    (copy.takeWhile p).1 = (cursor.takeWhile p).1 ∧
      related (cursor.takeWhile p).2 (copy.takeWhile p).2 := by
  have hc := hr.current h
  fun_induction Cursor.takeWhile p cursor generalizing copy with
  | case1 cursor hnone =>
    rw [hnone] at hc
    rw [Cursor.takeWhile_of_none hc]
    exact ⟨rfl, h⟩
  | case2 cursor c hsome hp others =>
    rename_i ih
    rw [hsome] at hc
    rw [Cursor.takeWhile_of_some hc, if_pos hp]
    have hnext := hr.advance h
    obtain ⟨hrun, hlast⟩ := ih hnext (hr.current hnext)
    exact ⟨congrArg (c :: ·) hrun, hlast⟩
  | case3 cursor c hsome hp =>
    rw [hsome] at hc
    rw [Cursor.takeWhile_of_some hc, if_neg hp]
    exact ⟨rfl, h⟩

theorem related_rest {cursor : Cursor σ} {copy : Cursor τ} (h : related cursor copy) :
    copy.rest = cursor.rest := by
  have hall : ∀ text : List Char, text.takeWhile (fun _ => true) = text := by
    intro text
    induction text with
    | nil => rfl
    | cons c text ih => rw [List.takeWhile_cons, if_pos rfl, ih]
  have hrun := (related_takeWhile hr (fun _ => true) h).1
  rwa [Cursor.takeWhile_eq, Cursor.takeWhile_eq, hall, hall] at hrun

theorem simulates_takeWhile (p : Char → Bool) :
    Simulates related (takeWhile p) (takeWhile p) := by
  intro cursor copy h
  obtain ⟨hrun, hlast⟩ := related_takeWhile hr p h
  have he : takeWhile p copy = .ok (cursor.takeWhile p).1 (copy.takeWhile p).2 := by
    rw [← hrun]
    rfl
  rw [he]
  exact .ok hlast

theorem simulates_skipBlanks : Simulates related skipBlanks skipBlanks :=
  fun _ _ h => .ok (related_takeWhile hr Text.isBlank h).2

theorem simulates_accept (wanted : Char) :
    Simulates related (accept wanted) (accept wanted) := by
  intro cursor copy h
  have hskip : related cursor.skipBlanks copy.skipBlanks :=
    (related_takeWhile hr Text.isBlank h).2
  have he : copy.skipBlanks.current = cursor.skipBlanks.current := hr.current hskip
  by_cases hc : cursor.skipBlanks.current = some wanted
  · have hcursor : cursor.accept wanted = (true, cursor.skipBlanks.advance) := if_pos hc
    have hcopy : copy.accept wanted = (true, copy.skipBlanks.advance) := if_pos (he.trans hc)
    rw [accept_eq_ok hcursor, accept_eq_ok hcopy]
    exact .ok (hr.advance hskip)
  · have hcursor : cursor.accept wanted = (false, cursor.skipBlanks) := if_neg hc
    have hcopy : copy.accept wanted = (false, copy.skipBlanks) := if_neg (by rwa [he])
    rw [accept_eq_ok hcursor, accept_eq_ok hcopy]
    exact .ok hskip

theorem simulates_expect (wanted : Char) : Simulates related (expect wanted) (expect wanted) := by
  refine (simulates_accept hr wanted).bind ?_
  intro found
  cases found with
  | true => exact simulates_pure ()
  | false => exact (simulates_position hr).bind fun _ => simulates_throw _

end Scan

/-! ## Literals -/

section Literals

open Scan

variable [Feed σ] [Feed τ] {related : Cursor σ → Cursor τ → Prop}
  (hr : Cursor.Simulation related)
include hr

theorem Numeral.simulates_scanSign : Simulates related scanSign scanSign := by
  refine (simulates_current hr).bind ?_
  intro current
  split
  · exact (simulates_advance hr).bind fun _ => simulates_pure _
  · exact (simulates_advance hr).bind fun _ => simulates_pure _
  · exact simulates_pure none

theorem Numeral.simulates_scanFraction : Simulates related scanFraction scanFraction := by
  refine (simulates_current hr).bind ?_
  intro current
  split
  · refine (simulates_advance hr).bind fun _ => (simulates_takeWhile hr _).bind ?_
    intro digits
    refine (simulates_current hr).bind ?_
    intro behind
    split
    · exact (simulates_position hr).bind fun _ =>
        (simulates_throw _).bind fun _ => simulates_pure _
    · exact simulates_pure _
  · exact simulates_pure none

theorem Numeral.simulates_scan : Simulates related Numeral.scan Numeral.scan :=
  (simulates_scanSign hr).bind fun _ => (simulates_takeWhile hr _).bind fun _ =>
    (simulates_scanFraction hr).bind fun _ => simulates_pure _

theorem Number.simulates_scanExponent (start : Nat) (mantissa : Numeral) :
    Simulates related (scanExponent start mantissa) (scanExponent start mantissa) := by
  refine (simulates_advance hr).bind fun _ => (simulates_lift _).bind ?_
  intro value
  refine (simulates_position hr).bind fun _ => (Numeral.simulates_scan hr).bind ?_
  intro exponent
  exact (simulates_lift _).bind fun _ => simulates_pure _

theorem Number.simulates_scan (exponents : Bool) :
    Simulates related (Number.scan exponents) (Number.scan exponents) := by
  refine (simulates_position hr).bind fun start => (Numeral.simulates_scan hr).bind ?_
  intro mantissa
  refine (simulates_current hr).bind ?_
  intro current
  split
  · split
    · exact simulates_throw _
    · exact (simulates_scanExponent hr _ _).bind fun _ => simulates_pure _
  · split
    · exact simulates_pure none
    · exact (simulates_lift _).bind fun _ => simulates_pure _

theorem Name.simulates_scan : Simulates related Name.scan Name.scan := by
  refine (simulates_current hr).bind ?_
  intro current
  split
  · split
    · exact (simulates_takeWhile hr _).bind fun _ => simulates_pure _
    · exact simulates_pure none
  · exact simulates_pure none

theorem Truth.simulates_scanWord (word : List Char) :
    Simulates related (scanWord word) (scanWord word) := by
  induction word with
  | nil => exact simulates_pure ()
  | cons wanted others ih =>
    refine (simulates_current hr).bind ?_
    intro current
    split
    · split
      · exact (simulates_advance hr).bind fun _ => ih
      · exact (simulates_position hr).bind fun _ => simulates_throw _
    · exact (simulates_position hr).bind fun _ => simulates_throw _

theorem Truth.simulates_scan : Simulates related Truth.scan Truth.scan := by
  refine (simulates_current hr).bind ?_
  intro current
  split
  · exact (simulates_scanWord hr _).bind fun _ => simulates_pure _
  · exact (simulates_scanWord hr _).bind fun _ => simulates_pure _
  · exact simulates_pure none

theorem Quoted.related_body (quote : Char) {cursor : Cursor σ} {copy : Cursor τ}
    (h : related cursor copy) :
    (body quote copy).1 = (body quote cursor).1 ∧
      related (body quote cursor).2 (body quote copy).2 := by
  induction hn : cursor.size using Nat.strongRecOn generalizing cursor copy with
  | _ n ih =>
    subst hn
    have hc := hr.current h
    have hnext := hr.advance h
    have hc' := hr.current hnext
    rw [body_eq quote cursor, body_eq quote copy, hc, hc']
    cases hcurrent : cursor.current with
    | none => exact ⟨rfl, h⟩
    | some c =>
      have hlt := Cursor.size_advance_lt hcurrent
      dsimp only
      by_cases hquote : c = quote
      · rw [if_pos hquote, if_pos hquote]
        exact ⟨rfl, hnext⟩
      rw [if_neg hquote, if_neg hquote]
      by_cases hslash : c = '\\'
      · rw [if_pos hslash, if_pos hslash]
        cases hescaped : cursor.advance.current with
        | none => exact ⟨rfl, hnext⟩
        | some escaped =>
          have hlt' := Nat.lt_trans (Cursor.size_advance_lt hescaped) hlt
          obtain ⟨htext, hlast⟩ := ih _ hlt' (hr.advance hnext) rfl
          exact ⟨congrArg (Option.map _) htext, hlast⟩
      · rw [if_neg hslash, if_neg hslash]
        obtain ⟨htext, hlast⟩ := ih _ hlt hnext rfl
        exact ⟨congrArg (Option.map _) htext, hlast⟩

theorem Quoted.simulates_body (quote : Char) :
    Simulates related (modifyGet (body quote)) (modifyGet (body quote)) := by
  intro cursor copy h
  obtain ⟨htext, hlast⟩ := related_body hr quote h
  have he : (modifyGet (body quote) : Scan τ (Option (List Char))) copy =
      .ok (body quote cursor).1 (body quote copy).2 := by
    rw [← htext]
    rfl
  rw [he]
  exact .ok hlast

theorem Quoted.simulates_scan : Simulates related Quoted.scan Quoted.scan := by
  refine (simulates_current hr).bind ?_
  intro current
  split
  · split
    · refine (simulates_position hr).bind fun start => (simulates_advance hr).bind fun _ => ?_
      refine (simulates_body hr _).bind ?_
      intro text
      split
      · exact simulates_pure _
      · exact simulates_throw _
    · exact simulates_pure none
  · exact simulates_pure none

end Literals

end Marksheet
