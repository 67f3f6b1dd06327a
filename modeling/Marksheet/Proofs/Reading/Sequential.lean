import Marksheet.Scan
import Marksheet.Proofs.Outcome
import Marksheet.Proofs.Text.Runs

/-!
# Marksheet.Proofs.Reading.Sequential

Scans of a text. A cursor over a text is fixed by the characters still to be passed and the number
of those passed (`Cursor.ask`), so each step of a scan is an equation between the two.

* `Scan.Sequential` : the scan passes a beginning of the text, depends on no more than that and the
  one character behind it, and reports a fault at or before the place where it stands.
* `Sequential.bind` : it holds of a sequence when it holds of the steps.
* `Scan.OnlyFaults` : every fault of the scan is of one kind.
* `Scan.Yields` : the scan answers or faults as a computation does that reads nothing.
-/

namespace Marksheet

variable {α β : Type}

/-- The faults of a character that stands where it cannot. -/
def Fault.IsMisplaced : Fault → Prop
  | .unexpected _ _ => True
  | .expected _ _ => True
  | _ => False

def Fault.OfNumber : Fault → Prop
  | .numberExpected _ | .secondPoint _ | .leadingExponent _ | .noDigit _ => True
  | _ => False

theorem Fault.OfNumber.not_isMisplaced {fault : Fault} (h : fault.OfNumber) :
    ¬ fault.IsMisplaced := by
  cases fault <;> first | exact id | cases h

theorem Fault.OfNumber.position?_ne_none {fault : Fault} (h : fault.OfNumber) :
    fault.position? ≠ none := by
  cases fault <;> first | exact Option.some_ne_none _ | cases h

theorem Cursor.position?_unexpected_ne_none (cursor : Cursor (List Char)) :
    cursor.unexpected.position? ≠ none := by
  unfold Cursor.unexpected
  split <;> exact Option.some_ne_none _

theorem Fault.OfEvaluation.not_isMisplaced {fault : Fault} (h : fault.OfEvaluation) :
    ¬ fault.IsMisplaced := by
  cases fault <;> first | exact id | cases h

namespace Cursor

variable (text : List Char) (position : Nat)

@[simp] theorem current_ask : (ask text position).current = text.head? := by
  cases text <;> rfl

@[simp] theorem atEnd_ask : (ask text position).atEnd = text.isEmpty := by
  cases text <;> rfl

theorem advance_ask_cons (c : Char) :
    (ask (c :: text) position).advance = ask text (position + 1) := rfl

theorem takeWhile_ask (p : Char → Bool) :
    (ask text position).takeWhile p =
      (text.takeWhile p, ask (text.dropWhile p) (position + (text.takeWhile p).length)) := by
  induction text generalizing position with
  | nil => rw [takeWhile]; rfl
  | cons c text ih =>
    rw [takeWhile]
    simp only [List.takeWhile_cons, List.dropWhile_cons]
    split
    · rename_i h; cases h
    · rename_i d h
      cases h
      split
      · rw [advance_ask_cons, ih, List.length_cons, Nat.add_assoc, Nat.add_comm 1]
      · rfl

end Cursor

namespace Scan

open Cursor (ask)

variable {scan : Scan (List Char) α} {next : α → Scan (List Char) β} {text rest : List Char}
  {position place : Nat}

theorem bind_of_ok {σ : Type} {scan : Scan σ α} {next : α → Scan σ β} {cursor behind : Cursor σ}
    {x : α} (h : scan cursor = .ok x behind) : (scan >>= next) cursor = next x behind := by
  simp only [bind, EStateM.bind, h]

theorem bind_of_error {σ : Type} {scan : Scan σ α} {next : α → Scan σ β}
    {cursor behind : Cursor σ} {fault : Fault} (h : scan cursor = .error fault behind) :
    (scan >>= next) cursor = .error fault behind := by
  simp only [bind, EStateM.bind, h]

theorem bind_error {cursor behind : Cursor (List Char)} {fault : Fault}
    (h : (scan >>= next) cursor = .error fault behind) :
    scan cursor = .error fault behind ∨
      ∃ x between, scan cursor = .ok x between ∧ next x between = .error fault behind := by
  simp only [bind, EStateM.bind] at h
  split at h
  · rename_i x between e
    exact .inr ⟨x, between, e, h⟩
  · rename_i e
    cases h
    exact .inl e

theorem lift_ok {r : Except Fault α} {x : α} {cursor behind : Cursor (List Char)}
    (h : lift r cursor = .ok x behind) : r = .ok x ∧ behind = cursor := by
  cases r with
  | ok y => cases h; exact ⟨rfl, rfl⟩
  | error fault => cases h

theorem lift_error {r : Except Fault α} {fault : Fault} {cursor behind : Cursor (List Char)}
    (h : lift r cursor = .error fault behind) : r = .error fault := by
  cases r with
  | ok y => cases h
  | error other => cases h; rfl

theorem of_eq (other : Scan (List Char) α) {cursor : Cursor (List Char)}
    {r : EStateM.Result Fault (Cursor (List Char)) α} (h : scan = other) (hr : other cursor = r) :
    scan cursor = r := h ▸ hr

/-! ## Single steps -/

theorem current_ask : current (ask text position) = .ok text.head? (ask text position) := by
  have h : current (ask text position) = .ok (ask text position).current (ask text position) := rfl
  rw [h, Cursor.current_ask]

theorem position_ask :
    Scan.position (ask text position) = .ok position (ask text position) := by
  have h : Scan.position (ask text position) =
      .ok (ask text position).position (ask text position) := rfl
  rw [h, Cursor.position_ask]

theorem atEnd_ask : atEnd (ask text position) = .ok text.isEmpty (ask text position) := by
  have h : atEnd (ask text position) = .ok (ask text position).atEnd (ask text position) := rfl
  rw [h, Cursor.atEnd_ask]

theorem advance_ask_cons (c : Char) :
    advance (ask (c :: text) position) = .ok () (ask text (position + 1)) := rfl

theorem takeWhile_ask (p : Char → Bool) :
    takeWhile p (ask text position) =
      .ok (text.takeWhile p) (ask (text.dropWhile p) (position + (text.takeWhile p).length)) := by
  have h : takeWhile p (ask text position) =
      .ok ((ask text position).takeWhile p).1 ((ask text position).takeWhile p).2 := rfl
  rw [h, Cursor.takeWhile_ask]

theorem skipBlanks_ask :
    skipBlanks (ask text position) =
      .ok () (ask (text.dropWhile Text.isBlank)
        (position + (text.takeWhile Text.isBlank).length)) := by
  have h : skipBlanks (ask text position) = .ok () (ask text position).skipBlanks := rfl
  rw [h, Cursor.skipBlanks, Cursor.takeWhile_ask]

theorem accept_ask (wanted : Char) :
    accept wanted (ask text position) =
      if (text.dropWhile Text.isBlank).head? = some wanted then
        .ok true (ask (text.dropWhile Text.isBlank).tail
          (position + (text.takeWhile Text.isBlank).length + 1))
      else
        .ok false (ask (text.dropWhile Text.isBlank)
          (position + (text.takeWhile Text.isBlank).length)) := by
  have h : accept wanted (ask text position) =
      .ok ((ask text position).accept wanted).1 ((ask text position).accept wanted).2 := rfl
  rw [h, Cursor.accept, Cursor.skipBlanks, Cursor.takeWhile_ask]
  dsimp only
  rw [Cursor.current_ask]
  split
  · rename_i hc
    obtain ⟨rest, hr⟩ := List.head?_eq_some_iff.mp hc
    rw [hr]
    rfl
  · rfl

/-! ## From left to right, one character ahead -/

/-- A fault names a place that has been reached, if it is not one of calculation; an unexpected
character, and one that is missing, the very place where reading stopped. -/
structure Placed (fault : Fault) (place : Nat) (current : Option Char) : Prop where
  cause : fault.OfCalculation ∨ fault.position? ≠ none
  le : ∀ q, fault.position? = some q → q ≤ place
  unexpected : ∀ found q, fault = .unexpected found q → q = place ∧ current = some found
  expected : ∀ wanted q, fault = .expected wanted q → q = place

theorem placed_of_le {fault : Fault} {current : Option Char} {q : Nat}
    (hf : fault.position? = some q) (hq : q ≤ place) (hm : ¬ fault.IsMisplaced) :
    Placed fault place current where
  cause := .inr (by simp [hf])
  le q' hq' := by
    obtain rfl : q = q' := Option.some.inj (hf.symm.trans hq')
    exact hq
  unexpected found q e := by subst e; exact absurd trivial hm
  expected wanted q e := by subst e; exact absurd trivial hm

theorem not_isMisplaced_of_none {fault : Fault} (h : fault.position? = none) :
    ¬ fault.IsMisplaced := by
  intro hm
  cases fault <;> first | exact hm | cases h

theorem placed_of_calculation {fault : Fault} {current : Option Char} (h : fault.OfCalculation) :
    Placed fault place current where
  cause := .inl h
  le q hq := by rw [h.position?] at hq; cases hq
  unexpected found q e := by subst e; cases h
  expected wanted q e := by subst e; cases h

/-- How a scan ended, and where. -/
def ended (outcome : Except Fault α) (behind : Cursor (List Char)) :
    EStateM.Result Fault (Cursor (List Char)) α :=
  match outcome with
  | .ok x => .ok x behind
  | .error fault => .error fault behind

/-- The scan passes a beginning of the text. On another text that agrees with it so far, and in the
one character behind, it ends in the same way at the same place. -/
def Sequential (scan : Scan (List Char) α) (text : List Char) (position : Nat) : Prop :=
  ∃ outcome used rest, text = used ++ rest ∧
    (∀ fault, outcome = .error fault → Placed fault (position + used.length) rest.head?) ∧
    ∀ other : List Char, other.head? = rest.head? →
      scan (ask (used ++ other) position) = ended outcome (ask other (position + used.length))

namespace Sequential

theorem of_ok (x : α) (used rest : List Char) (ht : text = used ++ rest)
    (h : ∀ other : List Char, other.head? = rest.head? →
      scan (ask (used ++ other) position) = .ok x (ask other (position + used.length))) :
    Sequential scan text position :=
  ⟨.ok x, used, rest, ht, by simp, h⟩

theorem ok (hs : Sequential scan text position) {x : α} {behind : Cursor (List Char)}
    (h : scan (ask text position) = .ok x behind) :
    ∃ used rest, text = used ++ rest ∧ behind = ask rest (position + used.length) := by
  obtain ⟨outcome, used, rest, rfl, _, hall⟩ := hs
  rw [hall rest rfl] at h
  cases outcome with
  | ok y =>
    cases h
    exact ⟨used, rest, rfl, rfl⟩
  | error fault => cases h

/-- What a scan that faults has passed, and that it faults alike on whatever follows. -/
theorem error (hs : Sequential scan text position) {fault : Fault} {behind : Cursor (List Char)}
    (h : scan (ask text position) = .error fault behind) :
    ∃ used rest, text = used ++ rest ∧ behind = ask rest (position + used.length) ∧
      Placed fault (position + used.length) rest.head? ∧
      ∀ other : List Char, other.head? = rest.head? →
        scan (ask (used ++ other) position) =
          .error fault (ask other (position + used.length)) := by
  obtain ⟨outcome, used, rest, rfl, hp, hall⟩ := hs
  have h' := h
  rw [hall rest rfl] at h'
  cases outcome with
  | ok y => cases h'
  | error fault' =>
    cases h'
    exact ⟨used, rest, rfl, rfl, hp fault rfl, hall⟩

theorem bind (hs : Sequential scan text position)
    (hn : ∀ x used rest, text = used ++ rest →
      scan (ask text position) = .ok x (ask rest (position + used.length)) →
      Sequential (next x) rest (position + used.length)) :
    Sequential (scan >>= next) text position := by
  obtain ⟨outcome, used, rest, rfl, hp, hall⟩ := hs
  cases outcome with
  | error fault =>
    refine ⟨.error fault, used, rest, rfl, ?_, ?_⟩
    · intro e he
      cases he
      exact hp fault rfl
    · intro other ho
      exact bind_of_error (hall other ho)
  | ok x =>
    obtain ⟨outcome, more, rest, rfl, hp', hall'⟩ := hn x used rest rfl (hall rest rfl)
    refine ⟨outcome, used ++ more, rest, by rw [List.append_assoc], ?_, ?_⟩
    · rw [List.length_append, ← Nat.add_assoc]
      exact hp'
    · intro other ho
      have hh : (more ++ other).head? = (more ++ rest).head? := by
        rw [List.head?_append, List.head?_append, ho]
      rw [List.append_assoc, bind_of_ok (hall _ hh), List.length_append, ← Nat.add_assoc]
      exact hall' other ho

end Sequential

theorem sequential_pure (x : α) : Sequential (pure x) text position :=
  .of_ok x [] text rfl fun _ _ => rfl

theorem sequential_throw {fault : Fault} (h : Placed fault position text.head?) :
    Sequential (throw fault : Scan (List Char) α) text position :=
  ⟨.error fault, [], text, rfl, fun e he => by cases he; exact h, fun _ _ => rfl⟩

/-- A fault that is told from the current character and the place alone. -/
theorem sequential_throw_get {fault : Cursor (List Char) → Fault}
    (hp : Placed (fault (ask text position)) position text.head?)
    (hsame : ∀ other : List Char, other.head? = text.head? →
      fault (ask other position) = fault (ask text position)) :
    Sequential (do throw (fault (← get)) : Scan (List Char) α) text position := by
  refine ⟨.error (fault (ask text position)), [], text, rfl, ?_, ?_⟩
  · intro e he
    cases he
    exact hp
  · intro other ho
    rw [← hsame other ho]
    rfl

theorem placed_expected (wanted : Char) (current : Option Char) :
    Placed (.expected wanted place) place current where
  cause := .inr (Option.some_ne_none _)
  le q hq := by
    cases hq
    exact Nat.le_refl _
  unexpected found q e := by cases e
  expected c q e := by
    cases e
    rfl

theorem placed_unexpected (text : List Char) (position : Nat) :
    Placed (ask text position).unexpected position text.head? := by
  cases text with
  | nil => exact placed_of_le rfl (Nat.le_refl _) id
  | cons c text =>
    refine ⟨.inr (Option.some_ne_none _), ?_, ?_, ?_⟩
    · intro q hq
      cases hq
      exact Nat.le_refl _
    · intro found q h
      cases h
      exact ⟨rfl, rfl⟩
    · intro wanted q h
      cases h

theorem unexpected_of_head? {other : List Char} (h : other.head? = text.head?) :
    (ask other position).unexpected = (ask text position).unexpected := by
  simp only [Cursor.unexpected, Cursor.current_ask, Cursor.position_ask, h]

theorem sequential_lift {r : Except Fault α} (h : FaultsAre Fault.OfEvaluation r) :
    Sequential (lift r) text position := by
  cases r with
  | ok x => exact sequential_pure x
  | error fault => exact sequential_throw (placed_of_calculation (h fault rfl).ofCalculation)

/-- The current character is known, and so is what is done with it. -/
theorem Sequential.bind_current {next : Option Char → Scan (List Char) β}
    (h : Sequential (next text.head?) text position) :
    Sequential (current >>= next) text position := by
  obtain ⟨outcome, used, rest, ht, hp, hall⟩ := h
  refine ⟨outcome, used, rest, ht, hp, ?_⟩
  intro other ho
  have hh : (used ++ other).head? = text.head? := by
    rw [ht, List.head?_append, List.head?_append, ho]
  rw [bind_of_ok current_ask, hh]
  exact hall other ho

theorem Sequential.bind_position {next : Nat → Scan (List Char) β}
    (h : Sequential (next position) text position) :
    Sequential (Scan.position >>= next) text position := by
  obtain ⟨outcome, used, rest, ht, hp, hall⟩ := h
  refine ⟨outcome, used, rest, ht, hp, ?_⟩
  intro other ho
  rw [bind_of_ok position_ask]
  exact hall other ho

theorem sequential_atEnd : Sequential atEnd text position := by
  refine .of_ok text.isEmpty [] text rfl ?_
  intro other ho
  have he : other.isEmpty = text.isEmpty := by
    cases text <;> cases other <;> first | rfl | cases ho
  rw [List.nil_append, atEnd_ask, he]
  rfl

theorem sequential_advance_cons (c : Char) : Sequential advance (c :: text) position :=
  .of_ok () [c] text rfl fun _ _ => rfl

theorem sequential_pop : Sequential pop text position := by
  cases text with
  | cons c text => exact .of_ok (some c) [c] text rfl fun _ _ => rfl
  | nil =>
    refine .of_ok none [] [] rfl ?_
    intro other ho
    obtain rfl : other = [] := by simpa using ho
    rfl

theorem sequential_takeWhile (p : Char → Bool) : Sequential (takeWhile p) text position := by
  refine .of_ok (text.takeWhile p) (text.takeWhile p) (text.dropWhile p)
    List.takeWhile_append_dropWhile.symm ?_
  intro other ho
  rw [takeWhile_ask, takeWhile_again ho, dropWhile_again ho]

theorem sequential_skipBlanks : Sequential skipBlanks text position := by
  refine .of_ok () (text.takeWhile Text.isBlank) (text.dropWhile Text.isBlank)
    List.takeWhile_append_dropWhile.symm ?_
  intro other ho
  rw [skipBlanks_ask, takeWhile_again ho, dropWhile_again ho]

theorem sequential_accept (wanted : Char) : Sequential (accept wanted) text position := by
  have hsplit : text = text.takeWhile Text.isBlank ++ text.dropWhile Text.isBlank :=
    List.takeWhile_append_dropWhile.symm
  by_cases hc : (text.dropWhile Text.isBlank).head? = some wanted
  · obtain ⟨rest, hr⟩ := List.head?_eq_some_iff.mp hc
    have hused : text = text.takeWhile Text.isBlank ++ [wanted] ++ rest := by
      rw [List.append_assoc, List.singleton_append, ← hr, ← hsplit]
    refine .of_ok true (text.takeWhile Text.isBlank ++ [wanted]) rest hused ?_
    intro other _
    have ho : (wanted :: other).head? = (text.dropWhile Text.isBlank).head? := by
      rw [hc, List.head?_cons]
    rw [accept_ask, List.append_assoc, List.singleton_append, dropWhile_again ho,
      takeWhile_again ho, List.head?_cons, if_pos rfl, List.tail_cons, List.length_append]
    rfl
  · refine .of_ok false (text.takeWhile Text.isBlank) (text.dropWhile Text.isBlank) hsplit ?_
    intro other ho
    rw [accept_ask, dropWhile_again ho, takeWhile_again ho, ho, if_neg hc]

theorem sequential_expect (wanted : Char) : Sequential (expect wanted) text position := by
  refine (sequential_accept wanted).bind ?_
  intro found used rest ht h
  cases found with
  | true => exact sequential_pure ()
  | false =>
    refine ⟨.error (.expected wanted (position + used.length)), [], rest, rfl, ?_, ?_⟩
    · intro fault he
      cases he
      exact placed_expected wanted _
    · intro other _
      exact bind_of_ok position_ask

/-! ## Kinds of faults -/

/-- If the scan faults, the fault is of that kind. -/
def OnlyFaults (kind : Fault → Prop) (scan : Scan (List Char) α) : Prop :=
  ∀ cursor fault behind, scan cursor = .error fault behind → kind fault

section OnlyFaults

variable {kind other : Fault → Prop}

theorem OnlyFaults.bind (hs : OnlyFaults kind scan) (hn : ∀ x, OnlyFaults kind (next x)) :
    OnlyFaults kind (scan >>= next) := by
  intro cursor fault behind h
  rcases bind_error h with h | ⟨x, between, _, h⟩
  · exact hs _ _ _ h
  · exact hn x _ _ _ h

theorem OnlyFaults.mono (hs : OnlyFaults kind scan) (hk : ∀ fault, kind fault → other fault) :
    OnlyFaults other scan :=
  fun cursor fault behind h => hk fault (hs cursor fault behind h)

theorem OnlyFaults.of_total (hs : ∀ cursor, ∃ x behind, scan cursor = .ok x behind) :
    OnlyFaults kind scan := by
  intro cursor fault behind h
  obtain ⟨x, _, hx⟩ := hs cursor
  rw [hx] at h
  cases h

theorem onlyFaults_current : OnlyFaults kind current :=
  .of_total fun _ => ⟨_, _, rfl⟩

theorem onlyFaults_position : OnlyFaults kind Scan.position :=
  .of_total fun _ => ⟨_, _, rfl⟩

theorem onlyFaults_atEnd : OnlyFaults kind Scan.atEnd :=
  .of_total fun _ => ⟨_, _, rfl⟩

theorem onlyFaults_advance : OnlyFaults kind advance :=
  .of_total fun _ => ⟨_, _, rfl⟩

theorem onlyFaults_skipBlanks : OnlyFaults kind skipBlanks :=
  .of_total fun _ => ⟨_, _, rfl⟩

theorem onlyFaults_takeWhile (p : Char → Bool) : OnlyFaults kind (takeWhile p) :=
  .of_total fun _ => ⟨_, _, rfl⟩

theorem onlyFaults_accept (wanted : Char) : OnlyFaults kind (accept wanted) :=
  .of_total fun _ => ⟨_, _, rfl⟩

theorem onlyFaults_pure (x : α) : OnlyFaults kind (pure x) :=
  .of_total fun _ => ⟨_, _, rfl⟩

theorem onlyFaults_throw {fault : Fault} (h : kind fault) :
    OnlyFaults kind (throw fault : Scan (List Char) α) := by
  intro _ _ _ e
  cases e
  exact h

theorem onlyFaults_throw_get {fault : Cursor (List Char) → Fault}
    (h : ∀ cursor, kind (fault cursor)) :
    OnlyFaults kind (do throw (fault (← get)) : Scan (List Char) α) := by
  intro cursor _ _ e
  cases e
  exact h cursor

theorem onlyFaults_expect {wanted : Char} (h : ∀ place, kind (.expected wanted place)) :
    OnlyFaults kind (expect wanted) := by
  refine .bind (onlyFaults_accept wanted) ?_
  intro found
  cases found with
  | true => exact onlyFaults_pure ()
  | false => exact .bind onlyFaults_position fun place => onlyFaults_throw (h place)

theorem onlyFaults_lift {r : Except Fault α} (h : FaultsAre kind r) : OnlyFaults kind (lift r) := by
  intro _ fault _ e
  exact h fault (lift_error e)

end OnlyFaults

/-! ## What a scan comes to -/

/-- A scan answers, with the cursor at `behind`, or faults, as a computation does. -/
def Yields (result : EStateM.Result Fault (Cursor (List Char)) α) (outcome : Except Fault α)
    (behind : Cursor (List Char)) : Prop :=
  match outcome with
  | .ok x => result = .ok x behind
  | .error fault => ∃ cursor, result = .error fault cursor

namespace Yields

variable {cursor between behind : Cursor (List Char)} {first : Except Fault α}

theorem pure (x : α) : Yields ((Pure.pure x : Scan (List Char) α) cursor) (.ok x) cursor := rfl

theorem lift (r : Except Fault α) : Yields (Scan.lift r cursor) r cursor := by
  cases r with
  | ok x => exact rfl
  | error fault => exact ⟨cursor, rfl⟩

theorem bind {second : α → Except Fault β} (hs : Yields (scan cursor) first between)
    (hn : ∀ x, first = .ok x → Yields (next x between) (second x) behind) :
    Yields ((scan >>= next) cursor) (first >>= second) behind := by
  cases first with
  | ok x =>
    have h : scan cursor = .ok x between := hs
    rw [bind_of_ok h]
    exact hn x rfl
  | error fault =>
    obtain ⟨at_, h⟩ := hs
    exact ⟨at_, bind_of_error h⟩

theorem bind_ok {x : α} {outcome : Except Fault β} (hs : scan cursor = .ok x between)
    (hn : Yields (next x between) outcome behind) :
    Yields ((scan >>= next) cursor) outcome behind := by
  rwa [bind_of_ok hs]

end Yields

end Scan

end Marksheet
