import Marksheet.Cursor

/-!
# Marksheet.Scan

A scan moves a cursor over a text and then either answers or faults; in both cases the cursor
stays where the scan left it.

* `Scan.Forward`   : success leaves no more to pass than there was before.
* `Scan.Advancing` : success passes at least one character.

A sequence is forward when its parts are, and advancing when one of them is besides.
-/

namespace Marksheet

abbrev Scan (σ : Type) := EStateM Fault (Cursor σ)

namespace Scan

variable {σ : Type} {α β : Type}

def lift : Except Fault α → Scan σ α
  | .ok x => pure x
  | .error fault => throw fault

instance : MonadLift (Except Fault) (Scan σ) := ⟨lift⟩

def current : Scan σ (Option Char) := return (← get).current

def position : Scan σ Nat := return (← get).position

def atEnd : Scan σ Bool := return (← get).atEnd

theorem bind_ok {scan : Scan σ α} {next : α → Scan σ β} {cursor behind : Cursor σ} {y : β}
    (h : (scan >>= next) cursor = .ok y behind) :
    ∃ x between, scan cursor = .ok x between ∧ next x between = .ok y behind := by
  simp only [bind, EStateM.bind] at h
  split at h
  · rename_i x between e
    exact ⟨x, between, e, h⟩
  · simp at h

theorem current_ok {cursor behind : Cursor σ} {c : Option Char}
    (h : current cursor = .ok c behind) : cursor.current = c ∧ behind = cursor := by
  cases h; exact ⟨rfl, rfl⟩

variable [Feed σ]

def advance : Scan σ Unit := modify Cursor.advance

def pop : Scan σ (Option Char) := modifyGet fun cursor => (cursor.current, cursor.advance)

def skipBlanks : Scan σ Unit := modify Cursor.skipBlanks

def takeWhile (p : Char → Bool) : Scan σ (List Char) := modifyGet (Cursor.takeWhile p)

def accept (wanted : Char) : Scan σ Bool := modifyGet (Cursor.accept wanted)

def expect (wanted : Char) : Scan σ Unit := do
  if ← accept wanted then return
  throw (.expected wanted (← position))

/-- Answers to `scan` on the whole of a feed. -/
def run (scan : Scan σ α) (feed : σ) : Except Fault α :=
  match EStateM.run scan (Cursor.start feed) with
  | .ok x _ => .ok x
  | .error fault _ => .error fault

theorem accept_ok {wanted : Char} {cursor behind : Cursor σ} {found : Bool}
    (h : accept wanted cursor = .ok found behind) : cursor.accept wanted = (found, behind) := by
  cases h
  rfl

theorem accept_eq_ok {wanted : Char} {cursor behind : Cursor σ} {found : Bool}
    (h : cursor.accept wanted = (found, behind)) : accept wanted cursor = .ok found behind := by
  have ha : accept wanted cursor =
      .ok (cursor.accept wanted).1 (cursor.accept wanted).2 := rfl
  rw [ha, h]

theorem takeWhile_ok {p : Char → Bool} {cursor behind : Cursor σ} {run : List Char}
    (h : takeWhile p cursor = .ok run behind) : cursor.takeWhile p = (run, behind) := by
  cases h
  rfl

/-! ## Progress -/

/-- Success leaves no more characters to pass than there were. -/
def Forward (scan : Scan σ α) : Prop :=
  ∀ cursor x behind, scan cursor = .ok x behind → behind.size ≤ cursor.size

def Advancing (scan : Scan σ α) : Prop :=
  ∀ cursor x behind, scan cursor = .ok x behind → behind.size < cursor.size

theorem Advancing.forward {scan : Scan σ α} (h : Advancing scan) : Forward scan :=
  fun _ _ _ e => Nat.le_of_lt (h _ _ _ e)

theorem Forward.bind {scan : Scan σ α} {next : α → Scan σ β} (hs : Forward scan)
    (hn : ∀ x, Forward (next x)) : Forward (scan >>= next) := by
  intro cursor y behind h
  obtain ⟨x, between, h₁, h₂⟩ := bind_ok h
  exact Nat.le_trans (hn x _ _ _ h₂) (hs _ _ _ h₁)

theorem Advancing.bind {scan : Scan σ α} {next : α → Scan σ β} (hs : Advancing scan)
    (hn : ∀ x, Forward (next x)) : Advancing (scan >>= next) := by
  intro cursor y behind h
  obtain ⟨x, between, h₁, h₂⟩ := bind_ok h
  exact Nat.lt_of_le_of_lt (hn x _ _ _ h₂) (hs _ _ _ h₁)

theorem Forward.bind_advancing {scan : Scan σ α} {next : α → Scan σ β} (hs : Forward scan)
    (hn : ∀ x, Advancing (next x)) : Advancing (scan >>= next) := by
  intro cursor y behind h
  obtain ⟨x, between, h₁, h₂⟩ := bind_ok h
  exact Nat.lt_of_lt_of_le (hn x _ _ _ h₂) (hs _ _ _ h₁)

theorem advancing_throw (fault : Fault) : Advancing (throw fault : Scan σ α) := by
  intro _ _ _ h; cases h

theorem forward_throw (fault : Fault) : Forward (throw fault : Scan σ α) :=
  (advancing_throw fault).forward

theorem forward_pure (x : α) : Forward (pure x : Scan σ α) := by
  intro _ _ _ h; simp [pure, EStateM.pure] at h; simp [h]

theorem forward_lift (r : Except Fault α) : Forward (lift r : Scan σ α) := by
  cases r with
  | ok x => exact forward_pure x
  | error fault => exact forward_throw fault

theorem forward_get : Forward (get : Scan σ (Cursor σ)) := by
  intro _ _ _ h; cases h; exact Nat.le_refl _

theorem forward_current : Forward (current : Scan σ (Option Char)) := by
  intro _ _ _ h; cases h; exact Nat.le_refl _

theorem forward_position : Forward (position : Scan σ Nat) := by
  intro _ _ _ h; cases h; exact Nat.le_refl _

theorem forward_advance : Forward (advance : Scan σ Unit) := by
  intro _ _ _ h; cases h; exact Cursor.size_advance_le _

theorem forward_skipBlanks : Forward (skipBlanks : Scan σ Unit) := by
  intro _ _ _ h; cases h; exact Cursor.size_skipBlanks_le _

theorem forward_takeWhile (p : Char → Bool) : Forward (takeWhile p : Scan σ (List Char)) := by
  intro _ _ _ h; cases h; exact Cursor.size_takeWhile_le _ _

theorem forward_accept (wanted : Char) : Forward (accept wanted : Scan σ Bool) := by
  intro _ _ _ h; cases h; exact Cursor.size_accept_le _ _

theorem accept_lt {wanted : Char} {cursor behind : Cursor σ}
    (h : accept wanted cursor = .ok true behind) : behind.size < cursor.size := by
  have hc := accept_ok h
  have := Cursor.size_accept_lt (show (cursor.accept wanted).1 = true by rw [hc])
  rwa [hc] at this

theorem takeWhile_lt {p : Char → Bool} {cursor behind : Cursor σ} {run : List Char}
    (h : takeWhile p cursor = .ok run behind) (hr : run ≠ []) : behind.size < cursor.size := by
  have hc := takeWhile_ok h
  have := Cursor.size_takeWhile_lt (show (cursor.takeWhile p).1 ≠ [] by rwa [hc])
  rwa [hc] at this

theorem forward_expect (wanted : Char) : Forward (expect wanted : Scan σ Unit) := by
  refine Forward.bind (forward_accept wanted) fun found => ?_
  cases found with
  | true => exact forward_pure _
  | false => exact Forward.bind forward_position fun _ => forward_throw _

end Scan

end Marksheet
