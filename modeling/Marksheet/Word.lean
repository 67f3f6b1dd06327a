import Marksheet.Scan
import Marksheet.Text.Alphabet

/-!
# Marksheet.Word

The parts of a text that are not numbers: names, the two truth words, and quoted text.
-/

namespace Marksheet

variable {σ : Type} [Feed σ]

/-! ## Names -/

/-- A letter or underscore with the letters, numbers and underscores behind it. -/
def Name.scan : Scan σ (Option String) := do
  match ← Scan.current with
  | some c =>
    if Text.isNameStart c then return some (String.ofList (← Scan.takeWhile Text.isNameChar))
    else return none
  | none => return none

theorem Name.forward_scan : Scan.Forward (Name.scan : Scan σ (Option String)) := by
  refine Scan.Forward.bind Scan.forward_current fun _ => ?_
  split
  · split
    · exact Scan.Forward.bind (Scan.forward_takeWhile _) fun _ => Scan.forward_pure _
    · exact Scan.forward_pure _
  · exact Scan.forward_pure _

theorem Name.scan_lt {cursor behind : Cursor σ} {name : String}
    (h : Name.scan cursor = .ok (some name) behind) : behind.size < cursor.size := by
  obtain ⟨current, between, h₁, h₂⟩ := Scan.bind_ok h
  obtain ⟨hc, rfl⟩ := Scan.current_ok h₁
  split at h₂
  · split at h₂
    · rename_i hs
      obtain ⟨run, between, h₃, h₄⟩ := Scan.bind_ok h₂
      cases h₄
      refine Scan.takeWhile_lt h₃ fun e => ?_
      have := Cursor.takeWhile_ne_nil hc (Text.isNameChar_of_isNameStart hs)
      rw [Scan.takeWhile_ok h₃, e] at this
      exact this rfl
    · cases h₂
  · cases h₂

/-! ## Truth words -/

namespace Truth

def scanWord : List Char → Scan σ Unit
  | [] => return
  | wanted :: others => do
    match ← Scan.current with
    | some c =>
      if c = wanted then
        Scan.advance
        scanWord others
      else throw (.expected wanted (← Scan.position))
    | none => throw (.unexpectedEnd (← Scan.position))

/-- `true` or `false`; the first letter decides which of them has to follow. -/
def scan : Scan σ (Option Bool) := do
  match ← Scan.current with
  | some 't' => scanWord ['t', 'r', 'u', 'e']; return some true
  | some 'f' => scanWord ['f', 'a', 'l', 's', 'e']; return some false
  | _ => return none

end Truth

/-! ## Quoted text -/

namespace Quoted

/-- The text up to the closing quote. A backslash is kept, and so is the character behind it, which
closes nothing; none when the text ends first. -/
def body (quote : Char) (cursor : Cursor σ) : Option (List Char) × Cursor σ :=
  match _ : cursor.current with
  | none => (none, cursor)
  | some c =>
    if c = quote then (some [], cursor.advance)
    else if c = '\\' then
      match _ : cursor.advance.current with
      | none => (none, cursor.advance)
      | some escaped =>
        let others := body quote cursor.advance.advance
        (others.1.map fun text => c :: escaped :: text, others.2)
    else
      let others := body quote cursor.advance
      (others.1.map fun text => c :: text, others.2)
termination_by cursor.size
decreasing_by
  · exact Nat.lt_trans (Cursor.size_advance_lt (by assumption))
      (Cursor.size_advance_lt (by assumption))
  · exact Cursor.size_advance_lt (by assumption)

theorem body_eq (quote : Char) (cursor : Cursor σ) :
    body quote cursor =
      match cursor.current with
      | none => (none, cursor)
      | some c =>
        if c = quote then (some [], cursor.advance)
        else if c = '\\' then
          match cursor.advance.current with
          | none => (none, cursor.advance)
          | some escaped =>
            ((body quote cursor.advance.advance).1.map fun text => c :: escaped :: text,
              (body quote cursor.advance.advance).2)
        else
          ((body quote cursor.advance).1.map fun text => c :: text,
            (body quote cursor.advance).2) := by
  rw [body]
  split
  · rename_i h
    rw [h]
  · rename_i c h
    rw [h]
    dsimp only
    split
    · rfl
    · split
      · split
        · rename_i ha
          rw [ha]
        · rename_i ha
          rw [ha]
      · rfl

/-- A text in single or double quotes, without them; none where no quote stands. -/
def scan : Scan σ (Option String) := do
  match ← Scan.current with
  | some quote =>
    if quote = '\'' || quote = '"' then
      let start ← Scan.position
      Scan.advance
      match ← modifyGet (body quote) with
      | some text => return some (String.ofList text)
      | none => throw (.unclosedQuote start)
    else return none
  | none => return none

end Quoted

end Marksheet
