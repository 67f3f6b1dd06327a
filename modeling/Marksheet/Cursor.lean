import Marksheet.Fault
import Marksheet.Feed
import Marksheet.Text

/-!
# Marksheet.Cursor

A cursor stands on one character of a feed and knows how many it has passed. It never looks
further than the character it stands on, asks its feed once for each position, and closes the feed
when that has nothing more to give.

* `Cursor.rest` : the characters not yet passed, the current one first. What a cursor does is said
  in terms of it: `rest_start`, `rest_takeWhile`, `rest_skipBlanks`.
* `Cursor.size_advance_lt` : passing a character makes the cursor smaller, on which every loop over
  a text rests.
-/

namespace Marksheet

structure Cursor (σ : Type) where
  feed : σ
  current : Option Char
  position : Nat

namespace Cursor

variable {σ : Type} [Feed σ]

/-- Asks `feed` for the character at `position`, and closes it when there is none. -/
def ask (feed : σ) (position : Nat) : Cursor σ :=
  match (Feed.next feed).1 with
  | some c => { feed := (Feed.next feed).2, current := some c, position }
  | none => { feed := Feed.close (Feed.next feed).2, current := none, position }

def start (feed : σ) : Cursor σ :=
  ask feed 0

/-- Passes the current character; at the end there is none to pass. -/
def advance (cursor : Cursor σ) : Cursor σ :=
  match cursor.current with
  | some _ => ask cursor.feed (cursor.position + 1)
  | none => cursor

theorem advance_of_none {cursor : Cursor σ} (h : cursor.current = none) :
    cursor.advance = cursor := by
  simp [advance, h]

theorem advance_of_some {cursor : Cursor σ} {c : Char} (h : cursor.current = some c) :
    cursor.advance = ask cursor.feed (cursor.position + 1) := by
  simp [advance, h]

@[simp] theorem position_ask (feed : σ) (position : Nat) :
    (ask feed position).position = position := by
  unfold ask
  split <;> rfl

def atEnd (cursor : Cursor σ) : Bool :=
  cursor.current.isNone

/-- No more characters than this are still to be passed. -/
def size (cursor : Cursor σ) : Nat :=
  match cursor.current with
  | some _ => Feed.bound cursor.feed + 1
  | none => 0

theorem size_ask_le (feed : σ) (position : Nat) : (ask feed position).size ≤ Feed.bound feed := by
  unfold ask
  split
  · rename_i c h
    exact Feed.bound_next feed c h
  · exact Nat.zero_le _

theorem size_advance_lt {cursor : Cursor σ} {c : Char} (h : cursor.current = some c) :
    cursor.advance.size < cursor.size := by
  have hs : cursor.size = Feed.bound cursor.feed + 1 := by simp [size, h]
  rw [hs, advance_of_some h]
  exact Nat.lt_succ_of_le (size_ask_le _ _)

theorem size_advance_le (cursor : Cursor σ) : cursor.advance.size ≤ cursor.size := by
  cases h : cursor.current with
  | none => exact Nat.le_of_eq (congrArg size (advance_of_none h))
  | some c => exact Nat.le_of_lt (size_advance_lt h)

/-- The characters not yet passed. -/
def rest (cursor : Cursor σ) : List Char :=
  match _ : cursor.current with
  | none => []
  | some c => c :: cursor.advance.rest
termination_by cursor.size
decreasing_by exact size_advance_lt (by assumption)

theorem rest_of_none {cursor : Cursor σ} (h : cursor.current = none) : cursor.rest = [] := by
  rw [rest]; split <;> simp_all

theorem rest_of_some {cursor : Cursor σ} {c : Char} (h : cursor.current = some c) :
    cursor.rest = c :: cursor.advance.rest := by
  rw [rest]; split <;> simp_all

theorem current_eq_head? (cursor : Cursor σ) : cursor.current = cursor.rest.head? := by
  cases h : cursor.current with
  | none => rw [rest_of_none h, List.head?_nil]
  | some c => rw [rest_of_some h, List.head?_cons]

theorem rest_advance (cursor : Cursor σ) : cursor.advance.rest = cursor.rest.tail := by
  cases h : cursor.current with
  | none => rw [advance_of_none h, rest_of_none h, List.tail_nil]
  | some c => rw [rest_of_some h, List.tail_cons]

theorem position_advance {cursor : Cursor σ} {c : Char} (h : cursor.current = some c) :
    cursor.advance.position = cursor.position + 1 := by
  rw [advance_of_some h, position_ask]

theorem rest_ask (feed : σ) (position : Nat) : (ask feed position).rest = Feed.chars feed := by
  induction hn : Feed.bound feed using Nat.strongRecOn generalizing feed position with
  | _ n ih =>
    subst hn
    cases h : (Feed.next feed).1 with
    | none =>
      rw [Feed.chars_of_none h]
      exact rest_of_none (by simp [ask, h])
    | some c =>
      rw [Feed.chars_of_some h]
      have hc : (ask feed position).current = some c := by simp [ask, h]
      have ha : (ask feed position).advance = ask (Feed.next feed).2 (position + 1) := by
        simp [advance, ask, h]
      rw [rest_of_some hc, ha, ih _ (Feed.bound_next feed c h) _ _ rfl]

theorem rest_start (feed : σ) : (start feed).rest = Feed.chars feed :=
  rest_ask feed 0

/-! ## Runs of characters -/

/-- The longest run of characters that satisfy `p`, and the cursor behind it. -/
def takeWhile (p : Char → Bool) (cursor : Cursor σ) : List Char × Cursor σ :=
  match _ : cursor.current with
  | none => ([], cursor)
  | some c =>
    if p c then
      let others := takeWhile p cursor.advance
      (c :: others.1, others.2)
    else ([], cursor)
termination_by cursor.size
decreasing_by exact size_advance_lt (by assumption)

theorem takeWhile_of_none {p : Char → Bool} {cursor : Cursor σ} (h : cursor.current = none) :
    cursor.takeWhile p = ([], cursor) := by
  rw [takeWhile]
  split <;> simp_all

theorem takeWhile_of_some {p : Char → Bool} {cursor : Cursor σ} {c : Char}
    (h : cursor.current = some c) :
    cursor.takeWhile p =
      if p c then (c :: (cursor.advance.takeWhile p).1, (cursor.advance.takeWhile p).2)
      else ([], cursor) := by
  rw [takeWhile]
  split <;> simp_all

theorem size_takeWhile_le (p : Char → Bool) (cursor : Cursor σ) :
    (cursor.takeWhile p).2.size ≤ cursor.size := by
  fun_induction takeWhile p cursor with
  | case1 => exact Nat.le_refl _
  | case2 cursor c h hp others ih => exact Nat.le_trans ih (Nat.le_of_lt (size_advance_lt h))
  | case3 => exact Nat.le_refl _

theorem size_takeWhile_lt {p : Char → Bool} {cursor : Cursor σ} (h : (cursor.takeWhile p).1 ≠ []) :
    (cursor.takeWhile p).2.size < cursor.size := by
  unfold takeWhile at h ⊢
  split at h
  · simp at h
  · rename_i c hc
    split at h
    · rename_i hp
      rw [if_pos hp]
      exact Nat.lt_of_le_of_lt (size_takeWhile_le p _) (size_advance_lt hc)
    · simp at h

theorem takeWhile_eq (p : Char → Bool) (cursor : Cursor σ) :
    (cursor.takeWhile p).1 = cursor.rest.takeWhile p := by
  fun_induction takeWhile p cursor with
  | case1 cursor h => rw [rest_of_none h, List.takeWhile_nil]
  | case2 cursor c h hp others ih => rw [rest_of_some h, List.takeWhile_cons, if_pos hp, ih]
  | case3 cursor c h hp => rw [rest_of_some h, List.takeWhile_cons, if_neg hp]

theorem rest_takeWhile (p : Char → Bool) (cursor : Cursor σ) :
    (cursor.takeWhile p).2.rest = cursor.rest.dropWhile p := by
  fun_induction takeWhile p cursor with
  | case1 cursor h => rw [rest_of_none h, List.dropWhile_nil]
  | case2 cursor c h hp others ih => rw [rest_of_some h, List.dropWhile_cons, if_pos hp, ih]
  | case3 cursor c h hp => rw [rest_of_some h, List.dropWhile_cons, if_neg hp]

theorem position_takeWhile (p : Char → Bool) (cursor : Cursor σ) :
    (cursor.takeWhile p).2.position = cursor.position + (cursor.takeWhile p).1.length := by
  fun_induction takeWhile p cursor with
  | case1 => rfl
  | case2 cursor c h hp others ih =>
    rw [ih, position_advance h, List.length_cons]
    exact Nat.add_right_comm _ _ _
  | case3 => rfl

theorem takeWhile_ne_nil {p : Char → Bool} {cursor : Cursor σ} {c : Char}
    (h : cursor.current = some c) (hp : p c = true) : (cursor.takeWhile p).1 ≠ [] := by
  rw [takeWhile_eq, rest_of_some h, List.takeWhile_cons, if_pos hp]
  exact List.cons_ne_nil _ _

def skipBlanks (cursor : Cursor σ) : Cursor σ :=
  (cursor.takeWhile Text.isBlank).2

theorem size_skipBlanks_le (cursor : Cursor σ) : cursor.skipBlanks.size ≤ cursor.size :=
  size_takeWhile_le _ _

theorem rest_skipBlanks (cursor : Cursor σ) :
    cursor.skipBlanks.rest = cursor.rest.dropWhile Text.isBlank :=
  rest_takeWhile _ _

/-! ## A character that is looked for -/

/-- Skips blanks and then passes `wanted`, if the cursor stands on it. -/
def accept (wanted : Char) (cursor : Cursor σ) : Bool × Cursor σ :=
  let cursor := cursor.skipBlanks
  if cursor.current = some wanted then (true, cursor.advance) else (false, cursor)

theorem size_accept_le (wanted : Char) (cursor : Cursor σ) :
    (cursor.accept wanted).2.size ≤ cursor.size := by
  unfold accept
  have h := size_skipBlanks_le cursor
  dsimp only
  split
  · exact Nat.le_trans (size_advance_le _) h
  · exact h

theorem size_accept_lt {wanted : Char} {cursor : Cursor σ} (h : (cursor.accept wanted).1 = true) :
    (cursor.accept wanted).2.size < cursor.size := by
  unfold accept at h ⊢
  dsimp only at h ⊢
  split at h
  · rename_i hc
    rw [if_pos hc]
    exact Nat.lt_of_lt_of_le (size_advance_lt hc) (size_skipBlanks_le _)
  · simp at h

theorem accept_eq_true_iff {wanted : Char} {cursor : Cursor σ} :
    (cursor.accept wanted).1 = true ↔ cursor.skipBlanks.current = some wanted := by
  unfold accept
  dsimp only
  split
  · rename_i hc; simp [hc]
  · rename_i hc; simp [hc]

def unexpected (cursor : Cursor σ) : Fault :=
  match cursor.current with
  | some found => .unexpected found cursor.position
  | none => .unexpectedEnd cursor.position

end Cursor

end Marksheet
