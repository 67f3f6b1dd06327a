/-!
# Marksheet.Feed

A feed hands out characters one at a time. All that is known of one is what it answers, and that
it runs dry: `Feed.bound` gives a number that shrinks with every character handed out.

* `Feed.chars`    : the characters a feed hands out before it first answers that it has none.
* `List Char`     : the feed of a text.
* `Metered`       : a feed that also counts how often it was asked and how often it was closed.
-/

namespace Marksheet

/-- A sequential supply of characters. -/
class Feed (σ : Type) where
  /-- The next character, if there is one, and the feed after it was asked. -/
  next : σ → Option Char × σ
  /-- The feed after it was told that nothing more will be asked. -/
  close : σ → σ
  /-- No more characters than this are still to come. -/
  bound : σ → Nat
  bound_next : ∀ feed c, (next feed).1 = some c → bound (next feed).2 < bound feed

namespace Feed

variable {σ : Type} [Feed σ]

/-- The characters handed out before the first answer that there is none. -/
def chars (feed : σ) : List Char :=
  match _ : (next feed).1 with
  | none => []
  | some c => c :: chars (next feed).2
termination_by bound feed
decreasing_by exact bound_next feed c (by assumption)

theorem chars_of_none {feed : σ} (h : (next feed).1 = none) : chars feed = [] := by
  rw [chars]; split <;> simp_all

theorem chars_of_some {feed : σ} {c : Char} (h : (next feed).1 = some c) :
    chars feed = c :: chars (next feed).2 := by
  rw [chars]; split <;> simp_all

end Feed

instance : Feed (List Char) where
  next
    | [] => (none, [])
    | c :: cs => (some c, cs)
  close cs := cs
  bound cs := cs.length
  bound_next := by
    intro cs c h
    cases cs with
    | nil => simp at h
    | cons _ _ => simp

@[simp] theorem Feed.chars_list (cs : List Char) : Feed.chars cs = cs := by
  induction cs with
  | nil => exact Feed.chars_of_none rfl
  | cons c cs ih => rw [Feed.chars_of_some (c := c) rfl]; exact congrArg _ ih

/-- A feed together with the number of times it was asked and closed. -/
structure Metered (σ : Type) where
  feed : σ
  asked : Nat := 0
  closed : Nat := 0

instance {σ : Type} [Feed σ] : Feed (Metered σ) where
  next m := ((Feed.next m.feed).1, { m with feed := (Feed.next m.feed).2, asked := m.asked + 1 })
  close m := { m with feed := Feed.close m.feed, closed := m.closed + 1 }
  bound m := Feed.bound m.feed
  bound_next m c h := Feed.bound_next m.feed c h

end Marksheet
