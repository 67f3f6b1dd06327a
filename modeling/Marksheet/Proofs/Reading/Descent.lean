import Marksheet.Proofs.Reading.Formulas
import Marksheet.Proofs.Reading.Parallel
import Marksheet.Proofs.Reading.Sources

/-!
# Marksheet.Proofs.Reading.Descent

Reading by plain recursion: a term counts itself in, reads the terms nested in it in the same way,
and counts itself out. Nothing else tells it when to stop.

* `Tallied` : a feed with the number of terms that are being read, and that have been begun.
* `Formula.Recurs` : a scan for terms that reads nested terms by itself. There is one, and no other
  (`recurs_descent`, `Recurs.unique`): each nested term has less before it than the term around it.
* `paired_descent` : it reads a term as `Formula.term` does with the levels that the count leaves,
  and begins no more terms than it passes characters.
* `run_sumOf_descent` : so it reads a whole feed as `Formula.parse` reads its characters.
-/

namespace Marksheet

open Cursor (ask Level)

variable {σ α : Type}

/-- A feed together with the number of terms that are being read of it, and the number of those that
have been begun. -/
structure Tallied (σ : Type) where
  feed : σ
  depth : Nat := 0
  begun : Nat := 0

instance [Feed σ] : Feed (Tallied σ) where
  next tally := ((Feed.next tally.feed).1, { tally with feed := (Feed.next tally.feed).2 })
  close tally := { tally with feed := Feed.close tally.feed }
  bound tally := Feed.bound tally.feed
  bound_next tally c h := Feed.bound_next tally.feed c h

theorem Tallied.chars_eq [Feed σ] (tally : Tallied σ) : Feed.chars tally = Feed.chars tally.feed := by
  induction hn : Feed.bound tally.feed using Nat.strongRecOn generalizing tally with
  | _ n ih =>
    subst hn
    cases hc : (Feed.next tally.feed).1 with
    | none =>
      have ht : (Feed.next tally).1 = none := hc
      rw [Feed.chars_of_none hc, Feed.chars_of_none ht]
    | some c =>
      have ht : (Feed.next tally).1 = some c := hc
      rw [Feed.chars_of_some hc, Feed.chars_of_some ht]
      exact congrArg (c :: ·) (ih _ (Feed.bound_next _ c hc) _ rfl)

/-! ## Counting terms -/

namespace Cursor

def enter (cursor : Cursor (Tallied σ)) : Cursor (Tallied σ) :=
  let depth := cursor.feed.depth + 1
  let begun := cursor.feed.begun + 1
  { cursor with feed := { cursor.feed with depth, begun } }

def leave (cursor : Cursor (Tallied σ)) : Cursor (Tallied σ) :=
  let depth := cursor.feed.depth - 1
  { cursor with feed := { cursor.feed with depth } }

@[simp] theorem depth_enter (cursor : Cursor (Tallied σ)) :
    cursor.enter.feed.depth = cursor.feed.depth + 1 := rfl

@[simp] theorem begun_enter (cursor : Cursor (Tallied σ)) :
    cursor.enter.feed.begun = cursor.feed.begun + 1 := rfl

@[simp] theorem depth_leave (cursor : Cursor (Tallied σ)) :
    cursor.leave.feed.depth = cursor.feed.depth - 1 := rfl

variable [Feed σ]

@[simp] theorem size_enter (cursor : Cursor (Tallied σ)) : cursor.enter.size = cursor.size := rfl

@[simp] theorem depth_ask (tally : Tallied σ) (position : Nat) :
    (ask tally position).feed.depth = tally.depth := by
  unfold ask
  split <;> rfl

@[simp] theorem begun_ask (tally : Tallied σ) (position : Nat) :
    (ask tally position).feed.begun = tally.begun := by
  unfold ask
  split <;> rfl

@[simp] theorem depth_advance (cursor : Cursor (Tallied σ)) :
    cursor.advance.feed.depth = cursor.feed.depth := by
  cases hc : cursor.current with
  | none => rw [advance_of_none hc]
  | some c => rw [advance_of_some hc, depth_ask]

@[simp] theorem begun_advance (cursor : Cursor (Tallied σ)) :
    cursor.advance.feed.begun = cursor.feed.begun := by
  cases hc : cursor.current with
  | none => rw [advance_of_none hc]
  | some c => rw [advance_of_some hc, begun_ask]

/-- The two differ in their counts at most. -/
structure SameText (cursor copy : Cursor (Tallied σ)) : Prop where
  feed : copy.feed.feed = cursor.feed.feed
  current : copy.current = cursor.current
  position : copy.position = cursor.position

theorem simulation_sameText :
    Simulation (SameText : Cursor (Tallied σ) → Cursor (Tallied σ) → Prop) where
  current h := h.current
  position h := h.position
  advance {cursor copy} h := by
    cases hc : cursor.current with
    | none =>
      rw [advance_of_none hc, advance_of_none (h.current.trans hc)]
      exact h
    | some c =>
      have hn : Feed.next copy.feed.feed = Feed.next cursor.feed.feed := by rw [h.feed]
      rw [advance_of_some hc, advance_of_some (h.current.trans hc), h.position]
      simp only [ask, Feed.next, hn]
      split
      · exact ⟨rfl, rfl, rfl⟩
      · exact ⟨rfl, rfl, rfl⟩

@[simp] theorem rest_enter (cursor : Cursor (Tallied σ)) : cursor.enter.rest = cursor.rest := by
  have h : SameText cursor cursor.enter := ⟨rfl, rfl, rfl⟩
  exact Scan.related_rest simulation_sameText h

@[simp] theorem rest_leave (cursor : Cursor (Tallied σ)) : cursor.leave.rest = cursor.rest := by
  have h : SameText cursor cursor.leave := ⟨rfl, rfl, rfl⟩
  exact Scan.related_rest simulation_sameText h

end Cursor

namespace Formula

open Scan (Simulates Paired Parallel)
open Cursor (Simulation Inward)

/-- A scan at whose end its term is counted out. -/
def countedOut (scan : Scan (Tallied σ) α) : Scan (Tallied σ) α := do
  let x ← scan
  modify Cursor.leave
  return x

/-- A scan that counts as one term while it runs, and is refused if that makes more than `limit`. A
fault leaves the count as it is. -/
def nested (limit : Nat) (scan : Scan (Tallied σ) α) : Scan (Tallied σ) α := do
  modify Cursor.enter
  if limit < (← get).feed.depth then throw (.tooDeep limit)
  else countedOut scan

theorem nested_eq (limit : Nat) (scan : Scan (Tallied σ) α) (cursor : Cursor (Tallied σ)) :
    nested limit scan cursor =
      if cursor.feed.depth + 1 ≤ limit then countedOut scan cursor.enter
      else .error (.tooDeep limit) cursor.enter := by
  have hopen : nested limit scan cursor =
      (if limit < cursor.feed.depth + 1 then throw (.tooDeep limit) else countedOut scan)
        cursor.enter := rfl
  rw [hopen]
  split
  · rw [if_neg (by omega)]
    rfl
  · rw [if_pos (by omega)]

variable {limit depth slack : Nat}

theorem nested_congr {scan other : Scan (Tallied σ) α} {cursor : Cursor (Tallied σ)}
    (h : scan cursor.enter = other cursor.enter) :
    nested limit scan cursor = nested limit other cursor := by
  have hc : countedOut scan cursor.enter = countedOut other cursor.enter := by
    simp only [countedOut, bind, EStateM.bind, h]
  rw [nested_eq, nested_eq, hc]

variable [Feed σ]

theorem advancing_nested (limit : Nat) {scan : Scan (Tallied σ) α} (h : Scan.Advancing scan) :
    Scan.Advancing (nested limit scan) := by
  intro cursor x behind hr
  rw [nested_eq] at hr
  split at hr
  · obtain ⟨y, between, hs, hr⟩ := Scan.bind_ok hr
    cases hr
    exact h cursor.enter x between hs
  · cases hr

/-! ## The recursion -/

/-- A scan for terms whose nested terms are read by the same scan. -/
def Recurs (limit : Nat) (item : Item (Tallied σ) Formula) : Prop :=
  ∀ cursor, item.scan cursor = nested limit (termOf item) cursor

/-- There is no more than one such scan. -/
theorem Recurs.unique {item other : Item (Tallied σ) Formula} (hi : Recurs limit item)
    (ho : Recurs limit other) (cursor : Cursor (Tallied σ)) :
    item.scan cursor = other.scan cursor := by
  induction hn : cursor.size using Nat.strongRecOn generalizing cursor with
  | _ n ih =>
    subst hn
    rw [hi cursor, ho cursor]
    refine nested_congr (termOf_congr ?_)
    intro deeper hlt
    exact ih deeper.size hlt deeper rfl

/-- The recursion unrolled `steps` times, and cut off there. -/
def unrolled (limit : Nat) : (steps : Nat) → Item (Tallied σ) Formula
  | 0 => ⟨throw (.tooDeep limit), Scan.advancing_throw _⟩
  | steps + 1 =>
    ⟨nested limit (termOf (unrolled limit steps)), advancing_nested limit (advancing_termOf _)⟩

/-- With more steps than there are characters left it does not matter how many there are. -/
theorem unrolled_congr {steps more : Nat} {cursor : Cursor (Tallied σ)} (hs : cursor.size < steps)
    (hm : cursor.size < more) :
    (unrolled limit steps).scan cursor = (unrolled limit more).scan cursor := by
  induction steps generalizing more cursor with
  | zero => omega
  | succ steps ih =>
    cases more with
    | zero => omega
    | succ more =>
      refine nested_congr (termOf_congr ?_)
      intro deeper hlt
      rw [Cursor.size_enter] at hlt
      exact ih (by omega) (by omega)

/-- Reading a term by recursion, unrolled further than there are characters left. -/
def descent (limit : Nat) : Item (Tallied σ) Formula where
  scan cursor := (unrolled limit (cursor.size + 1)).scan cursor
  advancing cursor := (unrolled limit (cursor.size + 1)).advancing cursor

theorem recurs_descent (limit : Nat) : Recurs limit (descent limit : Item (Tallied σ) Formula) := by
  intro cursor
  refine nested_congr (termOf_congr ?_)
  intro deeper hlt
  rw [Cursor.size_enter] at hlt
  exact unrolled_congr hlt (Nat.lt_succ_self _)

/-! ## Against the levels that are left -/

/-- `stop` is reached from `origin` by passing characters, with no more terms begun on the way than
characters passed, and `slack`. -/
def Spends (slack : Nat) (origin stop : Cursor (Tallied σ)) : Prop :=
  ∃ used, origin.rest = used ++ stop.rest ∧ stop.position = origin.position + used.length ∧
    stop.feed.begun ≤ origin.feed.begun + used.length + slack

variable {cursor : Cursor (List Char)} {copy origin : Cursor (Tallied σ)}

theorem Spends.refl (slack : Nat) (origin : Cursor (Tallied σ)) : Spends slack origin origin :=
  ⟨[], rfl, rfl, Nat.le_add_right _ _⟩

theorem Spends.relax {more : Nat} (h : Spends slack origin copy) (hle : slack ≤ more) :
    Spends more origin copy := by
  obtain ⟨used, hr, hp, hb⟩ := h
  exact ⟨used, hr, hp, by omega⟩

theorem Spends.enter (h : Spends slack origin copy) : Spends (slack + 1) origin copy.enter := by
  obtain ⟨used, hr, hp, hb⟩ := h
  refine ⟨used, ?_, hp, ?_⟩
  · rw [Cursor.rest_enter, hr]
  · rw [Cursor.begun_enter]
    omega

theorem Spends.leave (h : Spends slack origin copy) : Spends slack origin copy.leave := by
  obtain ⟨used, hr, hp, hb⟩ := h
  exact ⟨used, by rw [Cursor.rest_leave, hr], hp, hb⟩

/-- A character pays for one term. -/
theorem Spends.pass {c : Char} (h : Spends (slack + 1) origin copy) (hc : copy.current = some c) :
    Spends slack origin copy.advance := by
  obtain ⟨used, hr, hp, hb⟩ := h
  refine ⟨used ++ [c], ?_, ?_, ?_⟩
  · rw [hr, Cursor.rest_of_some hc, List.append_assoc, List.singleton_append]
  · rw [Cursor.position_advance hc, hp, List.length_append, List.length_singleton, Nat.add_assoc]
  · rw [Cursor.begun_advance, List.length_append, List.length_singleton]
    omega

/-- The copy has come from `origin`, and stands where the cursor over the text does, with `depth`
terms being read. -/
structure Keeps (origin : Cursor (Tallied σ)) (depth slack : Nat) (cursor : Cursor (List Char))
    (copy : Cursor (Tallied σ)) : Prop where
  level : Level cursor copy
  depth : copy.feed.depth = depth
  spent : Spends slack origin copy

theorem Keeps.refl (copy : Cursor (Tallied σ)) :
    Keeps copy copy.feed.depth 0 (ask copy.rest copy.position) copy where
  level := by
    refine ⟨?_, ?_⟩
    · rw [Cursor.rest_ask, Feed.chars_list]
    · rw [Cursor.position_ask]
  depth := rfl
  spent := .refl 0 copy

theorem Keeps.enter (h : Keeps origin depth 0 cursor copy) :
    Keeps origin (depth + 1) 1 cursor copy.enter where
  level := ⟨(Cursor.rest_enter copy).trans h.level.rest, h.level.position⟩
  depth := by rw [Cursor.depth_enter, h.depth]
  spent := h.spent.enter

theorem Keeps.leave (h : Keeps origin (depth + 1) 0 cursor copy) :
    Keeps origin depth 0 cursor copy.leave where
  level := ⟨(Cursor.rest_leave copy).trans h.level.rest, h.level.position⟩
  depth := by rw [Cursor.depth_leave, h.depth, Nat.add_sub_cancel]
  spent := h.spent.leave

theorem Keeps.pass {c : Char} (h : Keeps origin depth (slack + 1) cursor copy)
    (hc : copy.current = some c) : Keeps origin depth slack cursor.advance copy.advance where
  level := Cursor.simulation_level.advance h.level
  depth := (Cursor.depth_advance copy).trans h.depth
  spent := h.spent.pass hc

theorem simulation_keeps (origin : Cursor (Tallied σ)) (depth slack : Nat) :
    Simulation (Keeps origin depth slack) where
  current h := h.level.current
  position h := h.level.position
  advance {cursor copy} h := by
    cases hc : copy.current with
    | none =>
      rw [Cursor.advance_of_none hc, Cursor.advance_of_none (h.level.current.symm.trans hc)]
      exact h
    | some c =>
      have hmore : Keeps origin depth (slack + 1) cursor copy :=
        ⟨h.level, h.depth, h.spent.relax (Nat.le_succ slack)⟩
      exact hmore.pass hc

/-- A fault leaves the terms counted in that were being read. -/
def Leaves (origin : Cursor (Tallied σ)) (cursor : Cursor (List Char))
    (copy : Cursor (Tallied σ)) : Prop :=
  ∃ depth, Keeps origin depth 1 cursor copy

/-- A term that has been begun is paid for by its first character. -/
theorem inward_keeps (origin : Cursor (Tallied σ)) (depth : Nat) :
    Inward (Keeps origin depth 1) (Keeps origin depth 0) (Leaves origin) where
  around := simulation_keeps origin depth 1
  inside := simulation_keeps origin depth 0
  widen h := ⟨h.level, h.depth, h.spent.relax (Nat.zero_le 1)⟩
  fail h := ⟨_, h⟩
  pass {cursor copy} h hc := by
    obtain ⟨c, hsome⟩ := Option.ne_none_iff_exists'.mp hc
    exact h.pass (h.level.current.trans hsome)

/-- Reading by recursion does what reading with the levels does that are left. -/
theorem paired_descent (limit : Nat) (h : Keeps origin depth 0 cursor copy) :
    Paired (Keeps origin depth 0) (Leaves origin)
      ((term limit (limit - depth)).scan cursor) ((descent limit).scan copy) := by
  induction hn : copy.size using Nat.strongRecOn generalizing depth cursor copy with
  | _ n ih =>
    subst hn
    rw [recurs_descent limit copy, nested_eq, h.depth]
    by_cases hd : depth + 1 ≤ limit
    · -- one level less is left within the term, where one term more is counted
      have hl : limit - depth = limit - (depth + 1) + 1 := by omega
      rw [hl, if_pos hd]
      have hterm : Paired (Keeps origin (depth + 1) 0) (Leaves origin)
          (termOf (term limit (limit - (depth + 1))) cursor)
          (termOf (descent limit) copy.enter) :=
        paired_termOf (inward_keeps origin (depth + 1)) h.enter
          fun _ _ hk hlt => ih _ hlt hk rfl
      have hread : (term limit (limit - (depth + 1) + 1) : Item (List Char) Formula).scan =
          termOf (term limit (limit - (depth + 1))) >>= pure := (bind_pure _).symm
      rw [hread]
      refine hterm.bind ?_
      intro formula behind last _ _ hb
      exact .ok hb.leave
    · have hl : limit - depth = 0 := by omega
      rw [hl, if_neg hd]
      exact .error ⟨_, h.enter⟩

/-! ## Sums -/

def sumOf (item : Item σ Formula) : Scan σ Formula := do
  let terms ← separated '+' item
  Scan.skipBlanks
  if ← Scan.atEnd then ofGroup terms
  else throw (← get).unexpected

theorem wholeText_eq_sumOf (limit : Nat) :
    (wholeText limit : Scan σ Formula) = sumOf (term limit limit) := rfl

theorem parallel_sumOf {τ : Type} [Feed τ] {outer inner failed : Cursor σ → Cursor τ → Prop}
    {item : Item σ Formula} {other : Item τ Formula} (hin : Inward outer inner failed)
    (hi : Parallel inner inner failed item.scan other.scan) :
    Parallel inner inner failed (sumOf item) (sumOf other) := by
  refine (parallel_separated hin '+' hi).bind ?_
  intro terms
  refine Simulates.parallel ?_ hin.fail_of_inner
  refine (Scan.simulates_skipBlanks hin.inside).bind fun _ => ?_
  refine (Scan.simulates_atEnd hin.inside).bind ?_
  intro atEnd
  cases atEnd with
  | true => exact Scan.simulates_lift _
  | false =>
    exact Scan.simulates_throw_get Cursor.unexpected Cursor.unexpected
      fun _ _ h => unexpected_of_simulation hin.inside h

theorem paired_sumOf (limit : Nat) (h : Keeps origin depth 0 cursor copy) :
    Paired (Keeps origin depth 0) (Leaves origin)
      (sumOf (term limit (limit - depth)) cursor) (sumOf (descent limit) copy) :=
  parallel_sumOf (inward_keeps origin depth) (fun _ _ hk => paired_descent limit hk) cursor copy h

/-- On a whole feed, reading by recursion is reading its characters. -/
theorem run_sumOf_descent (limit : Nat) (feed : σ) :
    (sumOf (descent limit)).run ({ feed } : Tallied σ) =
      parse limit (String.ofList (Feed.chars feed)) := by
  have hkeeps := Keeps.refl (Cursor.start ({ feed } : Tallied σ))
  rw [Cursor.rest_start, Tallied.chars_eq, Cursor.start, Cursor.position_ask,
    Cursor.depth_ask] at hkeeps
  have hend := paired_sumOf limit hkeeps
  rw [parse, wholeText_eq_sumOf, String.toList_ofList]
  exact hend.run_eq.symm

end Formula

end Marksheet
