import Marksheet.Proofs.Reading.Simulation
import Marksheet.Proofs.Reading.Words

/-!
# Marksheet.Proofs.Reading.Sources

Reading from a source of which nothing is known but its answers, by any steps in any order.

* `Operation.run` : steps one after the other, each from where the one before it stopped, be it with
  a fault.
* `Operation.level_run` : on a feed of any kind steps answer as on a text that begins alike, and
  depend on no more than what they pass and the one character behind it.
* `Metered.Counted` : a feed is asked once for each place, and closed once at the end. As every step
  does no more than pass characters, what one character keeps all steps keep (`Operation.kept_run`).
* `Source.run_of_answers` : the same of any source, however it goes on.
-/

namespace Marksheet

open Cursor (ask)
open Scan (Sequential Simulates)

variable {σ τ : Type} [Feed σ] [Feed τ]

/-! ## Steps -/

/-- A step of reading: one of the cursor's own, or a literal. -/
inductive Operation where
  | current
  | pop
  | skipBlanks
  | accept (wanted : Char)
  | expect (wanted : Char)
  | atEnd
  | number (exponents : Bool)
  | quoted
  | truth
  | name

/-- What a step answers. -/
inductive Reply where
  | done
  | character (found : Option Char)
  | test (outcome : Bool)
  | number (value : Option Float)
  | quoted (text : Option String)
  | truth (value : Option Bool)
  | name (name : String)

namespace Operation

def perform : Operation → Scan σ Reply
  | current => return .character (← Scan.current)
  | pop => return .character (← Scan.pop)
  | skipBlanks => do
    Scan.skipBlanks
    return .done
  | accept wanted => return .test (← Scan.accept wanted)
  | expect wanted => do
    Scan.expect wanted
    return .done
  | atEnd => return .test (← Scan.atEnd)
  | number exponents => return .number (← Number.scan exponents)
  | quoted => return .quoted (← Quoted.scan)
  | truth => return .truth (← Truth.scan)
  | name => return .name ((← Name.scan).getD "")

/-- The answer of a step or its fault, and the cursor where it stopped. -/
def step (operation : Operation) (cursor : Cursor σ) : Except Fault Reply × Cursor σ :=
  match operation.perform cursor with
  | .ok reply behind => (.ok reply, behind)
  | .error fault behind => (.error fault, behind)

def run : List Operation → Cursor σ → List (Except Fault Reply) × Cursor σ
  | [], cursor => ([], cursor)
  | operation :: others, cursor =>
    let first := operation.step cursor
    let rest := run others first.2
    (first.1 :: rest.1, rest.2)

/-! ## Alike on all feeds -/

section Simulation

variable {related : Cursor σ → Cursor τ → Prop} {cursor : Cursor σ} {copy : Cursor τ}

theorem simulates_perform (hr : Cursor.Simulation related) (operation : Operation) :
    Simulates related operation.perform operation.perform := by
  cases operation with
  | current => exact (Scan.simulates_current hr).bind fun _ => Scan.simulates_pure _
  | pop => exact (Scan.simulates_pop hr).bind fun _ => Scan.simulates_pure _
  | skipBlanks => exact (Scan.simulates_skipBlanks hr).bind fun _ => Scan.simulates_pure _
  | accept wanted => exact (Scan.simulates_accept hr wanted).bind fun _ => Scan.simulates_pure _
  | expect wanted => exact (Scan.simulates_expect hr wanted).bind fun _ => Scan.simulates_pure _
  | atEnd => exact (Scan.simulates_atEnd hr).bind fun _ => Scan.simulates_pure _
  | number exponents => exact (Number.simulates_scan hr _).bind fun _ => Scan.simulates_pure _
  | quoted => exact (Quoted.simulates_scan hr).bind fun _ => Scan.simulates_pure _
  | truth => exact (Truth.simulates_scan hr).bind fun _ => Scan.simulates_pure _
  | name => exact (Name.simulates_scan hr).bind fun _ => Scan.simulates_pure _

theorem related_step (hr : Cursor.Simulation related) (operation : Operation)
    (h : related cursor copy) :
    (operation.step copy).1 = (operation.step cursor).1 ∧
      related (operation.step cursor).2 (operation.step copy).2 := by
  have hend := simulates_perform hr operation cursor copy h
  unfold step
  generalize operation.perform cursor = result at hend
  generalize operation.perform copy = again at hend
  cases hend with
  | ok hb => exact ⟨rfl, hb⟩
  | error hb => exact ⟨rfl, hb⟩

theorem related_run (hr : Cursor.Simulation related) (operations : List Operation)
    (h : related cursor copy) :
    (run operations copy).1 = (run operations cursor).1 ∧
      related (run operations cursor).2 (run operations copy).2 := by
  induction operations generalizing cursor copy with
  | nil => exact ⟨rfl, h⟩
  | cons operation others ih =>
    obtain ⟨hfirst, hbetween⟩ := related_step hr operation h
    obtain ⟨hothers, hlast⟩ := ih hbetween
    simp only [run, hfirst, hothers]
    exact ⟨trivial, hlast⟩

end Simulation

/-! ## One character ahead -/

theorem sequential_perform (operation : Operation) (text : List Char) (position : Nat) :
    Sequential operation.perform text position := by
  cases operation with
  | current => exact .bind_current (Scan.sequential_pure _)
  | pop => exact Scan.sequential_pop.bind fun _ _ _ _ _ => Scan.sequential_pure _
  | skipBlanks => exact Scan.sequential_skipBlanks.bind fun _ _ _ _ _ => Scan.sequential_pure _
  | accept wanted =>
    exact (Scan.sequential_accept wanted).bind fun _ _ _ _ _ => Scan.sequential_pure _
  | expect wanted =>
    exact (Scan.sequential_expect wanted).bind fun _ _ _ _ _ => Scan.sequential_pure _
  | atEnd => exact Scan.sequential_atEnd.bind fun _ _ _ _ _ => Scan.sequential_pure _
  | number exponents =>
    exact Number.sequential_scan.bind fun _ _ _ _ _ => Scan.sequential_pure _
  | quoted => exact Quoted.sequential_scan.bind fun _ _ _ _ _ => Scan.sequential_pure _
  | truth => exact Truth.sequential_scan.bind fun _ _ _ _ _ => Scan.sequential_pure _
  | name => exact Name.sequential_scan.bind fun _ _ _ _ _ => Scan.sequential_pure _

theorem passed_of_step (operation : Operation) (text : List Char) (position : Nat) :
    ∃ reply used rest, text = used ++ rest ∧ ∀ other : List Char, other.head? = rest.head? →
      operation.step (ask (used ++ other) position) =
        (reply, ask other (position + used.length)) := by
  obtain ⟨outcome, used, rest, ht, _, hall⟩ := sequential_perform operation text position
  refine ⟨outcome, used, rest, ht, ?_⟩
  intro other ho
  rw [step, hall other ho]
  cases outcome <;> rfl

/-- Steps pass a beginning of the text, and pass it alike in front of anything that starts with the
same character. -/
theorem passed_of_run (operations : List Operation) (text : List Char) (position : Nat) :
    ∃ replies used rest, text = used ++ rest ∧ ∀ other : List Char, other.head? = rest.head? →
      run operations (ask (used ++ other) position) =
        (replies, ask other (position + used.length)) := by
  induction operations generalizing text position with
  | nil => exact ⟨[], [], text, rfl, fun _ _ => rfl⟩
  | cons operation others ih =>
    obtain ⟨reply, used, rest, rfl, hstep⟩ := passed_of_step operation text position
    obtain ⟨replies, more, last, rfl, hrun⟩ := ih rest (position + used.length)
    refine ⟨reply :: replies, used ++ more, last, by rw [List.append_assoc], ?_⟩
    intro other ho
    have hh : (more ++ other).head? = (more ++ last).head? := by
      rw [List.head?_append, List.head?_append, ho]
    simp only [run, List.append_assoc, hstep _ hh, hrun other ho, List.length_append,
      Nat.add_assoc]

end Operation

/-! ## What every step keeps -/

namespace Cursor

/-- The same characters are still to be passed, and as many have been passed. -/
structure Level (cursor : Cursor σ) (copy : Cursor τ) : Prop where
  rest : copy.rest = cursor.rest
  position : copy.position = cursor.position

theorem Level.current {cursor : Cursor σ} {copy : Cursor τ} (h : Level cursor copy) :
    copy.current = cursor.current := by
  rw [current_eq_head?, current_eq_head?, h.rest]

theorem simulation_level : Simulation (Level : Cursor σ → Cursor τ → Prop) where
  current h := h.current
  position h := h.position
  advance {cursor copy} h := by
    refine ⟨by rw [rest_advance, rest_advance, h.rest], ?_⟩
    have hc := h.current
    cases hcurrent : cursor.current with
    | none =>
      rw [hcurrent] at hc
      rw [advance_of_none hc, advance_of_none hcurrent, h.position]
    | some c => rw [position_advance (hc.trans hcurrent), position_advance hcurrent, h.position]

theorem level_start (feed : σ) : Level (start feed) (start (Feed.chars feed)) where
  rest := by rw [rest_start, rest_start, Feed.chars_list]
  position := by rw [start, start, position_ask, position_ask]

theorem Simulation.and_kept {related : Cursor σ → Cursor τ → Prop} {Kept : Cursor σ → Prop}
    (hr : Simulation related) (hk : ∀ cursor, Kept cursor → Kept cursor.advance) :
    Simulation fun cursor copy => related cursor copy ∧ Kept cursor where
  current h := hr.current h.1
  position h := hr.position h.1
  advance h := ⟨hr.advance h.1, hk _ h.2⟩

end Cursor

namespace Operation

/-- What passing one character keeps, every step keeps. -/
theorem kept_run {Kept : Cursor σ → Prop} (hk : ∀ cursor, Kept cursor → Kept cursor.advance)
    (operations : List Operation) {cursor : Cursor σ} (h : Kept cursor) :
    Kept (run operations cursor).2 := by
  have hr : Cursor.Simulation fun cursor (copy : Cursor σ) =>
      Cursor.Level cursor copy ∧ Kept cursor :=
    Cursor.simulation_level.and_kept hk
  have hsame : Cursor.Level cursor cursor := ⟨rfl, rfl⟩
  exact (related_run hr operations ⟨hsame, h⟩).2.2

/-- On a feed of any kind, steps pass a beginning of its characters, and answer as on a text that
begins alike and goes on with the same character. -/
theorem level_run (operations : List Operation) (feed : σ) :
    ∃ used, Feed.chars feed = used ++ (run operations (.start feed)).2.rest ∧
      (run operations (.start feed)).2.position = used.length ∧
      ∀ other : List Char, other.head? = (run operations (.start feed)).2.current →
        run operations (.start (used ++ other)) =
          ((run operations (.start feed)).1, ask other used.length) := by
  obtain ⟨hreplies, hlevel⟩ :=
    related_run Cursor.simulation_level operations (Cursor.level_start feed)
  obtain ⟨replies, used, rest, hchars, hall⟩ := passed_of_run operations (Feed.chars feed) 0
  have hrun : run operations (.start (Feed.chars feed)) = (replies, ask rest used.length) := by
    have hask := hall rest rfl
    rwa [← hchars, Nat.zero_add] at hask
  rw [hrun] at hreplies hlevel
  have hrest : (run operations (.start feed)).2.rest = rest := by
    rw [← hlevel.rest]
    exact (Cursor.rest_ask rest _).trans (Feed.chars_list rest)
  refine ⟨used, by rw [hrest, hchars], ?_, ?_⟩
  · rw [← hlevel.position, Cursor.position_ask]
  · intro other ho
    have hhead : other.head? = rest.head? := by
      rw [ho, Cursor.current_eq_head?, hrest]
    have hask := hall other hhead
    rw [Nat.zero_add] at hask
    rw [← hreplies]
    exact hask

end Operation

namespace Metered

/-- The feed has been asked once for each place up to the current one, and closed once if that is
the end. -/
structure Counted (cursor : Cursor (Metered σ)) : Prop where
  asked : cursor.feed.asked = cursor.position + 1
  closed : cursor.feed.closed = if cursor.atEnd then 1 else 0

theorem counted_ask {feed : Metered σ} {position : Nat} (ha : feed.asked = position)
    (hc : feed.closed = 0) : Counted (ask feed position) := by
  subst ha
  unfold ask
  split
  · exact ⟨rfl, hc⟩
  · exact ⟨rfl, congrArg (· + 1) hc⟩

theorem counted_advance (cursor : Cursor (Metered σ)) (h : Counted cursor) :
    Counted cursor.advance := by
  cases hcurrent : cursor.current with
  | none => rwa [Cursor.advance_of_none hcurrent]
  | some c =>
    have hc := h.closed
    simp only [Cursor.atEnd, hcurrent, Option.isNone_some, Bool.false_eq_true, if_false] at hc
    rw [Cursor.advance_of_some hcurrent]
    exact counted_ask h.asked hc

end Metered

/-! ## Sources -/

/-- A source that gives one answer after the other, whatever they are: behind the first that is none
there may be characters again, and there need not be a first. A feed has to run dry, so it hands out
no more than `ration` of them. -/
structure Source where
  answers : Nat → Option Char
  ration : Nat
  place : Nat

namespace Source

instance : Feed Source where
  next source :=
    (if source.place < source.ration then source.answers source.place else none,
      { source with place := source.place + 1 })
  close source := source
  bound source := source.ration - source.place
  bound_next := by
    intro source c h
    split at h
    · dsimp only
      omega
    · cases h

def fresh (answers : Nat → Option Char) (ration : Nat) : Metered Source :=
  { feed := { answers, ration, place := 0 } }

def run (answers : Nat → Option Char) (ration : Nat) (operations : List Operation) :
    List (Except Fault Reply) × Cursor (Metered Source) :=
  Operation.run operations (.start (fresh answers ration))

variable {answers : Nat → Option Char} {ration : Nat} {cursor : Cursor (Metered Source)}

/-- The cursor has passed answers with a character only, and shows the next one if it is within the
ration. -/
structure Kept (answers : Nat → Option Char) (ration : Nat) (cursor : Cursor (Metered Source)) :
    Prop where
  feed : cursor.feed.feed = { answers, ration, place := cursor.position + 1 }
  passed : ∀ place < cursor.position, (answers place).isSome
  current : cursor.current = if cursor.position < ration then answers cursor.position else none

theorem kept_ask {feed : Metered Source} {position : Nat}
    (hf : feed.feed = { answers, ration, place := position })
    (hp : ∀ place < position, (answers place).isSome) :
    Kept answers ration (ask feed position) := by
  have hnext : (Feed.next feed).1 = if position < ration then answers position else none := by
    show (Feed.next feed.feed).1 = _
    rw [hf]
    rfl
  have hbehind : (Feed.next feed).2.feed = { answers, ration, place := position + 1 } := by
    show (Feed.next feed.feed).2 = _
    rw [hf]
    rfl
  unfold ask
  split
  · rename_i c hc
    exact ⟨hbehind, hp, hc.symm.trans hnext⟩
  · rename_i hc
    exact ⟨hbehind, hp, hc.symm.trans hnext⟩

theorem kept_start : Kept answers ration (.start (fresh answers ration)) :=
  kept_ask rfl (by simp)

theorem kept_advance (cursor : Cursor (Metered Source)) (h : Kept answers ration cursor) :
    Kept answers ration cursor.advance := by
  cases hcurrent : cursor.current with
  | none => rwa [Cursor.advance_of_none hcurrent]
  | some c =>
    rw [Cursor.advance_of_some hcurrent]
    refine kept_ask h.feed ?_
    intro place hlt
    by_cases hp : place < cursor.position
    · exact h.passed place hp
    · obtain rfl : place = cursor.position := by omega
      have hc := h.current
      rw [hcurrent] at hc
      split at hc
      · rw [← hc]
        rfl
      · cases hc

/-- What is still to be passed are the next answers, as far as the ration goes. -/
theorem Kept.getElem?_rest (h : Kept answers ration cursor) (n : Nat)
    (hp : ∀ place < cursor.position + n, (answers place).isSome)
    (hn : cursor.position + n < ration) : cursor.rest[n]? = answers (cursor.position + n) := by
  induction n generalizing cursor with
  | zero =>
    have hc := h.current
    rw [if_pos (by omega)] at hc
    rw [← List.head?_eq_getElem?, ← Cursor.current_eq_head?]
    exact hc
  | succ n ih =>
    have hc := h.current
    rw [if_pos (by omega)] at hc
    obtain ⟨c, hcurrent⟩ := Option.isSome_iff_exists.mp (hp cursor.position (by omega))
    rw [hcurrent] at hc
    have hplace : cursor.advance.position + n = cursor.position + (n + 1) := by
      rw [Cursor.position_advance hc]
      omega
    rw [Cursor.rest_of_some hc, List.getElem?_cons_succ,
      ih (kept_advance cursor h) (by rwa [hplace]) (by rwa [hplace]), hplace]

theorem getElem?_chars {place : Nat} (hp : ∀ earlier < place, (answers earlier).isSome)
    (hr : place < ration) :
    (Feed.chars (fresh answers ration))[place]? = answers place := by
  have hstart : Kept answers ration (.start (fresh answers ration)) := kept_start
  have hplace : (Cursor.start (fresh answers ration)).position + place = place := by
    rw [Cursor.start, Cursor.position_ask, Nat.zero_add]
  have hrest := hstart.getElem?_rest place
  rw [hplace, Cursor.rest_start] at hrest
  exact hrest hp hr

section Runs

variable {operations : List Operation} {replies : List (Except Fault Reply)}

theorem kept_of_run (h : run answers ration operations = (replies, cursor)) :
    Kept answers ration cursor := by
  have hstart : Kept answers ration (.start (fresh answers ration)) := kept_start
  have hkept := Operation.kept_run kept_advance operations hstart
  rw [← run, h] at hkept
  exact hkept

theorem counted_of_run (h : run answers ration operations = (replies, cursor)) :
    Metered.Counted cursor := by
  have hstart : Metered.Counted (.start (fresh answers ration)) := Metered.counted_ask rfl rfl
  have hcounted := Operation.kept_run Metered.counted_advance operations hstart
  rw [← run, h] at hcounted
  exact hcounted

/-- A text that shows the same up to the place behind `used` begins with `used`. -/
theorem split_of_getElem? {text used rest : List Char}
    (h : ∀ place ≤ used.length, text[place]? = (used ++ rest)[place]?) :
    text = used ++ text.drop used.length ∧ (text.drop used.length).head? = rest.head? := by
  have htake : text.take used.length = used := by
    refine List.ext_getElem? fun place => ?_
    by_cases hp : place < used.length
    · rw [List.getElem?_take_of_lt hp, h place (Nat.le_of_lt hp), List.getElem?_append_left hp]
    · rw [List.getElem?_eq_none (by rw [List.length_take]; omega),
        List.getElem?_eq_none (by omega)]
  refine ⟨?_, ?_⟩
  · have hsplit := List.take_append_drop used.length text
    rw [htake] at hsplit
    exact hsplit.symm
  · rw [List.head?_drop, h used.length (Nat.le_refl _),
      List.getElem?_append_right (Nat.le_refl _), Nat.sub_self, List.head?_eq_getElem?]

/-- Steps that stay within the ration answer as on any text that the answers spell up to the place
where the steps end. -/
theorem run_of_text (h : run answers ration operations = (replies, cursor))
    (hr : cursor.position < ration) {text : List Char}
    (ht : ∀ place ≤ cursor.position, text[place]? = answers place) :
    Operation.run operations (.start text) =
      (replies, ask (text.drop cursor.position) cursor.position) := by
  have hkept := kept_of_run h
  have hlevel := Operation.level_run operations (fresh answers ration)
  rw [← run, h] at hlevel
  dsimp only at hlevel
  obtain ⟨used, hchars, hposition, hall⟩ := hlevel
  have hsame : ∀ place ≤ used.length, text[place]? = (used ++ cursor.rest)[place]? := by
    intro place hp
    rw [ht place (by omega), ← hchars]
    exact (getElem?_chars (fun earlier he => hkept.passed earlier (by omega)) (by omega)).symm
  obtain ⟨hsplit, hhead⟩ := split_of_getElem? hsame
  have hrun := hall (text.drop used.length) (hhead.trans (Cursor.current_eq_head? cursor).symm)
  rw [← hsplit] at hrun
  rw [hposition]
  exact hrun

/-- A larger ration changes nothing for steps that stay within the smaller one. -/
theorem run_of_larger (h : run answers ration operations = (replies, cursor))
    (hr : cursor.position < ration) {larger : Nat} (hl : ration ≤ larger) :
    ∃ last, run answers larger operations = (replies, last) ∧
      last.position = cursor.position := by
  have hkept := kept_of_run h
  have htext : ∀ place ≤ cursor.position,
      (Feed.chars (fresh answers larger))[place]? = answers place := by
    intro place hp
    exact getElem?_chars (fun earlier he => hkept.passed earlier (by omega)) (by omega)
  obtain ⟨hreplies, hlevel⟩ := Operation.related_run Cursor.simulation_level operations
    (Cursor.level_start (fresh answers larger))
  rw [run_of_text h hr htext] at hreplies hlevel
  refine ⟨(run answers larger operations).2, ?_, ?_⟩
  · exact Prod.ext hreplies.symm rfl
  · rw [run, ← hlevel.position, Cursor.position_ask]

end Runs

/-- Whatever a source answers and whatever steps are taken, it is asked once for each character that
is passed and once for the current one, never behind the first answer without a character, and it is
closed once at the end and not before. Steps that stay within the ration stand behind the characters
they have passed, on the next answer. They answer as a cursor over any text that the answers spell
that far, all of it or a beginning, and under a larger ration nothing is different. -/
theorem run_of_answers (answers : Nat → Option Char) (ration : Nat) (operations : List Operation)
    (replies : List (Except Fault Reply)) (cursor : Cursor (Metered Source))
    (h : run answers ration operations = (replies, cursor)) :
    cursor.feed.asked = cursor.position + 1 ∧
    cursor.feed.closed = (if cursor.atEnd then 1 else 0) ∧
    (∀ place, answers place = none → cursor.position ≤ place) ∧
    (cursor.position < ration →
      cursor.current = answers cursor.position ∧
      (∀ text : List Char, (∀ place ≤ cursor.position, text[place]? = answers place) →
        Operation.run operations (.start text) =
          (replies, ask (text.drop cursor.position) cursor.position)) ∧
      ∀ larger, ration ≤ larger → ∃ last,
        run answers larger operations = (replies, last) ∧
          last.position = cursor.position ∧ last.current = cursor.current ∧
          last.feed.asked = cursor.feed.asked ∧ last.feed.closed = cursor.feed.closed) := by
  have hkept := kept_of_run h
  have hcounted := counted_of_run h
  refine ⟨hcounted.asked, hcounted.closed, ?_, ?_⟩
  · intro place hnone
    by_cases hlt : place < cursor.position
    · have hsome := hkept.passed place hlt
      rw [hnone] at hsome
      cases hsome
    · omega
  intro hr
  have hcurrent : cursor.current = answers cursor.position := by
    have hc := hkept.current
    rwa [if_pos hr] at hc
  refine ⟨hcurrent, fun text ht => run_of_text h hr ht, ?_⟩
  intro larger hle
  obtain ⟨last, hlast, hposition⟩ := run_of_larger h hr hle
  have hsame : last.current = cursor.current := by
    have hc := (kept_of_run hlast).current
    rw [if_pos (by omega), hposition] at hc
    rw [hc, hcurrent]
  have hcounted' := counted_of_run hlast
  refine ⟨last, hlast, hposition, hsame, ?_, ?_⟩
  · rw [hcounted'.asked, hcounted.asked, hposition]
  · rw [hcounted'.closed, hcounted.closed, Cursor.atEnd, Cursor.atEnd, hsame]

theorem run_of_interrupted :
    ∃ cursor, run (fun place => [some 't', some 'x', none, some 'y'][place]?.join) 4
        [.truth, .pop, .current, .pop, .atEnd] =
          ([.error (.expected 'r' 1), .ok (.character (some 'x')), .ok (.character none),
            .ok (.character none), .ok (.test true)], cursor) ∧
      cursor.feed.asked = 3 ∧ cursor.feed.closed = 1 ∧ cursor.position < 4 ∧
      Operation.run [.truth, .pop, .current, .pop, .atEnd] (.start ['t', 'x']) =
        ([.error (.expected 'r' 1), .ok (.character (some 'x')), .ok (.character none),
          .ok (.character none), .ok (.test true)], ask [] 2) := by
  obtain ⟨hasked, hclosed, _, hwithin⟩ := run_of_answers
    (fun place => [some 't', some 'x', none, some 'y'][place]?.join) 4
    [.truth, .pop, .current, .pop, .atEnd] _ _ rfl
  have hposition : (2 : Nat) < 4 := by decide
  obtain ⟨_, htext, _⟩ := hwithin hposition
  refine ⟨_, rfl, hasked, hclosed, hposition, htext ['t', 'x'] ?_⟩
  intro place hle
  match place, hle with
  | 0, _ => rfl
  | 1, _ => rfl
  | 2, _ => rfl

end Source

end Marksheet
