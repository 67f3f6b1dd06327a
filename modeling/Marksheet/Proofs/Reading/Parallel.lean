import Marksheet.Proofs.Reading.Lists
import Marksheet.Proofs.Reading.Simulation

/-!
# Marksheet.Proofs.Reading.Parallel

The grammar run side by side with two scans for the terms that are nested in a term. The two runs
stay alike as long as the scans of the nested terms do, and these start only behind a character
that the outer term has passed.

* `Scan.Paired`, `Scan.Parallel` : two runs with one outcome, and how their cursors are related.
* `Cursor.Inward` : a relation of cursors and a narrower one that holds behind every character.
* `Formula.paired_termOf` : it is enough that nested terms are paired on what is left behind the
  first character.
* `Formula.termOf_congr` : a term depends on its scan for nested terms nowhere else.
-/

namespace Marksheet

variable {σ τ α β : Type}

namespace Scan

/-- The same answer, the cursors then related by `kept`, or the same fault, the cursors then related
by `failed`. -/
inductive Paired (kept failed : Cursor σ → Cursor τ → Prop) :
    EStateM.Result Fault (Cursor σ) α → EStateM.Result Fault (Cursor τ) α → Prop where
  | ok {x : α} {behind : Cursor σ} {copy : Cursor τ} : kept behind copy →
      Paired kept failed (.ok x behind) (.ok x copy)
  | error {fault : Fault} {behind : Cursor σ} {copy : Cursor τ} : failed behind copy →
      Paired kept failed (.error fault behind) (.error fault copy)

/-- From cursors that are related by `start` the two scans end as a pair. -/
def Parallel (start kept failed : Cursor σ → Cursor τ → Prop) (scan : Scan σ α)
    (other : Scan τ α) : Prop :=
  ∀ cursor copy, start cursor copy → Paired kept failed (scan cursor) (other copy)

variable {start between kept wider failed : Cursor σ → Cursor τ → Prop} {scan : Scan σ α}
  {other : Scan τ α} {next : α → Scan σ β} {otherNext : α → Scan τ β} {cursor : Cursor σ}
  {copy : Cursor τ}

theorem Paired.imp {result : EStateM.Result Fault (Cursor σ) α}
    {again : EStateM.Result Fault (Cursor τ) α} (h : Paired kept failed result again)
    (hk : ∀ x behind last, again = .ok x last → kept behind last → wider behind last) :
    Paired wider failed result again := by
  cases h with
  | ok hb => exact .ok (hk _ _ _ rfl hb)
  | error hb => exact .error hb

theorem Paired.ok_of_eq {result : EStateM.Result Fault (Cursor σ) α}
    {again : EStateM.Result Fault (Cursor τ) α} {x : α} {last : Cursor τ}
    (h : Paired kept failed result again) (ha : again = .ok x last) :
    ∃ behind, result = .ok x behind ∧ kept behind last := by
  subst ha
  cases h with
  | ok hb => exact ⟨_, rfl, hb⟩

theorem Paired.error_of_eq {result : EStateM.Result Fault (Cursor σ) α}
    {again : EStateM.Result Fault (Cursor τ) α} {fault : Fault} {last : Cursor τ}
    (h : Paired kept failed result again) (ha : again = .error fault last) :
    ∃ behind, result = .error fault behind ∧ failed behind last := by
  subst ha
  cases h with
  | error hb => exact ⟨_, rfl, hb⟩

/-- What follows may rely on how the first two scans ended. -/
theorem Paired.bind (hs : Paired between failed (scan cursor) (other copy))
    (hn : ∀ x behind last, scan cursor = .ok x behind → other copy = .ok x last →
      between behind last → Paired kept failed (next x behind) (otherNext x last)) :
    Paired kept failed ((scan >>= next) cursor) ((other >>= otherNext) copy) := by
  cases ho : other copy with
  | ok x last =>
    obtain ⟨behind, hr, hb⟩ := hs.ok_of_eq ho
    rw [bind_of_ok hr, bind_of_ok ho]
    exact hn x behind last hr ho hb
  | error fault last =>
    obtain ⟨behind, hr, hb⟩ := hs.error_of_eq ho
    rw [bind_of_error hr, bind_of_error ho]
    exact .error hb

theorem Paired.of_eq {result again : EStateM.Result Fault (Cursor σ) α} (h : result = again) :
    Paired Eq Eq result again := by
  subst h
  cases result with
  | ok x behind => exact .ok rfl
  | error fault behind => exact .error rfl

theorem Paired.eq {result again : EStateM.Result Fault (Cursor σ) α}
    (h : Paired Eq Eq result again) : result = again := by
  cases h with
  | ok hb => rw [hb]
  | error hb => rw [hb]

theorem run_ok [Feed σ] {feed : σ} {x : α} (h : scan.run feed = .ok x) :
    ∃ behind, scan (.start feed) = .ok x behind := by
  have hs : EStateM.run scan (.start feed) = scan (.start feed) := rfl
  rw [run, hs] at h
  split at h
  · rename_i behind hb
    cases h
    exact ⟨behind, hb⟩
  · cases h

theorem Paired.run_eq [Feed σ] [Feed τ] {feed : σ} {again : τ}
    (h : Paired kept failed (scan (.start feed)) (other (.start again))) :
    scan.run feed = other.run again := by
  have hl : EStateM.run scan (.start feed) = scan (.start feed) := rfl
  have hr : EStateM.run other (.start again) = other (.start again) := rfl
  rw [run, run, hl, hr]
  generalize scan (.start feed) = result at h
  generalize other (.start again) = deeper at h
  cases h with
  | ok hb => rfl
  | error hb => rfl

theorem Parallel.bind (hs : Parallel start between failed scan other)
    (hn : ∀ x, Parallel between kept failed (next x) (otherNext x)) :
    Parallel start kept failed (scan >>= next) (other >>= otherNext) :=
  fun _ _ h => (hs _ _ h).bind fun _ _ _ _ _ hb => hn _ _ _ hb

theorem Simulates.parallel (hs : Simulates kept scan other)
    (hf : ∀ {cursor copy}, kept cursor copy → failed cursor copy) :
    Parallel kept kept failed scan other := by
  intro cursor copy h
  have hend := hs cursor copy h
  generalize scan cursor = result at hend
  generalize other copy = again at hend
  cases hend with
  | ok hb => exact .ok hb
  | error hb => exact .error (hf hb)

theorem simulates_throw_get (fault : Cursor σ → Fault) (again : Cursor τ → Fault)
    (hf : ∀ cursor copy, kept cursor copy → again copy = fault cursor) :
    Simulates kept (get >>= fun cursor => (throw (fault cursor) : Scan σ α))
      (get >>= fun cursor => throw (again cursor)) := by
  intro cursor copy h
  have he : (get >>= fun cursor => (throw (again cursor) : Scan τ α)) copy =
      .error (fault cursor) copy := by
    rw [← hf cursor copy h]
    rfl
  rw [he]
  exact .error h

end Scan

namespace Cursor

/-- Two relations of cursors, the inner one narrower. Whoever passes a character comes inside, and
nobody leaves. -/
structure Inward [Feed σ] [Feed τ] (outer inner failed : Cursor σ → Cursor τ → Prop) : Prop where
  around : Simulation outer
  inside : Simulation inner
  widen : ∀ {cursor copy}, inner cursor copy → outer cursor copy
  fail : ∀ {cursor copy}, outer cursor copy → failed cursor copy
  pass : ∀ {cursor copy}, outer cursor copy → cursor.current ≠ none →
    inner cursor.advance copy.advance

variable [Feed σ] [Feed τ] {outer inner failed : Cursor σ → Cursor τ → Prop}
  {cursor : Cursor σ} {copy : Cursor τ}

namespace Inward

theorem fail_of_inner (h : Inward outer inner failed) (hi : inner cursor copy) :
    failed cursor copy :=
  h.fail (h.widen hi)

theorem of_eq :
    Inward (Eq : Cursor σ → Cursor σ → Prop) Eq Eq := by
  have hs : Simulation (Eq : Cursor σ → Cursor σ → Prop) :=
    ⟨fun h => h ▸ rfl, fun h => h ▸ rfl, fun h => h ▸ rfl⟩
  exact ⟨hs, hs, id, id, fun h _ => h ▸ rfl⟩

/-- Inside, less than `size` is left; outside, no more, and as soon as it is less the inner relation
holds. -/
theorem below (h : Inward outer inner failed) (size : Nat) :
    Inward
      (fun cursor copy => outer cursor copy ∧ copy.size ≤ size ∧
        (copy.size < size → inner cursor copy))
      (fun cursor copy => inner cursor copy ∧ copy.size < size) failed := by
  have hpass : ∀ {cursor : Cursor σ} {copy : Cursor τ}, outer cursor copy → copy.size ≤ size →
      cursor.current ≠ none → inner cursor.advance copy.advance ∧ copy.advance.size < size := by
    intro cursor copy ho hle hc
    obtain ⟨c, hsome⟩ := Option.ne_none_iff_exists'.mp hc
    have hlt := size_advance_lt ((h.around.current ho).trans hsome)
    exact ⟨h.pass ho hc, Nat.lt_of_lt_of_le hlt hle⟩
  refine ⟨⟨?_, ?_, ?_⟩, ⟨?_, ?_, ?_⟩, ?_, ?_, ?_⟩
  · exact fun ho => h.around.current ho.1
  · exact fun ho => h.around.position ho.1
  · intro cursor copy ho
    by_cases hc : cursor.current = none
    · rw [advance_of_none hc, advance_of_none ((h.around.current ho.1).trans hc)]
      exact ho
    · obtain ⟨hin, hlt⟩ := hpass ho.1 ho.2.1 hc
      exact ⟨h.widen hin, Nat.le_of_lt hlt, fun _ => hin⟩
  · exact fun hi => h.inside.current hi.1
  · exact fun hi => h.inside.position hi.1
  · exact fun hi => ⟨h.inside.advance hi.1, Nat.lt_of_le_of_lt (size_advance_le _) hi.2⟩
  · exact fun hi => ⟨h.widen hi.1, Nat.le_of_lt hi.2, fun _ => hi.1⟩
  · exact fun ho => h.fail ho.1
  · exact fun ho hc => hpass ho.1 ho.2.1 hc

theorem inner_of_accept (h : Inward outer inner failed) (ho : outer cursor copy) {wanted : Char}
    {behind : Cursor σ} {last : Cursor τ} (hb : Scan.accept wanted cursor = .ok true behind)
    (hl : Scan.accept wanted copy = .ok true last) : inner behind last := by
  have hskip : outer cursor.skipBlanks copy.skipBlanks :=
    (Scan.related_takeWhile h.around Text.isBlank ho).2
  have hcursor := Scan.accept_ok hb
  have hcopy := Scan.accept_ok hl
  have hc : cursor.skipBlanks.current = some wanted :=
    accept_eq_true_iff.mp (congrArg Prod.fst hcursor)
  have hc' : copy.skipBlanks.current = some wanted :=
    accept_eq_true_iff.mp (congrArg Prod.fst hcopy)
  rw [accept, if_pos hc] at hcursor
  rw [accept, if_pos hc'] at hcopy
  cases hcursor
  cases hcopy
  exact h.pass hskip (by simp [hc])

end Inward

end Cursor

namespace Formula

open Scan (Simulates Paired Parallel)
open Cursor (Simulation Inward)

variable [Feed σ] [Feed τ] {outer inner failed related : Cursor σ → Cursor τ → Prop}

/-! ## What holds no terms -/

section Factors

variable (hr : Simulation related)
include hr

theorem simulates_requiredNumber : Simulates related requiredNumber requiredNumber := by
  refine (Scan.simulates_skipBlanks hr).bind fun _ => ?_
  refine (Scan.simulates_position hr).bind fun position => ?_
  refine (Number.simulates_scan hr true).bind ?_
  intro value
  cases value with
  | some value => exact Scan.simulates_pure value
  | none => exact Scan.simulates_throw _

theorem simulates_trailingFactor : Simulates related trailingFactor trailingFactor := by
  refine (Scan.simulates_accept hr '*').bind ?_
  intro found
  cases found with
  | true => exact (simulates_requiredNumber hr).bind fun _ => Scan.simulates_pure _
  | false =>
    refine (Scan.simulates_current hr).bind ?_
    intro current
    by_cases hs : startsFactor current = true
    · simp only [hs, if_true]
      exact Number.simulates_scan hr true
    · simp only [hs]
      exact Scan.simulates_pure none

theorem simulates_groupFactor (leading : Option Float) :
    Simulates related (groupFactor leading) (groupFactor leading) := by
  cases leading with
  | some value => exact Scan.simulates_pure _
  | none => exact simulates_trailingFactor hr

theorem simulates_starred (leading : Option Float) :
    Simulates related (starred leading) (starred leading) := by
  cases leading with
  | some value => exact Scan.simulates_accept hr '*'
  | none => exact Scan.simulates_pure false

theorem simulates_divisor : Simulates related divisor divisor := by
  refine (Scan.simulates_accept hr '/').bind ?_
  intro found
  cases found with
  | true => exact (simulates_requiredNumber hr).bind fun _ => Scan.simulates_pure _
  | false => exact Scan.simulates_pure none

theorem unexpected_of_simulation {cursor : Cursor σ} {copy : Cursor τ} (h : related cursor copy) :
    copy.unexpected = cursor.unexpected := by
  rw [Cursor.unexpected, Cursor.unexpected, hr.current h, hr.position h]

theorem missingOperand_of_simulation (start : Nat) {cursor : Cursor σ} {copy : Cursor τ}
    (h : related cursor copy) : missingOperand start copy = missingOperand start cursor := by
  rw [missingOperand, missingOperand, hr.current h, unexpected_of_simulation hr h]

end Factors

/-! ## What holds terms -/

variable {item : Item σ Formula} {other : Item τ Formula}

theorem parallel_separated (hin : Inward outer inner failed) (separator : Char)
    (hi : Parallel inner inner failed item.scan other.scan) :
    Parallel inner inner failed (separated separator item) (separated separator other) := by
  intro cursor copy h
  induction hn : copy.size using Nat.strongRecOn generalizing cursor copy with
  | _ n ih =>
    subst hn
    rw [separated_eq separator item, separated_eq separator other]
    refine (hi cursor copy h).bind ?_
    intro first behind last _ hlast hb
    have hlt := other.advancing _ _ _ hlast
    have ha := (Scan.simulates_accept hin.inside separator).parallel hin.fail_of_inner
      behind last hb
    refine ha.bind ?_
    intro found next after _ hafter hnext
    have hle := Scan.forward_accept _ _ _ _ hafter
    cases found with
    | false => exact .ok hnext
    | true =>
      refine (ih after.size (Nat.lt_of_le_of_lt hle hlt) next after hnext rfl).bind ?_
      exact fun _ _ _ _ _ hb => .ok hb

theorem parallel_enclosed (hin : Inward outer inner failed) (separator : Char)
    (hi : Parallel inner inner failed item.scan other.scan) :
    Parallel inner inner failed (enclosed separator item) (enclosed separator other) := by
  refine (parallel_separated hin separator hi).bind ?_
  intro items
  refine Simulates.parallel ?_ hin.fail_of_inner
  exact (Scan.simulates_expect hin.inside ')').bind fun _ => Scan.simulates_pure items

theorem parallel_callOf (hin : Inward outer inner failed) (name : String)
    (hi : Parallel inner inner failed item.scan other.scan) :
    Parallel inner inner failed (callOf name item) (callOf name other) := by
  unfold callOf
  cases NamedFunction.ofName? name with
  | none => exact fun _ _ h => .error (hin.fail_of_inner h)
  | some function =>
    refine (parallel_enclosed hin ',' hi).bind ?_
    intro arguments
    refine Simulates.parallel ?_ hin.fail_of_inner
    exact (Scan.simulates_lift _).bind fun _ => Scan.simulates_lift _

/-- The members of a group or call stand behind a parenthesis that has been passed. -/
theorem parallel_operand (hin : Inward outer inner failed) (start : Nat)
    (leading : Option Float) (star : Bool)
    (hi : Parallel inner inner failed item.scan other.scan) :
    Parallel outer outer failed (operand item start leading star)
      (operand other start leading star) := by
  intro cursor copy h
  have ha := (Scan.simulates_accept hin.around '(').parallel hin.fail cursor copy h
  refine ha.bind ?_
  intro found opened last hcursor hcopy hopened
  cases found with
  | true =>
    refine Paired.imp ?_ fun _ _ _ _ => hin.widen
    refine (parallel_enclosed hin '+' hi _ _ (hin.inner_of_accept h hcursor hcopy)).bind ?_
    intro members behind after _ _ hb
    refine Simulates.parallel ?_ hin.fail_of_inner behind after hb
    refine (simulates_groupFactor hin.inside leading).bind fun factor => ?_
    exact (Scan.simulates_lift _).bind fun _ => Scan.simulates_pure _
  | false =>
    have hn := (Name.simulates_scan hin.around).parallel hin.fail opened last hopened
    refine hn.bind ?_
    intro name named copied _ _ hnamed
    cases name with
    | some name =>
      have hc := (Scan.simulates_current hin.around).parallel hin.fail named copied hnamed
      refine hc.bind ?_
      intro current _ _ hcurrent hcopied _
      obtain ⟨hnow, rfl⟩ := Scan.current_ok hcurrent
      obtain ⟨_, rfl⟩ := Scan.current_ok hcopied
      by_cases hp : current = some '('
      · simp only [hp, if_true]
        have hinner := hin.pass hnamed (by simp [hnow, hp])
        refine Paired.imp ?_ fun _ _ _ _ => hin.widen
        refine (parallel_callOf hin name hi _ _ hinner).bind ?_
        exact fun _ _ _ _ _ hb => .ok hb
      · simp only [hp, if_false]
        exact .ok hnamed
    | none =>
      by_cases hl : (leading.isSome && !star) = true
      · simp only [hl, if_true]
        exact .ok hnamed
      · simp only [hl]
        refine Simulates.parallel ?_ hin.fail _ _ hnamed
        exact Scan.simulates_throw_get (missingOperand start) (missingOperand start)
          fun _ _ h => missingOperand_of_simulation hin.around start h

theorem parallel_termOf (hin : Inward outer inner failed)
    (hi : Parallel inner inner failed item.scan other.scan) :
    Parallel outer outer failed (termOf item) (termOf other) := by
  have hs : ∀ {α : Type} {scan : Scan σ α} {again : Scan τ α}, Simulates outer scan again →
      Parallel outer outer failed scan again :=
    fun hs => hs.parallel hin.fail
  refine (hs (Scan.simulates_skipBlanks hin.around)).bind fun _ => ?_
  refine (hs (Scan.simulates_position hin.around)).bind fun start => ?_
  refine (hs (Number.simulates_scan hin.around false)).bind fun leading => ?_
  refine (hs (simulates_starred hin.around leading)).bind fun star => ?_
  refine (parallel_operand hin start leading star hi).bind ?_
  rintro ⟨formula, factor⟩
  refine (hs (simulates_divisor hin.around)).bind fun divided => ?_
  exact hs (Scan.simulates_lift _)

/-- Two terms are paired when the terms nested in them are, from cursors behind the first character
on; and then they end inside, as a term passes at least one character. -/
theorem paired_termOf (hin : Inward outer inner failed) {cursor : Cursor σ} {copy : Cursor τ}
    (h : outer cursor copy)
    (hi : ∀ deeper again, inner deeper again → again.size < copy.size →
      Paired inner failed (item.scan deeper) (other.scan again)) :
    Paired inner failed (termOf item cursor) (termOf other copy) := by
  have hitem : Parallel (fun deeper again => inner deeper again ∧ again.size < copy.size)
      (fun deeper again => inner deeper again ∧ again.size < copy.size) failed
      item.scan other.scan := by
    intro deeper again hd
    refine (hi deeper again hd.1 hd.2).imp ?_
    intro _ behind last ho hb
    exact ⟨hb, Nat.lt_trans (other.advancing _ _ _ ho) hd.2⟩
  have hstart : outer cursor copy ∧ copy.size ≤ copy.size ∧
      (copy.size < copy.size → inner cursor copy) :=
    ⟨h, Nat.le_refl _, fun hlt => absurd hlt (Nat.lt_irrefl _)⟩
  refine (parallel_termOf (hin.below copy.size) hitem cursor copy hstart).imp ?_
  intro _ _ _ ho hb
  exact hb.2.2 (advancing_termOf other _ _ _ ho)

theorem termOf_congr {item other : Item σ Formula} {cursor : Cursor σ}
    (h : ∀ deeper : Cursor σ, deeper.size < cursor.size → item.scan deeper = other.scan deeper) :
    termOf item cursor = termOf other cursor := by
  refine Paired.eq (paired_termOf .of_eq rfl ?_)
  rintro deeper _ rfl hlt
  exact .of_eq (h deeper hlt)

end Formula

end Marksheet
