import Marksheet.Fault

/-!
# Marksheet.Proofs.Outcome

Computations that may fault, taken apart: a sequence answers when each of its steps does.

* `FaultsAre` : every fault of the computation is of one kind.
* `FaultsAre.bind`, `FaultsAre.mapM`, `FaultsAre.foldlM` : this holds of a computation when it holds
  of its steps.
-/

namespace Marksheet

variable {ε α β γ : Type}

theorem ok_of_bind {x : Except ε α} {next : α → Except ε β} {y : β} (h : x >>= next = .ok y) :
    ∃ a, x = .ok a ∧ next a = .ok y := by
  cases x with
  | error fault => cases h
  | ok a => exact ⟨a, rfl, h⟩

@[simp] theorem ok_bind (a : α) (next : α → Except ε β) : (.ok a >>= next) = next a := rfl

@[simp] theorem error_bind (fault : ε) (next : α → Except ε β) :
    ((.error fault : Except ε α) >>= next) = .error fault := rfl

theorem map_eq_of_mapM {f : α → Except ε β} {g : α → γ} {r : β → γ} {xs : List α} {ys : List β}
    (h : xs.mapM f = .ok ys) (hf : ∀ x ∈ xs, ∀ y, f x = .ok y → r y = g x) :
    ys.map r = xs.map g := by
  induction xs generalizing ys with
  | nil => cases h; rfl
  | cons x xs ih =>
    rw [List.mapM_cons] at h
    obtain ⟨y, hy, h⟩ := ok_of_bind h
    obtain ⟨others, ho, h⟩ := ok_of_bind h
    cases h
    rw [List.map_cons, List.map_cons, hf x List.mem_cons_self y hy,
      ih ho fun x' hx => hf x' (List.mem_cons_of_mem x hx)]

theorem map_of_mapM {f : α → Except ε β} {g : α → β} {xs : List α} {ys : List β}
    (h : xs.mapM f = .ok ys) (hf : ∀ x ∈ xs, ∀ y, f x = .ok y → y = g x) : ys = xs.map g := by
  rw [← map_eq_of_mapM (r := id) h hf, List.map_id]

theorem length_of_mapM {f : α → Except ε β} {xs : List α} {ys : List β} (h : xs.mapM f = .ok ys) :
    ys.length = xs.length := by
  have hunits : ys.map (fun _ => ()) = xs.map fun _ => () := map_eq_of_mapM h fun _ _ _ _ => rfl
  simpa using congrArg List.length hunits

theorem ok_of_mapM {f : α → Except ε β} {xs : List α} {ys : List β} (h : xs.mapM f = .ok ys) :
    ∀ x ∈ xs, ∃ y, f x = .ok y := by
  induction xs generalizing ys with
  | nil => simp
  | cons x xs ih =>
    rw [List.mapM_cons] at h
    obtain ⟨y, hy, h⟩ := ok_of_bind h
    obtain ⟨others, ho, _⟩ := ok_of_bind h
    intro x' hx
    rcases List.mem_cons.mp hx with rfl | hx
    · exact ⟨y, hy⟩
    · exact ih ho x' hx

theorem exists_of_mapM {f : α → Except ε β} {xs : List α} {ys : List β} (h : xs.mapM f = .ok ys) :
    ∀ y ∈ ys, ∃ x ∈ xs, f x = .ok y := by
  induction xs generalizing ys with
  | nil =>
    cases h
    simp
  | cons x xs ih =>
    rw [List.mapM_cons] at h
    obtain ⟨y, hy, h⟩ := ok_of_bind h
    obtain ⟨others, ho, h⟩ := ok_of_bind h
    cases h
    intro y' hy'
    rcases List.mem_cons.mp hy' with rfl | hy'
    · exact ⟨x, List.mem_cons_self, hy⟩
    · obtain ⟨x', hx', hf⟩ := ih ho y' hy'
      exact ⟨x', List.mem_cons_of_mem x hx', hf⟩

/-- What each step of a fold keeps holds of its result. -/
theorem foldlM_preserves {f : β → α → Except ε β} {p : β → Prop} {xs : List α} {start result : β}
    (hp : ∀ y, p y → ∀ x ∈ xs, ∀ z, f y x = .ok z → p z) (hs : p start)
    (h : xs.foldlM f start = .ok result) : p result := by
  induction xs generalizing start with
  | nil =>
    cases h
    exact hs
  | cons x xs ih =>
    rw [List.foldlM_cons] at h
    obtain ⟨next, hn, h⟩ := ok_of_bind h
    exact ih (fun y hy x' hx => hp y hy x' (List.mem_cons_of_mem x hx))
      (hp start hs x List.mem_cons_self next hn) h

theorem mapM_of_ok {f : α → Except ε β} {g : α → β} {xs : List α}
    (h : ∀ x ∈ xs, f x = .ok (g x)) : xs.mapM f = .ok (xs.map g) := by
  induction xs with
  | nil => rfl
  | cons x xs ih =>
    rw [List.mapM_cons, h x List.mem_cons_self, ok_bind,
      ih fun x' hx => h x' (List.mem_cons_of_mem x hx)]
    rfl

/-- A traversal ends with the first fault. -/
theorem mapM_of_error {f : α → Except ε β} {g : α → β} {before after : List α} {x : α} {fault : ε}
    (h : ∀ y ∈ before, f y = .ok (g y)) (hx : f x = .error fault) :
    (before ++ x :: after).mapM f = .error fault := by
  rw [List.mapM_append, mapM_of_ok h, ok_bind, List.mapM_cons, hx, error_bind, error_bind]

/-- All members have a property, or there is a first that has not. -/
theorem forall_or_first (p : α → Prop) [DecidablePred p] (xs : List α) :
    (∀ x ∈ xs, p x) ∨ ∃ before x after, xs = before ++ x :: after ∧ (∀ y ∈ before, p y) ∧ ¬ p x := by
  cases hf : xs.find? fun x => !decide (p x) with
  | none =>
    left
    simpa using hf
  | some x =>
    right
    obtain ⟨hp, before, after, rfl, hb⟩ := List.find?_eq_some_iff_append.mp hf
    exact ⟨before, x, after, rfl, by simpa using hb, by simpa using hp⟩

def fault? : Except ε α → Option ε
  | .ok _ => none
  | .error fault => some fault

theorem error_of_fault? {x : Except ε α} {fault : ε} (h : fault? x = some fault) :
    x = .error fault := by
  cases x with
  | ok a => cases h
  | error other => cases h; rfl

theorem exists_ok {x : Except ε α} (h : (fault? x).isNone = true) : ∃ a, x = .ok a := by
  cases x with
  | ok a => exact ⟨a, rfl⟩
  | error fault => cases h

/-! ## Kinds of faults -/

/-- The faults of evaluating a term that has been read, however deep it is nested. -/
def Fault.OfEvaluation : Fault → Prop
  | .arity .. | .unknownFunction _ | .divisionByZero | .overflow => True
  | _ => False

/-- The faults of calculating with what has been read: they name no place in a text, and no
weighting. -/
def Fault.OfCalculation : Fault → Prop
  | .arity .. | .unknownFunction _ | .divisionByZero | .tooDeep _ | .overflow => True
  | _ => False

theorem Fault.OfEvaluation.ofCalculation {fault : Fault} (h : fault.OfEvaluation) :
    fault.OfCalculation := by
  cases fault <;> first | exact h | cases h

theorem Fault.OfCalculation.position? {fault : Fault} (h : fault.OfCalculation) :
    fault.position? = none := by
  cases fault <;> first | rfl | cases h

/-- If the computation faults, the fault is of that kind. -/
def FaultsAre (kind : Fault → Prop) (r : Except Fault α) : Prop :=
  ∀ fault, r = .error fault → kind fault

namespace FaultsAre

variable {kind other : Fault → Prop}

theorem ok (x : α) : FaultsAre kind (.ok x) := by
  intro fault h
  cases h

theorem error {fault : Fault} (h : kind fault) :
    FaultsAre kind (.error fault : Except Fault α) := by
  intro other ho
  cases ho
  exact h

theorem mono {r : Except Fault α} (hr : FaultsAre kind r)
    (hk : ∀ fault, kind fault → other fault) : FaultsAre other r :=
  fun fault h => hk fault (hr fault h)

theorem ofCalculation {r : Except Fault α} (hr : FaultsAre Fault.OfEvaluation r) :
    FaultsAre Fault.OfCalculation r :=
  hr.mono fun _ => Fault.OfEvaluation.ofCalculation

theorem bind_of_ok {r : Except Fault α} {next : α → Except Fault β} (hr : FaultsAre kind r)
    (hn : ∀ x, r = .ok x → FaultsAre kind (next x)) : FaultsAre kind (r >>= next) := by
  cases r with
  | ok x => exact hn x rfl
  | error fault => exact .error (hr fault rfl)

theorem bind {r : Except Fault α} {next : α → Except Fault β} (hr : FaultsAre kind r)
    (hn : ∀ x, FaultsAre kind (next x)) : FaultsAre kind (r >>= next) :=
  hr.bind_of_ok fun x _ => hn x

theorem mapM_of_mem {f : α → Except Fault β} {xs : List α}
    (hf : ∀ x ∈ xs, FaultsAre kind (f x)) : FaultsAre kind (xs.mapM f) := by
  induction xs with
  | nil => exact .ok []
  | cons x xs ih =>
    obtain ⟨hfirst, hothers⟩ := List.forall_mem_cons.mp hf
    rw [List.mapM_cons]
    exact hfirst.bind fun y => (ih hothers).bind fun ys => .ok (y :: ys)

theorem mapM {f : α → Except Fault β} (hf : ∀ x, FaultsAre kind (f x)) (xs : List α) :
    FaultsAre kind (xs.mapM f) :=
  mapM_of_mem fun x _ => hf x

/-- A fold whose steps keep what rules out other faults. -/
theorem foldlM_of_preserves {f : β → α → Except Fault β} {p : β → Prop} {xs : List α} {start : β}
    (hf : ∀ y, p y → ∀ x ∈ xs, FaultsAre kind (f y x))
    (hp : ∀ y, p y → ∀ x ∈ xs, ∀ z, f y x = .ok z → p z) (hs : p start) :
    FaultsAre kind (xs.foldlM f start) := by
  induction xs generalizing start with
  | nil => exact .ok start
  | cons x xs ih =>
    rw [List.foldlM_cons]
    refine (hf start hs x List.mem_cons_self).bind_of_ok fun next hn => ?_
    exact ih (fun y hy x' hx => hf y hy x' (List.mem_cons_of_mem x hx))
      (fun y hy x' hx => hp y hy x' (List.mem_cons_of_mem x hx))
      (hp start hs x List.mem_cons_self next hn)

theorem foldlM {f : β → α → Except Fault β} (hf : ∀ y x, FaultsAre kind (f y x)) (xs : List α)
    (y : β) : FaultsAre kind (xs.foldlM f y) :=
  foldlM_of_preserves (p := fun _ => True) (fun y _ x _ => hf y x) (fun _ _ _ _ _ _ => trivial)
    trivial

end FaultsAre

end Marksheet
