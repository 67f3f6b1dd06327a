import Marksheet.Text

/-!
# Marksheet.Proofs.Text.Runs

Runs of characters in a text, and runs of digits.

* `takeWhile_run`, `dropWhile_run` : a run ends in front of a character that does not belong to it.
* `Text.dropEndWhile_run` : the same for a run at the end of a text.
* `digitsValue_decimalDigits` : the digits of a number write this number.
* `head_decimalDigits` : they have no leading zero, unless it is the only one.
-/

namespace Marksheet

variable {p : Char → Bool} {run rest : List Char}

theorem takeWhile_run (hr : ∀ c ∈ run, p c = true)
    (hs : ∀ c, rest.head? = some c → p c = false) : (run ++ rest).takeWhile p = run := by
  rw [List.takeWhile_append_of_pos hr]
  cases rest with
  | nil => simp
  | cons c rest => simp [hs c rfl]

theorem dropWhile_run (hr : ∀ c ∈ run, p c = true)
    (hs : ∀ c, rest.head? = some c → p c = false) : (run ++ rest).dropWhile p = rest := by
  rw [List.dropWhile_append_of_pos hr]
  cases rest with
  | nil => rfl
  | cons c rest => simp [hs c rfl]

theorem takeWhile_all (p : Char → Bool) (text : List Char) : ∀ c ∈ text.takeWhile p, p c = true :=
  List.all_eq_true.mp List.all_takeWhile

theorem dropWhile_stops (p : Char → Bool) (text : List Char) :
    ∀ c, (text.dropWhile p).head? = some c → p c = false := by
  intro c hc
  have h := List.head?_dropWhile_not p text
  rw [hc] at h
  simpa using h

/-- A run ends at the same place in front of anything that starts alike. -/
theorem takeWhile_again {text other : List Char} (h : other.head? = (text.dropWhile p).head?) :
    (text.takeWhile p ++ other).takeWhile p = text.takeWhile p := by
  have hstop : ∀ c, other.head? = some c → p c = false := by
    rw [h]
    exact dropWhile_stops p text
  exact takeWhile_run (takeWhile_all p text) hstop

theorem dropWhile_again {text other : List Char} (h : other.head? = (text.dropWhile p).head?) :
    (text.takeWhile p ++ other).dropWhile p = other := by
  have hstop : ∀ c, other.head? = some c → p c = false := by
    rw [h]
    exact dropWhile_stops p text
  exact dropWhile_run (takeWhile_all p text) hstop

/-! ## At the end -/

theorem exists_last {text : List Char} (h : text ≠ []) :
    ∃ last, last ∈ text ∧ text.getLast? = some last :=
  ⟨text.getLast h, List.getLast_mem h, List.getLast?_eq_some_getLast h⟩

namespace Text

theorem dropEndWhile_run (hr : ∀ c ∈ run, p c = true)
    (hs : ∀ c, rest.getLast? = some c → p c = false) : dropEndWhile p (rest ++ run) = rest := by
  rw [dropEndWhile, List.reverse_append, dropWhile_run, List.reverse_reverse]
  · simpa using hr
  · simpa using hs

theorem dropEndWhile_of_last {text : List Char} (h : ∀ c, text.getLast? = some c → p c = false) :
    dropEndWhile p text = text := by
  have hrun : ∀ c ∈ ([] : List Char), p c = true := by simp
  simpa using dropEndWhile_run hrun h

theorem dropEndWhile_stops (p : Char → Bool) (text : List Char) :
    ∀ c, (dropEndWhile p text).getLast? = some c → p c = false := by
  intro c hc
  rw [dropEndWhile, List.getLast?_reverse] at hc
  exact dropWhile_stops p _ c hc

theorem exists_dropEndWhile (p : Char → Bool) (text : List Char) :
    ∃ run, text = dropEndWhile p text ++ run ∧ ∀ c ∈ run, p c = true := by
  refine ⟨(text.reverse.takeWhile p).reverse, ?_, ?_⟩
  · rw [dropEndWhile, ← List.reverse_append, List.takeWhile_append_dropWhile, List.reverse_reverse]
  · simpa using takeWhile_all p text.reverse

end Text

/-! ## Decimal digits -/

theorem isDigit_decimalDigits (n : Nat) : ∀ c ∈ decimalDigits n, c.isDigit = true :=
  fun _ hc => Nat.isDigit_of_mem_toDigits (by decide) (by decide) hc

theorem digitValue_digitChar : ∀ n < 10, digitValue n.digitChar = n := by
  decide

/-- The last digit of a number with more than one. -/
theorem decimalDigits_of_le {n : Nat} (h : 10 ≤ n) :
    decimalDigits n = decimalDigits (n / 10) ++ [Nat.digitChar (n % 10)] :=
  Nat.toDigits_of_base_le (by decide) h

theorem decimalDigits_of_lt {n : Nat} (h : n < 10) : decimalDigits n = [Nat.digitChar n] :=
  Nat.toDigits_of_lt_base h

theorem decimalDigits_ne_nil (n : Nat) : decimalDigits n ≠ [] := by
  by_cases h : n < 10
  · simp [decimalDigits_of_lt h]
  · simp [decimalDigits_of_le (Nat.le_of_not_lt h)]

theorem digitsValue_decimalDigits (n : Nat) : digitsValue (decimalDigits n) = n := by
  induction n using Nat.strongRecOn with
  | ind n ih =>
    by_cases h : n < 10
    · rw [decimalDigits_of_lt h]
      simpa [digitsValue] using digitValue_digitChar n h
    · have hten := Nat.le_of_not_lt h
      have hlast := digitValue_digitChar (n % 10) (by omega)
      have hfront := ih (n / 10) (by omega)
      rw [digitsValue] at hfront
      rw [decimalDigits_of_le hten, digitsValue, List.foldl_append, hfront, List.foldl_cons,
        List.foldl_nil, hlast]
      omega

theorem head_decimalDigits {n : Nat} (h : 0 < n) : (decimalDigits n).head? ≠ some '0' := by
  induction n using Nat.strongRecOn with
  | ind n ih =>
    by_cases hn : n < 10
    · rw [decimalDigits_of_lt hn]
      simp
      omega
    · have hfront := ih (n / 10) (by omega) (by omega)
      rw [decimalDigits_of_le (Nat.le_of_not_lt hn)]
      rwa [List.head?_append, Option.or_of_isSome]
      simpa using decimalDigits_ne_nil (n / 10)

end Marksheet
