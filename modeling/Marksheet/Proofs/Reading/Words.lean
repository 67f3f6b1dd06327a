import Marksheet.Proofs.Reading.Numbers

/-!
# Marksheet.Proofs.Reading.Words

Symbols, names, truth words and quoted texts. A scan that looks for a symbol skips the blanks in
front of it even when the symbol is missing, so the place behind a part is known only apart from
blanks (`Cursor.Ahead`).

* `Scan.accept_gap`, `accept_missing` : a symbol that is there, and one that is not.
* `Scan.accept_found`, `accept_missed` : what has been passed in both cases.
* `Name.scan_nameText`, `Name.nameToken_of_scan` : reading names agrees with the grammar of names.
* `Quoted.passed_of_body` : what is passed up to a quote.
-/

namespace Marksheet

open Cursor (ask)
open Scan (Sequential)
open Formula (startsFactor)
open Grammar

variable {α β : Type} {text rest gap : List Char} {position : Nat}
  {cursor behind : Cursor (List Char)}

/-! ## Blanks -/

theorem isBlank_of_startsFactor {c : Char} (h : startsFactor (some c) = true) :
    Text.isBlank c = false := by
  cases hb : Text.isBlank c with
  | false => rfl
  | true =>
    have he := (endsToken_blank hb []).startsFactor_eq_false
    rw [List.head?_cons, h] at he
    cases he

theorem isBlank_of_isNameStart {c : Char} (h : Text.isNameStart c = true) :
    Text.isBlank c = false := by
  cases hb : Text.isBlank c with
  | false => rfl
  | true =>
    have he := isNameChar_of_isBlank hb
    rw [Text.isNameChar_of_isNameStart h] at he
    cases he

theorem isBlanks_takeWhile (text : List Char) : IsBlanks (text.takeWhile Text.isBlank) :=
  takeWhile_all _ text

/-- The cursor has `text` ahead of it, some blanks of which it may have passed. -/
def Cursor.Ahead (text : List Char) (position : Nat) (cursor : Cursor (List Char)) : Prop :=
  ∃ gap rest, text = gap ++ rest ∧ IsBlanks gap ∧ cursor = ask rest (position + gap.length)

namespace Cursor.Ahead

theorem refl (text : List Char) (position : Nat) : Ahead text position (ask text position) :=
  ⟨[], text, rfl, isBlanks_nil, rfl⟩

theorem of_gap (hg : IsBlanks gap) (h : Ahead rest (position + gap.length) cursor) :
    Ahead (gap ++ rest) position cursor := by
  obtain ⟨more, last, rfl, hm, rfl⟩ := h
  refine ⟨gap ++ more, last, by rw [List.append_assoc], hg.append hm, ?_⟩
  rw [List.length_append, Nat.add_assoc]

theorem at_place {place : Nat} (h : Ahead text position cursor) (hp : position = place) :
    Ahead text place cursor := hp ▸ h

theorem dropWhile (text : List Char) (position : Nat) :
    Ahead text position
      (ask (text.dropWhile Text.isBlank) (position + (text.takeWhile Text.isBlank).length)) :=
  ⟨_, _, List.takeWhile_append_dropWhile.symm, isBlanks_takeWhile text, rfl⟩

/-- What skips blanks first does not see which of them have been passed. -/
theorem accept (h : Ahead text position cursor) (wanted : Char) :
    Scan.accept wanted cursor = Scan.accept wanted (ask text position) := by
  obtain ⟨gap, rest, rfl, hg, rfl⟩ := h
  have hall : (gap ++ rest).takeWhile Text.isBlank = gap ++ rest.takeWhile Text.isBlank :=
    List.takeWhile_append_of_pos hg
  rw [Scan.accept_ask, Scan.accept_ask, List.dropWhile_append_of_pos hg, hall, List.length_append,
    ← Nat.add_assoc]

theorem skipBlanks (h : Ahead text position cursor) :
    Scan.skipBlanks cursor = Scan.skipBlanks (ask text position) := by
  obtain ⟨gap, rest, rfl, hg, rfl⟩ := h
  have hall : (gap ++ rest).takeWhile Text.isBlank = gap ++ rest.takeWhile Text.isBlank :=
    List.takeWhile_append_of_pos hg
  rw [Scan.skipBlanks_ask, Scan.skipBlanks_ask, List.dropWhile_append_of_pos hg, hall,
    List.length_append, ← Nat.add_assoc]

end Cursor.Ahead

namespace Scan

theorem bind_congr {scan : Scan (List Char) α} {next : α → Scan (List Char) β}
    {other : Cursor (List Char)} (h : scan cursor = scan other) :
    (scan >>= next) cursor = (scan >>= next) other := by
  simp only [bind, EStateM.bind, h]

/-! ## A symbol that is looked for -/

variable {wanted : Char}

theorem accept_gap (hg : IsBlanks gap) (hw : Text.isBlank wanted = false) :
    accept wanted (ask (gap ++ wanted :: rest) position) =
      .ok true (ask rest (position + gap.length + 1)) := by
  have hs : ∀ c, (wanted :: rest).head? = some c → Text.isBlank c = false := by
    intro c hc
    cases hc
    exact hw
  rw [accept_ask, takeWhile_run hg hs, dropWhile_run hg hs, List.head?_cons, if_pos rfl,
    List.tail_cons]

theorem accept_missing (h : next text ≠ some wanted) :
    accept wanted (ask text position) =
      .ok false (ask (text.dropWhile Text.isBlank)
        (position + (text.takeWhile Text.isBlank).length)) := by
  rw [accept_ask]
  exact if_neg h

theorem accept_found (h : accept wanted (ask text position) = .ok true behind) :
    ∃ gap rest, text = gap ++ wanted :: rest ∧ IsBlanks gap ∧
      behind = ask rest (position + gap.length + 1) := by
  rw [accept_ask] at h
  split at h
  · rename_i hw
    obtain ⟨rest, hr⟩ := List.head?_eq_some_iff.mp hw
    cases h
    refine ⟨text.takeWhile Text.isBlank, rest, ?_, isBlanks_takeWhile text, by rw [hr]; rfl⟩
    rw [← hr, List.takeWhile_append_dropWhile]
  · cases h

theorem accept_missed (h : accept wanted (ask text position) = .ok false behind) :
    ∃ gap rest, text = gap ++ rest ∧ IsBlanks gap ∧ behind = ask rest (position + gap.length) ∧
      rest.head? ≠ some wanted ∧ ∀ c, rest.head? = some c → Text.isBlank c = false := by
  rw [accept_ask] at h
  split at h
  · cases h
  · rename_i hw
    cases h
    exact ⟨_, _, List.takeWhile_append_dropWhile.symm, isBlanks_takeWhile text, rfl, hw,
      dropWhile_stops _ _⟩

theorem skipped (h : skipBlanks (ask text position) = .ok () behind) :
    ∃ gap rest, text = gap ++ rest ∧ IsBlanks gap ∧ behind = ask rest (position + gap.length) ∧
      ∀ c, rest.head? = some c → Text.isBlank c = false := by
  rw [skipBlanks_ask] at h
  cases h
  exact ⟨_, _, List.takeWhile_append_dropWhile.symm, isBlanks_takeWhile text, rfl,
    dropWhile_stops _ _⟩

end Scan

/-! ## Names -/

namespace Name

theorem scan_nameText {token : List Char} (h : NameText token)
    (hs : ∀ c, rest.head? = some c → Text.isNameChar c = false) :
    scan (ask (token ++ rest) position) =
      .ok (some (String.ofList token)) (ask rest (position + token.length)) := by
  obtain ⟨first, others, rfl, hf, ho⟩ := h
  have hall : ∀ c ∈ first :: others, Text.isNameChar c = true := by
    intro c hc
    rcases List.mem_cons.mp hc with rfl | hc
    · exact Text.isNameChar_of_isNameStart hf
    · exact ho c hc
  refine (Scan.bind_of_ok Scan.current_ask).trans ?_
  refine Scan.of_eq (do return some (String.ofList (← Scan.takeWhile Text.isNameChar))) ?_ ?_
  · rw [List.cons_append, List.head?_cons]
    exact if_pos hf
  · refine (Scan.bind_of_ok (Scan.takeWhile_ask _)).trans ?_
    rw [takeWhile_run hall hs, dropWhile_run hall hs]
    rfl

theorem scan_none (h : ∀ c, text.head? = some c → Text.isNameStart c = false) :
    scan (ask text position) = .ok none (ask text position) := by
  refine (Scan.bind_of_ok Scan.current_ask).trans (Scan.of_eq (pure none) ?_ rfl)
  split
  · rename_i c hc
    rw [h c hc]
    rfl
  · rfl

theorem nameToken_of_scan {name : String}
    (h : scan (ask text position) = .ok (some name) behind) :
    ∃ token rest, text = token ++ rest ∧ behind = ask rest (position + token.length) ∧
      name = String.ofList token ∧ NameToken token rest := by
  obtain ⟨current, _, h₁, h⟩ := Scan.bind_ok h
  obtain ⟨rfl, rfl⟩ := Scan.current_ok h₁
  cases text with
  | nil => cases h
  | cons c others =>
    rw [Cursor.current_ask, List.head?_cons] at h
    dsimp only at h
    split at h
    · rename_i hs
      obtain ⟨token, _, h₂, h⟩ := Scan.bind_ok h
      rw [Scan.takeWhile_ask] at h₂
      cases h₂
      cases h
      refine ⟨_, _, List.takeWhile_append_dropWhile.symm, rfl, rfl,
        maximal_name ⟨c, others.takeWhile Text.isNameChar, ?_, hs, takeWhile_all _ _⟩
          (dropWhile_stops _ _)⟩
      rw [List.takeWhile_cons, Text.isNameChar_of_isNameStart hs]
      rfl
    · cases h

theorem none_of_scan (h : scan (ask text position) = .ok none behind) :
    behind = ask text position ∧ ∀ c, text.head? = some c → Text.isNameStart c = false := by
  obtain ⟨current, _, h₁, h⟩ := Scan.bind_ok h
  obtain ⟨rfl, rfl⟩ := Scan.current_ok h₁
  cases text with
  | nil =>
    cases h
    exact ⟨rfl, by simp⟩
  | cons c others =>
    rw [Cursor.current_ask, List.head?_cons] at h
    dsimp only at h
    split at h
    · obtain ⟨_, _, _, h⟩ := Scan.bind_ok h
      cases h
    · rename_i hs
      cases h
      refine ⟨rfl, ?_⟩
      intro d hd
      cases hd
      simpa using hs

theorem onlyFaults_scan {kind : Fault → Prop} :
    Scan.OnlyFaults kind (scan : Scan (List Char) (Option String)) := by
  refine .bind Scan.onlyFaults_current ?_
  intro current
  split
  · split
    · exact .bind (Scan.onlyFaults_takeWhile _) fun _ => Scan.onlyFaults_pure _
    · exact Scan.onlyFaults_pure _
  · exact Scan.onlyFaults_pure _

theorem sequential_scan : Sequential scan text position := by
  refine .bind_current ?_
  split
  · split
    · exact (Scan.sequential_takeWhile _).bind fun _ _ _ _ _ => Scan.sequential_pure _
    · exact Scan.sequential_pure _
  · exact Scan.sequential_pure _

end Name

/-! ## Truth words -/

namespace Truth

theorem sequential_scanWord (word text : List Char) (position : Nat) :
    Sequential (scanWord word) text position := by
  induction word generalizing text position with
  | nil => exact Scan.sequential_pure ()
  | cons wanted others ih =>
    refine .bind_current ?_
    split
    · rename_i c hc
      obtain ⟨rest, rfl⟩ := List.head?_eq_some_iff.mp hc
      split
      · exact (Scan.sequential_advance_cons c).bind fun _ _ _ _ _ => ih _ _
      · exact .bind_position (Scan.sequential_throw (Scan.placed_expected wanted _))
    · exact .bind_position (Scan.sequential_throw (Scan.placed_of_le rfl (Nat.le_refl _) id))

theorem sequential_scan : Sequential scan text position := by
  refine .bind_current ?_
  split
  · exact (sequential_scanWord _ _ _).bind fun _ _ _ _ _ => Scan.sequential_pure _
  · exact (sequential_scanWord _ _ _).bind fun _ _ _ _ _ => Scan.sequential_pure _
  · exact Scan.sequential_pure none

end Truth

/-! ## Quoted text -/

namespace Quoted

variable {quote c : Char}

theorem body_ask_nil :
    body quote (ask ([] : List Char) position) = (none, ask [] position) := by
  rw [body_eq]
  rfl

theorem body_ask_quote : body quote (ask (quote :: text) position) =
    (some [], ask text (position + 1)) := by
  rw [body_eq]
  exact if_pos rfl

theorem body_ask_cons (hq : c ≠ quote) (hs : c ≠ '\\') :
    body quote (ask (c :: text) position) =
      ((body quote (ask text (position + 1))).1.map fun others => c :: others,
        (body quote (ask text (position + 1))).2) := by
  rw [body_eq]
  exact (if_neg hq).trans (if_neg hs)

theorem body_ask_slash (hq : '\\' ≠ quote) :
    body quote (ask ['\\'] position) = (none, ask [] (position + 1)) := by
  rw [body_eq]
  exact (if_neg hq).trans (if_pos rfl)

theorem body_ask_escaped (hq : '\\' ≠ quote) :
    body quote (ask ('\\' :: c :: text) position) =
      ((body quote (ask text (position + 2))).1.map fun others => '\\' :: c :: others,
        (body quote (ask text (position + 2))).2) := by
  rw [body_eq]
  exact (if_neg hq).trans (if_pos rfl)

/-- What is passed up to a quote, and that it is passed in front of anything that starts alike. -/
theorem passed_of_body (quote : Char) (text : List Char) (position : Nat) :
    ∃ found used rest, text = used ++ rest ∧ ∀ other : List Char, other.head? = rest.head? →
      body quote (ask (used ++ other) position) =
        (found, ask other (position + used.length)) := by
  have hend : ∀ other : List Char, other.head? = ([] : List Char).head? → other = [] := by simp
  induction hn : text.length using Nat.strongRecOn generalizing text position with
  | _ n ih =>
    subst hn
    cases text with
    | nil =>
      refine ⟨none, [], [], rfl, ?_⟩
      intro other ho
      rw [hend other ho]
      exact body_ask_nil
    | cons c text =>
      by_cases hq : c = quote
      · subst hq
        exact ⟨some [], [c], text, rfl, fun other _ => body_ask_quote⟩
      by_cases hs : c = '\\'
      · subst hs
        cases text with
        | nil =>
          refine ⟨none, ['\\'], [], rfl, ?_⟩
          intro other ho
          rw [hend other ho]
          exact body_ask_slash hq
        | cons d text =>
          have hlt : text.length < ('\\' :: d :: text).length := by
            simp only [List.length_cons]
            omega
          obtain ⟨found, used, rest, rfl, hall⟩ := ih _ hlt text (position + 2) rfl
          refine ⟨found.map ('\\' :: d :: ·), '\\' :: d :: used, rest, rfl, ?_⟩
          intro other ho
          rw [List.cons_append, List.cons_append, body_ask_escaped hq, hall other ho]
          simp only [List.length_cons]
          congr 2
          omega
      · have hlt : text.length < (c :: text).length := by simp
        obtain ⟨found, used, rest, rfl, hall⟩ := ih _ hlt text (position + 1) rfl
        refine ⟨found.map (c :: ·), c :: used, rest, rfl, ?_⟩
        intro other ho
        rw [List.cons_append, body_ask_cons hq hs, hall other ho]
        simp only [List.length_cons]
        congr 2
        omega

theorem sequential_body (quote : Char) (text : List Char) (position : Nat) :
    Sequential (modifyGet (body quote)) text position := by
  obtain ⟨found, used, rest, rfl, hall⟩ := passed_of_body quote text position
  refine .of_ok found used rest rfl ?_
  intro other ho
  have he : (modifyGet (body quote) : Scan (List Char) (Option (List Char)))
      (ask (used ++ other) position) =
        .ok (body quote (ask (used ++ other) position)).1
          (body quote (ask (used ++ other) position)).2 := rfl
  rw [he, hall other ho]

theorem sequential_scan : Sequential scan text position := by
  refine .bind_current ?_
  split
  · rename_i quote hq
    obtain ⟨rest, rfl⟩ := List.head?_eq_some_iff.mp hq
    split
    · refine .bind_position ((Scan.sequential_advance_cons quote).bind ?_)
      intro _ _ _ _ _
      refine (sequential_body quote _ _).bind ?_
      intro found _ _ _ _
      cases found with
      | some text => exact Scan.sequential_pure _
      | none => exact Scan.sequential_throw (Scan.placed_of_le rfl (by omega) id)
    · exact Scan.sequential_pure none
  · exact Scan.sequential_pure none

end Quoted

end Marksheet
