import Marksheet.Assignment
import Marksheet.Proofs.Reading.Words
import Mathlib.Data.List.TakeDrop
import Mathlib.Data.List.TakeWhile

/-!
# Marksheet.Proofs.Reading.Assignments

Which texts assign a mark to a name. The first equals sign divides a text, blanks at the ends of
both parts are left out, and what remains behind the sign has to be one number from its first
character to its last. A second equals sign, a blank inside the number or one more marker is then
either in the way of the number or left behind it.

* `Text.Stripped`, `Text.trimBlanks_eq_iff` : a text without the blanks at its ends.
* `Assignment.split?_eq_some_iff` : the parts around the first equals sign.
* `Number.scan_to_end_iff` : a number is read to the end of a text just where the text is one.
* `Assignment.parses_assignment_iff` : the assignments that are accepted, with their marks.
-/

namespace Marksheet

open Cursor (ask)
open Grammar (IsBlanks NumberText)

/-! ## Blanks at both ends -/

namespace Text

variable {text inner : List Char}

/-- What is left of a text without the blanks at its ends. -/
structure Stripped (text inner : List Char) : Prop where
  parts : ∃ lead trail, text = lead ++ (inner ++ trail) ∧ IsBlanks lead ∧ IsBlanks trail
  head : ∀ c, inner.head? = some c → isBlank c = false
  last : ∀ c, inner.getLast? = some c → isBlank c = false

theorem stripped_trimBlanks (text : List Char) : Stripped text (trimBlanks text) := by
  obtain ⟨trail, hd, htrail⟩ := exists_dropEndWhile isBlank (text.dropWhile isBlank)
  refine ⟨⟨text.takeWhile isBlank, trail, ?_, isBlanks_takeWhile text, htrail⟩, ?_,
    dropEndWhile_stops _ _⟩
  · rw [trimBlanks, ← hd, List.takeWhile_append_dropWhile]
  · intro c hc
    refine dropWhile_stops isBlank text c ?_
    rw [hd, List.head?_append, ← trimBlanks, hc]
    rfl

theorem trimBlanks_of_stripped (h : Stripped text inner) : trimBlanks text = inner := by
  obtain ⟨⟨lead, trail, rfl, hlead, htrail⟩, hhead, hlast⟩ := h
  rw [trimBlanks, List.dropWhile_append_of_pos hlead]
  cases inner with
  | nil =>
    have hnone : ([] ++ trail).dropWhile isBlank = [] := List.dropWhile_eq_nil_iff.mpr htrail
    rw [hnone]
    rfl
  | cons c inner =>
    have hc : isBlank c = false := hhead c rfl
    rw [List.cons_append, List.dropWhile_cons_of_neg (by simp [hc])]
    exact dropEndWhile_run htrail hlast

theorem trimBlanks_eq_iff : trimBlanks text = inner ↔ Stripped text inner := by
  constructor
  · rintro rfl
    exact stripped_trimBlanks text
  · exact trimBlanks_of_stripped

end Text

/-! ## The whole of a text -/

/-- A number is read to the end of a text just where the text is a number. -/
theorem Number.scan_to_end_iff {literal : List Char} {mark : Float} :
    (∃ behind, scan true (Cursor.start literal) = .ok (some mark) behind ∧ behind.atEnd = true) ↔
      NumberText literal mark := by
  constructor
  · rintro ⟨behind, h, hend⟩
    have hask : scan true (ask literal 0) = .ok (some mark) behind := h
    obtain ⟨token, rest, rfl, rfl, ht, -⟩ := numberToken_of_scan hask
    rw [Cursor.atEnd_ask, List.isEmpty_iff] at hend
    rwa [hend, List.append_nil]
  · intro h
    have hscan : scan true (ask (literal ++ []) 0) =
        .ok (some mark) (ask [] (0 + literal.length)) := scan_numberText h rfl rfl
    rw [List.append_nil] at hscan
    exact ⟨_, hscan, by rw [Cursor.atEnd_ask]; rfl⟩

namespace Assignment

open Text (Stripped trimBlanks stripped_trimBlanks trimBlanks_eq_iff)

variable {text name value : List Char}

theorem split?_eq_some_iff :
    split? text = some (name, value) ↔ text = name ++ '=' :: value ∧ '=' ∉ name := by
  rw [split?, List.span_eq_takeWhile_dropWhile]
  constructor
  · intro h
    cases hd : text.dropWhile (· != '=') with
    | nil =>
      rw [hd] at h
      cases h
    | cons c others =>
      rw [hd] at h
      cases h
      have hc := dropWhile_stops (· != '=') text c (by rw [hd]; rfl)
      obtain rfl : c = '=' := by simpa using hc
      refine ⟨by rw [← hd, List.takeWhile_append_dropWhile], ?_⟩
      intro hm
      simpa using takeWhile_all _ text _ hm
  · rintro ⟨rfl, hn⟩
    have hrun : ∀ c ∈ name, (c != '=') = true := by
      intro c hc
      exact bne_iff_ne.mpr fun he => hn (he ▸ hc)
    have hstop : ∀ c, ('=' :: value).head? = some c → (c != '=') = false := by simp
    rw [takeWhile_run hrun hstop, dropWhile_run hrun hstop]

section Parse

variable {assignment : Assignment} {behind : Cursor (List Char)}

theorem parts_of_parse {text : String} (h : parse text = .ok assignment) :
    ∃ name value behind, text.toList = name ++ '=' :: value ∧ '=' ∉ name ∧
      assignment.name.toList = trimBlanks name ∧
      Number.scan true (Cursor.start (trimBlanks value)) = .ok (some assignment.mark) behind ∧
      behind.atEnd = true := by
  unfold parse at h
  split at h
  · cases h
  rename_i name value hsplit
  obtain ⟨htext, hname⟩ := split?_eq_some_iff.mp hsplit
  split at h
  · cases h
  · cases h
  rename_i mark behind hscan
  split at h
  · rename_i hend
    cases h
    exact ⟨name, value, behind, htext, hname, String.toList_ofList, hscan, hend⟩
  · cases h

theorem parse_of_parts {text : String} (htext : text.toList = name ++ '=' :: value)
    (hname : '=' ∉ name) (hleft : assignment.name.toList = trimBlanks name)
    (hscan : Number.scan true (Cursor.start (trimBlanks value)) =
      .ok (some assignment.mark) behind) (hend : behind.atEnd = true) :
    parse text = .ok assignment := by
  rw [parse, split?_eq_some_iff.mpr ⟨htext, hname⟩]
  dsimp only
  rw [hscan]
  dsimp only
  rw [if_pos hend, ← hleft, String.ofList_toList]

/-- A text is accepted just where it has an equals sign and, behind the first one and without the
blanks around it, a number and nothing else. The name is what stands in front of that sign, without
the blanks around it, and may be empty; the mark is what reading the number by itself gives. -/
theorem parses_assignment_iff (text : String) (assignment : Assignment) :
    parse text = .ok assignment ↔
      ∃ name value literal, text.toList = name ++ '=' :: value ∧ '=' ∉ name ∧
        Stripped name assignment.name.toList ∧ Stripped value literal ∧
        NumberText literal assignment.mark ∧
        (Number.scan true).run literal = .ok (some assignment.mark) := by
  constructor
  · intro h
    obtain ⟨name, value, behind, htext, hname, hleft, hscan, hend⟩ := parts_of_parse h
    have hliteral := Number.scan_to_end_iff.mp ⟨behind, hscan, hend⟩
    have hrun : (Number.scan true).run (trimBlanks value) = .ok (some assignment.mark) := by
      rw [Scan.run, EStateM.run, hscan]
    exact ⟨name, value, trimBlanks value, htext, hname, trimBlanks_eq_iff.mp hleft.symm,
      stripped_trimBlanks value, hliteral, hrun⟩
  · rintro ⟨name, value, literal, htext, hname, hleft, hright, hliteral, -⟩
    obtain ⟨behind, hscan, hend⟩ := Number.scan_to_end_iff.mpr hliteral
    rw [← trimBlanks_eq_iff.mpr hright] at hscan
    exact parse_of_parts htext hname (trimBlanks_eq_iff.mpr hleft).symm hscan hend

-- no name but a mark, and a mark with something behind it
example : (parse "=\t-.5E1 ").toOption.map Assignment.name = some "" ∧
    fault? (parse "a=1=2") = some (.trailing "a=1=2") := by
  decide +kernel

end Parse

end Assignment

end Marksheet
