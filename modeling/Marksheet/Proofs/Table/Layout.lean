import Marksheet.Proofs.Decimal.Shown
import Marksheet.Proofs.Reading.Words
import Marksheet.Proofs.Sheet.Entities
import Marksheet.Report

/-!
# Marksheet.Proofs.Table.Layout

How the table of a sheet is laid out. All lines but the heading are equally long, counted in
characters. Every name stands at the start of its line, every weighting ends in one column and
every mark in the last, whatever characters the names have.

* `Table.le_widest` : a column is as wide as any of its cells.
* `Table.laid_rowLine` : one line.
* `Table.divider_headingLine` : the divider counts bytes, which are characters in the heading.
* `Table.layout_of_entities` : the whole table.
-/

namespace Marksheet.Table

open Text (isBlank dropEndWhile_of_last dropEndWhile_run)

/-! ## Cells -/

structure Solid (cell : List Char) : Prop where
  ne_nil : cell ≠ []
  blank : ∀ c ∈ cell, isBlank c = false

theorem isBlank_of_isDigit {c : Char} (h : c.isDigit = true) : isBlank c = false :=
  isBlank_of_startsFactor (by simp [Formula.startsFactor, h])

theorem Solid.lineEnd_not_mem {cell : List Char} (h : Solid cell) : '\n' ∉ cell :=
  fun hc => absurd (h.blank '\n' hc) (by decide)

theorem solid_decimalDigits (n : Nat) : Solid (decimalDigits n) :=
  ⟨decimalDigits_ne_nil n, fun c hc => isBlank_of_isDigit (isDigit_decimalDigits n c hc)⟩

theorem solid_numeral {numeral : Numeral} (h : numeral.Canonical) : Solid numeral.text := by
  refine ⟨by simp [Numeral.text, h.some_digit], fun c hc => ?_⟩
  have hdigits : ∀ d ∈ numeral.digits, isBlank d = false :=
    fun d hd => isBlank_of_isDigit (h.decimal d hd)
  rcases List.mem_append.mp hc with hc | hc
  · obtain ⟨sign, -, rfl⟩ := Option.map_eq_some_iff.mp (Option.mem_toList.mp hc)
    cases sign <;> decide
  rcases List.mem_append.mp hc with hc | hc
  · exact hdigits c (List.mem_append_left _ hc)
  · cases hf : numeral.fraction with
    | none =>
      rw [hf] at hc
      cases hc
    | some places =>
      rw [hf] at hc
      rcases List.mem_cons.mp hc with rfl | hc
      · decide
      · exact hdigits c (by simp [Numeral.digits, hf, hc])

theorem solid_shown (x : Float) : Solid (Decimal.shown x).toList := by
  have hplain : ∀ text ∈ ["-inf", "inf", "NaN"], Solid (Decimal.trimmed text.toList) := by
    intro text ht
    have hword : Decimal.trimmed text.toList ≠ [] ∧
        (Decimal.trimmed text.toList).all (fun c => !isBlank c) = true := by
      revert text
      decide +kernel
    exact ⟨hword.1, by simpa using hword.2⟩
  rw [Decimal.shown, String.toList_ofList, Decimal.fixedText]
  split
  · rw [Decimal.trimmed_fixed]
    exact solid_numeral (Decimal.canonical_numeral _ _)
  · split
    · exact hplain "-inf" (by simp)
    · split
      · exact hplain "inf" (by simp)
      · exact hplain "NaN" (by simp)

theorem solid_mark (entity : Entity Float) : Solid (rowOf entity).mark := by
  cases hm : entity.mark with
  | some mark =>
    have hcell : (rowOf entity).mark = (Decimal.shown mark).toList := by simp [rowOf, hm]
    rw [hcell]
    exact solid_shown mark
  | none =>
    have hcell : (rowOf entity).mark = ['-'] := by simp [rowOf, hm]
    rw [hcell]
    exact ⟨List.cons_ne_nil _ _, List.forall_mem_singleton.mpr (by decide)⟩

/-! ## Widths -/

theorem le_foldl_max (lengths : List Nat) (start : Nat) :
    start ≤ lengths.foldl max start ∧ ∀ n ∈ lengths, n ≤ lengths.foldl max start := by
  induction lengths generalizing start with
  | nil => simp
  | cons first others ih =>
    obtain ⟨hstart, hothers⟩ := ih (max start first)
    rw [List.foldl_cons]
    refine ⟨by omega, ?_⟩
    intro n hn
    rcases List.mem_cons.mp hn with rfl | hn
    · omega
    · exact hothers n hn

theorem le_widest {cells : List (List Char)} {cell : List Char} (h : cell ∈ cells) :
    cell.length ≤ widest cells :=
  (le_foldl_max _ 0).2 _ (List.mem_map_of_mem h)

structure Fits (widths : Widths) (row : Row) : Prop where
  name : row.name.length ≤ widths.name
  weighting : row.weighting.length ≤ widths.weighting
  mark : row.mark.length ≤ widths.mark

theorem fits_widthsOf {rows : List Row} {row : Row} (h : row ∈ heading :: rows) :
    Fits (widthsOf rows) row :=
  ⟨le_widest (List.mem_map_of_mem h), le_widest (List.mem_map_of_mem h),
    le_widest (List.mem_map_of_mem h)⟩

/-! ## One line -/

/-- Where the weightings end. -/
def Widths.stop (widths : Widths) : Nat := widths.name + 2 + widths.weighting

def Widths.total (widths : Widths) : Nat := widths.stop + 2 + widths.mark

def IsGap (text : List Char) : Prop := ∃ n, 2 ≤ n ∧ text = List.replicate n ' '

theorem isGap_padded (before behind : Nat) :
    IsGap (List.replicate before ' ' ++ gap ++ List.replicate behind ' ') :=
  ⟨before + 2 + behind, by omega, by simp [gap, List.replicate_add]⟩

/-- A line of the three cells as they are, with nothing else but a gap between two of them. -/
structure Spaced (row : Row) (left right line : List Char) : Prop where
  left_gap : IsGap left
  right_gap : IsGap right
  line_eq : line = row.name ++ left ++ row.weighting ++ right ++ row.mark

/-- The cells of a row stand where they belong: the weighting ends at the stop, the mark at the end
of the line. -/
structure Laid (widths : Widths) (row : Row) (line : List Char) : Prop where
  spaced : ∃ left right, Spaced row left right line ∧
    (row.name ++ left ++ row.weighting).length = widths.stop
  weighting : Solid row.weighting
  mark : Solid row.mark
  length_eq : line.length = widths.total

variable {widths : Widths} {row : Row}

theorem laid_rowLine (h : Fits widths row) (hw : Solid row.weighting) (hm : Solid row.mark) :
    Laid widths row (rowLine widths row) := by
  have hweighting := h.weighting
  have hmark := h.mark
  have hname := h.name
  refine ⟨⟨padding widths.name row.name ++ gap ++ padding widths.weighting row.weighting,
    gap ++ padding widths.mark row.mark, ⟨?_, ?_, ?_⟩, ?_⟩, hw, hm, ?_⟩
  · exact isGap_padded _ _
  · exact isGap_padded 0 _
  · simp [rowLine, leftAligned, rightAligned]
  · simp [padding, gap, Widths.stop]
    omega
  · simp [rowLine, leftAligned, rightAligned, padding, gap, Widths.total, Widths.stop]
    omega

theorem Spaced.lineEnd_not_mem {left right line : List Char} (h : Spaced row left right line)
    (hn : '\n' ∉ row.name) (hw : '\n' ∉ row.weighting) (hm : '\n' ∉ row.mark) : '\n' ∉ line := by
  obtain ⟨⟨a, -, rfl⟩, ⟨b, -, rfl⟩, rfl⟩ := h
  simp [List.mem_replicate, hn, hw, hm]

/-- No blank of a line is taken off, as it ends in a mark. -/
theorem trimmedLine_rowLine (h : Solid row.mark) :
    trimmedLine (rowLine widths row) = rowLine widths row := by
  refine dropEndWhile_of_last fun c hc => ?_
  obtain ⟨last, hmem, hlast⟩ := exists_last h.ne_nil
  obtain rfl : last = c := by
    simpa [rowLine, rightAligned, List.getLast?_append, hlast] using hc
  exact h.blank last hmem

/-! ## The heading -/

/-- The cells of the heading in order, without blanks behind the last. -/
structure Headed (widths : Widths) (line : List Char) : Prop where
  spaced : ∃ left right, Spaced heading left right line
  length_le : line.length ≤ widths.total

theorem length_headingLine (h : Fits widths heading) :
    (headingLine widths).length = widths.total := by
  obtain ⟨hn, hw, hm⟩ := h
  simp [headingLine, leftAligned, padding, gap, Widths.total, Widths.stop]
  omega

theorem headed_trimmedLine (h : Fits widths heading) :
    Headed widths (trimmedLine (headingLine widths)) := by
  have hrun : ∀ c ∈ padding widths.mark heading.mark, isBlank c = true := by
    intro c hc
    rw [List.eq_of_mem_replicate hc]
    decide
  have hlast : heading.mark.getLast? = some 'e' := rfl
  set text := leftAligned widths.name heading.name ++ gap ++
    leftAligned widths.weighting heading.weighting ++ gap ++ heading.mark with htext
  have hline : headingLine widths = text ++ padding widths.mark heading.mark :=
    (List.append_assoc _ _ _).symm
  have htrim : trimmedLine (headingLine widths) = text := by
    rw [hline]
    refine dropEndWhile_run hrun fun c hc => ?_
    obtain rfl : 'e' = c := by simpa [htext, List.getLast?_append, hlast] using hc
    decide
  rw [htrim]
  constructor
  · refine ⟨padding widths.name heading.name ++ gap,
      padding widths.weighting heading.weighting ++ gap, ⟨?_, ?_, ?_⟩⟩
    · simpa [padding] using isGap_padded (widths.name - heading.name.length) 0
    · simpa [padding] using isGap_padded (widths.weighting - heading.weighting.length) 0
    · simp [htext, leftAligned]
  · have hlength := length_headingLine h
    rw [hline, List.length_append] at hlength
    omega

theorem utf8Len_of_ascii {text : List Char} (h : ∀ c ∈ text, c.utf8Size = 1) :
    String.utf8Len text = text.length := by
  induction text with
  | nil => rfl
  | cons c text ih =>
    obtain ⟨hc, htext⟩ := List.forall_mem_cons.mp h
    rw [String.utf8Len_cons, hc, ih htext, List.length_cons]

/-- The divider is as long as a line, as a character of the heading takes one byte. -/
theorem divider_headingLine (h : Fits widths heading) :
    divider (headingLine widths) = List.replicate widths.total '-' := by
  have hascii : ∀ c ∈ headingLine widths, c.utf8Size = 1 := by
    have hcells : (heading.name ++ heading.weighting ++ heading.mark ++ [' ']).all
        (fun c => c.utf8Size == 1) = true := by
      decide +kernel
    intro c hc
    refine eq_of_beq (List.all_eq_true.mp hcells c ?_)
    simp only [headingLine, leftAligned, padding, gap, List.mem_append, List.mem_replicate,
      List.mem_cons, List.not_mem_nil, or_false] at hc ⊢
    tauto
  rw [divider, String.utf8ByteSize_ofList, utf8Len_of_ascii hascii, length_headingLine h]

/-! ## The whole table -/

theorem intercalate_lineEnds {lines : List (List Char)} (h : lines ≠ []) :
    ['\n'].intercalate lines ++ ['\n'] = lines.flatMap (· ++ ['\n']) := by
  induction lines with
  | nil => exact absurd rfl h
  | cons first others ih =>
    cases others with
    | nil => simp
    | cons second others =>
      rw [List.intercalate_cons_cons, List.flatMap_cons, ← ih (List.cons_ne_nil _ _)]
      simp

theorem toList_entities {sheet : Sheet Float} (h : sheet.entities ≠ []) :
    (Report.entities sheet).toList =
      (linesOf (sheet.entities.map rowOf)).flatMap (· ++ ['\n']) := by
  have hempty : sheet.entities.isEmpty = false := by simpa using h
  have hlines : linesOf (sheet.entities.map rowOf) ≠ [] := List.cons_ne_nil _ _
  have hback : ((linesOf (sheet.entities.map rowOf)).map String.ofList).map String.toList =
      linesOf (sheet.entities.map rowOf) := by
    rw [List.map_map]
    simp [Function.comp_def]
  rw [Report.entities, render, hempty, String.toList_append, ← intercalate_lineEnds hlines]
  simp only [Bool.false_eq_true, if_false]
  rw [String.toList_intercalate, hback]
  rfl

/-- What is printed of a sheet is a heading, a divider and a line for each entity in its order. All
lines but the heading are as long as the divider; in all of them the weighting ends at the same stop
and the mark at the end, and no cell is cut. -/
theorem layout_of_entities (sheet : Sheet Float) (h : sheet.entities ≠ [])
    (hn : ∀ entity ∈ sheet.entities, '\n' ∉ entity.name.toList) :
    ∃ (widths : Widths) (header divider : List Char) (rows : List (List Char)),
      (Report.entities sheet).toList = (header :: divider :: rows).flatMap (· ++ ['\n']) ∧
      (∀ line ∈ header :: divider :: rows, '\n' ∉ line) ∧
      Headed widths header ∧ divider = List.replicate widths.total '-' ∧
      List.Forall₂ (fun entity line => Laid widths (rowOf entity) line) sheet.entities rows := by
  set widths := widthsOf (sheet.entities.map rowOf) with hwidths
  have hheading : Fits widths heading := fits_widthsOf List.mem_cons_self
  have hheader := headed_trimmedLine hheading
  have hdivider := divider_headingLine hheading
  have hrows : ∀ entity ∈ sheet.entities,
      Laid widths (rowOf entity) (trimmedLine (rowLine widths (rowOf entity))) := by
    intro entity he
    rw [trimmedLine_rowLine (solid_mark entity)]
    refine laid_rowLine ?_ (solid_decimalDigits _) (solid_mark entity)
    exact fits_widthsOf (List.mem_cons_of_mem _ (List.mem_map_of_mem he))
  refine ⟨widths, _, _, _, toList_entities h, ?_, hheader, hdivider, ?_⟩
  · simp only [List.forall_mem_cons, List.forall_mem_map]
    refine ⟨?_, ?_, ?_⟩
    · obtain ⟨left, right, hspaced⟩ := hheader.spaced
      exact hspaced.lineEnd_not_mem (by decide) (by decide) (by decide)
    · rw [hdivider]
      simp [List.mem_replicate]
    · intro entity he
      obtain ⟨⟨left, right, hspaced, -⟩, hweighting, hmark, -⟩ := hrows entity he
      exact hspaced.lineEnd_not_mem (hn entity he) hweighting.lineEnd_not_mem
        hmark.lineEnd_not_mem
  · rw [List.map_map, List.forall₂_map_right_iff, List.forall₂_same]
    exact hrows

theorem layout_of_accented :
    let entities : List (Entity Float) := [⟨"\u00e9t\u00e9 ", 12, some 8.5⟩, ⟨"b", 1, none⟩]
    ∃ widths header divider first second,
      (Report.entities (Sheet.ofEntities "" entities)).toList =
        [header, divider, first, second].flatMap (· ++ ['\n']) ∧
      divider.length = first.length ∧ divider.length = second.length ∧
      Laid widths ⟨['\u00e9', 't', '\u00e9', ' '], ['1', '2'], ['8', '.', '5']⟩ first ∧
      Laid widths ⟨['b'], ['1'], ['-']⟩ second := by
  intro entities
  have hentities : (Sheet.ofEntities "" entities).entities = entities :=
    Sheet.entities_ofEntities "" (by decide)
  obtain ⟨widths, header, divider, rows, htext, -, -, hdivider, hrows⟩ :=
    layout_of_entities (Sheet.ofEntities "" entities) (by simp [hentities, entities])
      (by rw [hentities]; decide)
  rw [hentities] at hrows
  change List.Forall₂ _ [_, _] _ at hrows
  obtain _ | ⟨hfirst, _ | ⟨hsecond, _ | _⟩⟩ := hrows
  have hcells : rowOf ⟨"\u00e9t\u00e9 ", 12, some 8.5⟩ =
      ⟨['\u00e9', 't', '\u00e9', ' '], ['1', '2'], ['8', '.', '5']⟩ := by
    simp only [rowOf, Row.mk.injEq]
    exact ⟨by decide, by decide, by decide +kernel⟩
  rw [hcells] at hfirst
  refine ⟨widths, header, divider, _, _, htext, ?_, ?_, hfirst, hsecond⟩
  · rw [hdivider, List.length_replicate, hfirst.length_eq]
  · rw [hdivider, List.length_replicate, hsecond.length_eq]

example : Report.entities (Sheet.ofEntities "" [⟨"SE1", 2, some 9.1⟩, ⟨"SE22", 10, none⟩]) =
    "name  weighting  value\n----------------------\n" ++
    "SE1           2    9.1\nSE22         10      -\n" := by
  decide +kernel

end Marksheet.Table
