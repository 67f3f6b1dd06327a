import Marksheet.Proofs.Sheet.Records

/-!
# Marksheet.Proofs.Sheet.Lines

Restoring a record whatever its lines are. A record comes from a file, so its names may be repeated,
unknown or missing. The formula is read first; then the lines are gone through in order, and each
has to have a name of the formula before its mark counts.

* `lastMark` : the mark that the lines leave under a name.
* `Sheet.foldlM_restoreLine_unknown` : the first line with an unknown name is the one told.
* `Sheet.foldlM_restoreLine_congr` : the weightings on the lines decide nothing.
* `Sheet.Restoration`, `Sheet.restoration_of_record` : the three ends of restoring a record.
-/

namespace Marksheet

variable {α : Type}

/-- The mark on the last of the lines under a name that have one. -/
def lastMark (lines : List (Entity α)) (name : String) : Option α :=
  ((lines.filter fun line => line.name = name).filterMap Entity.mark).getLast?

theorem lastMark_concat (lines : List (Entity α)) (line : Entity α) (name : String) :
    lastMark (lines ++ [line]) name =
      if line.name = name then line.mark.or (lastMark lines name) else lastMark lines name := by
  by_cases hn : line.name = name
  · cases hm : line.mark <;> simp [lastMark, hn, hm]
  · simp [lastMark, hn]

namespace Sheet

variable {sheet : Sheet α} {line : Entity α} {lines others earlier later : List (Entity α)}

/-! ## One line after the other -/

/-- By induction on the lines from the last one on, as a later line wins. -/
theorem markAfter_lines (lines : List (Entity α)) (name : String) (mark : Option α) :
    markAfter (lines.flatMap Entity.actions) name mark = (lastMark lines name).or mark := by
  induction lines using List.reverseRecOn with
  | nil => rfl
  | append_singleton lines line ih =>
    rw [List.flatMap_append, markAfter_append, List.flatMap_singleton, markAfter_line, ih,
      lastMark_concat]
    split
    · rw [Option.or_assoc]
    · rfl

theorem restoreLine_of_notMem (h : line.name ∉ namesOf sheet.entities) :
    sheet.restoreLine line = .error (.unknownEntity line.name) := by
  rw [restoreLine, requireName_of_notMem h, error_bind]

/-- The lines before the first unknown name go through, and their marks are lost with it. -/
theorem foldlM_restoreLine_unknown (he : ∀ other ∈ earlier, other.name ∈ namesOf sheet.entities)
    (hl : line.name ∉ namesOf sheet.entities) :
    (earlier ++ line :: later).foldlM restoreLine sheet = .error (.unknownEntity line.name) := by
  rw [List.foldlM_append, foldlM_restoreLine he, ok_bind, List.foldlM_cons,
    restoreLine_of_notMem, error_bind]
  rwa [namesOf_run]

def nameAndMark (line : Entity α) : String × Option α := (line.name, line.mark)

theorem foldlM_restoreLine_congr (h : lines.map nameAndMark = others.map nameAndMark) :
    lines.foldlM restoreLine sheet = others.foldlM restoreLine sheet := by
  have hread : ∀ given : List (Entity α), given.foldlM restoreLine sheet =
      (given.map nameAndMark).foldlM
        (fun sheet read => sheet.restoreLine ⟨read.1, 0, read.2⟩) sheet := by
    intro given
    rw [List.foldlM_map]
    rfl
  rw [hread lines, hread others, h]

/-! ## Whole records -/

/-- How restoring a record ends. -/
inductive Restoration (options : Options) (record : Record α) : Except Fault (Sheet α) → Prop where
  | refused {fault : Fault} : Scheme.compile options record.formula = .error fault →
      Restoration options record (.error fault)
  /-- The first name that the formula does not have is told, with a mark on its line or without. -/
  | unknown {scheme : Scheme} {earlier later : List (Entity α)} {line : Entity α} :
      Scheme.compile options record.formula = .ok scheme →
      record.entities = earlier ++ line :: later →
      (∀ other ∈ earlier, other.name ∈ scheme.entries.map Entry.name) →
      line.name ∉ scheme.entries.map Entry.name →
      Restoration options record (.error (.unknownEntity line.name))
  | restored {scheme : Scheme} {sheet : Sheet α} :
      Scheme.compile options record.formula = .ok scheme →
      (∀ line ∈ record.entities, line.name ∈ scheme.entries.map Entry.name) →
      sheet.formula = record.formula →
      (sheet.entities = scheme.entries.map fun entry =>
        { name := entry.name, weighting := entry.weighting,
          mark := lastMark record.entities entry.name }) →
      Restoration options record (.ok sheet)

/-- A new sheet has no marks, so the lines alone say them. -/
theorem entities_run_lines {options : Options} {text : String} {scheme : Scheme}
    (h : Scheme.compile options text = .ok scheme) (lines : List (Entity α)) :
    (run (lines.flatMap Entity.actions) (ofScheme text scheme)).entities =
      scheme.entries.map fun entry =>
        { name := entry.name, weighting := entry.weighting, mark := lastMark lines entry.name } := by
  rw [entities_run, entities_ofScheme h, List.map_map]
  refine List.map_congr_left fun entry _ => ?_
  rw [Function.comp_apply, markAfter_lines, Option.or_none]

/-- Restoring a record tells the fault of its formula, or else its first unknown name, or else makes
the sheet of the formula with the last mark on the lines of each name. Two records that differ in
weightings only come to the same. -/
theorem restoration_of_record (options : Options) (record : Record α) :
    Restoration options record (ofRecord options record) ∧
      ∀ other : Record α, other.formula = record.formula →
        other.entities.map nameAndMark = record.entities.map nameAndMark →
        ofRecord options other = ofRecord options record := by
  constructor
  · cases hs : Scheme.compile options record.formula with
    | error fault =>
      rw [ofRecord, ofFormula, hs]
      exact .refused hs
    | ok scheme =>
      have hread : ofRecord options record =
          record.entities.foldlM restoreLine (ofScheme record.formula scheme) := by
        rw [ofRecord, ofFormula, hs]
        rfl
      have hnames := namesOf_ofScheme (α := α) hs
      rcases forall_or_first (fun line => line.name ∈ scheme.entries.map Entry.name)
        record.entities with hall | ⟨earlier, line, later, hsplit, he, hl⟩
      · rw [hread, foldlM_restoreLine (by rwa [hnames])]
        refine .restored hs hall ?_ (entities_run_lines hs record.entities)
        rw [formula_run]
        exact formula_ofEntities _ _
      · rw [hread, hsplit, foldlM_restoreLine_unknown (by rwa [hnames]) (by rwa [hnames])]
        exact .unknown hs hsplit he hl
  · intro other hf hl
    have hlines : ∀ sheet : Sheet α, other.entities.foldlM restoreLine sheet =
        record.entities.foldlM restoreLine sheet := fun _ => foldlM_restoreLine_congr hl
    simp only [ofRecord, hf, hlines]

theorem restoration_of_repeated :
    let lines : List (Entity Float) := [⟨"b", 9, some 4⟩, ⟨"a", 0, none⟩, ⟨"b", 2, some 2.5⟩,
      ⟨"b", 1, none⟩]
    let renewed : List (Entity Float) := [⟨"b", 2, some 4⟩, ⟨"a", 1, none⟩, ⟨"b", 2, some 2.5⟩,
      ⟨"b", 2, none⟩]
    ∃ sheet, ofRecord {} ⟨"a + 2b", lines⟩ = .ok sheet ∧
      sheet.entities = [⟨"a", 1, none⟩, ⟨"b", 2, some 2.5⟩] ∧
      ofRecord {} ⟨"a + 2b", renewed⟩ = .ok sheet := by
  intro lines renewed
  obtain ⟨hends, hsame⟩ := restoration_of_record {} ⟨"a + 2b", lines⟩
  obtain ⟨sheet, hsheet⟩ := exists_ok (x := ofRecord {} (⟨"a + 2b", lines⟩ : Record Float))
    (by decide +kernel)
  have hcompile : (Scheme.compile {} "a + 2b").toOption.map Scheme.entries =
      some [⟨"a", 1⟩, ⟨"b", 2⟩] := by
    decide +kernel
  rw [hsheet] at hends
  cases hends with
  | restored hscheme _ _ hentities =>
    rw [hscheme] at hcompile
    rw [Option.some.inj hcompile] at hentities
    exact ⟨sheet, hsheet, hentities, (hsame ⟨"a + 2b", renewed⟩ rfl rfl).trans hsheet⟩

/-- A name has to be known also where its line has no mark. -/
example :
    fault? (ofRecord {} ⟨"a + 2b", [⟨"b", 2, some 1⟩, ⟨"z", 1, none⟩, ⟨"y", 1, some 3⟩]⟩ :
      Except Fault (Sheet Rat)) = some (.unknownEntity "z") := by
  decide +kernel

end Sheet

end Marksheet
