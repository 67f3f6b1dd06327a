import Marksheet.Proofs.CommandLine.Restoring
import Marksheet.Proofs.Reading.Assignments
import Marksheet.Proofs.Sheet.Answers

/-!
# Marksheet.Proofs.CommandLine.Marking

The two commands that take marks. The formula comes first, then the marks in the order in which they
are given, then the name that a mark is needed for; the first of these that is at fault is the one
told, and then nothing is printed. Where all are in order, the last mark of each name is all that
counts.

* `CommandLine.enter_of_mem`, `enter_of_notMem` : entering marks is a history, up to the first
  unknown name.
* `lastMarks`, `run_of_perm` : the marks that are not replaced later leave the same sheet.
* `CommandLine.request?_askedOptions` : any list of marks can be given.
* `CommandLine.Ending`, `ending_of_request` : how such a command ends.
-/

namespace Marksheet

def Assignment.action (mark : Assignment) : Action Float := .set mark.name mark.mark

/-- The marks that no later one of the same name replaces. -/
def lastMarks : List Assignment → List Assignment
  | [] => []
  | mark :: later =>
    if mark.name ∈ later.map Assignment.name then lastMarks later else mark :: lastMarks later

theorem Scheme.weighting_of_compile {options : Options} {text : String} {scheme : Scheme}
    (h : compile options text = .ok scheme) : ∀ entry ∈ scheme.entries, 1 ≤ entry.weighting := by
  obtain ⟨formula, -, h⟩ := ok_of_bind h
  obtain ⟨merged, weightings, -, -, he, -⟩ := ofFormula_eq_ok h
  intro entry hentry
  exact (weighting_of_entriesOf he entry hentry).1

variable {marks again earlier later : List Assignment} {mark : Assignment} {sheet : Sheet Float}

/-! ## The last marks -/

theorem mem_of_mem_lastMarks (h : mark ∈ lastMarks marks) : mark ∈ marks := by
  induction marks with
  | nil => exact h
  | cons first later ih =>
    rw [lastMarks] at h
    split at h
    · exact List.mem_cons_of_mem first (ih h)
    · rcases List.mem_cons.mp h with rfl | h
      · exact List.mem_cons_self
      · exact List.mem_cons_of_mem first (ih h)

/-- Of the marks under one name the last is left. -/
theorem filter_lastMarks (marks : List Assignment) (name : String) :
    (lastMarks marks).filter (fun mark => mark.name = name) =
      (marks.filter fun mark => mark.name = name).getLast?.toList := by
  induction marks with
  | nil => rfl
  | cons first later ih =>
    rw [lastMarks]
    by_cases hn : first.name = name
    · subst hn
      by_cases hm : first.name ∈ later.map Assignment.name
      · have hne : later.filter (fun mark => mark.name = first.name) ≠ [] := by
          obtain ⟨other, ho, he⟩ := List.mem_map.mp hm
          exact List.ne_nil_of_mem (List.mem_filter.mpr ⟨ho, decide_eq_true he⟩)
        rw [if_pos hm, ih, List.filter_cons_of_pos (by simp), List.getLast?_cons,
          List.getLast?_eq_some_getLast hne, Option.getD_some]
      · have hnil : later.filter (fun mark => mark.name = first.name) = [] := by
          refine List.filter_eq_nil_iff.mpr fun other ho he => ?_
          exact hm (List.mem_map.mpr ⟨other, ho, of_decide_eq_true he⟩)
        rw [if_neg hm, List.filter_cons_of_pos (by simp), List.filter_cons_of_pos (by simp), ih,
          hnil]
        rfl
    · split <;> simp [hn, ih]

/-- What the marks under one name leave does not depend on the order among different names. -/
theorem getLast?_of_perm (h : again.Perm (lastMarks marks)) (name : String) :
    (again.filter fun mark => mark.name = name).getLast? =
      (marks.filter fun mark => mark.name = name).getLast? := by
  have hperm := h.filter fun mark => mark.name = name
  rw [filter_lastMarks] at hperm
  cases hlast : (marks.filter fun mark => mark.name = name).getLast? with
  | none =>
    rw [hlast] at hperm
    rw [hperm.eq_nil, List.getLast?_nil]
  | some last =>
    rw [hlast] at hperm
    rw [List.perm_singleton.mp hperm, List.getLast?_singleton]

theorem markAfter_marks (marks : List Assignment) (name : String) (mark : Option Float) :
    markAfter (marks.map Assignment.action) name mark =
      ((marks.filter fun mark => mark.name = name).getLast?.map Assignment.mark).or mark := by
  induction marks using List.reverseRecOn with
  | nil => rfl
  | append_singleton marks last ih =>
    rw [List.map_append, List.map_singleton, Sheet.markAfter_concat, ih]
    by_cases hn : last.name = name <;>
      simp [Assignment.action, Action.concerns, Action.name?, Action.mark?, hn]

theorem Sheet.run_of_perm (h : again.Perm (lastMarks marks)) (sheet : Sheet Float) :
    run (again.map Assignment.action) sheet = run (marks.map Assignment.action) sheet := by
  refine eq_of_parts ?_ ?_ ?_
  · rw [formula_run, formula_run]
  · rw [entities_run, entities_run]
    refine List.map_congr_left fun entity _ => ?_
    rw [markAfter_marks, markAfter_marks, getLast?_of_perm h]
  · rw [index_run, index_run]

namespace CommandLine

/-! ## Entering marks -/

theorem enter_cons (sheet : Sheet Float) (mark : Assignment) (later : List Assignment) :
    enter sheet (mark :: later) = (do
      let next ← (sheet.set mark.name mark.mark).mapError (.setting mark.name)
      enter next later) :=
  List.foldlM_cons

theorem enter_append (sheet : Sheet Float) (earlier later : List Assignment) :
    enter sheet (earlier ++ later) = (do
      let next ← enter sheet earlier
      enter next later) :=
  List.foldlM_append

/-- Marks of known names go in one after the other, by induction: no mark changes which names there
are. -/
theorem enter_of_mem (h : ∀ mark ∈ marks, mark.name ∈ namesOf sheet.entities) :
    enter sheet marks = .ok (Sheet.run (marks.map Assignment.action) sheet) := by
  induction marks generalizing sheet with
  | nil => rfl
  | cons mark later ih =>
    obtain ⟨hfirst, hlater⟩ := List.forall_mem_cons.mp h
    obtain ⟨next, hnext, -, -⟩ := Sheet.enter_of_mem hfirst (some mark.mark)
    have hset : sheet.set mark.name mark.mark = .ok next := hnext
    have hact : (sheet.act mark.action).2 = next := by
      simp [Assignment.action, Sheet.act, Sheet.outcome, hset]
    have hnames : namesOf next.entities = namesOf sheet.entities := by
      rw [← hact]
      exact Sheet.namesOf_run [mark.action] sheet
    rw [enter_cons, hset]
    simp only [Except.mapError, ok_bind]
    rw [ih (by rwa [hnames]), List.map_cons, Sheet.run, Sheet.run, List.foldl_cons, hact]

/-- The first mark of an unknown name is told, whatever stands behind it. -/
theorem enter_of_notMem (he : ∀ other ∈ earlier, other.name ∈ namesOf sheet.entities)
    (hm : mark.name ∉ namesOf sheet.entities) :
    enter sheet (earlier ++ mark :: later) =
      .error (.setting mark.name (.unknownEntity mark.name)) := by
  have hrefused : (Sheet.run (earlier.map Assignment.action) sheet).set mark.name mark.mark =
      .error (.unknownEntity mark.name) := by
    refine Sheet.enter_of_notMem ?_ (some mark.mark)
    rwa [Sheet.namesOf_run]
  rw [enter_append, enter_of_mem he, ok_bind, enter_cons, hrefused]
  rfl

/-! ## Questions -/

inductive Question where
  | average
  | needed (name : String) (target : Float)

namespace Question

def name? : Question → Option String
  | average => none
  | needed name _ => some name

def request (question : Question) (formula : String) (settings : Settings)
    (marks : List Assignment) : Request :=
  match question with
  | average => .average formula settings marks
  | needed name target => .solve formula settings marks name target

def answer (question : Question) (settings : Settings) (sheet : Sheet Float) :
    Except Failure String :=
  match question with
  | average =>
    .ok (if settings.json then Report.averageJson sheet else Report.average sheet)
  | needed name target => do
    let mark ← (sheet.solveFor name target).mapError (.solving name)
    return if settings.json then Report.neededJson name target mark
      else Report.needed name target mark

theorem perform_request (files : String → Option String) (question : Question) (formula : String)
    (settings : Settings) (marks : List Assignment) :
    perform files (question.request formula settings marks) = (do
      let sheet ← enter (← sheetOf formula settings) marks
      question.answer settings sheet) := by
  cases question <;> rfl

/-- A question is answered where its name is known; no weighting stands in the way. -/
theorem exists_answer {question : Question} {settings : Settings}
    (hw : ∀ entity ∈ sheet.entities, entity.weighting ≠ 0)
    (hn : ∀ name, question.name? = some name → name ∈ namesOf sheet.entities) :
    ∃ text, question.answer settings sheet = .ok text := by
  cases question with
  | average => exact ⟨_, rfl⟩
  | needed name target =>
    obtain ⟨entity, he, rfl⟩ := mem_namesOf.mp (hn name rfl)
    have hsolve := Sheet.solveFor_eq he target
    rw [Sheet.neededMark, if_neg (hw entity he)] at hsolve
    rw [answer, hsolve]
    exact ⟨_, rfl⟩

theorem answer_of_notMem {question : Question} {settings : Settings} {name : String}
    (hq : question.name? = some name) (hn : name ∉ namesOf sheet.entities) :
    question.answer settings sheet = .error (.solving name (.unknownEntity name)) := by
  cases question with
  | average => cases hq
  | needed sought target =>
    cases hq
    rw [answer, Sheet.solveFor_of_notMem hn]
    rfl

end Question

/-! ## Lines of arguments -/

/-- Options with their values behind an equals sign, where a value may start with a dash. -/
def optionTexts (options : List (String × String)) : List String :=
  options.map fun option => "--" ++ option.1 ++ "=" ++ option.2

def optionParts (options : List (String × String)) : List Part :=
  options.map fun option => .option option.1 option.2

section Lines

variable {command : Command} {name value formula : String} {rest texts : List String}
  {given : List Part} {options : List (String × String)} {settings : Settings}

theorem spelling_option (hn : '=' ∉ name.toList) :
    spelling ("--" ++ name ++ "=" ++ value) = .long name (some value) := by
  have hsplit : Assignment.split? (name.toList ++ '=' :: value.toList) =
      some (name.toList, value.toList) := Assignment.split?_eq_some_iff.mpr ⟨rfl, hn⟩
  have htext : ("--" ++ name ++ "=" ++ value).toList =
      '-' :: '-' :: (name.toList ++ '=' :: value.toList) := by
    simp [String.toList_append]
  obtain ⟨c, others, hc⟩ := List.exists_cons_of_ne_nil
    (List.append_ne_nil_of_right_ne_nil name.toList (List.cons_ne_nil '=' value.toList))
  rw [spelling, htext, hc]
  simp [← hc, hsplit, String.ofList_toList]

theorem plain_of_takesValue (h : command.takesValue name = true) :
    isFlag name = false ∧ '=' ∉ name.toList := by
  have hmem : name ∈ ["normalization", "set", "target", "for"] := by
    cases command <;> simp [Command.takesValue] at h ⊢ <;> tauto
  simp only [List.mem_cons, List.not_mem_nil, or_false] at hmem
  rcases hmem with rfl | rfl | rfl | rfl <;> decide

theorem parts_options (hp : parts command rest = some given)
    (ho : ∀ option ∈ options, command.takesValue option.1 = true) :
    parts command (optionTexts options ++ rest) = some (optionParts options ++ given) := by
  induction options with
  | nil => exact hp
  | cons option later ih =>
    obtain ⟨hfirst, hlater⟩ := List.forall_mem_cons.mp ho
    obtain ⟨hflag, hname⟩ := plain_of_takesValue hfirst
    have hrest := ih hlater
    rw [optionTexts] at hrest
    rw [optionTexts, List.map_cons, List.cons_append, parts, spelling_option hname]
    simp [hflag, hfirst, hrest, optionParts]

def line (verb : String) (options : List (String × String)) (json : Bool) (formula : String) :
    List String :=
  verb :: (optionTexts options ++ ((if json then ["--json"] else []) ++ ["--", formula]))

def lineParts (options : List (String × String)) (json : Bool) (formula : String) : List Part :=
  optionParts options ++ ((if json then [.flag "json"] else []) ++ [.plain formula])

theorem request?_line (verb : String) (json : Bool) (hn : Command.ofName? verb = some command)
    (hv : isVerbosity verb = false) (ho : ∀ option ∈ options, command.takesValue option.1 = true) :
    request? (line verb options json formula) =
      command.request? (lineParts options json formula) := by
  have hlast : parts command ((if json then ["--json"] else []) ++ ["--", formula]) =
      some ((if json then [.flag "json"] else []) ++ [.plain formula]) := by
    cases json <;> simp [parts_json, parts_separator]
  exact request?_of_parts hv hn (parts_options hlast ho)

theorem valuesOf_lineParts (name : String) (options : List (String × String)) (json : Bool)
    (formula : String) : valuesOf name (lineParts options json formula) =
      (options.filter fun option => option.1 = name).map Prod.snd := by
  induction options with
  | nil => cases json <;> rfl
  | cons option later ih =>
    by_cases hn : option.1 = name <;> simp_all [valuesOf, lineParts, optionParts]

theorem plainValues_lineParts (options : List (String × String)) (json : Bool)
    (formula : String) : plainValues (lineParts options json formula) = [formula] := by
  cases json <;> simp [plainValues, lineParts, optionParts]

theorem flag?_lineParts (options : List (String × String)) (json : Bool) (formula : String) :
    flag? "json" (lineParts options json formula) = some json := by
  cases json <;> simp [flag?, lineParts, optionParts, List.filter_map, Function.comp_def]

inductive Question.Options : Question → String → List (String × String) → Prop where
  | average : Options average "average" []
  | needed {name text : String} {target : Float} : Decimal.read? text = some target →
      Options (needed name target) "solve" [("for", name), ("target", text)]

def askedOptions (options : List (String × String)) (normalization : Normalization)
    (texts : List String) : List (String × String) :=
  options ++ ("normalization", nameOf normalization) :: texts.map ("set", ·)

theorem takesValue_askedOptions (normalization : Normalization) (texts : List String)
    (hn : command.takesValue "normalization" = true) (hs : command.takesValue "set" = true)
    (ho : ∀ option ∈ options, command.takesValue option.1 = true) :
    ∀ option ∈ askedOptions options normalization texts, command.takesValue option.1 = true := by
  intro option h
  rcases List.mem_append.mp h with h | h
  · exact ho option h
  · rcases List.mem_cons.mp h with rfl | h
    · exact hn
    · obtain ⟨text, -, rfl⟩ := List.mem_map.mp h
      exact hs

/-- Every question about every list of marks can be asked. -/
theorem request?_askedOptions {question : Question} {verb : String} {marks : List Assignment}
    (formula : String) (settings : Settings) (hq : question.Options verb options)
    (ht : texts.mapM (fun text => (Assignment.parse text).toOption) = some marks) :
    request? (line verb (askedOptions options settings.normalization texts) settings.json formula) =
      some (question.request formula settings marks) := by
  have hsets : ∀ name, name ≠ "set" →
      ((texts.map ("set", ·)).filter fun option => option.1 = name) = [] := by
    intro name hn
    simp [List.filter_map, Function.comp_def, Ne.symm hn]
  cases hq with
  | average =>
    have htakes : ∀ option ∈ askedOptions [] settings.normalization texts,
        Command.average.takesValue option.1 = true :=
      takesValue_askedOptions _ _ (by decide) (by decide) (by simp)
    rw [request?_line _ _ (by decide) (by decide) htakes]
    simp [Command.request?, settingsOf?, marksOf?, valuesOf_lineParts, plainValues_lineParts,
      flag?_lineParts, askedOptions, hsets, normalizationOf?_nameOf, ht, only?,
      Question.request, List.filter_map, Function.comp_def]
  | @needed name text target htarget =>
    have htakes : ∀ option ∈ askedOptions [("for", name), ("target", text)]
        settings.normalization texts, Command.solve.takesValue option.1 = true :=
      takesValue_askedOptions _ _ (by decide) (by decide) (by simp [Command.takesValue])
    rw [request?_line _ _ (by decide) (by decide) htakes]
    simp [Command.request?, settingsOf?, marksOf?, valuesOf_lineParts, plainValues_lineParts,
      flag?_lineParts, askedOptions, hsets, normalizationOf?_nameOf, ht, only?, htarget,
      Question.request, List.filter_map, Function.comp_def]

end Lines

/-! ## Ends of a run -/

/-- The formula compiles, and has every name that is given. -/
def Question.Answerable (question : Question) (formula : String) (settings : Settings)
    (marks : List Assignment) : Prop :=
  ∃ scheme, Scheme.compile settings.options formula = .ok scheme ∧
    (∀ mark ∈ marks, mark.name ∈ scheme.entries.map Entry.name) ∧
    ∀ name, question.name? = some name → name ∈ scheme.entries.map Entry.name

/-- How the run of a question ends. -/
inductive Ending (files : String → Option String) (question : Question) (formula : String)
    (settings : Settings) (marks : List Assignment) : Outcome → Prop where
  | refused {fault : Fault} : Scheme.compile settings.options formula = .error fault →
      Ending files question formula settings marks (.failed (.compiling formula fault))
  /-- The first mark of a name that the formula does not have is told. -/
  | unknown {scheme : Scheme} {earlier later : List Assignment} {mark : Assignment} :
      Scheme.compile settings.options formula = .ok scheme → marks = earlier ++ mark :: later →
      (∀ other ∈ earlier, other.name ∈ scheme.entries.map Entry.name) →
      mark.name ∉ scheme.entries.map Entry.name →
      Ending files question formula settings marks
        (.failed (.setting mark.name (.unknownEntity mark.name)))
  | unsought {scheme : Scheme} {name : String} :
      Scheme.compile settings.options formula = .ok scheme →
      (∀ mark ∈ marks, mark.name ∈ scheme.entries.map Entry.name) →
      question.name? = some name → name ∉ scheme.entries.map Entry.name →
      Ending files question formula settings marks (.failed (.solving name (.unknownEntity name)))
  | answered {scheme : Scheme} {text : String} :
      Scheme.compile settings.options formula = .ok scheme →
      (∀ mark ∈ marks, mark.name ∈ scheme.entries.map Entry.name) →
      (∀ name, question.name? = some name → name ∈ scheme.entries.map Entry.name) →
      (∀ again : List Assignment, again.Perm (lastMarks marks) →
        ∀ arguments, request? arguments = some (question.request formula settings again) →
          run files arguments = .printed text) →
      Ending files question formula settings marks (.printed text)

section Runs

variable {files : String → Option String} {question : Question} {formula : String}
  {settings : Settings} {scheme : Scheme} {arguments : List String}

theorem run_of_ok {request : Request} {text : String} (h : request? arguments = some request)
    (hp : perform files request = .ok text) : run files arguments = .printed text := by
  simp only [run, h, hp]

theorem run_of_error {request : Request} {failure : Failure}
    (h : request? arguments = some request) (hp : perform files request = .error failure) :
    run files arguments = .failed failure := by
  simp only [run, h, hp]

theorem perform_of_scheme (hs : Scheme.compile settings.options formula = .ok scheme)
    (marks : List Assignment) :
    perform files (question.request formula settings marks) = (do
      let sheet ← enter (Sheet.ofScheme formula scheme) marks
      question.answer settings sheet) := by
  rw [Question.perform_request, sheetOf, Sheet.ofFormula, hs]
  rfl

/-- Once all names are known there is an answer, and it depends on the last marks only. -/
theorem perform_of_known (files : String → Option String)
    (hs : Scheme.compile settings.options formula = .ok scheme)
    (hm : ∀ mark ∈ marks, mark.name ∈ scheme.entries.map Entry.name)
    (hn : ∀ name, question.name? = some name → name ∈ scheme.entries.map Entry.name) :
    ∃ text, perform files (question.request formula settings marks) = .ok text ∧
      ∀ again : List Assignment, again.Perm (lastMarks marks) →
        perform files (question.request formula settings again) = .ok text := by
  have hnames := Sheet.namesOf_ofScheme (α := Float) hs
  set start : Sheet Float := Sheet.ofScheme formula scheme with hstart
  have hperform : ∀ given : List Assignment,
      (∀ mark ∈ given, mark.name ∈ scheme.entries.map Entry.name) →
      perform files (question.request formula settings given) =
        question.answer settings (Sheet.run (given.map Assignment.action) start) := by
    intro given hg
    rw [perform_of_scheme hs, enter_of_mem (by rwa [hnames]), ok_bind]
  obtain ⟨text, htext⟩ : ∃ text, question.answer settings
      (Sheet.run (marks.map Assignment.action) start) = .ok text := by
    refine Question.exists_answer ?_ (by rwa [Sheet.namesOf_run, hnames])
    intro entity he
    have hmem : entity.weighting ∈ (Sheet.run (marks.map Assignment.action) start).weightings :=
      List.mem_map_of_mem he
    rw [Sheet.weightings_run hs] at hmem
    obtain ⟨entry, hentry, hw⟩ := List.mem_map.mp hmem
    have hone := Scheme.weighting_of_compile hs entry hentry
    omega
  refine ⟨text, by rw [hperform marks hm, htext], fun again hagain => ?_⟩
  have hg : ∀ mark ∈ again, mark.name ∈ scheme.entries.map Entry.name := by
    intro mark hmark
    exact hm mark (mem_of_mem_lastMarks (hagain.mem_iff.mp hmark))
  rw [hperform again hg, Sheet.run_of_perm hagain, htext]

theorem Ending.failed_iff {outcome : Outcome}
    (h : Ending files question formula settings marks outcome) :
    outcome.exitCode = 1 ∧ outcome.output = "" ↔ ¬ question.Answerable formula settings marks := by
  cases h with
  | refused hs =>
    refine iff_of_true ⟨rfl, rfl⟩ ?_
    rintro ⟨scheme, hs', -, -⟩
    rw [hs] at hs'
    cases hs'
  | unknown hs hsplit _ hm =>
    refine iff_of_true ⟨rfl, rfl⟩ ?_
    rintro ⟨scheme, hs', hall, -⟩
    cases hs.symm.trans hs'
    exact hm (hall _ (by simp [hsplit]))
  | unsought hs _ hname hnot =>
    refine iff_of_true ⟨rfl, rfl⟩ ?_
    rintro ⟨scheme, hs', -, hn⟩
    cases hs.symm.trans hs'
    exact hnot (hn _ hname)
  | answered hs hall hn _ =>
    refine iff_of_false ?_ (not_not_intro ⟨_, hs, hall, hn⟩)
    rintro ⟨hcode, -⟩
    cases hcode

/-- The first of formula, marks and sought name that is at fault is told, and it alone; where none
is, the last mark of each name decides what is printed. -/
theorem ending_of_request (files : String → Option String) (arguments : List String)
    (question : Question) (formula : String) (settings : Settings) (marks : List Assignment)
    (h : request? arguments = some (question.request formula settings marks)) :
    Ending files question formula settings marks (run files arguments) ∧
      ((run files arguments).exitCode = 1 ∧ (run files arguments).output = "" ↔
        ¬ question.Answerable formula settings marks) := by
  have hends : Ending files question formula settings marks (run files arguments) := by
    cases hs : Scheme.compile settings.options formula with
    | error fault =>
      have hperform : perform files (question.request formula settings marks) =
          .error (.compiling formula fault) := by
        rw [Question.perform_request, sheetOf, Sheet.ofFormula, hs]
        rfl
      rw [run_of_error h hperform]
      exact .refused hs
    | ok scheme =>
      have hnames := Sheet.namesOf_ofScheme (α := Float) hs
      rcases forall_or_first (fun mark : Assignment => mark.name ∈ scheme.entries.map Entry.name)
        marks with hall | ⟨earlier, mark, later, hsplit, he, hm⟩
      · by_cases hn : ∀ name, question.name? = some name → name ∈ scheme.entries.map Entry.name
        · obtain ⟨text, htext, hagain⟩ := perform_of_known files hs hall hn
          rw [run_of_ok h htext]
          refine .answered hs hall hn fun again hperm others ho => ?_
          exact run_of_ok ho (hagain again hperm)
        · push Not at hn
          obtain ⟨name, hname, hnot⟩ := hn
          have hperform : perform files (question.request formula settings marks) =
              .error (.solving name (.unknownEntity name)) := by
            rw [perform_of_scheme hs, enter_of_mem (by rwa [hnames]), ok_bind]
            exact Question.answer_of_notMem hname (by rwa [Sheet.namesOf_run, hnames])
          rw [run_of_error h hperform]
          exact .unsought hs hall hname hnot
      · have hperform : perform files (question.request formula settings marks) =
            .error (.setting mark.name (.unknownEntity mark.name)) := by
          rw [perform_of_scheme hs, hsplit, enter_of_notMem (by rwa [hnames]) (by rwa [hnames]),
            error_bind]
        rw [run_of_error h hperform]
        exact .unknown hs hsplit he hm
  exact ⟨hends, hends.failed_iff⟩

theorem ending_of_repeated :
    ∃ text,
      run (fun _ => none) (line "average" (askedOptions [] .commonDenominator
        ["b= 2", "a=1", "b=3.5"]) false "a + 2b") = .printed text ∧
      run (fun _ => none) (line "average" (askedOptions [] .commonDenominator
        ["b=3.5", "a=1"]) false "a + 2b") = .printed text := by
  let settings : Settings := ⟨.commonDenominator, false⟩
  let marks : List Assignment := [⟨"b", 2⟩, ⟨"a", 1⟩, ⟨"b", 3.5⟩]
  let again : List Assignment := [⟨"b", 3.5⟩, ⟨"a", 1⟩]
  have hfirst : request? (line "average" (askedOptions [] .commonDenominator
      ["b= 2", "a=1", "b=3.5"]) false "a + 2b") =
        some (Question.average.request "a + 2b" settings marks) :=
    request?_askedOptions "a + 2b" settings .average (by decide +kernel)
  have hagain : request? (line "average" (askedOptions [] .commonDenominator
      ["b=3.5", "a=1"]) false "a + 2b") =
        some (Question.average.request "a + 2b" settings again) :=
    request?_askedOptions "a + 2b" settings .average (by decide +kernel)
  have hlast : lastMarks marks = [⟨"a", 1⟩, ⟨"b", 3.5⟩] := by decide +kernel
  have hperm : again.Perm (lastMarks marks) := by
    rw [hlast]
    exact List.Perm.swap _ _ _
  obtain ⟨scheme, hs⟩ := exists_ok (x := Scheme.compile {} "a + 2b") (by decide +kernel)
  have hcompile : (Scheme.compile {} "a + 2b").toOption.map Scheme.entries =
      some [⟨"a", 1⟩, ⟨"b", 2⟩] := by
    decide +kernel
  rw [hs] at hcompile
  have hentries : scheme.entries = [⟨"a", 1⟩, ⟨"b", 2⟩] := Option.some.inj hcompile
  have hknown : Question.average.Answerable "a + 2b" settings marks := by
    refine ⟨scheme, hs, ?_, fun name h => by cases h⟩
    rw [hentries]
    decide +kernel
  obtain ⟨hends, hfails⟩ := ending_of_request (fun _ => none) _ _ _ _ _ hfirst
  generalize run _ (line "average" (askedOptions [] .commonDenominator
      ["b= 2", "a=1", "b=3.5"]) false "a + 2b") = outcome at hends hfails ⊢
  cases hends with
  | answered _ _ _ hsame => exact ⟨_, rfl, hsame again hperm _ hagain⟩
  | _ => exact absurd hknown (hfails.mp ⟨rfl, rfl⟩)

end Runs

end CommandLine

end Marksheet
