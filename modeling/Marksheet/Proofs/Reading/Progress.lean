import Marksheet.Proofs.Reading.Depth
import Marksheet.Proofs.Reading.Descent

/-!
# Marksheet.Proofs.Reading.Progress

How far reading gets. Every term passes a character that is no blank, so reading by recursion ends
on every text, whatever the limit of nesting is, and a formula has no more nodes than such
characters.

* `Cursor.Passes` : what lies between two cursors, with characters that are no blanks.
* `Formula.nodesBelow_lt_of_termText` : each node of a formula was written with a character of its
  own.
* `Formula.passes_of_descent`, `depth_of_descent`, `spending_of_paired` : what reading a term
  passes, that it counts out what it has counted in, and how many terms it begins.
* `Formula.progress_of_descent` : all of it, from every state.
-/

namespace Marksheet

open Cursor (ask Ahead)

variable {σ : Type}

def Text.nonBlanks (text : List Char) : Nat :=
  text.countP fun c => !Text.isBlank c

open Text (nonBlanks)

@[simp] theorem Text.nonBlanks_append (text more : List Char) :
    nonBlanks (text ++ more) = nonBlanks text + nonBlanks more :=
  List.countP_append

theorem Text.nonBlanks_cons {c : Char} (h : isBlank c = false) (text : List Char) :
    nonBlanks (c :: text) = nonBlanks text + 1 := by
  simp [nonBlanks, h]

theorem Text.nonBlanks_le_cons (c : Char) (text : List Char) :
    nonBlanks text ≤ nonBlanks (c :: text) :=
  (List.sublist_cons_self c text).countP_le

/-- A text that starts with no blank. -/
theorem Text.nonBlanks_pos {text : List Char} (hn : text ≠ [])
    (h : ∀ c, text.head? = some c → isBlank c = false) : 0 < nonBlanks text := by
  cases text with
  | nil => exact absurd rfl hn
  | cons c text =>
    rw [nonBlanks_cons (h c rfl)]
    exact Nat.succ_pos _

/-! ## Characters passed -/

/-- The second cursor stands further on in the same text, with at least `count` characters between
them that are no blanks. -/
def Cursor.Passes [Feed σ] (count : Nat) (cursor behind : Cursor σ) : Prop :=
  ∃ used, cursor.rest = used ++ behind.rest ∧ behind.position = cursor.position + used.length ∧
    count ≤ nonBlanks used

namespace Cursor

variable [Feed σ] {count more : Nat} {cursor between behind : Cursor σ}

theorem Passes.trans (h : Passes count cursor between) (hn : Passes more between behind) :
    Passes (count + more) cursor behind := by
  obtain ⟨used, hr, hp, hc⟩ := h
  obtain ⟨used', hr', hp', hc'⟩ := hn
  refine ⟨used ++ used', ?_, ?_, ?_⟩
  · rw [hr, hr', List.append_assoc]
  · rw [hp', hp, List.length_append, Nat.add_assoc]
  · rw [Text.nonBlanks_append]
    exact Nat.add_le_add hc hc'

theorem passes_of_accept {wanted : Char} (hw : Text.isBlank wanted = false)
    (h : cursor.accept wanted = (true, behind)) : Passes 1 cursor behind := by
  have hc : cursor.skipBlanks.current = some wanted :=
    accept_eq_true_iff.mp (congrArg Prod.fst h)
  have hb : behind = cursor.skipBlanks.advance := by
    rw [accept, if_pos hc] at h
    exact (congrArg Prod.snd h).symm
  have hlast : nonBlanks [wanted] = 1 := Text.nonBlanks_cons hw []
  refine ⟨cursor.rest.takeWhile Text.isBlank ++ [wanted], ?_, ?_, ?_⟩
  · have hskip := rest_skipBlanks cursor
    rw [rest_of_some hc, ← hb] at hskip
    rw [List.append_assoc, List.singleton_append, hskip, List.takeWhile_append_dropWhile]
  · rw [hb, position_advance hc, skipBlanks, position_takeWhile, takeWhile_eq, List.length_append,
      List.length_singleton, Nat.add_assoc]
  · rw [Text.nonBlanks_append, hlast]
    exact Nat.le_add_left 1 _

end Cursor

/-! ## Nodes -/

namespace Formula

open Grammar
open Scan (Paired)

/-- The nodes below the root. -/
def nodesBelow (formula : Formula) : Nat :=
  formula.fold fun below others => below + 1 + others

def allNodes (formulas : List Formula) : Nat :=
  allFold (fun below others => below + 1 + others) formulas

theorem allNodes_cons (first : Formula) (others : List Formula) :
    allNodes (first :: others) = first.nodesBelow + 1 + allNodes others := by
  rw [allNodes, allFold, nodesBelow, allNodes]

theorem nodesBelow_ofGroup {members : List Formula} {formula : Formula}
    (h : ofGroup members = .ok formula) : formula.nodesBelow = allNodes members :=
  fold_ofGroup h

theorem nodesBelow_ofCall {function : NamedFunction} {arguments : List Formula} {formula : Formula}
    (h : ofCall function arguments = .ok formula) : formula.nodesBelow = allNodes arguments :=
  fold_ofCall h

theorem nodesBelow_applyFactors {formula result : Formula} {factor divisor : Option Float}
    (h : applyFactors formula factor divisor = .ok result) :
    result.nodesBelow = formula.nodesBelow :=
  fold_applyFactors h

theorem nodesBelow_ofLeaf (name : Option String) (multiplier : Option Float) :
    (ofLeaf name multiplier).nodesBelow = 0 := by
  rw [nodesBelow, ofLeaf, fold]

theorem nonBlanks_numeralText {token : List Char} {value : Float} (h : NumeralText token value) :
    0 < nonBlanks token := by
  refine Text.nonBlanks_pos h.ne_nil ?_
  have hall := isBlank_of_mem_head (.plain h) []
  rwa [List.append_nil] at hall

theorem nonBlanks_nameText {token : List Char} (h : NameText token) : 0 < nonBlanks token := by
  obtain ⟨first, others, rfl, hf, _⟩ := h
  rw [Text.nonBlanks_cons (isBlank_of_isNameStart hf)]
  exact Nat.succ_pos _

theorem nonBlanks_opened (inner : List Char) : nonBlanks ('(' :: inner) = nonBlanks inner + 1 :=
  Text.nonBlanks_cons (by decide) inner

theorem le_nonBlanks_of_enclosedText {count : Nat} {separator : Char} {text following : List Char}
    {terms : List Term} (h : EnclosedText separator text terms following)
    (hl : ∀ {items following}, ListText separator items terms following →
      count ≤ nonBlanks items) : count ≤ nonBlanks text := by
  cases h with
  | closed hlist _ =>
    rw [Text.nonBlanks_append]
    exact Nat.le_add_right_of_le (hl hlist)

mutual

/-- A node is written with at least one character that no other node is written with. -/
theorem nodesBelow_lt_of_termText : (term : Term) →
    ∀ {text following : List Char} {formula : Formula}, TermText text term following →
      term.formula = .ok formula → formula.nodesBelow < nonBlanks text
  | .number factor divisor, text, following, formula, ht, hf => by
    rw [Term.formula] at hf
    rw [nodesBelow_applyFactors hf, nodesBelow_ofLeaf]
    cases ht with
    | number hb hn hd =>
      have hpos := nonBlanks_numeralText hn.1
      simp only [Text.nonBlanks_append]
      omega
  | .name factor word divisor, text, following, formula, ht, hf => by
    rw [Term.formula] at hf
    rw [nodesBelow_applyFactors hf, nodesBelow_ofLeaf]
    cases ht with
    | name hb hl hg hn hd =>
      have hpos := nonBlanks_nameText hn.1
      simp only [Text.nonBlanks_append]
      omega
  | .group factor members divisor, text, following, formula, ht, hf => by
    rw [Term.formula] at hf
    obtain ⟨formulas, hm, hf⟩ := ok_of_bind hf
    obtain ⟨whole, hw, hf⟩ := ok_of_bind hf
    rw [nodesBelow_applyFactors hf, nodesBelow_ofGroup hw]
    cases ht with
    | group hb hl hg he ht hone hd =>
      have hall := le_nonBlanks_of_enclosedText he fun h => allNodes_le_of_listText members h hm
      simp only [Text.nonBlanks_append, nonBlanks_opened]
      omega
  | .call factor function arguments divisor, text, following, formula, ht, hf => by
    rw [Term.formula] at hf
    cases hn : NamedFunction.ofName? function with
    | none =>
      rw [hn] at hf
      cases hf
    | some known =>
      rw [hn] at hf
      obtain ⟨formulas, hm, hf⟩ := ok_of_bind hf
      obtain ⟨whole, hw, hf⟩ := ok_of_bind hf
      rw [nodesBelow_applyFactors hf, nodesBelow_ofCall hw]
      cases ht with
      | call hb hl hg hn he hd =>
        have hall := le_nonBlanks_of_enclosedText he
          fun h => allNodes_le_of_listText arguments h hm
        simp only [Text.nonBlanks_append, nonBlanks_opened]
        omega

theorem allNodes_le_of_listText : (terms : List Term) →
    ∀ {separator : Char} {text following : List Char} {formulas : List Formula},
      ListText separator text terms following → Term.allFormulas terms = .ok formulas →
        allNodes formulas ≤ nonBlanks text
  | [], separator, text, following, formulas, ht, hf => by cases ht
  | first :: others, separator, text, following, formulas, ht, hf => by
    rw [Term.allFormulas] at hf
    obtain ⟨one, ho, hf⟩ := ok_of_bind hf
    obtain ⟨rest, hr, hf⟩ := ok_of_bind hf
    cases hf
    rw [allNodes_cons]
    cases ht with
    | one ht =>
      cases hr
      exact nodesBelow_lt_of_termText first ht ho
    | @more _ text gap texts _ _ _ ht hg hts =>
      have hfirst := nodesBelow_lt_of_termText first ht ho
      have hothers := allNodes_le_of_listText others hts hr
      have hle := Text.nonBlanks_le_cons separator texts
      simp only [Text.nonBlanks_append]
      omega

end

/-! ## Reading by recursion -/

variable [Feed σ] {limit : Nat} {formula : Formula} {cursor behind : Cursor (Tallied σ)}

theorem term_of_descent (h : (descent limit).scan cursor = .ok formula behind) :
    ∃ between, (term limit (limit - cursor.feed.depth)).scan (ask cursor.rest cursor.position) =
      .ok formula between ∧ Keeps cursor cursor.feed.depth 0 between behind :=
  (paired_descent limit (Keeps.refl cursor)).ok_of_eq h

theorem passes_of_descent (h : (descent limit).scan cursor = .ok formula behind) :
    cursor.Passes 1 behind := by
  obtain ⟨between, hterm, hkeeps⟩ := term_of_descent h
  obtain ⟨used, term, rest, hrest, ht, hahead, hreading⟩ :=
    (reads_term limit (limit - cursor.feed.depth)).sound hterm
  obtain ⟨gap, last, rfl, _, rfl⟩ := hahead
  have hformula := ((Term.reading_eq_ok_iff limit term).mp hreading).2.2
  have hpos := nodesBelow_lt_of_termText term ht hformula
  have hlast : behind.rest = last := by
    rw [hkeeps.level.rest, Cursor.rest_ask, Feed.chars_list]
  refine ⟨used ++ gap, ?_, ?_, ?_⟩
  · rw [hrest, hlast, List.append_assoc]
  · rw [hkeeps.level.position, Cursor.position_ask, List.length_append, Nat.add_assoc]
  · rw [Text.nonBlanks_append]
    omega

/-- The scan begins no more terms than it passes characters, and one more where it faults. -/
def Spending {α : Type} (scan : Scan (Tallied σ) α) : Prop :=
  ∀ cursor, (∀ x behind, scan cursor = .ok x behind → Spends 0 cursor behind) ∧
    ∀ fault behind, scan cursor = .error fault behind → Spends 1 cursor behind

theorem spending_of_paired {α : Type} {scan : Scan (Tallied σ) α}
    {other : Nat → Scan (List Char) α}
    (h : ∀ {origin : Cursor (Tallied σ)} {depth cursor copy}, Keeps origin depth 0 cursor copy →
      Paired (Keeps origin depth 0) (Leaves origin) (other depth cursor) (scan copy)) :
    Spending scan := by
  intro cursor
  have hend := h (Keeps.refl cursor)
  refine ⟨?_, ?_⟩
  · intro x behind hs
    obtain ⟨_, _, hkeeps⟩ := hend.ok_of_eq hs
    exact hkeeps.spent
  · intro fault behind hs
    obtain ⟨_, _, _, hkeeps⟩ := hend.error_of_eq hs
    exact hkeeps.spent

/-- What is left limits the levels that can be met. -/
theorem not_isTooDeep_of_descent {fault : Fault}
    (h : (descent limit).scan cursor = .error fault behind)
    (hlimit : cursor.feed.depth + cursor.rest.length < limit) : ¬ fault.IsTooDeep := by
  obtain ⟨between, hterm, _⟩ := (paired_descent limit (Keeps.refl cursor)).error_of_eq h
  have hwithin : Scan.Within limit (limit - cursor.feed.depth)
      (term limit (limit - cursor.feed.depth)).scan
      (term limit (limit - cursor.feed.depth)).scan := within_term (Nat.le_refl _)
  have hfollows := hwithin (ask cursor.rest cursor.position)
  rw [hterm] at hfollows
  cases hfollows with
  | fault hf => exact hf
  | met hroom =>
    have hsize := Cursor.size_ask_le cursor.rest cursor.position
    have hbound : Feed.bound cursor.rest = cursor.rest.length := rfl
    omega

theorem depth_of_descent (h : (descent limit).scan cursor = .ok formula behind) :
    behind.feed.depth = cursor.feed.depth := by
  obtain ⟨between, _, hkeeps⟩ := term_of_descent h
  exact hkeeps.depth

/-- When a term counts itself out, what is nested in it has been counted out. -/
theorem depth_of_termOf (h : termOf (descent limit) cursor = .ok formula behind) :
    behind.feed.depth = cursor.feed.depth := by
  have hin := inward_keeps cursor cursor.feed.depth
  have hend := paired_termOf hin (hin.widen (Keeps.refl cursor))
    fun _ _ hk _ => paired_descent limit hk
  obtain ⟨_, _, hkeeps⟩ := hend.ok_of_eq h
  exact hkeeps.depth

/-- A formula has no more nodes below its root than it was written with characters. -/
theorem nodesBelow_le_of_sumOf (h : sumOf (descent limit) cursor = .ok formula behind) :
    formula.nodesBelow ≤ nonBlanks cursor.rest := by
  obtain ⟨_, hsum, _⟩ := (paired_sumOf limit (Keeps.refl cursor)).ok_of_eq h
  obtain ⟨formulas, _, hlist, hsum⟩ := Scan.bind_ok hsum
  obtain ⟨used, terms, rest, hrest, hl, _, hreadings⟩ :=
    listText_of_separated (reads_term limit _) hlist
  have hall := ((Term.allReadings_eq_ok_iff limit terms).mp hreadings).2.2
  obtain ⟨_, _, _, hsum⟩ := Scan.bind_ok hsum
  obtain ⟨atEnd, _, _, hsum⟩ := Scan.bind_ok hsum
  cases atEnd with
  | false =>
    obtain ⟨_, _, _, hsum⟩ := Scan.bind_ok hsum
    cases hsum
  | true =>
    obtain ⟨hw, _⟩ := Scan.lift_ok hsum
    rw [nodesBelow_ofGroup hw, hrest, Text.nonBlanks_append]
    exact Nat.le_add_right_of_le (allNodes_le_of_listText terms hl hall)

theorem nodesBelow_le_of_parse {text : String} (h : parse limit text = .ok formula) :
    formula.nodesBelow ≤ nonBlanks text.toList := by
  have hrun := run_sumOf_descent limit text.toList
  rw [Feed.chars_list, String.ofList_toList, h] at hrun
  obtain ⟨behind, hsum⟩ := Scan.run_ok hrun
  have hle := nodesBelow_le_of_sumOf hsum
  rwa [Cursor.rest_start, Tallied.chars_eq, Feed.chars_list] at hle

variable (σ) in
/-- What reading a term by recursion does, from any state of the cursor and the count. -/
structure Progress (limit : Nat) : Prop where
  recurs : Recurs limit (descent limit : Item (Tallied σ) Formula)
  unique : ∀ item : Item (Tallied σ) Formula, Recurs limit item →
    ∀ cursor, item.scan cursor = (descent limit).scan cursor
  parses : ∀ feed : σ, (sumOf (descent limit)).run ({ feed } : Tallied σ) =
    parse limit (String.ofList (Feed.chars feed))
  passes : ∀ (cursor behind : Cursor (Tallied σ)) formula,
    (descent limit).scan cursor = .ok formula behind → cursor.Passes 1 behind
  restores : ∀ (cursor behind : Cursor (Tallied σ)) formula,
    (descent limit).scan cursor = .ok formula behind → behind.feed.depth = cursor.feed.depth
  restores_within : ∀ (cursor behind : Cursor (Tallied σ)) formula,
    termOf (descent limit) cursor = .ok formula behind → behind.feed.depth = cursor.feed.depth
  passes_further : ∀ separator (cursor next behind : Cursor (Tallied σ)) formula,
    separator = '+' ∨ separator = ',' → cursor.accept separator = (true, next) →
      (descent limit).scan next = .ok formula behind → cursor.Passes 2 behind
  spends : Spending (descent limit : Item (Tallied σ) Formula).scan
  spends_text : Spending (sumOf (descent limit : Item (Tallied σ) Formula))
  unlimited : ∀ (cursor behind : Cursor (Tallied σ)) fault,
    cursor.feed.depth + cursor.rest.length < limit →
      (descent limit).scan cursor = .error fault behind → ¬ fault.IsTooDeep
  nodes : ∀ (cursor behind : Cursor (Tallied σ)) formula,
    sumOf (descent limit) cursor = .ok formula behind →
      formula.nodesBelow ≤ nonBlanks cursor.rest
  nodes_text : ∀ text formula, parse limit text = .ok formula →
    formula.nodesBelow ≤ nonBlanks text.toList

/-- The recursion has one solution, and reads a whole feed as `parse` reads its characters. Where it
answers, it has passed a character that is no blank, has not gone beyond the end, and has counted
out all it has counted in; so each further item of a list passes two such characters, one of them
the separator. It begins no more terms than it passes characters, and one more where it faults, and
so does a whole text; a limit is not what ends it, as none is met that is above the number of
characters left. A formula that is read has no more nodes below its root than there were characters
before it that are no blanks. -/
theorem progress_of_descent (limit : Nat) : Progress σ limit where
  recurs := recurs_descent limit
  unique _ hi cursor := hi.unique (recurs_descent limit) cursor
  parses := run_sumOf_descent limit
  passes _ _ _ h := passes_of_descent h
  restores _ _ _ h := depth_of_descent h
  restores_within _ _ _ h := depth_of_termOf h
  passes_further _ _ _ _ _ hs ha h :=
    (Cursor.passes_of_accept (isBlank_separator hs) ha).trans (passes_of_descent h)
  spends := spending_of_paired fun h => paired_descent limit h
  spends_text := spending_of_paired fun h => paired_sumOf limit h
  unlimited _ _ _ hlimit h := not_isTooDeep_of_descent h hlimit
  nodes _ _ _ h := nodesBelow_le_of_sumOf h
  nodes_text _ _ h := nodesBelow_le_of_parse h

def furtherTerm : Cursor (Tallied (List Char)) :=
  ask { feed := " + 2(b + c)/4)".toList, depth := 1 } 4

def missingTerm : Cursor (Tallied (List Char)) :=
  ask { feed := [')'], depth := 1 } 4

theorem progress_within_group :
    (∃ formula next behind, furtherTerm.accept '+' = (true, next) ∧
      (descent 4).scan next = .ok formula behind ∧ next.Passes 1 behind ∧
      behind.feed.depth = next.feed.depth ∧ furtherTerm.Passes 2 behind) ∧
    (∃ fault behind, (descent 4).scan missingTerm = .error fault behind ∧ ¬ fault.IsTooDeep) ∧
    ∃ formula, parse 4 "a + 2(b + c)/4" = .ok formula ∧
      formula.nodesBelow ≤ nonBlanks "a + 2(b + c)/4".toList := by
  have hall : Progress (List Char) 4 := progress_of_descent 4
  refine ⟨?_, ?_, ?_⟩
  · have ha : furtherTerm.accept '+' = (true, (furtherTerm.accept '+').2) :=
      Prod.ext (by decide +kernel) rfl
    have hanswers : (match (descent 4).scan (furtherTerm.accept '+').2 with
        | .ok _ _ => true
        | .error _ _ => false) = true := by decide +kernel
    cases hr : (descent 4).scan (furtherTerm.accept '+').2 with
    | ok formula behind =>
      exact ⟨formula, _, behind, ha, hr, hall.passes _ _ _ hr, hall.restores _ _ _ hr,
        hall.passes_further '+' _ _ _ _ (.inl rfl) ha hr⟩
    | error fault behind =>
      rw [hr] at hanswers
      cases hanswers
  · have hfaults : (match (descent 4).scan missingTerm with
        | .ok _ _ => false
        | .error _ _ => true) = true := by decide +kernel
    cases hr : (descent 4).scan missingTerm with
    | ok formula behind =>
      rw [hr] at hfaults
      cases hfaults
    | error fault behind =>
      have hbelow : missingTerm.feed.depth + missingTerm.rest.length < 4 := by
        rw [missingTerm, Cursor.rest_ask, Tallied.chars_eq, Feed.chars_list]
        decide
      exact ⟨fault, behind, rfl, hall.unlimited _ _ _ hbelow hr⟩
  · obtain ⟨formula, hf⟩ := exists_ok (x := parse 4 "a + 2(b + c)/4") (by decide +kernel)
    exact ⟨formula, hf, hall.nodes_text _ _ hf⟩

end Formula

end Marksheet
