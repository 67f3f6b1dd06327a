import Marksheet.Proofs.Fraction.Addition
import Marksheet.Proofs.Fraction.Expansion
import Marksheet.Proofs.Scheme.Normalizations

/-!
# Marksheet.Proofs.Scheme.Printing

The entries of a scheme can be written as a sum again, each as its weighting with the name right
behind it, and this sum compiles to the same entries. The digits end where the name begins, also
where the name starts like an exponent or is that of a function, since a number in front of an
operand has no exponent and only a parenthesis makes a call. Up to `2^53` whole numbers are doubles,
and no fraction is formed of them on the way.

* `Scheme.print` : the text of entries; `Scheme.Printable` says which entries are meant.
* `Scheme.listText_print` : the grammar derives the text, with one term for each entry.
* `Scheme.parse_print` : these terms evaluate to leaves that weigh what is written.
* `Scheme.merge_of_nodup`, `Normalization.weightings_of_whole` : nothing is left to merge or to
  normalize.
* `Scheme.nameText_of_compile` : all names of a scheme can be written.
* `Scheme.compile_print` : printing and compiling again gives the same entries.
-/

namespace Marksheet

open Grammar (NameText NumeralText TermText ListText IsBlanks EndsToken)

/-! ## The text -/

namespace Entry

def text (entry : Entry) : String := toString entry.weighting ++ entry.name

def term (entry : Entry) : Term :=
  .name (some (Binary64.nearest false entry.weighting 1)) entry.name none

def leaf (entry : Entry) : Formula :=
  .leaf (some entry.name) (some (Binary64.nearest false entry.weighting 1))
    (.ofInt entry.weighting)

def share (entry : Entry) : Share := { name := entry.name, weight := .ofInt entry.weighting }

end Entry

theorem Grammar.numeralText_decimalDigits (n : Nat) :
    NumeralText (decimalDigits n) (Binary64.nearest false n 1) := by
  refine ⟨⟨none, decimalDigits n, none⟩, ?_, ?_, ?_⟩
  · simpa [Numeral.IsDecimal, Numeral.digits] using isDigit_decimalDigits n
  · simp [Numeral.text, Numeral.signText, Numeral.fractionText]
  · simp [Numeral.value?, Numeral.digits, decimalDigits_ne_nil, digitsValue_decimalDigits]

namespace Entry

variable {entry : Entry} {blanks following : List Char}

theorem toList_text (entry : Entry) :
    entry.text.toList = decimalDigits entry.weighting ++ entry.name.toList := by
  rw [text, String.toList_append]
  exact congrArg (· ++ _) Nat.toList_repr

/-- The digits end in front of the name, and the name in front of what ends a token. -/
theorem termText (hb : IsBlanks blanks) (hn : NameText entry.name.toList)
    (hf : EndsToken following) : TermText (blanks ++ entry.text.toList) entry.term following := by
  have hnumber := Grammar.maximal_numeral (Grammar.numeralText_decimalDigits entry.weighting)
    (hn.startsFactor_eq_false following)
  have hname := Grammar.maximal_name hn fun _ => hf.isNameChar_eq_false
  have h := TermText.name hb (.number hnumber) Grammar.isBlanks_nil hname .none
  rw [List.append_nil, String.ofList_toList] at h
  rw [toList_text]
  exact h

theorem reading_term (limit depth : Nat) (hw : entry.weighting < 2 ^ 53) :
    entry.term.reading limit (depth + 1) = .ok entry.leaf := by
  have hfits : InRange entry.weighting := by
    unfold InRange
    omega
  rw [term, Term.reading, Formula.applyFactors, Fraction.ofFloat_nearest hw]
  dsimp only
  rw [ok_bind, Formula.scale, Formula.ofLeaf, Formula.mapWeights, Fraction.one_multiply hfits]
  rfl

end Entry

namespace Scheme

variable {entries : List Entry}

/-- The entries as a sum. -/
def print (entries : List Entry) : String := " + ".intercalate (entries.map Entry.text)

/-- Different names, and weightings that doubles hold and that sum up to a weight that fits. -/
structure Printable (entries : List Entry) : Prop where
  nonempty : entries ≠ []
  distinct : (entries.map Entry.name).Nodup
  names : ∀ entry ∈ entries, NameText entry.name.toList
  weightings : ∀ entry ∈ entries, 1 ≤ entry.weighting ∧ entry.weighting < 2 ^ 53
  total : InRange (entries.map Entry.weighting).sum

theorem toList_print_cons (first second : Entry) (others : List Entry) :
    (print (first :: second :: others)).toList =
      first.text.toList ++ ([' '] ++ '+' :: ([' '] ++ (print (second :: others)).toList)) := by
  simp [print, String.intercalate_cons_cons]

theorem isBlanks_space : IsBlanks [' '] := List.all_eq_true.mp (by decide)

/-- One term for each entry. What stands in front of a plus is a whole term, so no plus is a sign.
-/
theorem listText_print {blanks : List Char} (hb : IsBlanks blanks) (hne : entries ≠ [])
    (hn : ∀ entry ∈ entries, NameText entry.name.toList) :
    ListText '+' (blanks ++ (print entries).toList) (entries.map Entry.term) [] := by
  induction entries generalizing blanks with
  | nil => exact absurd rfl hne
  | cons first others ih =>
    obtain ⟨hfirst, hothers⟩ := List.forall_mem_cons.mp hn
    cases others with
    | nil =>
      have hterm : TermText (blanks ++ first.text.toList) first.term [] :=
        Entry.termText hb hfirst (by simp [EndsToken])
      simpa [print] using ListText.one hterm
    | cons second others =>
      have hrest := ih isBlanks_space (List.cons_ne_nil _ _) hothers
      have hends := Grammar.endsToken_blank (c := ' ') (by decide)
        ('+' :: ([' '] ++ (print (second :: others)).toList ++ []))
      have hterm := Entry.termText hb hfirst hends
      rw [toList_print_cons, ← List.append_assoc]
      exact .more hterm isBlanks_space hrest

theorem formulaText_print (h : Printable entries) :
    Grammar.FormulaText (print entries).toList (entries.map Entry.term) :=
  ⟨(print entries).toList, [], (List.append_nil _).symm,
    listText_print Grammar.isBlanks_nil h.nonempty h.names, Grammar.isBlanks_nil⟩

/-! ## The tree -/

theorem allReadings_terms (limit depth : Nat) (hw : ∀ entry ∈ entries, entry.weighting < 2 ^ 53) :
    Term.allReadings limit (depth + 1) (entries.map Entry.term) =
      .ok (entries.map Entry.leaf) := by
  induction entries with
  | nil => rfl
  | cons first others ih =>
    obtain ⟨hfirst, hothers⟩ := List.forall_mem_cons.mp hw
    rw [List.map_cons, Term.allReadings, Entry.reading_term limit depth hfirst, ok_bind,
      ih hothers]
    rfl

theorem ofGroup_leaves (h : InRange (entries.map Entry.weighting).sum) :
    Formula.ofGroup (entries.map Entry.leaf) =
      .ok (.group (entries.map Entry.leaf) (.ofInt (entries.map Entry.weighting).sum)) := by
  have hsum := Fraction.sum_whole h
  have hweights : (entries.map Entry.leaf).map Formula.weight =
      (entries.map Entry.weighting).map fun n : Nat => .ofInt n := by
    simp [Function.comp_def, Entry.leaf, Formula.weight]
  rw [Formula.ofGroup, Formula.totalWeight, hweights, hsum, ok_bind, Fraction.ofInt_eq_ofRat,
    Fraction.reduced_ofRat]
  rfl

/-- A printed sum is read as its leaves, whatever the limit of nesting. -/
theorem parse_print {limit : Nat} (h : Printable entries) (hl : 1 ≤ limit) :
    Formula.parse limit (print entries) =
      .ok (.group (entries.map Entry.leaf) (.ofInt (entries.map Entry.weighting).sum)) := by
  obtain ⟨depth, rfl⟩ := Nat.exists_eq_add_of_le' hl
  have hterms := allReadings_terms (depth + 1) depth fun entry he => (h.weightings entry he).2
  rw [Formula.parse_of_formulaText (formulaText_print h), Formula.readSum, hterms, ok_bind,
    ofGroup_leaves h.total]

theorem allShares_leaves (entries : List Entry) :
    Formula.allShares (entries.map Entry.leaf) = entries.map Entry.share := by
  induction entries with
  | nil => rfl
  | cons first others ih =>
    rw [List.map_cons, Formula.allShares, ih]
    rfl

/-! ## Merging and normalizing -/

theorem eraseDups_of_nodup {names : List String} (h : names.Nodup) : names.eraseDups = names := by
  induction names using List.reverseRecOn with
  | nil => rfl
  | append_singleton names last ih =>
    obtain ⟨hn, -, hlast⟩ := List.nodup_append.mp h
    have hl : last ∉ names := fun hm => hlast last hm last (by simp) rfl
    rw [eraseDups_concat, if_neg hl, ih hn]

section Merging

variable {shares : List Share} {share : Share}

theorem weightsOf_of_nodup (hn : (shares.map Share.name).Nodup) (hs : share ∈ shares) :
    weightsOf share.name shares = [share.weight] := by
  obtain ⟨earlier, later, rfl⟩ := List.append_of_mem hs
  rw [List.map_append, List.map_cons, List.nodup_middle, List.nodup_cons, ← List.map_append] at hn
  have hothers : ∀ other ∈ earlier ++ later, ¬ other.name = share.name := fun other ho he =>
    hn.1 (he ▸ List.mem_map_of_mem ho)
  have hnone : ∀ {part : List Share}, (∀ other ∈ part, ¬ other.name = share.name) →
      (part.filter fun other => other.name = share.name) = [] := by
    intro part hp
    simpa using hp
  obtain ⟨hearlier, hlater⟩ := List.forall_mem_append.mp hothers
  rw [weightsOf, List.filter_append, List.filter_cons_of_pos (by simp), hnone hearlier,
    hnone hlater]
  rfl

/-- Shares of different names stay as they are. -/
theorem merge_of_nodup (hn : (shares.map Share.name).Nodup) : merge shares = .ok shares := by
  rw [merge, distinctNames, eraseDups_of_nodup hn, List.mapM_map]
  refine (mapM_of_ok (g := id) ?_).trans (by rw [List.map_id])
  intro share hs
  rw [Function.comp_apply, weightsOf_of_nodup hn hs]
  rfl

end Merging

end Scheme

namespace Normalization

variable {shares : List Share}

/-- Whole weights are weightings already, whichever way these are formed. -/
theorem weightings_of_whole (h : ∀ share ∈ shares, ∃ n, InRange n ∧ share.weight = .ofInt n)
    (normalization : Normalization) :
    normalization.weightings shares = .ok (shares.map fun share => share.weight.num) := by
  have hl : ∀ share ∈ shares, share.weight.Lowest := by
    intro share hs
    obtain ⟨n, -, hn⟩ := h share hs
    rw [hn, Fraction.ofInt_eq_ofRat]
    exact Fraction.lowest_ofRat _
  have hone : Fraction.leastDenominator (weights shares) = 1 := by
    refine Fraction.leastDenominator_of_whole ?_
    intro q hq
    obtain ⟨share, hs, rfl⟩ := List.mem_map.mp hq
    obtain ⟨n, -, hn⟩ := h share hs
    rw [hn, Fraction.ofInt_eq_ofRat, Fraction.toRat_ofRat, Rat.den_intCast]
  have hcommon : commonDenominator.weightings shares =
      .ok (shares.map fun share => share.weight.num) := by
    rw [weightings, weights_eq_ofRat hl, Fraction.commonDenominator_eq, hone]
    refine mapM_of_ok ?_
    intro share hs
    obtain ⟨n, hr, hn⟩ := h share hs
    rw [hn, Fraction.ofInt_eq_ofRat, Fraction.numeratorOver_eq_ok_iff]
    simpa [Fraction.ofRat] using hr
  cases normalization with
  | commonDenominator => exact hcommon
  | numeratorOnly => exact (weightings_of_common hl hcommon).2

end Normalization

namespace Scheme

variable {entries : List Entry} {options : Options} {text : String} {scheme : Scheme}

theorem entriesOf_shares (h : ∀ entry ∈ entries, 1 ≤ entry.weighting) :
    entriesOf (entries.map Entry.share)
      ((entries.map Entry.share).map fun share => share.weight.num) = .ok entries := by
  rw [entriesOf_of_pos, List.map_map]
  · refine congrArg Except.ok ((List.map_congr_left fun entry _ => ?_).trans (List.map_id _))
    simp [Entry.share, Fraction.ofInt]
  · intro share hs
    obtain ⟨entry, he, rfl⟩ := List.mem_map.mp hs
    simpa [Entry.share, Fraction.ofInt] using h entry he

theorem compile_of_printable (h : Printable entries) (hd : 1 ≤ options.depthLimit) :
    compile options (print entries) =
      .ok { entries, total := .ofInt (entries.map Entry.weighting).sum } := by
  have hnames : ((entries.map Entry.share).map Share.name).Nodup := by
    rw [List.map_map]
    exact h.distinct
  have hwhole : ∀ share ∈ entries.map Entry.share,
      ∃ n, InRange n ∧ share.weight = .ofInt n := by
    intro share hs
    obtain ⟨entry, he, rfl⟩ := List.mem_map.mp hs
    refine ⟨entry.weighting, ?_, rfl⟩
    have hlt := (h.weightings entry he).2
    unfold InRange
    omega
  rw [compile, parse_print h hd, ok_bind, ofFormula, Formula.shares, allShares_leaves,
    merge_of_nodup hnames, ok_bind, options.normalization.weightings_of_whole hwhole, ok_bind,
    entriesOf_shares fun entry he => (h.weightings entry he).1, ok_bind]
  rfl

end Scheme

/-! ## The names of a text -/

namespace Grammar

mutual

theorem TermText.nameText : (term : Term) → ∀ {text following : List Char},
    TermText text term following → ∀ {present : List Occurrence},
      term.occurrences = .ok present → ∀ occurrence ∈ present, NameText occurrence.name.toList
  | .number _ _, text, following, _, present, ho => by
    cases ho
    simp
  | .name factor word divisor, text, following, ht, present, ho => by
    obtain ⟨k, -, ho⟩ := ok_of_bind ho
    cases ho
    cases ht with
    | name _ _ _ hname _ => simpa using hname.1
  | .group factor members divisor, text, following, ht, present, ho => by
    rw [Term.occurrences] at ho
    obtain ⟨k, -, ho⟩ := ok_of_bind ho
    obtain ⟨inner, hi, ho⟩ := ok_of_bind ho
    cases ho
    cases ht with
    | group _ _ _ henclosed _ _ _ =>
      cases henclosed with
      | closed hlist _ => simpa [Occurrence.within] using ListText.nameText members hlist hi
  | .call factor function arguments divisor, text, following, ht, present, ho => by
    rw [Term.occurrences] at ho
    obtain ⟨k, -, ho⟩ := ok_of_bind ho
    obtain ⟨inner, hi, ho⟩ := ok_of_bind ho
    cases ho
    cases ht with
    | call _ _ _ _ henclosed _ =>
      cases henclosed with
      | closed hlist _ => simpa [Occurrence.within] using ListText.nameText arguments hlist hi

theorem ListText.nameText : (terms : List Term) → ∀ {separator : Char}
    {text following : List Char}, ListText separator text terms following →
      ∀ {present : List Occurrence}, Term.allOccurrences terms = .ok present →
        ∀ occurrence ∈ present, NameText occurrence.name.toList
  | [], separator, text, following, _, present, ho => by
    cases ho
    simp
  | first :: others, separator, text, following, ht, present, ho => by
    rw [Term.allOccurrences] at ho
    obtain ⟨one, hone, ho⟩ := ok_of_bind ho
    obtain ⟨rest, hrest, ho⟩ := ok_of_bind ho
    cases ho
    cases ht with
    | one hterm =>
      cases hrest
      simpa using TermText.nameText first hterm hone
    | more hterm _ hlist =>
      exact List.forall_mem_append.mpr
        ⟨TermText.nameText first hterm hone, ListText.nameText others hlist hrest⟩

end

end Grammar

namespace Scheme

variable {entries : List Entry} {options : Options} {text : String} {scheme : Scheme}

theorem nameText_of_compile (h : compile options text = .ok scheme) :
    ∀ entry ∈ scheme.entries, NameText entry.name.toList := by
  obtain ⟨formula, hp, hnames⟩ := distinctNames_of_compile h
  obtain ⟨terms, ht, -⟩ := Formula.formulaText_of_parse hp
  obtain ⟨present, hpresent, -, hl⟩ := Formula.lists_of_parse ht hp
  obtain ⟨sum, blanks, -, hlist, -⟩ := ht
  rw [distinctNames, hl, List.map_map] at hnames
  intro entry he
  have hmem := List.mem_map_of_mem (f := Entry.name) he
  rw [hnames, List.mem_eraseDups] at hmem
  obtain ⟨occurrence, ho, hname⟩ := List.mem_map.mp hmem
  rw [← hname]
  exact hlist.nameText terms hpresent occurrence ho

theorem printable_of_compile (h : compile options text = .ok scheme) (hne : scheme.entries ≠ [])
    (hw : ∀ entry ∈ scheme.entries, entry.weighting < 2 ^ 53)
    (ht : InRange (scheme.entries.map Entry.weighting).sum) : Printable scheme.entries where
  nonempty := hne
  distinct := names_of_compile h
  names := nameText_of_compile h
  weightings := by
    obtain ⟨formula, -, h⟩ := ok_of_bind h
    obtain ⟨merged, weightings, -, -, he, -⟩ := ofFormula_eq_ok h
    exact fun entry hentry => ⟨(weighting_of_entriesOf he entry hentry).1, hw entry hentry⟩
  total := ht

/-- Entries that are printed compile to the same entries again, with their sum as the whole weight,
however weightings are formed and whatever nesting is allowed. That goes for all entries that
compiling has ever given, as long as doubles hold them and their sum fits. -/
theorem compile_print (options : Options) (hd : 1 ≤ options.depthLimit) :
    (∀ entries, Printable entries → compile options (print entries) =
      .ok { entries, total := .ofInt (entries.map Entry.weighting).sum }) ∧
    ∀ other text scheme, compile other text = .ok scheme → scheme.entries ≠ [] →
      (∀ entry ∈ scheme.entries, entry.weighting < 2 ^ 53) →
      InRange (scheme.entries.map Entry.weighting).sum →
      compile options (print scheme.entries) =
        .ok { entries := scheme.entries,
              total := .ofInt (scheme.entries.map Entry.weighting).sum } := by
  constructor
  · intro entries h
    exact compile_of_printable h hd
  · intro other text scheme h hne hw ht
    exact compile_of_printable (printable_of_compile h hne hw ht) hd

theorem compile_print_of_exponent :
    let options : Options := { normalization := .numeratorOnly, depthLimit := 1 }
    let entries : List Entry := [⟨"e5", 12⟩, ⟨"root", 1⟩]
    Printable entries ∧ print entries = "12e5 + 1root" ∧
      compile options "12e5 + 1root" = .ok { entries, total := { num := 13, den := 1 } } ∧
      ∃ scheme, compile {} "4e5 + root/3" = .ok scheme ∧ scheme.entries = entries ∧
        compile options (print scheme.entries) =
          .ok { entries, total := { num := 13, den := 1 } } := by
  intro options entries
  obtain ⟨hprint, hagain⟩ := compile_print options (by decide)
  have hnames : ∀ entry ∈ entries, NameText entry.name.toList := by
    simp only [entries, List.forall_mem_cons]
    refine ⟨⟨'e', ['5'], rfl, by decide +kernel, ?_⟩,
      ⟨'r', ['o', 'o', 't'], rfl, by decide +kernel, ?_⟩, by simp⟩
    all_goals exact List.all_eq_true.mp (by decide +kernel)
  have hp : Printable entries :=
    ⟨by simp [entries], by decide +kernel, hnames, by decide +kernel, by decide +kernel⟩
  have htext : print entries = "12e5 + 1root" := by decide +kernel
  have hcompile := hprint entries hp
  rw [htext] at hcompile
  have he : (compile {} "4e5 + root/3").toOption.map Scheme.entries = some entries := by
    decide +kernel
  obtain ⟨scheme, h⟩ := exists_ok (x := compile {} "4e5 + root/3") (by decide +kernel)
  rw [h] at he
  have hentries : scheme.entries = entries := Option.some.inj he
  have hsame := hagain {} "4e5 + root/3" scheme h
  rw [hentries] at hsame
  refine ⟨hp, htext, hcompile, scheme, h, hentries, ?_⟩
  rw [hentries]
  exact hsame hp.nonempty (fun entry hm => (hp.weightings entry hm).2) hp.total

end Scheme

end Marksheet
