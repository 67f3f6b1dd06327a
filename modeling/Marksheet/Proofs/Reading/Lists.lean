import Marksheet.Proofs.Grammar.Evaluation
import Marksheet.Proofs.Reading.Factors

/-!
# Marksheet.Proofs.Reading.Lists

Lists of terms, for any scan of the terms that agrees with the grammar.

* `Item.Reads` : what it means that a scan reads terms: what it passes is a term with the formula it
  answers, it passes every term, it looks one character ahead, and where it stops at a misplaced
  character a term could have been completed.
* `listText_of_separated`, `separated_listText`, `viable_of_separated` : the same of terms with a
  separator between them.
* `enclosedText_of_enclosed`, `enclosed_enclosedText`, `viable_of_enclosed` : and of those up to a
  parenthesis.
-/

namespace Marksheet

namespace Cursor

theorem ask_injective {text other : List Char} {position place : Nat}
    (h : ask text position = ask other place) : text = other ∧ position = place := by
  cases text with
  | nil =>
    cases other with
    | nil => exact ⟨rfl, congrArg Cursor.position h⟩
    | cons d other => cases congrArg Cursor.current h
  | cons c text =>
    cases other with
    | nil => cases congrArg Cursor.current h
    | cons d other =>
      have hc : some c = some d := congrArg Cursor.current h
      have hf : text = other := congrArg Cursor.feed h
      cases hc
      exact ⟨by rw [hf], congrArg Cursor.position h⟩

end Cursor

namespace Formula

open Cursor (ask Ahead)
open Scan (Sequential Yields)
open Grammar
open Term (allReadings)

/-- Something can be written behind `used` that makes it a term. -/
def ViableTerm (used : List Char) : Prop :=
  ∃ completion term, ∀ following, AfterTerm following →
    TermText (used ++ completion) term following

def ViableList (separator : Char) (used : List Char) : Prop :=
  ∃ completion terms, ∀ following, AfterTerm following →
    ListText separator (used ++ completion) terms following

def ViableEnclosed (separator : Char) (used : List Char) : Prop :=
  ∃ completion terms, ∀ following, EnclosedText separator (used ++ completion) terms following

/-- A scan that stopped behind `used`, of which `Viable` holds. -/
def StopsAt (Viable : List Char → Prop) (text : List Char) (position : Nat)
    (behind : Cursor (List Char)) : Prop :=
  ∃ used rest, text = used ++ rest ∧ behind = ask rest (position + used.length) ∧ Viable used

/-- The scan reads terms with `depth` levels of nesting left of `limit`. -/
structure Item.Reads (limit depth : Nat) (item : Item (List Char) Formula) : Prop where
  sequential : ∀ text position, Sequential item.scan text position
  sound : ∀ {text position formula behind}, item.scan (ask text position) = .ok formula behind →
    ∃ used term rest, text = used ++ rest ∧ TermText used term rest ∧
      Ahead rest (position + used.length) behind ∧ term.reading limit depth = .ok formula
  complete : ∀ {text term following} (position), TermText text term following →
    AfterTerm following → ∃ behind, Ahead following (position + text.length) behind ∧
      Yields (item.scan (ask (text ++ following) position)) (term.reading limit depth) behind
  viable : ∀ {text position fault behind},
    item.scan (ask text position) = .error fault behind → fault.IsMisplaced →
    StopsAt ViableTerm text position behind

theorem separated_eq {σ α : Type} [Feed σ] (separator : Char) (item : Item σ α) :
    separated separator item = (do
      let first ← item.scan
      if ← Scan.accept separator then return first :: (← separated separator item)
      else return [first] : Scan σ (List α)) := by
  funext cursor
  rw [separated]
  split
  · rename_i fault behind h
    exact (Scan.bind_of_error h).symm
  · rename_i first behind h
    refine Eq.trans ?_ (Scan.bind_of_ok h).symm
    split
    · rename_i next ha
      refine Eq.trans ?_ (Scan.bind_of_ok (Scan.accept_eq_ok ha)).symm
      rfl
    · rename_i next ha
      refine Eq.trans ?_ (Scan.bind_of_ok (Scan.accept_eq_ok ha)).symm
      rw [if_pos rfl]
      split
      · rename_i hr
        exact (Scan.bind_of_error hr).symm
      · rename_i hr
        refine Eq.trans ?_ (Scan.bind_of_ok hr).symm
        rfl

variable {separator : Char} {item : Item (List Char) Formula} {limit depth : Nat}
  {text following : List Char} {position : Nat} {terms : List Term} {formulas : List Formula}
  {behind : Cursor (List Char)}

theorem isBlank_separator (hs : separator = '+' ∨ separator = ',') :
    Text.isBlank separator = false := by
  rcases hs with rfl | rfl <;> decide

/-! ## Separated terms -/

theorem sequential_separated (separator : Char) (hi : item.Reads limit depth) (text : List Char)
    (position : Nat) : Sequential (separated separator item) text position := by
  induction hn : text.length using Nat.strongRecOn generalizing text position with
  | _ n ih =>
    subst hn
    rw [separated_eq]
    refine (hi.sequential text position).bind ?_
    intro first used rest ht _
    refine (Scan.sequential_accept separator).bind ?_
    intro found more last hr ha
    cases found with
    | false => exact Scan.sequential_pure _
    | true =>
      obtain ⟨gap, others, hg, _, hb⟩ := Scan.accept_found ha
      obtain ⟨rfl, _⟩ := Cursor.ask_injective hb
      have hlt : last.length < text.length := by
        rw [ht, hg]
        simp only [List.length_append, List.length_cons]
        omega
      exact (ih _ hlt last _ rfl).bind fun _ _ _ _ _ => Scan.sequential_pure _

theorem place_more (text gap texts : List Char) (symbol : Char) (place : Nat) :
    place + (text ++ (gap ++ symbol :: texts)).length =
      place + text.length + gap.length + 1 + texts.length := by
  simp only [List.length_append, List.length_cons]
  omega

theorem listText_of_separated (hi : item.Reads limit depth)
    (h : separated separator item (ask text position) = .ok formulas behind) :
    ∃ used terms rest, text = used ++ rest ∧ ListText separator used terms rest ∧
      Ahead rest (position + used.length) behind ∧
      allReadings limit depth terms = .ok formulas := by
  induction hn : text.length using Nat.strongRecOn generalizing text position formulas with
  | _ n ih =>
    subst hn
    rw [separated_eq] at h
    obtain ⟨first, between, h₁, k₁⟩ := Scan.bind_ok h
    obtain ⟨used, term, rest, rfl, ht, hb, hf⟩ := hi.sound h₁
    obtain ⟨found, _, h₂, k₂⟩ := Scan.bind_ok k₁
    rw [hb.accept] at h₂
    cases found with
    | false =>
      cases k₂
      obtain ⟨gap, last, rfl, hg, rfl, _⟩ := Scan.accept_missed h₂
      refine ⟨used, [term], gap ++ last, rfl, .one ht, .of_gap hg (.refl _ _), ?_⟩
      rw [allReadings, hf]
      rfl
    | true =>
      obtain ⟨gap, last, rfl, hg, rfl⟩ := Scan.accept_found h₂
      obtain ⟨others, _, h₃, k₃⟩ := Scan.bind_ok k₂
      cases k₃
      have hlt : last.length < (used ++ (gap ++ separator :: last)).length := by
        simp only [List.length_append, List.length_cons]
        omega
      obtain ⟨more, terms, rest, rfl, hts, hb', hfs⟩ := ih _ hlt h₃ rfl
      refine ⟨used ++ (gap ++ separator :: more), term :: terms, rest, ?_, .more ht hg hts, ?_, ?_⟩
      · simp only [List.append_assoc, List.cons_append]
      · rw [place_more]
        exact hb'
      · rw [allReadings, hf, ok_bind, hfs]
        rfl

theorem separated_listText (position : Nat) (hs : separator = '+' ∨ separator = ',')
    (hi : item.Reads limit depth) (h : ListText separator text terms following)
    (ha : AfterTerm following) (hn : next following ≠ some separator) :
    ∃ behind, Ahead following (position + text.length) behind ∧
      Yields (separated separator item (ask (text ++ following) position))
        (allReadings limit depth terms) behind := by
  induction terms generalizing text position with
  | nil => cases h
  | cons term terms ih =>
    rw [separated_eq, allReadings]
    cases h with
    | one ht =>
      obtain ⟨between, hb, hy⟩ := hi.complete position ht ha
      refine ⟨_, .dropWhile _ _, hy.bind ?_⟩
      intro first _
      refine .bind_ok ((hb.accept separator).trans (Scan.accept_missing hn)) ?_
      exact .pure [first]
    | @more _ text gap texts _ _ _ ht hg hts =>
      have hag : AfterTerm (gap ++ separator :: (texts ++ following)) :=
        afterTerm_gap hg (hs.imp_right .inl) _
      obtain ⟨between, hb, hy⟩ := hi.complete position ht hag
      obtain ⟨behind, hb', hy'⟩ := ih (position + text.length + gap.length + 1) hts
      rw [List.append_assoc, List.append_assoc, List.cons_append, place_more]
      refine ⟨behind, hb', hy.bind ?_⟩
      intro first _
      refine .bind_ok ((hb.accept separator).trans (Scan.accept_gap hg (isBlank_separator hs))) ?_
      exact hy'.bind fun others _ => .pure (first :: others)

theorem viable_of_separated (hs : separator = '+' ∨ separator = ',')
    (hi : item.Reads limit depth) {fault : Fault}
    (h : separated separator item (ask text position) = .error fault behind)
    (hm : fault.IsMisplaced) : StopsAt (ViableList separator) text position behind := by
  induction hn : text.length using Nat.strongRecOn generalizing text position with
  | _ n ih =>
    subst hn
    rw [separated_eq] at h
    rcases Scan.bind_error h with h₁ | ⟨first, between, h₁, k₁⟩
    · obtain ⟨used, rest, rfl, rfl, completion, term, ht⟩ := hi.viable h₁ hm
      exact ⟨used, rest, rfl, rfl, completion, [term], fun _ ha => .one (ht _ ha)⟩
    obtain ⟨used, term, rest, rfl, ht, hb, _⟩ := hi.sound h₁
    rcases Scan.bind_error k₁ with h₂ | ⟨found, _, h₂, k₂⟩
    · cases h₂
    rw [hb.accept] at h₂
    cases found with
    | false => cases k₂
    | true =>
      obtain ⟨gap, last, rfl, hg, rfl⟩ := Scan.accept_found h₂
      rcases Scan.bind_error k₂ with h₃ | ⟨_, _, _, k₃⟩
      · have hlt : last.length < (used ++ (gap ++ separator :: last)).length := by
          simp only [List.length_append, List.length_cons]
          omega
        obtain ⟨more, rest, rfl, rfl, completion, terms, hts⟩ := ih _ hlt h₃ rfl
        refine ⟨used ++ (gap ++ separator :: more), rest, ?_, ?_, completion, term :: terms, ?_⟩
        · simp only [List.append_assoc, List.cons_append]
        · rw [place_more]
        · intro following ha
          have hag := afterTerm_gap hg (hs.imp_right .inl) (more ++ completion ++ following)
          have hl := ListText.more (TermText.before term ht hag) hg (hts following ha)
          simpa only [List.append_assoc, List.cons_append] using hl
      · cases k₃

/-! ## Up to a closing parenthesis -/

theorem sequential_enclosed (separator : Char) (hi : item.Reads limit depth) (text : List Char)
    (position : Nat) : Sequential (enclosed separator item) text position := by
  refine (sequential_separated separator hi text position).bind ?_
  intro _ _ _ _ _
  exact (Scan.sequential_expect ')').bind fun _ _ _ _ _ => Scan.sequential_pure _

theorem expect_gap {gap rest : List Char} {wanted : Char} (hg : IsBlanks gap)
    (hw : Text.isBlank wanted = false) :
    Scan.expect wanted (ask (gap ++ wanted :: rest) position) =
      .ok () (ask rest (position + gap.length + 1)) :=
  Scan.bind_of_ok (Scan.accept_gap hg hw)

theorem place_closed (items gap : List Char) (place : Nat) :
    place + (items ++ (gap ++ [')'])).length = place + items.length + gap.length + 1 := by
  simp only [List.length_append, List.length_singleton]
  omega

theorem enclosedText_of_enclosed (hi : item.Reads limit depth)
    (h : enclosed separator item (ask text position) = .ok formulas behind) :
    ∃ used terms rest, text = used ++ rest ∧ EnclosedText separator used terms rest ∧
      behind = ask rest (position + used.length) ∧
      allReadings limit depth terms = .ok formulas := by
  obtain ⟨items, between, h₁, k₁⟩ := Scan.bind_ok h
  obtain ⟨used, terms, rest, rfl, hl, hb, hf⟩ := listText_of_separated hi h₁
  obtain ⟨_, _, h₂, k₂⟩ := Scan.bind_ok k₁
  cases k₂
  obtain ⟨found, _, h₃, k₃⟩ := Scan.bind_ok h₂
  rw [hb.accept] at h₃
  cases found with
  | false =>
    obtain ⟨_, _, _, k₄⟩ := Scan.bind_ok k₃
    cases k₄
  | true =>
    cases k₃
    obtain ⟨gap, last, rfl, hg, rfl⟩ := Scan.accept_found h₃
    refine ⟨used ++ (gap ++ [')']), terms, last, ?_, .closed hl hg, ?_, hf⟩
    · simp only [List.append_assoc, List.singleton_append]
    · rw [place_closed]

theorem enclosed_enclosedText (hs : separator = '+' ∨ separator = ',')
    (hi : item.Reads limit depth) (h : EnclosedText separator text terms following) :
    Yields (enclosed separator item (ask (text ++ following) position))
      (allReadings limit depth terms) (ask following (position + text.length)) := by
  cases h with
  | @closed _ items gap _ _ hl hg =>
    have ha := afterTerm_gap (c := ')') hg (.inr (.inr rfl)) following
    have hn : next (gap ++ ')' :: following) ≠ some separator := by
      rw [next_gap_cons hg (by decide)]
      rcases hs with rfl | rfl <;> decide
    obtain ⟨between, hb, hy⟩ := separated_listText position hs hi hl ha hn
    rw [List.append_assoc, List.append_assoc, List.singleton_append, place_closed,
      ← bind_pure (allReadings limit depth terms)]
    refine hy.bind fun items _ => .bind_ok (x := ()) ?_ (.pure items)
    have he := hb.accept ')'
    exact (Scan.bind_congr he).trans (expect_gap hg (by decide))

theorem viable_of_enclosed (hs : separator = '+' ∨ separator = ',') (hi : item.Reads limit depth)
    {fault : Fault} (h : enclosed separator item (ask text position) = .error fault behind)
    (hm : fault.IsMisplaced) : StopsAt (ViableEnclosed separator) text position behind := by
  have hclose : ∀ following, AfterTerm (')' :: following) :=
    afterTerm_gap isBlanks_nil (.inr (.inr rfl))
  rcases Scan.bind_error h with h₁ | ⟨items, between, h₁, k₁⟩
  · obtain ⟨used, rest, rfl, rfl, completion, terms, hl⟩ := viable_of_separated hs hi h₁ hm
    refine ⟨used, rest, rfl, rfl, completion ++ [')'], terms, ?_⟩
    intro following
    rw [← List.append_assoc]
    have hn : ListText separator (used ++ completion) terms ([] ++ ')' :: following) :=
      hl _ (hclose following)
    exact .closed hn isBlanks_nil
  · obtain ⟨used, terms, rest, rfl, hl, hb, _⟩ := listText_of_separated hi h₁
    rcases Scan.bind_error k₁ with h₂ | ⟨_, _, _, k₂⟩
    · rcases Scan.bind_error h₂ with h₃ | ⟨found, _, h₃, k₃⟩
      · cases h₃
      rw [hb.accept] at h₃
      cases found with
      | true => cases k₃
      | false =>
        obtain ⟨gap, last, rfl, hg, rfl, _⟩ := Scan.accept_missed h₃
        have hbehind : behind = ask last (position + used.length + gap.length) := by
          cases k₃
          rfl
        refine ⟨used ++ gap, last, by rw [List.append_assoc], ?_, [')'], terms, ?_⟩
        · rw [hbehind, List.length_append, Nat.add_assoc]
        · intro following
          have hag := afterTerm_gap (c := ')') hg (.inr (.inr rfl)) following
          rw [List.append_assoc]
          exact .closed (ListText.before terms hs hl hag) hg
    · cases k₂

end Formula

end Marksheet
