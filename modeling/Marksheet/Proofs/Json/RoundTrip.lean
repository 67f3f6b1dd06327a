import Mathlib.Data.List.TakeDrop
import Marksheet.Json
import Marksheet.Json.Reader
import Marksheet.Proofs.Text.Runs

/-!
# Marksheet.Proofs.Json.RoundTrip

What is printed as JSON is read as the value that it was printed from, whatever texts are in it. A
text is read up to the quote that closes it because a quote in it is escaped; a number is read to
its end because nothing that is printed behind it goes on with it.

* `Json.text?_quoted` : texts, with all their escapes.
* `Json.number?_print` : numbers that are written as JSON wants them.
* `Json.value_print` : values, by induction on their structure.
* `Json.parse?_print` : a whole text.
-/

namespace Marksheet.Json

/-! ## Texts -/

theorem hexUnit?_control : ∀ n < 0x20,
    hexUnit? '0' '0' (Nat.digitChar (n / 16)) (Nat.digitChar (n % 16)) =
      some (.char (Char.ofNat n)) := by
  decide

def unitsAfter (c : Char) (text : List Char) : Option (List TextUnit × List Char) := do
  let (others, rest) ← units text
  return (.char c :: others, rest)

theorem units_short {escaped c : Char} (h : shortEscape? escaped = some c) (text : List Char) :
    units ('\\' :: escaped :: text) = unitsAfter c text := by
  have hu : escaped ≠ 'u' := by
    rintro rfl
    cases h
  rw [units, h]
  · rfl
  · exact fun _ _ _ _ _ he => absurd he hu

theorem units_control {c : Char} (h : c.toNat < 0x20) (text : List Char) :
    units ('\\' :: 'u' :: '0' :: '0' :: Nat.digitChar (c.toNat / 16) ::
      Nat.digitChar (c.toNat % 16) :: text) = unitsAfter c text := by
  rw [units, hexUnit?_control _ h, Char.ofNat_toNat]
  rfl

theorem units_plain {c : Char} (hq : c ≠ '"') (hb : c ≠ '\\') (hc : ¬ c.toNat < 0x20)
    (text : List Char) : units (c :: text) = unitsAfter c text := by
  rw [units, if_neg hc]
  · rfl
  · exact hq
  · exact fun _ _ _ _ _ he => absurd he hb
  · exact fun _ _ he => absurd he hb

/-- An escape is read as the character that it stands for. -/
theorem units_escape (c : Char) (text : List Char) :
    units (escape c ++ text) = unitsAfter c text := by
  unfold escape
  repeat' split
  any_goals subst_vars; exact units_short rfl text
  · exact units_control ‹_› text
  · exact units_plain ‹_› ‹_› ‹_› text

theorem units_flatMap (text rest : List Char) :
    units (text.flatMap escape ++ '"' :: rest) = some (text.map .char, rest) := by
  induction text with
  | nil => rfl
  | cons c text ih =>
    rw [List.flatMap_cons, List.append_assoc, units_escape, unitsAfter, ih]
    rfl

theorem joinUnits_char (text : List Char) : joinUnits (text.map .char) = some text := by
  induction text with
  | nil => rfl
  | cons c text ih => simp [joinUnits, ih]

/-- A printed text is read to its closing quote. -/
theorem text?_quoted (text : Option String) (rest : List Char) :
    ∃ inside, quoted text ++ rest = '"' :: inside ∧ text? inside = some (text, rest) := by
  cases text with
  | none =>
    refine ⟨['\\', 'u', 'd', '8', '0', '0', '"'] ++ rest, rfl, ?_⟩
    have hunits : units (['\\', 'u', 'd', '8', '0', '0', '"'] ++ rest) =
        some ([.surrogate 0xD800], rest) := by
      simp [units, hexUnit?, hexDigit?]
    rw [text?, hunits]
    rfl
  | some text =>
    refine ⟨text.toList.flatMap escape ++ '"' :: rest, by simp [quoted], ?_⟩
    rw [text?, units_flatMap]
    simp [joinUnits_char]

/-! ## Numbers -/

/-- A number as JSON writes it: digits without a leading zero, and digits behind the point. -/
structure Number.Written (number : Number) : Prop where
  whole : ∀ c ∈ number.whole, c.isDigit = true
  some_digit : number.whole ≠ []
  zero : number.whole.head? = some '0' → number.whole = ['0']
  fraction : ∀ c ∈ number.fraction, c.isDigit = true

/-- Nothing in front of which a number would go on. -/
def EndsNumber (rest : List Char) : Prop :=
  ∀ c, rest.head? = some c → c.isDigit = false ∧ c ≠ '.' ∧ c ≠ 'e' ∧ c ≠ 'E'

def fractionText (fraction : List Char) : List Char :=
  if fraction.isEmpty then [] else '.' :: fraction

def exponentText : Option Int → List Char
  | some e => 'e' :: (if e < 0 then '-' else '+') :: decimalDigits e.natAbs
  | none => []

section Numbers

variable {number : Number} {run rest : List Char}

theorem number_print_eq (number : Number) (rest : List Char) :
    number.print ++ rest = (if number.negative then ['-'] else []) ++
      (number.whole ++ (fractionText number.fraction ++ (exponentText number.exponent ++ rest))) := by
  obtain ⟨negative, whole, fraction, exponent⟩ := number
  cases exponent <;> simp [Number.print, fractionText, exponentText]

theorem digits?_run (hr : ∀ c ∈ run, c.isDigit = true) (hne : run ≠ [])
    (hs : ∀ c, rest.head? = some c → c.isDigit = false) :
    digits? (run ++ rest) = some (run, rest) := by
  rw [digits?, List.span_eq_takeWhile_dropWhile, takeWhile_run hr hs, dropWhile_run hr hs]
  simpa using hne

theorem whole?_run (h : number.Written) (hs : ∀ c, rest.head? = some c → c.isDigit = false) :
    whole? (number.whole ++ rest) = some (number.whole, rest) := by
  by_cases hz : number.whole.head? = some '0'
  · rw [h.zero hz]
    rfl
  · rw [whole?]
    · exact digits?_run h.whole h.some_digit hs
    · intro tail ht
      cases hw : number.whole with
      | nil => exact h.some_digit hw
      | cons first others =>
        rw [hw, List.cons_append, List.cons.injEq] at ht
        exact hz (by rw [hw, ht.1]; rfl)

theorem fraction?_text {fraction : List Char} (hf : ∀ c ∈ fraction, c.isDigit = true)
    (hs : ∀ c, rest.head? = some c → c.isDigit = false ∧ c ≠ '.') :
    fraction? (fractionText fraction ++ rest) = some (fraction, rest) := by
  cases fraction with
  | nil =>
    show fraction? rest = _
    rw [fraction?]
    intro tail ht
    exact (hs '.' (by rw [ht]; rfl)).2 rfl
  | cons first others => exact digits?_run hf (List.cons_ne_nil _ _) fun c hc => (hs c hc).1

theorem exponent?_text (exponent : Option Int) (hs : EndsNumber rest) :
    exponent? (exponentText exponent ++ rest) = some (exponent, rest) := by
  have hstop : ∀ c, rest.head? = some c → c.isDigit = false := fun c hc => (hs c hc).1
  cases exponent with
  | none =>
    show exponent? rest = _
    rw [exponent?]
    · intro tail ht
      exact (hs 'e' (by rw [ht]; rfl)).2.2.1 rfl
    · intro tail ht
      exact (hs 'E' (by rw [ht]; rfl)).2.2.2 rfl
  | some e =>
    have hdigits := digits?_run (isDigit_decimalDigits e.natAbs) (decimalDigits_ne_nil _) hstop
    by_cases he : e < 0
    · have hvalue : -(digitsValue (decimalDigits e.natAbs) : Int) = e := by
        rw [digitsValue_decimalDigits]
        omega
      simp [exponentText, he, exponent?, signedDigits?, hdigits, hvalue]
    · have hvalue : (digitsValue (decimalDigits e.natAbs) : Int) = e := by
        rw [digitsValue_decimalDigits]
        omega
      simp [exponentText, he, exponent?, signedDigits?, hdigits, hvalue]

theorem stops_fraction (fraction : List Char)
    (hs : ∀ c, rest.head? = some c → c.isDigit = false ∧ c ≠ '.') :
    ∀ c, (fractionText fraction ++ rest).head? = some c → c.isDigit = false := by
  intro c hc
  cases fraction with
  | nil => exact (hs c hc).1
  | cons first others =>
    cases hc
    rfl

theorem stops_exponent (exponent : Option Int) (hs : EndsNumber rest) :
    ∀ c, (exponentText exponent ++ rest).head? = some c → c.isDigit = false ∧ c ≠ '.' := by
  intro c hc
  cases exponent with
  | none => exact ⟨(hs c hc).1, (hs c hc).2.1⟩
  | some e =>
    cases hc
    exact ⟨rfl, by decide⟩

theorem unsigned?_text (h : number.Written) (hs : EndsNumber rest) :
    unsigned? number.negative (number.whole ++ (fractionText number.fraction ++
      (exponentText number.exponent ++ rest))) = some (number, rest) := by
  have hexponent := stops_exponent number.exponent hs
  rw [unsigned?, whole?_run h (stops_fraction number.fraction hexponent)]
  simp [fraction?_text h.fraction hexponent, exponent?_text number.exponent hs]

/-- A printed number is read to its end. -/
theorem number?_print (h : number.Written) (hs : EndsNumber rest) :
    number? (number.print ++ rest) = some (number, rest) := by
  have hread := unsigned?_text h hs
  rw [number_print_eq]
  cases hn : number.negative with
  | true =>
    rw [hn] at hread
    exact hread
  | false =>
    rw [hn] at hread
    cases hw : number.whole with
    | nil => exact absurd hw h.some_digit
    | cons first others =>
      have hfirst : first ≠ '-' := by
        rintro rfl
        exact absurd (h.whole '-' (by simp [hw])) (by decide)
      rw [hw] at hread
      show number? (first :: _) = _
      rw [number?]
      · exact hread
      · intro tail ht
        exact hfirst (List.cons.inj ht).1

end Numbers

/-! ## Blanks -/

section Blanks

variable {c : Char} {text rest : List Char}

theorem skipSpace_cons (h : isSpace c = false) (text : List Char) :
    skipSpace (c :: text) = c :: text :=
  List.dropWhile_cons_of_neg (by simp [h])

theorem skipSpace_newline (depth : Nat) (h : isSpace c = false) (text : List Char) :
    skipSpace (newline depth ++ c :: text) = c :: text := by
  refine dropWhile_run ?_ ?_
  · intro d hd
    rcases List.mem_cons.mp hd with rfl | hd
    · rfl
    · rw [List.eq_of_mem_replicate hd]
      rfl
  · rintro _ ⟨⟩
    exact h

theorem endsNumber_cons (h : c.isDigit = false ∧ c ≠ '.' ∧ c ≠ 'e' ∧ c ≠ 'E') (text : List Char) :
    EndsNumber (c :: text) := by
  rintro _ ⟨⟩
  exact h

end Blanks

/-! ## Values -/

/-- All numbers in the value are as JSON writes them. -/
inductive Written : Json → Prop where
  | null : Written null
  | bool (value : Bool) : Written (bool value)
  | number {value : Number} : value.Written → Written (number value)
  | string (text : Option String) : Written (string text)
  | array {items : List Json} : (∀ item ∈ items, Written item) → Written (array items)
  | object {members : List (Option String × Json)} : (∀ member ∈ members, Written member.2) →
      Written (object members)

section Values

variable {fuel depth : Nat} {text rest left : List Char} {c : Char} {json first : Json}

/-- What a value starts with: no blank, and nothing that closes an array. -/
structure Starts (c : Char) : Prop where
  solid : isSpace c = false
  opens : c ≠ ']'

theorem number_head {number : Number} (h : number.Written) :
    ∃ c text, number.print = c :: text ∧ (c = '-' ∨ c.isDigit = true) := by
  have hprint := number_print_eq number []
  rw [List.append_nil] at hprint
  rw [hprint]
  cases hn : number.negative with
  | true => exact ⟨'-', _, rfl, .inl rfl⟩
  | false =>
    cases hw : number.whole with
    | nil => exact absurd hw h.some_digit
    | cons first others => exact ⟨first, _, rfl, .inr (h.whole first (by simp [hw]))⟩

theorem starts_of_number (h : c = '-' ∨ c.isDigit = true) : Starts c := by
  constructor
  · simp only [isSpace, Bool.or_eq_false_iff, decide_eq_false_iff_not]
    refine ⟨⟨⟨?_, ?_⟩, ?_⟩, ?_⟩ <;> (rintro rfl; exact absurd h (by decide))
  · rintro rfl
    exact absurd h (by decide)

theorem print_starts (h : json.Written) (depth : Nat) :
    ∃ c text, print depth json = c :: text ∧ Starts c := by
  cases h with
  | null => exact ⟨_, _, rfl, by decide, by decide⟩
  | bool value => cases value <;> exact ⟨_, _, rfl, by decide, by decide⟩
  | number hw =>
    obtain ⟨c, text, hp, hc⟩ := number_head hw
    exact ⟨c, text, hp, starts_of_number hc⟩
  | string text =>
    obtain ⟨inside, hq, -⟩ := text?_quoted text []
    rw [List.append_nil] at hq
    exact ⟨_, _, hq, by decide, by decide⟩
  | @array items _ => cases items <;> exact ⟨_, _, rfl, by decide, by decide⟩
  | @object members _ =>
    cases members with
    | nil => exact ⟨_, _, rfl, by decide, by decide⟩
    | cons member members => exact ⟨_, _, rfl, by decide, by decide⟩

/-! ### One step of reading -/

theorem value_number (h : c = '-' ∨ c.isDigit = true) (text : List Char) :
    value (fuel + 1) (c :: text) =
      (number? (c :: text)).map fun (read, rest) => (number read, rest) := by
  rw [value]
  all_goals
    intro rest he
    cases he
    exact absurd h (by decide)

theorem value_array (hc : Starts c) (hs : skipSpace text = c :: left)
    (hf : value fuel (c :: left) = some (first, rest)) :
    value (fuel + 1) ('[' :: text) =
      (do let (others, rest) ← items fuel (skipSpace rest)
          return (array (first :: others), rest)) := by
  rw [value]
  dsimp only
  rw [hs]
  split
  · rename_i he
    cases he
    exact absurd rfl hc.opens
  · rw [hf]
    rfl

theorem value_object {name : Option String × Json} (hs : skipSpace text = '"' :: left)
    (hf : member fuel ('"' :: left) = some (name, rest)) :
    value (fuel + 1) ('{' :: text) =
      (do let (others, rest) ← members fuel (skipSpace rest)
          return (object (name :: others), rest)) := by
  rw [value]
  dsimp only
  rw [hs]
  split
  · rename_i he
    cases he
  · rw [hf]
    rfl

theorem items_cons (hf : value fuel (skipSpace text) = some (first, rest)) :
    items (fuel + 1) (',' :: text) =
      (do let (others, rest) ← items fuel (skipSpace rest)
          return (first :: others, rest)) := by
  rw [items, hf]
  rfl

theorem members_cons {name : Option String × Json}
    (hf : member fuel (skipSpace text) = some (name, rest)) :
    members (fuel + 1) (',' :: text) =
      (do let (others, rest) ← members fuel (skipSpace rest)
          return (name :: others, rest)) := by
  rw [members, hf]
  rfl

theorem member_print (hw : json.Written) (key : Option String)
    (hv : value fuel (print depth json ++ rest) = some (json, rest)) :
    ∃ inside, quoted key ++ ':' :: ' ' :: (print depth json ++ rest) = '"' :: inside ∧
      member (fuel + 1) ('"' :: inside) = some ((key, json), rest) := by
  obtain ⟨c, text, hp, hc⟩ := print_starts hw depth
  obtain ⟨inside, hq, ht⟩ := text?_quoted key (':' :: ' ' :: (print depth json ++ rest))
  refine ⟨inside, hq, ?_⟩
  rw [hp, List.cons_append] at hv ht
  have hcolon : skipSpace (':' :: ' ' :: c :: (text ++ rest)) = ':' :: ' ' :: c :: (text ++ rest) :=
    skipSpace_cons (by decide) _
  have hblank : skipSpace (' ' :: c :: (text ++ rest)) = c :: (text ++ rest) :=
    skipSpace_cons hc.solid _
  rw [member]
  simp [ht, hcolon, hblank, hv]

/-! ### Whole values -/

theorem endsNumber_items (others : List Json) (depth outer : Nat) (text : List Char) :
    EndsNumber (printItems depth others ++ (newline outer ++ text)) := by
  cases others <;> exact endsNumber_cons (by decide) _

theorem endsNumber_members (others : List (Option String × Json)) (depth outer : Nat)
    (text : List Char) : EndsNumber (printMembers depth others ++ (newline outer ++ text)) := by
  cases others <;> exact endsNumber_cons (by decide) _

mutual

/-- A printed value is read, with as much fuel as it has characters. -/
theorem value_print : (json : Json) → json.Written → (fuel depth : Nat) → (rest : List Char) →
    (print depth json).length ≤ fuel → EndsNumber rest →
      value fuel (print depth json ++ rest) = some (json, rest)
  | json, hw, 0, depth, rest, hlen, _ => by
    obtain ⟨c, text, hp, -⟩ := print_starts hw depth
    simp [hp] at hlen
  | .null, _, fuel + 1, depth, rest, _, _ => rfl
  | .bool true, _, fuel + 1, depth, rest, _, _ => rfl
  | .bool false, _, fuel + 1, depth, rest, _, _ => rfl
  | .number read, hw, fuel + 1, depth, rest, _, hs => by
    cases hw with
    | number hw =>
      obtain ⟨c, text, hp, hc⟩ := number_head hw
      have hread := number?_print hw hs
      rw [print, hp, List.cons_append]
      rw [hp, List.cons_append] at hread
      rw [value_number hc, hread]
      rfl
  | .string text, _, fuel + 1, depth, rest, _, _ => by
    obtain ⟨inside, hq, ht⟩ := text?_quoted text rest
    rw [print, hq, value, ht]
    rfl
  | .array [], _, fuel + 1, depth, rest, _, _ => rfl
  | .array (first :: others), hw, fuel + 1, depth, rest, hlen, _ => by
    cases hw with
    | array hw =>
      obtain ⟨hfirst, hothers⟩ := List.forall_mem_cons.mp hw
      obtain ⟨c, text, hp, hc⟩ := print_starts hfirst (depth + 1)
      simp only [print, List.cons_append, List.nil_append, List.append_assoc, List.length_cons,
        List.length_append] at hlen ⊢
      have hvalue := value_print first hfirst fuel (depth + 1) _ (by omega)
        (endsNumber_items others (depth + 1) depth (']' :: rest))
      have hrest := items_print others hothers fuel (depth + 1) depth rest (by omega)
      rw [hp, List.cons_append] at hvalue ⊢
      rw [value_array hc (skipSpace_newline _ hc.solid _) hvalue, hrest]
      rfl
  | .object [], _, fuel + 1, depth, rest, _, _ => rfl
  | .object ((key, first) :: others), hw, fuel + 1, depth, rest, hlen, _ => by
    cases hw with
    | object hw =>
      obtain ⟨hfirst, hothers⟩ := List.forall_mem_cons.mp hw
      simp only [print, List.cons_append, List.nil_append, List.append_assoc, List.length_cons,
        List.length_append] at hlen ⊢
      obtain ⟨fuel, rfl⟩ : ∃ less, fuel = less + 1 := ⟨fuel - 1, by omega⟩
      have hvalue := value_print first hfirst fuel (depth + 1) _ (by omega)
        (endsNumber_members others (depth + 1) depth ('}' :: rest))
      have hrest := members_print others hothers (fuel + 1) (depth + 1) depth rest (by omega)
      obtain ⟨inside, hq, hmember⟩ := member_print hfirst key hvalue
      rw [hq, value_object (skipSpace_newline _ (by decide) _) hmember, hrest]
      rfl

theorem items_print : (others : List Json) → (∀ item ∈ others, item.Written) →
    (fuel depth outer : Nat) → (rest : List Char) → (printItems depth others).length < fuel →
      items fuel (skipSpace (printItems depth others ++ (newline outer ++ ']' :: rest))) =
        some (others, rest)
  | [], _, fuel + 1, depth, outer, rest, _ => by
    have hclose : skipSpace (newline outer ++ ']' :: rest) = ']' :: rest :=
      skipSpace_newline outer (by decide) rest
    rw [printItems, List.nil_append, hclose, items]
  | item :: others, hw, fuel + 1, depth, outer, rest, hlen => by
    obtain ⟨hitem, hothers⟩ := List.forall_mem_cons.mp hw
    obtain ⟨c, text, hp, hc⟩ := print_starts hitem depth
    simp only [printItems, List.cons_append, List.append_assoc, List.length_cons,
      List.length_append] at hlen ⊢
    have hvalue := value_print item hitem fuel depth _ (by omega)
      (endsNumber_items others depth outer (']' :: rest))
    have hrest := items_print others hothers fuel depth outer rest (by omega)
    rw [hp, List.cons_append] at hvalue ⊢
    rw [← skipSpace_newline depth hc.solid] at hvalue
    rw [skipSpace_cons (by decide), items_cons hvalue, hrest]
    rfl

theorem members_print : (others : List (Option String × Json)) →
    (∀ member ∈ others, member.2.Written) →
    (fuel depth outer : Nat) → (rest : List Char) → (printMembers depth others).length < fuel →
      members fuel (skipSpace (printMembers depth others ++ (newline outer ++ '}' :: rest))) =
        some (others, rest)
  | [], _, fuel + 1, depth, outer, rest, _ => by
    have hclose : skipSpace (newline outer ++ '}' :: rest) = '}' :: rest :=
      skipSpace_newline outer (by decide) rest
    rw [printMembers, List.nil_append, hclose, members]
  | (key, item) :: others, hw, fuel + 1, depth, outer, rest, hlen => by
    obtain ⟨hitem, hothers⟩ := List.forall_mem_cons.mp hw
    simp only [printMembers, List.cons_append, List.append_assoc, List.length_cons,
      List.length_append] at hlen ⊢
    obtain ⟨fuel, rfl⟩ : ∃ less, fuel = less + 1 := ⟨fuel - 1, by omega⟩
    have hvalue := value_print item hitem fuel depth _ (by omega)
      (endsNumber_members others depth outer ('}' :: rest))
    have hrest := members_print others hothers (fuel + 1) depth outer rest (by omega)
    obtain ⟨inside, hq, hmember⟩ := member_print hitem key hvalue
    rw [← skipSpace_newline depth (by decide) inside] at hmember
    rw [hq, skipSpace_cons (by decide), members_cons hmember, hrest]
    rfl

end

end Values

/-! ## Whole texts -/

theorem endsNumber_of_spaces {gap : List Char} (h : ∀ c ∈ gap, isSpace c = true) :
    EndsNumber gap := by
  cases gap with
  | nil => rintro _ ⟨⟩
  | cons c gap =>
    refine endsNumber_cons ?_ gap
    have hc := h c List.mem_cons_self
    simp only [isSpace, Bool.or_eq_true, decide_eq_true_eq] at hc
    rcases hc with ((rfl | rfl) | rfl) | rfl <;> decide

/-- A printed value is read, with any blanks behind it. -/
theorem parse?_print {json : Json} (h : json.Written) {gap : List Char}
    (hg : ∀ c ∈ gap, isSpace c = true) :
    parse? (String.ofList (print 0 json ++ gap)) = some json := by
  obtain ⟨c, text, hp, hc⟩ := print_starts h 0
  have hstart : skipSpace (print 0 json ++ gap) = print 0 json ++ gap := by
    rw [hp]
    exact skipSpace_cons hc.solid _
  have hend : skipSpace gap = [] := by
    have hall : skipSpace (gap ++ []) = [] := dropWhile_run hg (by simp)
    rwa [List.append_nil] at hall
  have hvalue := value_print json h ((print 0 json ++ gap).length + 1) 0 gap (by simp; omega)
    (endsNumber_of_spaces hg)
  rw [parse?, String.toList_ofList, hstart, hvalue]
  simp [hend]

end Marksheet.Json
