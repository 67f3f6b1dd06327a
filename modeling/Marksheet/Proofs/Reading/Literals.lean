import Marksheet.Proofs.Reading.Sources

/-!
# Marksheet.Proofs.Reading.Literals

What quoted texts and numbers are read from any place of any feed: the answer or the fault, how much
is passed, and what is left.

* `Scan.ending` : how a scan ends, told without the feed it reads.
* `Quoted.Reads`, `Quoted.reads_quoted_iff` : the three ends of reading a quoted text. A body pairs
  each backslash with the character behind it.
* `Number.Reads`, `Number.reads_number_iff` : the ends of reading a number, which are nothing, one
  numeral, two around a marker, and the faults in either of them.
-/

namespace Marksheet

open Cursor (ask)
open Formula (startsFactor)

variable {σ τ α : Type}

/-- How reading ended: the answer or the fault, the characters not passed, and the place. -/
structure Ending (α : Type) where
  outcome : Except Fault α
  rest : List Char
  position : Nat

namespace Scan

variable [Feed σ] [Feed τ]

def ending (scan : Scan σ α) (cursor : Cursor σ) : Ending α :=
  match scan cursor with
  | .ok x behind => ⟨.ok x, behind.rest, behind.position⟩
  | .error fault behind => ⟨.error fault, behind.rest, behind.position⟩

/-- A scan that learns no more of a feed than a cursor shows ends as on the text that is left. -/
theorem ending_ask {scan : Scan σ α} {other : Scan (List Char) α}
    (h : Simulates Cursor.Level scan other) (cursor : Cursor σ) :
    ending other (ask cursor.rest cursor.position) = ending scan cursor := by
  have hlevel : Cursor.Level cursor (ask cursor.rest cursor.position) :=
    ⟨(Cursor.rest_ask _ _).trans (Feed.chars_list _), Cursor.position_ask _ _⟩
  have hend := h _ _ hlevel
  unfold ending
  generalize scan cursor = result at hend
  generalize other (ask cursor.rest cursor.position) = again at hend
  cases hend with
  | ok hb => simp only [hb.rest, hb.position]
  | error hb => simp only [hb.rest, hb.position]

variable {scan : Scan σ α} {cursor : Cursor σ} {rest : List Char} {place : Nat}

theorem ending_of_ok {scan : Scan (List Char) α} {cursor : Cursor (List Char)} {x : α}
    (h : scan cursor = .ok x (ask rest place)) : ending scan cursor = ⟨.ok x, rest, place⟩ := by
  rw [ending, h]
  simp only [Cursor.rest_ask, Feed.chars_list, Cursor.position_ask]

theorem ending_of_error {scan : Scan (List Char) α} {cursor : Cursor (List Char)} {fault : Fault}
    (h : scan cursor = .error fault (ask rest place)) :
    ending scan cursor = ⟨.error fault, rest, place⟩ := by
  rw [ending, h]
  simp only [Cursor.rest_ask, Feed.chars_list, Cursor.position_ask]

/-- A relation that every ending satisfies which it gives, and that gives one, is the ending. -/
theorem ending_iff_of_reads {Reads : Ending α → Prop}
    (he : ∀ e, Reads e → ending scan cursor = e) (ht : ∃ e, Reads e) (e : Ending α) :
    ending scan cursor = e ↔ Reads e := by
  refine ⟨?_, he e⟩
  rintro rfl
  obtain ⟨e, h⟩ := ht
  rwa [he e h]

end Scan

/-! ## Quoted texts -/

namespace Quoted

variable {quote : Char} {text body rest : List Char} {position : Nat}

/-- From left to right each backslash is paired with the character behind it. Outside the pairs no
quote stands, and no backslash is left without a partner. -/
inductive BodyText (quote : Char) : List Char → Prop where
  | nil : BodyText quote []
  | plain {c : Char} {text : List Char} : c ≠ quote → c ≠ '\\' → BodyText quote text →
      BodyText quote (c :: text)
  | escaped {c : Char} {text : List Char} : BodyText quote text → BodyText quote ('\\' :: c :: text)

def isQuote (c : Char) : Bool := c = '\'' || c = '"'

/-- How reading a quoted text ends with `text` ahead at `start`. -/
inductive Reads (start : Nat) : List Char → Ending (Option String) → Prop where
  | absent {text : List Char} : (∀ c, text.head? = some c → isQuote c = false) →
      Reads start text ⟨.ok none, text, start⟩
  | closed {quote : Char} {body rest : List Char} : isQuote quote = true → BodyText quote body →
      Reads start (quote :: (body ++ quote :: rest))
        ⟨.ok (some (String.ofList body)), rest, start + (body.length + 2)⟩
  | unclosed {quote : Char} {text : List Char} : isQuote quote = true →
      (∀ body rest, text = body ++ quote :: rest → ¬ BodyText quote body) →
      Reads start (quote :: text)
        ⟨.error (.unclosedQuote start), [], start + (quote :: text).length⟩

theorem slash_ne_of_isQuote (h : isQuote quote = true) : '\\' ≠ quote := by
  rintro rfl
  exact absurd h (by decide)

theorem body_of_bodyText (hq : '\\' ≠ quote) (h : BodyText quote body) :
    Quoted.body quote (ask (body ++ quote :: rest) position) =
      (some body, ask rest (position + (body.length + 1))) := by
  induction h generalizing position with
  | nil => exact body_ask_quote
  | @plain c text hc hs _ ih =>
    rw [List.cons_append, body_ask_cons hc hs, ih, List.length_cons]
    simp only [Option.map_some, Nat.add_comm, Nat.add_left_comm]
  | @escaped c text _ ih =>
    rw [List.cons_append, List.cons_append, body_ask_escaped hq, ih, List.length_cons,
      List.length_cons]
    simp only [Option.map_some, Nat.add_comm, Nat.add_left_comm]

theorem body_of_unclosed (hq : '\\' ≠ quote)
    (h : ∀ body rest, text = body ++ quote :: rest → ¬ BodyText quote body) :
    Quoted.body quote (ask text position) = (none, ask [] (position + text.length)) := by
  induction hn : text.length using Nat.strongRecOn generalizing text position with
  | _ n ih =>
    subst hn
    cases text with
    | nil => exact body_ask_nil
    | cons c text =>
      have hc : c ≠ quote := by
        rintro rfl
        exact h [] text rfl .nil
      by_cases hs : c = '\\'
      · subst hs
        cases text with
        | nil => exact body_ask_slash hc
        | cons d text =>
          have hothers : ∀ body rest, text = body ++ quote :: rest → ¬ BodyText quote body := by
            rintro body rest rfl hb
            exact h ('\\' :: d :: body) rest rfl hb.escaped
          have hlt : text.length < ('\\' :: d :: text).length := by
            simp only [List.length_cons]
            omega
          rw [body_ask_escaped hc, ih _ hlt hothers rfl]
          simp only [List.length_cons, Option.map_none, Nat.add_comm, Nat.add_left_comm]
      · have hothers : ∀ body rest, text = body ++ quote :: rest → ¬ BodyText quote body := by
          rintro body rest rfl hb
          exact h (c :: body) rest rfl (.plain hc hs hb)
        have hlt : text.length < (c :: text).length := by simp
        rw [body_ask_cons hc hs, ih _ hlt hothers rfl]
        simp only [List.length_cons, Option.map_none, Nat.add_comm, Nat.add_left_comm]

/-- What is found behind an opening quote decides how reading ends. -/
theorem scan_of_body {found : Option (List Char)} {behind : Cursor (List Char)}
    (hq : isQuote quote = true)
    (h : Quoted.body quote (ask text (position + 1)) = (found, behind)) :
    scan (ask (quote :: text) position) =
      found.elim (.error (.unclosedQuote position) behind)
        fun body => .ok (some (String.ofList body)) behind := by
  have hbody : (modifyGet (Quoted.body quote) : Scan (List Char) (Option (List Char)))
      (ask text (position + 1)) =
        .ok (Quoted.body quote (ask text (position + 1))).1
          (Quoted.body quote (ask text (position + 1))).2 := rfl
  rw [h] at hbody
  refine (Scan.bind_of_ok Scan.current_ask).trans (Scan.of_eq _ (if_pos hq) ?_)
  refine (Scan.bind_of_ok Scan.position_ask).trans ?_
  refine (Scan.bind_of_ok (Scan.advance_ask_cons _)).trans ((Scan.bind_of_ok hbody).trans ?_)
  cases found <;> rfl

theorem scan_ask_none (h : ∀ c, text.head? = some c → isQuote c = false) :
    scan (ask text position) = .ok none (ask text position) := by
  refine (Scan.bind_of_ok Scan.current_ask).trans (Scan.of_eq (pure none) ?_ rfl)
  cases text with
  | nil => rfl
  | cons c text => exact if_neg (by rw [← isQuote, h c rfl]; decide)

theorem ending_of_reads {e : Ending (Option String)} (h : Reads position text e) :
    Scan.ending scan (ask text position) = e := by
  cases h with
  | absent hn => exact Scan.ending_of_ok (scan_ask_none hn)
  | @closed quote body rest hq hb =>
    refine Scan.ending_of_ok
      ((scan_of_body hq (body_of_bodyText (slash_ne_of_isQuote hq) hb)).trans ?_)
    rw [Option.elim_some, Nat.add_assoc, Nat.add_comm 1]
  | @unclosed quote text hq hn =>
    refine Scan.ending_of_error
      ((scan_of_body hq (body_of_unclosed (slash_ne_of_isQuote hq) hn)).trans ?_)
    rw [Option.elim_none, List.length_cons, Nat.add_assoc, Nat.add_comm 1]

theorem exists_reads (text : List Char) (position : Nat) : ∃ e, Reads position text e := by
  cases text with
  | nil => exact ⟨_, .absent (by simp)⟩
  | cons quote text =>
    cases hq : isQuote quote with
    | false =>
      refine ⟨_, .absent ?_⟩
      intro c hc
      cases hc
      exact hq
    | true =>
      by_cases h : ∃ body rest, text = body ++ quote :: rest ∧ BodyText quote body
      · obtain ⟨body, rest, rfl, hb⟩ := h
        exact ⟨_, .closed hq hb⟩
      · refine ⟨_, .unclosed hq ?_⟩
        intro body rest ht hb
        exact h ⟨body, rest, ht, hb⟩

/-- From any place of any feed, reading a quoted text ends in one of three ways: with the very
characters of a body between two equal quotes, both of them passed; with nothing, where no quote
stands; and with the fault of the opening quote, everything passed. -/
theorem reads_quoted_iff [Feed σ] (cursor : Cursor σ) (e : Ending (Option String)) :
    Scan.ending scan cursor = e ↔ Reads cursor.position cursor.rest e := by
  rw [← Scan.ending_ask (simulates_scan Cursor.simulation_level)]
  exact Scan.ending_iff_of_reads (fun _ => ending_of_reads) (exists_reads _ _) e

end Quoted

/-! ## Numerals -/

namespace Numeral

variable {numeral : Numeral} {text rest : List Char} {position : Nat}

structure Stops (numeral : Numeral) (rest : List Char) : Prop where
  decimal : numeral.IsDecimal
  digit : startsFactor rest.head? = false
  sign : numeral.text = [] → rest.head? ≠ some '+' ∧ rest.head? ≠ some '-'

theorem value?_eq_none_iff : numeral.value? = none ↔ numeral.digits = [] := by
  unfold value?
  split <;> simp_all

theorem scanSign_of_stops {sign : Option Sign} {whole : List Char} {fraction : Option (List Char)}
    (hd : (Numeral.mk sign whole fraction).IsDecimal)
    (hs : (Numeral.mk sign whole fraction).text = [] →
      rest.head? ≠ some '+' ∧ rest.head? ≠ some '-') :
    scanSign (ask (signText sign ++ (whole ++ (fractionText fraction ++ rest))) position) =
      .ok sign (ask (whole ++ (fractionText fraction ++ rest))
        (position + (signText sign).length)) := by
  cases sign with
  | some sign => exact scanSign_ask_sign sign
  | none =>
    have hhead : ∀ sign : Sign,
        (whole ++ (fractionText fraction ++ rest)).head? ≠ some sign.char := by
      intro sign hc
      cases whole with
      | cons c whole =>
        cases hc
        have := hd _ List.mem_cons_self
        cases sign <;> exact absurd this (by decide)
      | nil =>
        cases fraction with
        | some digits => cases sign <;> cases hc
        | none => cases sign <;> simp_all [Numeral.text, signText, fractionText, Sign.char]
    exact scanSign_ask_none (hhead .plus) (hhead .minus)

theorem scan_of_stops (h : numeral.Stops rest) :
    scan (ask (numeral.text ++ rest) position) =
      .ok numeral (ask rest (position + numeral.text.length)) := by
  obtain ⟨sign, whole, fraction⟩ := numeral
  exact scan_of_parts (scanSign_of_stops h.decimal h.sign)
    (fun c hc => h.decimal c (List.mem_append_left _ hc))
    (fun c hc => h.decimal c (List.mem_append_right _ hc)) h.digit

theorem scan_of_secondPoint (hd : numeral.IsDecimal) (hp : numeral.fraction.isSome) :
    scan (ask (numeral.text ++ '.' :: rest) position) =
      .error (.secondPoint (position + numeral.text.length))
        (ask ('.' :: rest) (position + numeral.text.length)) := by
  obtain ⟨sign, whole, fraction⟩ := numeral
  obtain ⟨digits, rfl⟩ := Option.isSome_iff_exists.mp hp
  have hw : ∀ c ∈ whole, c.isDigit = true := fun c hc => hd c (List.mem_append_left _ hc)
  have hf : ∀ c ∈ digits, c.isDigit = true := fun c hc => hd c (List.mem_append_right _ hc)
  have hstop : ∀ others : List Char, ∀ c, ('.' :: others).head? = some c → c.isDigit = false := by
    intro others c hc
    cases hc
    decide
  have hsign : scanSign (ask (signText sign ++
      (whole ++ (fractionText (some digits) ++ '.' :: rest))) position) =
        .ok sign (ask (whole ++ (fractionText (some digits) ++ '.' :: rest))
          (position + (signText sign).length)) :=
    scanSign_of_stops hd (by simp [Numeral.text, fractionText])
  rw [scan, Numeral.text, List.append_assoc, List.append_assoc, Scan.bind_of_ok hsign,
    Scan.bind_of_ok (Scan.takeWhile_ask _), fractionText, List.cons_append,
    takeWhile_run hw (hstop _), dropWhile_run hw (hstop _)]
  refine (Scan.bind_of_error ((scanFraction_ask_point hf (hstop rest)).trans (if_pos rfl))).trans ?_
  simp only [List.length_append, List.length_cons, Nat.add_assoc, Nat.add_comm 1]

/-- Every text begins with a numeral that stops there or meets a second point. -/
theorem exists_numeral (text : List Char) : ∃ (numeral : Numeral) (rest : List Char),
    text = numeral.text ++ rest ∧
      (numeral.Stops rest ∨
        numeral.IsDecimal ∧ numeral.fraction.isSome ∧ rest.head? = some '.') := by
  obtain ⟨sign, unsigned, rfl, hsign⟩ : ∃ sign unsigned, text = signText sign ++ unsigned ∧
      (sign = none → unsigned.head? ≠ some '+' ∧ unsigned.head? ≠ some '-') := by
    by_cases hp : text.head? = some '+'
    · obtain ⟨rest, rfl⟩ := List.head?_eq_some_iff.mp hp
      exact ⟨some .plus, rest, rfl, by simp⟩
    by_cases hm : text.head? = some '-'
    · obtain ⟨rest, rfl⟩ := List.head?_eq_some_iff.mp hm
      exact ⟨some .minus, rest, rfl, by simp⟩
    · exact ⟨none, text, rfl, fun _ => ⟨hp, hm⟩⟩
  have hstop : ∀ rest : List Char, (∀ c, rest.head? = some c → c.isDigit = false) →
      rest.head? ≠ some '.' → startsFactor rest.head? = false := by
    intro rest hd hp
    cases rest with
    | nil => rfl
    | cons c rest =>
      have hc : c ≠ '.' := fun e => hp (by rw [e]; rfl)
      simp [startsFactor, hd c rfl, hc]
  have hw := takeWhile_all Char.isDigit unsigned
  have hbehind := dropWhile_stops Char.isDigit unsigned
  have hsplit := List.takeWhile_append_dropWhile (p := Char.isDigit) (l := unsigned)
  generalize unsigned.takeWhile Char.isDigit = whole at hw hsplit
  generalize unsigned.dropWhile Char.isDigit = behind at hbehind hsplit
  subst hsplit
  by_cases hpoint : behind.head? = some '.'
  · obtain ⟨others, rfl⟩ := List.head?_eq_some_iff.mp hpoint
    have hdecimal : (Numeral.mk sign whole (some (others.takeWhile Char.isDigit))).IsDecimal := by
      intro c hc
      rcases List.mem_append.mp hc with hc | hc
      · exact hw c hc
      · exact takeWhile_all Char.isDigit others c hc
    refine ⟨⟨sign, whole, some (others.takeWhile Char.isDigit)⟩, others.dropWhile Char.isDigit,
      ?_, ?_⟩
    · simp [Numeral.text, fractionText]
    by_cases hsecond : (others.dropWhile Char.isDigit).head? = some '.'
    · exact .inr ⟨hdecimal, rfl, hsecond⟩
    · refine .inl ⟨hdecimal, hstop _ (dropWhile_stops _ _) hsecond, ?_⟩
      simp [Numeral.text, fractionText]
  · refine ⟨⟨sign, whole, none⟩, behind, ?_, .inl ⟨?_, hstop _ hbehind hpoint, ?_⟩⟩
    · simp [Numeral.text, fractionText]
    · intro c hc
      exact hw c (by simpa [digits] using hc)
    · intro hnil
      cases sign with
      | some sign => cases sign <;> cases hnil
      | none =>
        obtain rfl : whole = [] := by simpa [Numeral.text, signText, fractionText] using hnil
        exact hsign rfl

end Numeral

/-! ## Numbers -/

namespace Number

open Grammar

variable {exponents : Bool} {text rest : List Char} {position : Nat}

/-- A digit, a sign or the point and, where exponents are allowed, a marker. -/
def startsNumber (exponents : Bool) (current : Option Char) : Bool :=
  startsFactor current || current = some '+' || current = some '-' ||
    exponents && isMarker current

/-- How reading a number ends with a text ahead at `start`. -/
inductive Reads (exponents : Bool) (start : Nat) : List Char → Ending (Option Float) → Prop where
  | absent {text : List Char} : startsNumber exponents text.head? = false →
      Reads exponents start text ⟨.ok none, text, start⟩
  | plain {token rest : List Char} {value : Float} : NumeralText token value →
      startsFactor rest.head? = false → (exponents && isMarker rest.head?) = false →
      Reads exponents start (token ++ rest) ⟨.ok (some value), rest, start + token.length⟩
  | scaled {mantissa exponent rest : List Char} {marker : Char} {value power : Float} :
      exponents = true → NumeralText mantissa value → isMarker (some marker) = true →
      NumeralText exponent power → startsFactor rest.head? = false →
      Reads exponents start (mantissa ++ marker :: (exponent ++ rest))
        ⟨.ok (some (scale value power)), rest, start + (mantissa ++ marker :: exponent).length⟩
  | leadingMarker {text : List Char} : exponents = true → isMarker text.head? = true →
      Reads exponents start text ⟨.error (.leadingExponent start), text, start⟩
  | secondPoint {numeral : Numeral} {rest : List Char} : numeral.IsDecimal →
      numeral.fraction.isSome → rest.head? = some '.' →
      Reads exponents start (numeral.text ++ rest)
        ⟨.error (.secondPoint (start + numeral.text.length)), rest, start + numeral.text.length⟩
  | secondPointBehind {mantissa rest : List Char} {marker : Char} {value : Float}
      {numeral : Numeral} :
      exponents = true → NumeralText mantissa value → isMarker (some marker) = true →
      numeral.IsDecimal → numeral.fraction.isSome → rest.head? = some '.' →
      Reads exponents start (mantissa ++ marker :: (numeral.text ++ rest))
        ⟨.error (.secondPoint (start + (mantissa ++ marker :: numeral.text).length)), rest,
          start + (mantissa ++ marker :: numeral.text).length⟩
  | noDigit {numeral : Numeral} {rest : List Char} : numeral.text ≠ [] → numeral.digits = [] →
      startsFactor rest.head? = false → (exponents && isMarker rest.head?) = false →
      Reads exponents start (numeral.text ++ rest)
        ⟨.error (.noDigit start), rest, start + numeral.text.length⟩
  /-- The marker is passed before the digit is missed. -/
  | noDigitMarked {numeral : Numeral} {rest : List Char} {marker : Char} :
      exponents = true → numeral.text ≠ [] → numeral.digits = [] →
      isMarker (some marker) = true →
      Reads exponents start (numeral.text ++ marker :: rest)
        ⟨.error (.noDigit start), rest, start + numeral.text.length + 1⟩
  /-- What is passed behind the marker is no more than a sign and a point. -/
  | noDigitBehind {mantissa rest : List Char} {marker : Char} {value : Float}
      {numeral : Numeral} :
      exponents = true → NumeralText mantissa value → isMarker (some marker) = true →
      numeral.digits = [] → numeral.Stops rest →
      Reads exponents start (mantissa ++ marker :: (numeral.text ++ rest))
        ⟨.error (.noDigit (start + mantissa.length + 1)), rest,
          start + (mantissa ++ marker :: numeral.text).length⟩

theorem stops_of_not_starts (h : startsNumber exponents text.head? = false) :
    (⟨none, [], none⟩ : Numeral).Stops text ∧ (exponents && isMarker text.head?) = false := by
  simp only [startsNumber, Bool.or_eq_false_iff, decide_eq_false_iff_not] at h
  obtain ⟨⟨⟨hf, hp⟩, hm⟩, hk⟩ := h
  exact ⟨⟨by simp [Numeral.IsDecimal, Numeral.digits], hf, fun _ => ⟨hp, hm⟩⟩, hk⟩

theorem noDigit_valueAt {numeral : Numeral} {cursor : Cursor (List Char)}
    (h : numeral.digits = []) :
    Scan.lift (numeral.valueAt position) cursor =
      (.error (.noDigit position) cursor : EStateM.Result Fault (Cursor (List Char)) Float) := by
  rw [Numeral.valueAt, Numeral.value?_eq_none_iff.mpr h]
  rfl

theorem stops_of_noDigit {numeral : Numeral} (hn : numeral.text ≠ []) (hd : numeral.digits = [])
    (hs : startsFactor rest.head? = false) : numeral.Stops rest where
  decimal := by simp [Numeral.IsDecimal, hd]
  digit := hs
  sign h := absurd h hn

theorem ending_of_reads {e : Ending (Option Float)} (h : Reads exponents position text e) :
    Scan.ending (scan exponents) (ask text position) = e := by
  have hwritten : ∀ {numeral : Numeral}, numeral.text ≠ [] → ¬ numeral.isEmpty = true :=
    fun hn he => hn (Numeral.text_of_isEmpty he)
  cases h with
  | absent hn =>
    obtain ⟨hs, hk⟩ := stops_of_not_starts hn
    exact Scan.ending_of_ok (scan_plain (Numeral.scan_of_stops hs) hk)
  | plain h hs hk => exact Scan.ending_of_ok (scan_numeralText h hs hk)
  | scaled he h hk hp hs =>
    subst he
    exact Scan.ending_of_ok (scan_scaled h hk hp hs)
  | leadingMarker he hk =>
    subst he
    obtain ⟨marker, rest, rfl⟩ := exists_of_isMarker hk
    have hs : (⟨none, [], none⟩ : Numeral).Stops (marker :: rest) := by
      refine ⟨by simp [Numeral.IsDecimal, Numeral.digits], startsFactor_eq_false_of_isMarker hk, ?_⟩
      intro _
      rcases isMarker_eq_true hk with rfl | rfl <;> simp
    exact Scan.ending_of_error (scan_marked (Numeral.scan_of_stops hs) hk)
  | secondPoint hd hp hr =>
    obtain ⟨rest, rfl⟩ := List.head?_eq_some_iff.mp hr
    refine Scan.ending_of_error ((Scan.bind_of_ok Scan.position_ask).trans ?_)
    exact Scan.bind_of_error (Numeral.scan_of_secondPoint hd hp)
  | secondPointBehind he h hk hd hp hr =>
    subst he
    obtain ⟨rest, rfl⟩ := List.head?_eq_some_iff.mp hr
    refine Scan.ending_of_error ((scan_ask_marker h hk).trans ?_)
    refine (Scan.bind_of_error (Numeral.scan_of_secondPoint hd hp)).trans ?_
    simp only [List.length_append, List.length_cons, Nat.add_assoc, Nat.add_comm 1]
  | noDigit hn hd hs hk =>
    refine Scan.ending_of_error
      ((scan_plain (Numeral.scan_of_stops (stops_of_noDigit hn hd hs)) hk).trans ?_)
    rw [if_neg (hwritten hn)]
    exact Scan.bind_of_error (noDigit_valueAt hd)
  | @noDigitMarked numeral rest marker he hn hd hk =>
    subst he
    have hs : numeral.Stops (marker :: rest) :=
      stops_of_noDigit hn hd (startsFactor_eq_false_of_isMarker hk)
    refine Scan.ending_of_error ((scan_marked (Numeral.scan_of_stops hs) hk).trans ?_)
    rw [if_neg (hwritten hn)]
    refine Scan.bind_of_error ((Scan.bind_of_ok (Scan.advance_ask_cons _)).trans ?_)
    exact Scan.bind_of_error (noDigit_valueAt hd)
  | noDigitBehind he h hk hd hs =>
    subst he
    refine Scan.ending_of_error ((scan_ask_marker h hk).trans ?_)
    refine (Scan.bind_of_ok (Numeral.scan_of_stops hs)).trans ?_
    refine (Scan.bind_of_error (noDigit_valueAt hd)).trans ?_
    simp only [List.length_append, List.length_cons, Nat.add_assoc, Nat.add_comm 1]

theorem numeralText_of_digits {numeral : Numeral} (hd : numeral.IsDecimal)
    (hn : numeral.digits ≠ []) : ∃ value, NumeralText numeral.text value := by
  obtain ⟨value, hv⟩ := Option.ne_none_iff_exists'.mp (mt Numeral.value?_eq_none_iff.mp hn)
  exact ⟨value, numeral, hd, rfl, hv⟩

theorem exists_reads_behind {mantissa : List Char} {marker : Char} {value : Float}
    (h : NumeralText mantissa value) (hk : isMarker (some marker) = true) (text : List Char)
    (position : Nat) : ∃ e, Reads true position (mantissa ++ marker :: text) e := by
  obtain ⟨numeral, rest, rfl, hs | ⟨hd, hp, hr⟩⟩ := Numeral.exists_numeral text
  · by_cases hn : numeral.digits = []
    · exact ⟨_, .noDigitBehind rfl h hk hn hs⟩
    · obtain ⟨power, hv⟩ := numeralText_of_digits hs.decimal hn
      exact ⟨_, .scaled rfl h hk hv hs.digit⟩
  · exact ⟨_, .secondPointBehind rfl h hk hd hp hr⟩

theorem exists_reads (exponents : Bool) (text : List Char) (position : Nat) :
    ∃ e, Reads exponents position text e := by
  obtain ⟨numeral, rest, rfl, hs | ⟨hd, hp, hr⟩⟩ := Numeral.exists_numeral text
  · by_cases he : numeral.text = []
    · rw [he, List.nil_append]
      cases hk : exponents && isMarker rest.head? with
      | true =>
        rw [Bool.and_eq_true] at hk
        exact ⟨_, .leadingMarker hk.1 hk.2⟩
      | false =>
        refine ⟨_, .absent ?_⟩
        simp [startsNumber, hs.digit, hs.sign he, hk]
    cases hk : exponents && isMarker rest.head? with
    | true =>
      obtain ⟨rfl, hk⟩ := Bool.and_eq_true_iff.mp hk
      obtain ⟨marker, others, rfl⟩ := exists_of_isMarker hk
      by_cases hn : numeral.digits = []
      · exact ⟨_, .noDigitMarked rfl he hn hk⟩
      · obtain ⟨value, hv⟩ := numeralText_of_digits hs.decimal hn
        exact exists_reads_behind hv hk others position
    | false =>
      by_cases hn : numeral.digits = []
      · exact ⟨_, .noDigit he hn hs.digit hk⟩
      · obtain ⟨value, hv⟩ := numeralText_of_digits hs.decimal hn
        exact ⟨_, .plain hv hs.digit hk⟩
  · exact ⟨_, .secondPoint hd hp hr⟩

/-- From any place of any feed, with exponents and without, reading a number ends as the text ahead
tells: with nothing where no number starts, with the value of one numeral or of two around a marker,
each as long as possible, or with the fault of a marker that leads, of a second point in one
numeral, or of a numeral without a digit. -/
theorem reads_number_iff {σ : Type} [Feed σ] (exponents : Bool) (cursor : Cursor σ)
    (e : Ending (Option Float)) :
    Scan.ending (scan exponents) cursor = e ↔ Reads exponents cursor.position cursor.rest e := by
  rw [← Scan.ending_ask (simulates_scan Cursor.simulation_level exponents)]
  exact Scan.ending_iff_of_reads (fun _ => ending_of_reads) (exists_reads _ _ _) e

end Number

end Marksheet
