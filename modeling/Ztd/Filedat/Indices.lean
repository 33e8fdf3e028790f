import Ztd.Filedat.Reading

/-! The index loops of `_skip` and `_getstrval` compute what the texts say. -/

namespace Ztd.Filedat
open Ztd.Lib

variable {blanks : BlankRun} {delim altdelim : Char} {str text rest : Text} {i : Nat}

theorem isRead_nul : isRead nul = false := by decide

theorem skipLoop_eq (at_ : At str i text) {fuel : Nat} (enough : text.length < fuel) :
    skipLoop str fuel i = .ok (str.length - (dropUnread text).length) := by
  induction text generalizing i fuel with
  | nil =>
    obtain ⟨fuel, rfl⟩ : ∃ rest, fuel = rest + 1 := ⟨fuel - 1, by omega⟩
    simp [skipLoop, at_.eq_length, dropUnread, pure, Except.pure]
  | cons c rest ih =>
    obtain ⟨fuel, rfl⟩ : ∃ rest, fuel = rest + 1 := ⟨fuel - 1, by omega⟩
    have size := at_.size
    cases readable : isRead c with
    | true =>
      have here : str.length - (c :: rest).length = i := by omega
      simp only [skipLoop, at_.lt, ↓reduceIte, at_.charAt, Run.bind_ok, readable, dropUnread,
        List.dropWhile_cons, Bool.not_true, Bool.false_eq_true, here]
      rfl
    | false =>
      rw [show dropUnread (c :: rest) = dropUnread rest by simp [dropUnread, readable],
        ← ih at_.next (show _ < fuel by simp only [List.length_cons] at enough; omega)]
      simp [skipLoop, at_.lt, at_.charAt, readable]

theorem dropUnread_at (str : Text) :
    At str (str.length - (dropUnread str).length) (dropUnread str) := by
  have split := List.takeWhile_append_dropWhile (p := (!isRead ·)) (l := str)
  have size := congrArg List.length split
  rw [List.length_append] at size
  have start : At (str.takeWhile (!isRead ·) ++ dropUnread str) 0
      (str.takeWhile (!isRead ·) ++ dropUnread str) := At.start _
  have moved := start.append
  rw [show str.takeWhile (!isRead ·) ++ dropUnread str = str from split] at moved
  rw [dropUnread] at moved ⊢
  rwa [show str.length - (str.dropWhile (!isRead ·)).length =
    0 + (str.takeWhile (!isRead ·)).length by omega]

/-- `_skip` in terms of texts. -/
theorem skip_eq (str : Text) :
    skip str = .ok (dropUnread str, str.length - (dropUnread str).length) := by
  have at_ := dropUnread_at str
  simp only [skip, skipLoop_eq (At.start str) (Nat.lt_succ_self _), Run.bind_ok]
  split
  · rw [at_.rest]
    rfl
  · have size := at_.size
    have empty : dropUnread str = [] := List.eq_nil_of_length_eq_zero (by omega)
    simp [empty, pure, Except.pure]

theorem trimEnd_append_unread {c : Char} (val : Text) (unread : isRead c = false) :
    trimEnd (val ++ [c]) = trimEnd val := by
  simp [trimEnd, unread]

theorem trimEnd_append_read {c : Char} (val : Text) (readable : isRead c = true) :
    trimEnd (val ++ [c]) = val ++ [c] := by
  simp [trimEnd, readable]

theorem trimLoop_eq {fuel : Nat} (val : Text) (enough : val.length < fuel) :
    trimLoop fuel val = .ok (trimEnd val) := by
  induction fuel generalizing val with
  | zero => omega
  | succ fuel ih =>
    rcases List.eq_nil_or_concat val with rfl | ⟨before, c, is⟩
    · simp [trimLoop, trimEnd, pure, Except.pure]
    · rw [List.concat_eq_append] at is
      subst is
      have last : (charAt (before ++ [c]) ((before ++ [c]).length - 1) : Run FormatError Char) =
          .ok c := by simp [charAt]
      have shorter : (popBack (before ++ [c]) : Run FormatError Text) = .ok before := by
        obtain ⟨d, rest, is⟩ := List.exists_cons_of_ne_nil (List.append_ne_nil_of_right_ne_nil
          before (List.cons_ne_nil c []))
        rw [is, popBack, ← is, List.dropLast_concat]
      simp only [List.length_append, List.length_cons, List.length_nil] at enough
      cases readable : isRead c with
      | true =>
        rw [trimEnd_append_read before readable]
        simp only [trimLoop, last, Run.bind_ok, readable]
        simp [pure, Except.pure]
      | false =>
        rw [trimEnd_append_unread before readable, ← ih before (by omega)]
        simp only [trimLoop, last, Run.bind_ok, readable, shorter]
        simp

/-- The blanks in front of a delimiter or of something readable. -/
theorem blankLoop_stop {gap : Text} {c : Char} (blank : ∀ d ∈ gap, isGap delim altdelim d = true)
    (stops : isGap delim altdelim c = false) (at_ : At str i (gap ++ c :: rest)) {fuel : Nat}
    (enough : gap.length < fuel) (tval : Text) :
    blankLoop blanks delim altdelim str fuel i tval = .ok (i + gap.length, tval ++ gap) := by
  induction gap generalizing i fuel tval with
  | nil =>
    obtain ⟨fuel, rfl⟩ : ∃ rest, fuel = rest + 1 := ⟨fuel - 1, by omega⟩
    rw [List.nil_append] at at_
    have inside := Nat.not_le.mpr at_.lt
    simp [blankLoop, inside, at_.charAt, stops, pure, Except.pure]
  | cons d gap ih =>
    obtain ⟨fuel, rfl⟩ : ∃ rest, fuel = rest + 1 := ⟨fuel - 1, by omega⟩
    rw [List.cons_append] at at_
    have inside := Nat.not_le.mpr at_.lt
    have first := blank d (by simp)
    have later := ih (fun e member => blank e (List.mem_cons_of_mem d member)) at_.next
      (show _ < fuel by simp only [List.length_cons] at enough; omega) (tval ++ [d])
    simp only [blankLoop, inside, and_false, ↓reduceIte, at_.charAt, Run.bind_ok, first, later]
    simp [Nat.add_comm, Nat.add_left_comm]

/-- At the end of the string the terminator is a delimiter, or the loop is
bounded, or it reads on. -/
theorem blankLoop_end (blank : ∀ d ∈ text, isGap delim altdelim d = true) (at_ : At str i text)
    {fuel : Nat} (enough : text.length + 2 ≤ fuel) (tval : Text) :
    blankLoop blanks delim altdelim str fuel i tval =
      if isDelim delim altdelim nul = true ∨ blanks = .checked
      then .ok (str.length, tval ++ text) else .error .fault := by
  induction text generalizing i fuel tval with
  | nil =>
    obtain ⟨fuel, rfl⟩ : ∃ rest, fuel = rest + 2 := ⟨fuel - 2, by omega⟩
    have beyond : (charAt str (str.length + 1) : Run FormatError Char) = .error .fault := by
      simp [charAt, Run.fault]
    obtain rfl := at_.eq_length
    cases blanks with
    | checked => simp [blankLoop, pure, Except.pure]
    | unchecked =>
      cases terminates : isDelim delim altdelim nul with
      | true =>
        simp [blankLoop, isGap, terminates, pure, Except.pure]
      | false =>
        simp [blankLoop, isGap, terminates, beyond, isRead_nul]
  | cons d text ih =>
    obtain ⟨fuel, rfl⟩ : ∃ rest, fuel = rest + 1 := ⟨fuel - 1, by omega⟩
    have inside := Nat.not_le.mpr at_.lt
    have first := blank d (by simp)
    have later := ih (fun e member => blank e (List.mem_cons_of_mem d member)) at_.next
      (show _ ≤ fuel by simp only [List.length_cons] at enough; omega) (tval ++ [d])
    simp only [blankLoop, inside, and_false, ↓reduceIte, at_.charAt, Run.bind_ok, first, later]
    simp

/-- What a round does to the index and the value, as the texts have it. -/
inductive Rounds (str val : Text) : Run Unclosed (Text × Reach) → Run FormatError Step → Prop where
  | next {piece rest : Text} {i : Nat} (at_ : At str i rest) :
      Rounds str val (.ok (piece, .next rest)) (.ok (.next i (val ++ piece)))
  | leave {piece rest : Text} {i : Nat} (drop : str.drop i = rest) :
      Rounds str val (.ok (piece, .leave rest)) (.ok (.leave i (val ++ piece)))
  | thrown (unclosed : Unclosed) :
      Rounds str val (.error (.thrown unclosed)) (.error (.thrown (unclosed.error str)))
  | fault : Rounds str val (.error .fault) (.error .fault)

theorem Rounds.stay {val : Text} (drop : str.drop i = rest) :
    Rounds str val (.ok ([], .leave rest)) (.ok (.leave i val)) := by
  have leave : Rounds str val (.ok ([], .leave rest)) (.ok (.leave i (val ++ []))) := .leave drop
  rwa [List.append_nil] at leave

theorem Rounds.prepend {val piece : Text} {read : Run Unclosed (Text × Reach)}
    {step : Run FormatError Step} (rounds : Rounds str (val ++ piece) read step) :
    Rounds str val (prepend piece read) step := by
  cases rounds with
  | @next later rest i at_ =>
    have next : Rounds str val (.ok (piece ++ later, .next rest))
        (.ok (.next i (val ++ (piece ++ later)))) := .next at_
    simpa using next
  | @leave later rest i drop =>
    have leave : Rounds str val (.ok (piece ++ later, .leave rest))
        (.ok (.leave i (val ++ (piece ++ later)))) := .leave drop
    simpa using leave
  | thrown unclosed => exact .thrown unclosed
  | fault => exact .fault

theorem blankStep_rounds (at_ : At str i text) (val : Text) :
    Rounds str val (scanBlanks blanks delim altdelim text)
      (blankStep blanks delim altdelim str i val) := by
  have size := at_.size
  by_cases delimited : delim = nul
  · rw [scanBlanks_whole blanks delimited, blankStep, if_pos (by simpa using delimited)]
    exact Rounds.stay at_.rest
  · rw [blankStep, if_neg (by simpa using delimited)]
    rcases cases_gap delim altdelim text with blank | ⟨gap, c, rest, rfl, blank, stops⟩
    · rw [scanBlanks_end blanks delimited blank, blankLoop_end blank at_ (by omega)]
      by_cases terminates : isDelim delim altdelim nul = true
      · simp only [terminates, true_or, ↓reduceIte, Run.bind_ok, charAt_length]
        exact Rounds.stay (List.drop_of_length_le (Nat.le_succ _))
      · cases blanks with
        | unchecked => simpa [terminates, Run.fault] using Rounds.fault
        | checked =>
          have behind : At str str.length [] := ⟨rfl, List.drop_length⟩
          simp only [terminates, Bool.false_eq_true, false_or, ↓reduceIte, Run.bind_ok,
            charAt_length, List.nil_append]
          exact Rounds.next behind
    · have behind := at_.append
      rw [scanBlanks_stop blanks delimited blank stops, blankLoop_stop blank stops at_ (by
        simp only [List.length_append, List.length_cons] at size; omega)]
      simp only [Run.bind_ok, behind.charAt, List.nil_append]
      cases isDelim delim altdelim c with
      | true => exact Rounds.stay behind.next.rest
      | false => exact Rounds.next behind

theorem behindStep_rounds (at_ : At str i text) (val : Text) :
    Rounds str val (scanBehind blanks delim altdelim text)
      (behindStep blanks delim altdelim str i val) := by
  cases text with
  | nil =>
    have terminator : behindStep blanks delim altdelim str i val =
        blankStep blanks delim altdelim str i val := by
      simp only [behindStep, at_.charAt_end, Run.bind_ok]
      rfl
    rw [terminator]
    exact blankStep_rounds at_ val
  | cons c rest =>
    have group {kind : GroupKind} (opens : c = kind.opening) :
        Rounds str val ((readGroup kind (c :: rest)).map fun found => (found.1, .next found.2))
          (do let found ← copyGroup kind str i val; pure (.next found.1 found.2)) := by
      rw [copyGroup_eq opens at_]
      cases read : readGroup kind (c :: rest) with
      | ok found => exact .next (readGroup_split opens read ▸ at_).append
      | error stop =>
        obtain ⟨unclosed, rfl⟩ := readGroup_throws read
        exact .thrown unclosed
    simp only [behindStep, at_.charAt, Run.bind_ok, scanBehind, beq_iff_eq]
    split
    · rename_i opens
      exact group opens
    · split
      · rename_i opens
        exact group opens
      · cases isRead c with
        | false => exact blankStep_rounds at_ val
        | true =>
          cases isDelim delim altdelim c with
          | true => exact Rounds.stay at_.next.rest
          | false => exact .next at_.next

theorem scanStep_plain {c : Char} (is : quoteOf c = none) (at_ : At str i (c :: rest))
    (val : Text) :
    scanStep blanks delim altdelim str i val = behindStep blanks delim altdelim str i val := by
  obtain ⟨notDouble, notSingle⟩ := quoteOf_eq_none is
  simp only [scanStep, at_.charAt, Run.bind_ok, beq_iff_eq, if_neg notDouble, if_neg notSingle]

theorem scanStep_quote {c : Char} {quote : QuoteKind} (is : quoteOf c = some quote)
    (at_ : At str i (c :: rest)) (val : Text) :
    scanStep blanks delim altdelim str i val = (do
      let (i, val) ← valueQuote quote str i val
      behindStep blanks delim altdelim str i val) := by
  rcases quoteOf_cases is with ⟨rfl, rfl⟩ | ⟨rfl, rfl⟩ <;>
    simp only [scanStep, at_.charAt, Run.bind_ok] <;> rfl

theorem scanStep_rounds {c : Char} (at_ : At str i (c :: rest)) (val : Text) :
    Rounds str val (scanPiece blanks delim altdelim (c :: rest))
      (scanStep blanks delim altdelim str i val) := by
  rw [scanPiece]
  cases is : quoteOf c with
  | none =>
    simp only [openQuote, is, prepend_nil, scanStep_plain is at_]
    exact behindStep_rounds at_ val
  | some quote =>
    rw [scanStep_quote is at_]
    cases closes : closeQuote quote.mark rest with
    | none =>
      simp only [openQuote, is, closes, valueQuote_open is at_ closes]
      exact .thrown _
    | some found =>
      obtain ⟨raw, after⟩ := found
      have behind : At str (i + 1 + raw.length + 1) after :=
        ((closed_of_closeQuote closes).2 ▸ at_.next).append.next
      simp only [openQuote, is, closes, valueQuote_closed is at_ closes, Run.bind_ok]
      exact (behindStep_rounds behind _).prepend

/-- Where the loop of `_getstrval` stops and with what value. -/
inductive Loops (str val : Text) : Run Unclosed (Text × Text) → Run FormatError (Nat × Text) → Prop
    where
  | done {piece rest : Text} {i : Nat} (drop : str.drop i = rest) :
      Loops str val (.ok (piece, rest)) (.ok (i, val ++ piece))
  | thrown (unclosed : Unclosed) :
      Loops str val (.error (.thrown unclosed)) (.error (.thrown (unclosed.error str)))
  | fault : Loops str val (.error .fault) (.error .fault)

theorem Loops.prepend {val piece : Text} {read : Run Unclosed (Text × Text)}
    {step : Run FormatError (Nat × Text)} (loops : Loops str (val ++ piece) read step) :
    Loops str val (prepend piece read) step := by
  cases loops with
  | @done later rest i drop =>
    have done : Loops str val (.ok (piece ++ later, rest)) (.ok (i, val ++ (piece ++ later))) :=
      .done drop
    simpa using done
  | thrown unclosed => exact .thrown unclosed
  | fault => exact .fault

theorem scanLoop_loops (at_ : At str i text) {fuel : Nat} (enough : text.length < fuel)
    (val : Text) :
    Loops str val (scan blanks delim altdelim text)
      (scanLoop blanks delim altdelim str fuel i val) := by
  induction fuel generalizing text i val with
  | zero => omega
  | succ fuel ih =>
    cases text with
    | nil =>
      have finished : Loops str val (.ok ([], [])) (.ok (str.length, val ++ [])) :=
        .done List.drop_length
      simpa [scanLoop, at_.eq_length, pure, Except.pure] using finished
    | cons c rest =>
      have round : Rounds str val (scanPiece blanks delim altdelim (c :: rest))
          (scanStep blanks delim altdelim str i val) := scanStep_rounds at_ val
      simp only [scanLoop, at_.lt, ↓reduceIte]
      generalize stepped : scanStep blanks delim altdelim str i val = step at round ⊢
      generalize scanned : scanPiece blanks delim altdelim (c :: rest) = piece at round
      cases round with
      | next behind =>
        have shorter := scanPiece_shorter (List.cons_ne_nil c rest) scanned
        rw [scan_next (List.cons_ne_nil c rest) scanned]
        exact (ih behind (by omega) _).prepend
      | leave drop =>
        rw [scan_leave (List.cons_ne_nil c rest) scanned]
        exact .done drop
      | thrown unclosed =>
        rw [scan_error (List.cons_ne_nil c rest) scanned]
        exact .thrown unclosed
      | fault =>
        rw [scan_error (List.cons_ne_nil c rest) scanned]
        exact .fault

/-- The five results of `_getstrval` for what it reads. -/
def strVal (str : Text) (found : Text × Text) : StrVal :=
  if dropUnread str = [] then
    { value := [], rest := [], restStart := 0, valueStart := 0, delimFound := false }
  else
    { value := found.1
      rest := found.2
      restStart := toInt (str.length - found.2.length : Nat)
      valueStart := toInt (str.length - (dropUnread str).length : Nat)
      delimFound := found.2 != [] }

/-- `_getstrval` in terms of texts. -/
theorem getstrval_eq (blanks : BlankRun) (str : Text) (delim altdelim : Char) :
    getstrval blanks str delim altdelim =
      Run.mapError (Unclosed.error str) ((read blanks delim altdelim str).map (strVal str)) := by
  have start := dropUnread_at str
  have size := start.size
  simp only [getstrval, skip_eq, Run.bind_ok, read]
  by_cases empty : dropUnread str = []
  · simp [empty, strVal, trimEnd, Except.map, Run.mapError, pure, Except.pure]
  · have inside : ¬ str.length - (dropUnread str).length ≥ str.length := by
      have positive := List.length_pos_iff.mpr empty
      omega
    have loops : Loops str [] (scan blanks delim altdelim (dropUnread str))
        (scanLoop blanks delim altdelim str (str.length + 1)
          (str.length - (dropUnread str).length) []) := scanLoop_loops start (by omega) []
    rw [if_neg inside]
    generalize scan blanks delim altdelim (dropUnread str) = read at loops ⊢
    generalize scanLoop blanks delim altdelim str (str.length + 1)
      (str.length - (dropUnread str).length) [] = loop at loops ⊢
    cases loops with
    | thrown unclosed => rfl
    | fault => rfl
    | @done piece rest i drop =>
      have behind := congrArg List.length drop
      rw [List.length_drop] at behind
      simp only [Run.bind_ok, List.nil_append]
      cases rest with
      | nil =>
        have atEnd : ¬ i < str.length := by
          simp only [List.length_nil] at behind
          omega
        rw [if_neg atEnd, trimLoop_eq piece (Nat.lt_succ_self _)]
        simp [strVal, empty, Except.map, Run.mapError, pure, Except.pure]
      | cons c rest =>
        have before : i < str.length := by
          simp only [List.length_cons] at behind
          omega
        have position : str.length - (rest.length + 1) = i := by
          simp only [List.length_cons] at behind
          omega
        simp [before, drop, strVal, empty, position, Except.map, Run.mapError, pure, Except.pure]

end Ztd.Filedat
