import Ztd.Filedat.Quotes
import Ztd.Filedat.Brackets
import Mathlib.Data.List.TakeWhile

/-! What `removeComments` makes of a text, without indices: the loop computes it
for every text whose length the index can go beyond. -/

namespace Ztd.Filedat
open Ztd.Lib

/-- A quote that is not closed, behind the text that is left of what precedes it. -/
abbrev OpenQuote := Text × Unclosed

/-- Text that stays, in front of what is left of the rest. -/
def lead (text : Text) : Run OpenQuote Text → Run OpenQuote Text
  | .ok left => .ok (text ++ left)
  | .error (.thrown (front, unclosed)) => .error (.thrown (text ++ front, unclosed))
  | .error stop => .error stop

@[simp] theorem lead_ok (text left : Text) : lead text (.ok left) = .ok (text ++ left) := rfl

@[simp] theorem lead_thrown (text front : Text) (unclosed : Unclosed) :
    lead text (.error (.thrown (front, unclosed))) =
      .error (.thrown (text ++ front, unclosed)) := rfl

theorem lead_nil (left : Run OpenQuote Text) : lead [] left = left := by
  cases left with
  | ok left => rfl
  | error stop => cases stop <;> rfl

theorem lead_lead (first second : Text) (left : Run OpenQuote Text) :
    lead first (lead second left) = lead (first ++ second) left := by
  cases left with
  | ok left => simp
  | error stop => cases stop <;> simp [lead]

def startsComment (text : Text) : Bool :=
  text.head? == some '#' || text.take 2 == ['/', '/']

theorem startsComment_cases {c : Char} {rest : Text} (comment : startsComment (c :: rest) = true) :
    c = '#' ∨ c = '/' := by
  rw [startsComment, Bool.or_eq_true] at comment
  rcases comment with hash | slashes
  · exact .inl (by simpa using hash)
  · cases rest with
    | nil => simp at slashes
    | cons d rest => exact .inr (by simpa using (by simpa using slashes : c = '/' ∧ d = '/').1)

/-- A text without its comments. The character behind a closing quote stays
whatever it is, as does the one behind a backslash. -/
def strip : Text → Run OpenQuote Text
  | [] => .ok []
  | c :: rest =>
    if c = '\\' then lead (c :: rest.take 1) (strip (rest.drop 1))
    else
      match quoteOf c with
      | some quote =>
        match _found : closeQuote quote.mark rest with
        | none => .error (.thrown ([], ⟨quote.open_, c :: rest⟩))
        | some (raw, after) => lead (c :: raw ++ c :: after.take 1) (strip (after.drop 1))
      | none =>
        if startsComment (c :: rest) then
          let after := rest.dropWhile (· != '\n')
          lead (after.take 1) (strip (after.drop 1))
        else lead [c] (strip rest)
termination_by text => text.length
decreasing_by
  all_goals simp only [List.length_cons, List.length_drop]
  · omega
  · have shorter := closeQuote_length _found
    omega
  · have shorter := (List.dropWhile_sublist (l := rest) (· != '\n')).length_le
    omega
  · omega

section Steps
variable {c : Char} {rest : Text}

theorem strip_escaped : strip ('\\' :: rest) = lead ('\\' :: rest.take 1) (strip (rest.drop 1)) := by
  rw [strip, if_pos rfl]

theorem strip_quote {quote : QuoteKind} (is : quoteOf c = some quote) {raw after : Text}
    (closes : closeQuote quote.mark rest = some (raw, after)) :
    strip (c :: rest) = lead (c :: raw ++ c :: after.take 1) (strip (after.drop 1)) := by
  obtain ⟨same, valid⟩ := quoteOf_eq_some is
  have notBackslash : c ≠ '\\' := same ▸ valid.notBackslash
  rw [strip, if_neg notBackslash]
  split
  · rename_i other found
    obtain rfl := Option.some.inj (is.symm.trans found)
    split
    · simp [closes] at *
    · rename_i found
      obtain ⟨rfl, rfl⟩ := Prod.mk.inj (Option.some.inj (closes.symm.trans found))
      rfl
  · simp [is] at *

theorem strip_quote_open {quote : QuoteKind} (is : quoteOf c = some quote)
    (open_ : closeQuote quote.mark rest = none) :
    strip (c :: rest) = .error (.thrown ([], ⟨quote.open_, c :: rest⟩)) := by
  obtain ⟨same, valid⟩ := quoteOf_eq_some is
  have notBackslash : c ≠ '\\' := same ▸ valid.notBackslash
  rw [strip, if_neg notBackslash]
  split
  · rename_i other found
    obtain rfl := Option.some.inj (is.symm.trans found)
    split
    · rfl
    · simp [open_] at *
  · simp [is] at *

theorem strip_comment (notBackslash : c ≠ '\\') (noQuote : quoteOf c = none)
    (comment : startsComment (c :: rest) = true) :
    strip (c :: rest) =
      lead ((rest.dropWhile (· != '\n')).take 1) (strip ((rest.dropWhile (· != '\n')).drop 1)) := by
  rw [strip, if_neg notBackslash]
  split
  · simp [noQuote] at *
  · rw [if_pos comment]

theorem strip_plain (notBackslash : c ≠ '\\') (noQuote : quoteOf c = none)
    (comment : startsComment (c :: rest) = false) :
    strip (c :: rest) = lead [c] (strip rest) := by
  rw [strip, if_neg notBackslash]
  split
  · simp [noQuote] at *
  · rw [if_neg (by simp [comment])]

end Steps

theorem lead_eq_ok {front left : Text} {run : Run OpenQuote Text} (leads : lead front run = .ok left) :
    ∃ rest, run = .ok rest ∧ left = front ++ rest := by
  cases run with
  | ok rest => exact ⟨rest, rfl, (Except.ok.inj leads).symm⟩
  | error stop => cases stop <;> simp [lead] at leads

/-- Removing comments makes no text longer. -/
theorem strip_length {text left : Text} (strips : strip text = .ok left) :
    left.length ≤ text.length := by
  induction text using strip.induct generalizing left with
  | case1 =>
    obtain rfl : [] = left := by simpa [strip] using strips
    exact Nat.le_refl _
  | case2 rest ih =>
    rw [strip_escaped] at strips
    obtain ⟨later, stripped, rfl⟩ := lead_eq_ok strips
    have shorter := ih stripped
    simp only [List.length_drop, List.length_append, List.length_cons, List.length_take] at shorter ⊢
    omega
  | case3 c rest notBackslash quote is found =>
    rw [strip_quote_open is found] at strips
    simp at strips
  | case4 c rest notBackslash quote is raw after found ih =>
    rw [strip_quote is found] at strips
    obtain ⟨later, stripped, rfl⟩ := lead_eq_ok strips
    have shorter := ih stripped
    have size := congrArg List.length (closed_of_closeQuote found).2
    simp only [List.length_append, List.length_cons] at size
    simp only [List.length_drop, List.length_append, List.length_cons, List.length_take] at shorter ⊢
    omega
  | case5 c rest notBackslash is comment after =>
    rename_i ih
    rw [strip_comment notBackslash is comment] at strips
    obtain ⟨later, stripped, rfl⟩ := lead_eq_ok strips
    have shorter := ih stripped
    have dropped := (List.dropWhile_sublist (l := rest) (· != '\n')).length_le
    simp only [after, List.length_drop, List.length_append, List.length_cons, List.length_take]
      at shorter ⊢
    omega
  | case6 c rest notBackslash is plain ih =>
    rw [strip_plain notBackslash is (by simpa using plain)] at strips
    obtain ⟨later, stripped, rfl⟩ := lead_eq_ok strips
    have shorter := ih stripped
    simpa using shorter

section Loop
variable {str text rest : Text} {i : UInt32} {c : Char}

theorem toNat_next (room : i.toNat + 1 < 2 ^ 32) : (i + 1).toNat = i.toNat + 1 := by
  rw [UInt32.toNat_add]
  exact Nat.mod_eq_of_lt room

/-- How much text a quote loop passes over: up to the closing mark, or all. -/
def quoteEnd (mark : Char) (text : Text) : Nat :=
  (closeQuote mark text).elim text.length (·.1.length)

section QuoteEnd
variable {mark : Char}

theorem quoteEnd_escaped (valid : IsMark mark) (text : Text) :
    quoteEnd mark ('\\' :: mark :: text) = quoteEnd mark text + 2 := by
  rw [quoteEnd, quoteEnd, closeQuote_escaped valid]
  cases closeQuote mark text <;> rfl

theorem quoteEnd_plain (other : c ≠ mark) (plain : c = '\\' → text.head? ≠ some mark) :
    quoteEnd mark (c :: text) = quoteEnd mark text + 1 := by
  rw [quoteEnd, quoteEnd, closeQuote_plain other plain]
  cases closeQuote mark text <;> rfl

end QuoteEnd

/-- The index of 32 bits only has to reach the closing mark. -/
theorem commentQuoteLoop_eq {mark : Char} (valid : IsMark mark) (at_ : At str i.toNat text)
    (room : i.toNat + quoteEnd mark text < 2 ^ 32) {fuel : Nat}
    (enough : quoteEnd mark text < fuel) :
    ∃ j, commentQuoteLoop mark str fuel i = .ok j ∧ j.toNat = i.toNat + quoteEnd mark text := by
  induction fuel generalizing text i with
  | zero => omega
  | succ fuel ih =>
    rcases cases_quote mark text with rfl | ⟨rest, rfl⟩ | ⟨rest, rfl⟩ | ⟨c, rest, rfl, other, plain⟩
    · exact ⟨i, by simp [commentQuoteLoop, at_.eq_length, pure, Except.pure], by
        simp [quoteEnd, closeQuote]⟩
    · exact ⟨i, by simp [commentQuoteLoop, at_.lt, at_.charAt, pure, Except.pure], by
        simp [quoteEnd, closeQuote_mark]⟩
    · rw [quoteEnd_escaped valid] at room enough ⊢
      have first := toNat_next (i := i) (by omega)
      have inside := at_.next.lt
      have second := toNat_next (i := i + 1) (by rw [first]; omega)
      have behind : At str (i + 1 + 1).toNat rest := by
        rw [second, first]
        exact at_.next.next
      obtain ⟨j, loops, stops⟩ := ih behind (by rw [second, first]; omega) (by omega)
      refine ⟨j, ?_, by rw [stops, second, first]; omega⟩
      rw [← loops]
      simp [commentQuoteLoop, at_.lt, at_.charAt, first, inside, at_.next.charAt,
        Ne.symm valid.notBackslash, pure, Except.pure]
    · rw [quoteEnd_plain other plain] at room enough ⊢
      have first := toNat_next (i := i) (by omega)
      have behind : At str (i + 1).toNat rest := by
        rw [first]
        exact at_.next
      obtain ⟨j, loops, stops⟩ := ih behind (by rw [first]; omega) (by omega)
      refine ⟨j, ?_, by rw [stops, first]; omega⟩
      rw [← loops]
      by_cases ahead : i.toNat + 1 < str.length ∧ c = '\\'
      · obtain ⟨inside, rfl⟩ := ahead
        cases rest with
        | nil =>
          have size := at_.next.eq_length
          omega
        | cons d rest =>
          have different : d ≠ mark := by simpa using plain rfl
          simp [commentQuoteLoop, at_.lt, at_.charAt, first, inside, at_.next.charAt, other,
            different, pure, Except.pure]
      · simp [commentQuoteLoop, at_.lt, at_.charAt, first, ahead, other, pure, Except.pure]

/-- Behind an opening mark the loop stops on the closing one, or at the end. -/
theorem commentQuoteLoop_opened {quote : QuoteKind} (is : quoteOf c = some quote)
    (at_ : At str i.toNat (c :: rest)) (room : i.toNat + 1 + quoteEnd quote.mark rest < 2 ^ 32) :
    ∃ j, commentQuoteLoop quote.mark str indexFuel (i + 1) = .ok j ∧
      j.toNat = i.toNat + 1 + quoteEnd quote.mark rest := by
  have first := toNat_next (i := i) (by omega)
  have behind : At str (i + 1).toNat rest := by
    rw [first]
    exact at_.next
  have loops := commentQuoteLoop_eq (quoteOf_eq_some is).2 behind (by rw [first]; omega)
    (show _ < indexFuel by rw [indexFuel]; omega)
  rwa [first] at loops

theorem commentQuote_closed {quote : QuoteKind} (is : quoteOf c = some quote)
    (room : str.length < 2 ^ 32) (at_ : At str i.toNat (c :: rest)) {raw after : Text}
    (closes : closeQuote quote.mark rest = some (raw, after)) :
    ∃ j, commentQuote quote str i = .ok j ∧ j.toNat = i.toNat + (raw.length + 2) := by
  have size := at_.next.size
  have shorter := congrArg List.length (closed_of_closeQuote closes).2
  simp only [List.length_append, List.length_cons] at shorter
  have passes : quoteEnd quote.mark rest = raw.length := by
    rw [quoteEnd, closes, Option.elim_some]
  obtain ⟨j, loops, stops⟩ := commentQuoteLoop_opened is at_ (by omega)
  have inside : ¬ str.length ≤ j.toNat := by omega
  refine ⟨j + 1, by simp [commentQuote, loops, inside, pure, Except.pure], ?_⟩
  rw [toNat_next (by omega)]
  omega

theorem commentQuote_open {quote : QuoteKind} (is : quoteOf c = some quote)
    (room : str.length < 2 ^ 32) (at_ : At str i.toNat (c :: rest))
    (open_ : closeQuote quote.mark rest = none) :
    commentQuote quote str i = .error (.thrown (formatError quote.open_ [] str i.toNat)) := by
  have size := at_.next.size
  have passes : quoteEnd quote.mark rest = rest.length := by
    rw [quoteEnd, open_, Option.elim_none]
  obtain ⟨j, loops, stops⟩ := commentQuoteLoop_opened is at_ (by omega)
  have atEnd : str.length ≤ j.toNat := by omega
  simp [commentQuote, loops, atEnd, Run.raise]

/-- The outcome of `removeComments` for what is left of a text. -/
def left : Run OpenQuote Text → Run FormatError Text :=
  Run.mapError fun found =>
    formatError found.2.message [] (found.1 ++ found.2.text) (found.1.length : Nat)

/-- Deleting from the index up to the newline, or up to the end. -/
theorem erase_comment (room : str.length < 2 ^ 32) (at_ : At str i.toNat text) :
    erase str i.toNat (UInt32.ofNat (findNewline str i.toNat) - i).toNat =
      str.take i.toNat ++ text.dropWhile (· != '\n') := by
  have size := at_.size
  have ends : text.dropWhile (· != '\n') = text.drop (text.findIdx (· == '\n')) := by
    have same : (fun c => !(c != '\n')) = fun c : Char => c == '\n' := by
      funext c
      simp [bne]
    rw [List.dropWhile_eq_drop_findIdx_not, same]
  rw [erase, findNewline, at_.rest]
  cases found : text.findIdx? (· == '\n') with
  | some count =>
    obtain ⟨inside, same⟩ := List.findIdx?_eq_some_iff_findIdx_eq.mp found
    have position : (UInt32.ofNat (i.toNat + count)).toNat = i.toNat + count :=
      UInt32.toNat_ofNat_of_lt' (by
        have bound : UInt32.size = 2 ^ 32 := rfl
        omega)
    have distance : (UInt32.ofNat (i.toNat + count) - i).toNat = count := by
      rw [UInt32.toNat_sub_of_le _ _ (UInt32.le_iff_toNat_le.mpr (by omega)), position]
      omega
    simp only [distance]
    rw [ends, same, ← List.drop_drop, at_.rest]
  | none =>
    have position : (UInt32.ofNat (2 ^ 64 - 1)).toNat = 2 ^ 32 - 1 := by decide
    have distance : (UInt32.ofNat (2 ^ 64 - 1) - i).toNat = 2 ^ 32 - 1 - i.toNat := by
      rw [UInt32.toNat_sub_of_le _ _ (UInt32.le_iff_toNat_le.mpr (by omega)), position]
    have whole : text.findIdx (· == '\n') = text.length := by
      rw [List.findIdx_eq_length]
      simpa using List.findIdx?_eq_none_iff.mp found
    simp only [distance]
    rw [ends, whole, List.drop_length, List.drop_of_length_le (by omega)]

/-- A round of the loop in front of a text: it stops at a quote that is not
closed, moves the index over characters that stay, or removes a comment. -/
inductive Round (str : Text) (i : UInt32) (text : Text) : Prop where
  | stop (ends : ∀ fuel,
      commentLoop (fuel + 1) str i = left (lead (str.take i.toNat) (strip text)))
  | advance (count : Nat) (positive : 0 < count) (inside : i.toNat + count ≤ str.length + 1)
    (stays : strip text = lead (text.take count) (strip (text.drop count)))
    (round : ∀ fuel, commentLoop (fuel + 1) str i = commentLoop fuel str (i + UInt32.ofNat count))
  | comment (after : Text) (shorter : after.length < text.length)
    (removes : strip text = lead (after.take 1) (strip (after.drop 1)))
    (round : ∀ fuel,
      commentLoop (fuel + 1) str i = commentLoop fuel (str.take i.toNat ++ after) (i + 1))

theorem round_quote {quote : QuoteKind} (is : quoteOf c = some quote)
    (room : str.length < 2 ^ 32) (at_ : At str i.toNat (c :: rest)) : Round str i (c :: rest) := by
  obtain ⟨same, valid⟩ := quoteOf_eq_some is
  have step := at_.charAt (ε := FormatError)
  have inside := at_.lt
  have first (fuel : Nat) : commentLoop (fuel + 1) str i =
      (do let i ← commentQuote quote str i; commentLoop fuel str (i + 1)) := by
    rcases quoteOf_cases is with ⟨rfl, rfl⟩ | ⟨rfl, rfl⟩ <;> simp [commentLoop, inside, step]
  cases closes : closeQuote quote.mark rest with
  | none =>
    refine .stop fun fuel => ?_
    have front : (str.take i.toNat).length = i.toNat := List.length_take_of_le at_.le
    rw [first, commentQuote_open is room at_ closes, strip_quote_open is closes]
    simp [left, Run.mapError, at_.take, front]
  | some found =>
    obtain ⟨raw, after⟩ := found
    obtain ⟨j, quoted, moved⟩ := commentQuote_closed is room at_ closes
    have split := (closed_of_closeQuote closes).2
    have size := at_.size
    rw [split] at size
    simp only [List.length_append, List.length_cons] at size
    have front : (c :: rest).take (raw.length + 3) = c :: raw ++ c :: after.take 1 := by
      rw [split, ← same]
      simp [List.take_append, List.take_of_length_le]
    have back : (c :: rest).drop (raw.length + 3) = after.drop 1 := by
      rw [split]
      simp [List.drop_append]
    refine .advance (raw.length + 3) (by omega) (by omega) ?_ fun fuel => ?_
    · rw [front, back, strip_quote is closes]
    · have position : j + 1 = i + UInt32.ofNat (raw.length + 3) := by
        rw [← UInt32.toNat_inj, UInt32.toNat_add, UInt32.toNat_add, moved, UInt32.toNat_ofNat']
        simp only [UInt32.toNat_one, Nat.add_mod_mod]
        congr 1
      rw [first, quoted, Run.bind_ok, position]

theorem round_plain (notBackslash : c ≠ '\\') (is : quoteOf c = none) (room : str.length < 2 ^ 32)
    (at_ : At str i.toNat (c :: rest)) : Round str i (c :: rest) := by
  obtain ⟨notDouble, notSingle⟩ := quoteOf_eq_none is
  have step := at_.charAt (ε := FormatError)
  have inside := at_.lt
  have first := toNat_next (i := i) (by omega)
  have test : (c == '#' || ((i + 1).toNat < str.length &&
      (str.drop i.toNat).take 2 == ['/', '/'])) = startsComment (c :: rest) := by
    rw [at_.rest, startsComment]
    cases rest with
    | nil => simp
    | cons d rest =>
      have ahead := at_.next.lt
      rw [first, decide_eq_true ahead]
      simp
  have round (fuel : Nat) : commentLoop (fuel + 1) str i =
      if startsComment (c :: rest) then
        commentLoop fuel (erase str i.toNat
          (UInt32.ofNat (findNewline str i.toNat) - i).toNat) (i + 1)
      else commentLoop fuel str (i + 1) := by
    simp only [commentLoop, inside, ↓reduceIte, step, Run.bind_ok, test, beq_iff_eq,
      notBackslash, notDouble, notSingle]
  cases comment : startsComment (c :: rest) with
  | true =>
    have notNewline : (c != '\n') = true := by
      rcases startsComment_cases comment with rfl | rfl <;> rfl
    have erased := erase_comment room at_
    rw [List.dropWhile_cons_of_pos (p := (· != '\n')) notNewline] at erased
    have shorter := (List.dropWhile_sublist (l := rest) (· != '\n')).length_le
    exact .comment _ (Nat.lt_succ_of_le shorter) (strip_comment notBackslash is comment)
      (fun fuel => by rw [round, if_pos comment, erased])
  | false =>
    have size := at_.size
    simp only [List.length_cons] at size
    exact .advance 1 Nat.one_pos (by omega) (strip_plain notBackslash is comment)
      (fun fuel => by rw [round, if_neg (by simp [comment])]; rfl)

theorem commentLoop_round (room : str.length < 2 ^ 32) (at_ : At str i.toNat (c :: rest)) :
    Round str i (c :: rest) := by
  by_cases escaped : c = '\\'
  · subst escaped
    have step := at_.charAt (ε := FormatError)
    have inside := at_.lt
    refine .advance 2 (by omega) (by omega) ?_ fun fuel => ?_
    · rw [strip_escaped]
      simp
    · have position : i + 1 + 1 = i + UInt32.ofNat 2 := by
        rw [UInt32.add_assoc]
        rfl
      rw [← position]
      simp [commentLoop, inside, step]
  · cases is : quoteOf c with
    | some quote => exact round_quote is room at_
    | none => exact round_plain escaped is room at_

/-- The loop computes what is left, unless its fuel runs out. -/
theorem commentLoop_cases (room : str.length + 1 < 2 ^ 32) (drop : str.drop i.toNat = text)
    (bound : i.toNat ≤ str.length + 1) (fuel : Nat) :
    (fuel ≤ text.length ∧ commentLoop fuel str i = Run.diverged) ∨
      commentLoop fuel str i = left (lead (str.take i.toNat) (strip text)) := by
  induction fuel generalizing str text i with
  | zero => exact .inl ⟨Nat.zero_le _, rfl⟩
  | succ fuel ih =>
    cases text with
    | nil =>
      have atEnd := List.drop_eq_nil_iff.mp drop
      exact .inr (by simp [commentLoop, Nat.not_lt.mpr atEnd, strip,
        List.take_of_length_le atEnd, left, Run.mapError, pure, Except.pure])
    | cons c rest =>
      have at_ : At str i.toNat (c :: rest) := by
        refine ⟨?_, drop⟩
        have size := congrArg List.length drop
        simp only [List.length_drop, List.length_cons] at size ⊢
        omega
      have size := at_.size
      cases commentLoop_round (by omega) at_ with
      | stop ends => exact .inr (ends fuel)
      | advance count positive inside stays round =>
        have moved : (i + UInt32.ofNat count).toNat = i.toNat + count := by
          rw [UInt32.toNat_add, UInt32.toNat_ofNat', Nat.add_mod_mod,
            Nat.mod_eq_of_lt (by omega)]
        have behind : str.drop (i + UInt32.ofNat count).toNat = (c :: rest).drop count := by
          rw [moved, ← List.drop_drop, at_.rest]
        rw [round, stays, lead_lead, ← at_.rest, ← List.take_add, ← moved, at_.rest]
        rcases ih room behind (by omega) with ⟨spent, diverges⟩ | ends
        · refine .inl ⟨?_, diverges⟩
          simp only [List.length_drop, List.length_cons] at spent ⊢
          omega
        · exact .inr ends
      | comment after shorter removes round =>
        have front : (str.take i.toNat).length = i.toNat := List.length_take_of_le at_.le
        have first := toNat_next (i := i) (by omega)
        have taken : (str.take i.toNat ++ after).take (i + 1).toNat =
            str.take i.toNat ++ after.take 1 := by
          rw [first, List.take_append, List.take_of_length_le (by omega), front]
          simp
        have dropped : (str.take i.toNat ++ after).drop (i + 1).toNat = after.drop 1 := by
          rw [first, List.drop_append, List.drop_of_length_le (by omega), front]
          simp
        have total : (str.take i.toNat ++ after).length = i.toNat + after.length := by
          rw [List.length_append, front]
        rw [round, removes, lead_lead, ← taken]
        rcases ih (by omega) dropped (by omega) with ⟨spent, diverges⟩ | ends
        · refine .inl ⟨?_, diverges⟩
          rw [List.length_drop] at spent
          omega
        · exact .inr ends

/-- `removeComments` in terms of texts. -/
theorem removeComments_eq (room : str.length + 1 < 2 ^ 32) :
    removeComments str = left (strip str) := by
  have enough : str.length < 2 ^ (33 + str.length) :=
    Nat.lt_of_le_of_lt (Nat.le_add_left _ _) Nat.lt_two_pow_self
  have whole : left (lead (str.take (0 : UInt32).toNat) (strip str)) = left (strip str) :=
    congrArg left (lead_nil (strip str))
  rcases commentLoop_cases room (show str.drop (0 : UInt32).toNat = str from rfl) (Nat.zero_le _)
    (2 ^ (33 + str.length)) with ⟨spent, _⟩ | ends
  · omega
  · rw [removeComments, ends, whole]

/-- In the longest text an index can enter, the index behind the last character
may wrap around: then the loop begins anew, at a text it has kept so far. -/
theorem commentLoop_longest (longest : str.length + 1 = 2 ^ 32)
    (kept : lead (str.take i.toNat) (strip (str.drop i.toNat)) = strip str) (fuel : Nat) :
    commentLoop fuel str i = Run.diverged ∨ commentLoop fuel str i = left (strip str) := by
  induction fuel generalizing i with
  | zero => exact .inl rfl
  | succ fuel ih =>
    have below := i.toNat_lt
    cases text : str.drop i.toNat with
    | nil =>
      have atEnd := List.drop_eq_nil_iff.mp text
      rw [text] at kept
      rw [← kept]
      exact .inr (by simp [commentLoop, Nat.not_lt.mpr atEnd, strip,
        List.take_of_length_le atEnd, left, Run.mapError, pure, Except.pure])
    | cons c rest =>
      have at_ : At str i.toNat (c :: rest) := by
        refine ⟨?_, text⟩
        have size := congrArg List.length text
        simp only [List.length_drop, List.length_cons] at size ⊢
        omega
      rw [text] at kept
      cases commentLoop_round (by omega) at_ with
      | stop ends =>
        rw [ends, kept]
        exact .inr rfl
      | advance count positive inside stays round =>
        rw [round]
        apply ih
        by_cases wraps : i.toNat + count = 2 ^ 32
        · have start : (i + UInt32.ofNat count).toNat = 0 := by
            rw [UInt32.toNat_add, UInt32.toNat_ofNat', Nat.add_mod_mod, wraps, Nat.mod_self]
          rw [start]
          exact lead_nil _
        · have moved : (i + UInt32.ofNat count).toNat = i.toNat + count := by
            rw [UInt32.toNat_add, UInt32.toNat_ofNat', Nat.add_mod_mod,
              Nat.mod_eq_of_lt (by omega)]
          rw [moved, List.take_add, ← List.drop_drop, at_.rest, ← lead_lead, ← stays, kept]
      | comment after shorter removes round =>
        have front : (str.take i.toNat).length = i.toNat := List.length_take_of_le at_.le
        have first := toNat_next (i := i) (by have inside := at_.lt; omega)
        have size := at_.size
        have total : (str.take i.toNat ++ after).length = i.toNat + after.length := by
          rw [List.length_append, front]
        have taken : (str.take i.toNat ++ after).take (i + 1).toNat =
            str.take i.toNat ++ after.take 1 := by
          rw [first, List.take_append, List.take_of_length_le (by omega), front]
          simp
        have dropped : (str.take i.toNat ++ after).drop (i + 1).toNat = after.drop 1 := by
          rw [first, List.drop_append, List.drop_of_length_le (by omega), front]
          simp
        rw [round, ← kept, removes, lead_lead, ← taken]
        rcases commentLoop_cases (by omega) dropped (by omega) fuel with ⟨_, diverges⟩ | ends
        · exact .inl diverges
        · exact .inr ends

/-- What `removeComments` returns for any text its index can enter. -/
theorem removeComments_ok (room : str.length < 2 ^ 32) {result : Text}
    (returns : removeComments str = .ok result) : strip str = .ok result := by
  have of_left (same : left (strip str) = .ok result) : strip str = .ok result := by
    cases stripped : strip str with
    | ok stripped =>
      rw [stripped] at same
      exact congrArg Except.ok (Except.ok.inj same)
    | error stop => cases stop <;> simp [stripped, left, Run.mapError] at same
  by_cases longest : str.length + 1 = 2 ^ 32
  · rcases commentLoop_longest (i := 0) longest (lead_nil _) (2 ^ (33 + str.length)) with
      diverges | ends
    · rw [removeComments, diverges] at returns
      simp [Run.diverged] at returns
    · exact of_left (ends.symm.trans returns)
  · exact of_left ((removeComments_eq (by omega)).symm.trans returns)

end Loop

end Ztd.Filedat
