import Ztd.Filedat.Stripping
import Ztd.Filedat.Nesting

/-! The quote loops of `removeComments` and of `_getstrval`, at the value and inside
of both kinds of brackets, against each other and against `escape`. -/

namespace Ztd.Filedat
open Ztd.Lib

/-- The four loops that begin at an opening quote stop at one index inside of the
string; the value has got the one text, the copy inside of brackets the other and
the closing quote. -/
structure QuotesStop (quote : QuoteKind) (str : Text) (i stop : Nat) (read copied : Text) : Prop where
  inside : stop < str.length
  comments : ∃ j, commentQuoteLoop quote.mark str indexFuel (UInt32.ofNat i + 1) = .ok j ∧
    j.toNat = stop
  value : ∀ val, quoteLoop quote.mark false str (str.length + 1) (i + 1) val =
    .ok (stop, val ++ read)
  copy : ∀ val, groupQuote quote str i val = .ok (stop, val ++ copied)
  groups : ∀ group : GroupKind, group.Known → ∀ fuel counter val,
    groupLoop group str (fuel + 1) i counter val =
      groupLoop group str fuel (stop + 1) counter (val ++ copied ++ [quote.mark])

/-- The four loops come to the end of the string, which is an exception. -/
structure QuotesThrow (quote : QuoteKind) (str : Text) (i : Nat) : Prop where
  comments : ∃ error, commentQuote quote str (UInt32.ofNat i) = .error (.thrown error)
  value : ∀ val, ∃ error, valueQuote quote str i val = .error (.thrown error)
  groups : ∀ group : GroupKind, group.Known → ∀ fuel counter val,
    ∃ error, groupLoop group str (fuel + 1) i counter val = .error (.thrown error)

/-- A `uint32_t` can count to the end of the string, or to the mark that closes the quote. -/
def Counted (mark : Char) (str : Text) (i : Nat) : Prop :=
  str.length < 2 ^ 32 ∨ ∃ raw after, str.drop (i + 1) = raw ++ mark :: after ∧ Closed mark raw ∧
    i + 1 + raw.length < 2 ^ 32

/-- The quote loop of `removeComments` itself throws nothing. -/
theorem commentQuoteLoop_thrown (mark : Char) (str : Text) (fuel : Nat) (i : UInt32)
    (error : FormatError) : commentQuoteLoop mark str fuel i ≠ .error (.thrown error) := by
  induction fuel generalizing i with
  | zero => simp [commentQuoteLoop, Run.diverged]
  | succ fuel ih =>
    rw [commentQuoteLoop]
    split
    · rename_i inside
      rw [charAt_of_lt inside, Run.bind_ok]
      dsimp only
      split
      · simp [pure, Except.pure]
      · split
        · rename_i ahead
          have next : (i + 1).toNat < str.length := by
            rw [Bool.and_eq_true, decide_eq_true_eq] at ahead
            exact ahead.1
          rw [charAt_of_lt next, Run.bind_ok]
          exact ih _
        · exact ih _
    · simp [pure, Except.pure]

section Loops
variable {c : Char} {quote : QuoteKind} {str rest raw after : Text} {i : Nat}
variable (is : quoteOf c = some quote) (at_ : At str i (c :: rest))

include is at_

theorem groupLoop_quote {group : GroupKind} (known : group.Known) (fuel : Nat) (counter : UInt32)
    (val : Text) : groupLoop group str (fuel + 1) i counter val =
      (do
        let found ← groupQuote quote str i val
        let d ← charAt str found.1
        groupLoop group str fuel (found.1 + 1) counter (found.2 ++ [d])) := by
  rcases known with rfl | rfl <;> rcases quoteOf_cases is with ⟨rfl, rfl⟩ | ⟨rfl, rfl⟩ <;>
    simp [groupLoop, at_.lt, at_.charAt, brace, bracket]

/-- Where a mark closes the quote, the loops stop there, if the index of comments can. -/
theorem quotesStop_iff (closes : closeQuote quote.mark rest = some (raw, after)) :
    QuotesStop quote str i (i + 1 + raw.length) (unescape quote.mark raw) (c :: raw) ↔
      i + 1 + raw.length < 2 ^ 32 := by
  constructor
  · intro stops
    obtain ⟨j, _, position⟩ := stops.comments
    rw [← position]
    exact j.toNat_lt
  · intro room
    obtain ⟨same, valid⟩ := quoteOf_eq_some is
    have size := at_.next.size
    have split := (closed_of_closeQuote closes).2
    have shorter := congrArg List.length split
    simp only [List.length_append, List.length_cons] at shorter
    have start : (UInt32.ofNat i).toNat = i :=
      UInt32.toNat_ofNat_of_lt' (by
        have bound : UInt32.size = 2 ^ 32 := rfl
        omega)
    have passes : quoteEnd quote.mark rest = raw.length := by
      rw [quoteEnd, closes, Option.elim_some]
    have closing : At str (i + 1 + raw.length) (quote.mark :: after) := (split ▸ at_.next).append
    refine ⟨by omega, ?_, fun val => ?_, fun val => ?_, fun group known fuel counter val => ?_⟩
    · have loops := commentQuoteLoop_opened (i := UInt32.ofNat i) is (by rwa [start])
        (by rw [start, passes]; exact room)
      rwa [start, passes] at loops
    · rw [quoteLoop_eq valid false at_.next (by omega), loopEnd, closes]
      rfl
    · exact groupQuote_closed is at_ closes val
    · rw [groupLoop_quote is at_ known, groupQuote_closed is at_ closes, Run.bind_ok,
        closing.charAt, Run.bind_ok]

/-- Where nothing closes the quote, the loops throw, if the index of comments comes
to the end. -/
theorem quotesThrow_iff (open_ : closeQuote quote.mark rest = none) :
    QuotesThrow quote str i ↔ str.length < 2 ^ 32 := by
  constructor
  · intro throws
    obtain ⟨error, ends⟩ := throws.comments
    rcases Run.bind_eq_error.mp ends with loops | ⟨j, _, stops⟩
    · exact absurd loops (commentQuoteLoop_thrown _ _ _ _ error)
    · split at stops
      · rename_i atEnd
        exact Nat.lt_of_le_of_lt atEnd j.toNat_lt
      · simp [pure, Except.pure] at stops
  · intro room
    have start : (UInt32.ofNat i).toNat = i :=
      UInt32.toNat_ofNat_of_lt' (by
        have inside := at_.lt
        have bound : UInt32.size = 2 ^ 32 := rfl
        omega)
    refine ⟨⟨_, commentQuote_open is room (by rwa [start]) open_⟩,
      fun val => ⟨_, valueQuote_open is at_ open_ val⟩, fun group known fuel counter val => ?_⟩
    rw [groupLoop_quote is at_ known, groupQuote_open is at_ open_]
    exact ⟨_, rfl⟩

/-- Where the loops stop, a mark closes the quote. -/
theorem QuotesStop.closed {stop : Nat} {read copied : Text}
    (stops : QuotesStop quote str i stop read copied) :
    ∃ raw after, closeQuote quote.mark rest = some (raw, after) ∧ i + 1 + raw.length = stop := by
  have size := at_.next.size
  have inside := stops.inside
  have loops := stops.value []
  rw [quoteLoop_eq (quoteOf_eq_some is).2 false at_.next (by omega), loopEnd] at loops
  cases closes : closeQuote quote.mark rest with
  | none =>
    rw [closes] at loops
    have position : i + 1 + rest.length = stop := congrArg Prod.fst (Except.ok.inj loops)
    omega
  | some found =>
    rw [closes] at loops
    exact ⟨found.1, found.2, rfl, congrArg Prod.fst (Except.ok.inj loops)⟩

/-- The loops agree exactly where the index of comments can count. -/
theorem agree_iff : ((∃ stop read copied, QuotesStop quote str i stop read copied) ∨
    QuotesThrow quote str i) ↔ Counted quote.mark str i := by
  obtain ⟨_, valid⟩ := quoteOf_eq_some is
  have size := at_.next.size
  cases closes : closeQuote quote.mark rest with
  | none =>
    have never : ¬∃ stop read copied, QuotesStop quote str i stop read copied := by
      rintro ⟨stop, read, copied, stops⟩
      obtain ⟨raw, after, found, _⟩ := stops.closed is at_
      simp [closes] at found
    have open_ : ¬∃ raw after, str.drop (i + 1) = raw ++ quote.mark :: after ∧
        Closed quote.mark raw ∧ i + 1 + raw.length < 2 ^ 32 := by
      rintro ⟨raw, after, split, closed, _⟩
      rw [at_.next.rest] at split
      rw [split, closeQuote_closed valid closed] at closes
      simp at closes
    rw [Counted, or_iff_left open_, or_iff_right never]
    exact quotesThrow_iff is at_ closes
  | some found =>
    obtain ⟨raw, after⟩ := found
    obtain ⟨closed, split⟩ := closed_of_closeQuote closes
    have shorter := congrArg List.length split
    simp only [List.length_append, List.length_cons] at shorter
    have never : ¬QuotesThrow quote str i := by
      intro throws
      obtain ⟨error, ends⟩ := throws.value []
      simp [valueQuote_closed is at_ closes] at ends
    have same : (∃ stop read copied, QuotesStop quote str i stop read copied) ↔
        i + 1 + raw.length < 2 ^ 32 := by
      constructor
      · rintro ⟨stop, read, copied, stops⟩
        obtain ⟨raw', after', found, position⟩ := stops.closed is at_
        obtain ⟨rfl, _⟩ := Prod.mk.inj (Option.some.inj (closes.symm.trans found))
        obtain ⟨j, _, reached⟩ := stops.comments
        rw [position, ← reached]
        exact j.toNat_lt
      · exact fun room => ⟨_, _, _, (quotesStop_iff is at_ closes).mpr room⟩
    rw [or_iff_left never, same, Counted]
    constructor
    · exact fun room => .inr ⟨raw, after, by rw [at_.next.rest, split], closed, room⟩
    · rintro (room | ⟨raw', after', split', closed', room⟩)
      · omega
      · have found := closeQuote_closed valid closed' after'
        rw [← split', at_.next.rest, closes] at found
        obtain ⟨rfl, _⟩ := Prod.mk.inj (Option.some.inj found)
        exact room

end Loops

/-- The quote loops agree on what the printer puts between quotes, and on any quote of
any string, if and only if an index of 32 bits can count to where it ends. -/
theorem quotes_agree_iff {c : Char} {quote : QuoteKind} (is : quoteOf c = some quote) :
    (∀ s t, s.getLast? ≠ some '\\' →
      (QuotesStop quote (c :: escape c s ++ c :: t) 0 ((escape c s).length + 1) s
        (c :: escape c s) ↔ (escape c s).length + 1 < 2 ^ 32)) ∧
    ∀ str i, str[i]? = some c →
      ((∃ stop read copied, QuotesStop quote str i stop read copied) ∨ QuotesThrow quote str i ↔
        Counted c str i) := by
  obtain ⟨rfl, valid⟩ := quoteOf_eq_some is
  constructor
  · intro s t ends
    have closes := closeQuote_closed valid (closed_escape valid ends) t
    have stops := quotesStop_iff is (At.start _) closes
    rw [unescape_escape valid, Nat.zero_add, Nat.add_comm 1] at stops
    exact stops
  · intro str i opens
    obtain ⟨inside, first⟩ := List.getElem?_eq_some_iff.mp opens
    have starts : str.drop i = quote.mark :: str.drop (i + 1) := by
      rw [← first, List.drop_eq_getElem_cons inside]
    exact agree_iff is ⟨by rw [← starts, List.length_drop]; omega, starts⟩

theorem quotes_agree_iff_double :
    QuotesStop doubleQuote ['"', 'a', '\\', '"', '"', 'b'] 0 4 ['a', '"'] ['"', 'a', '\\', '"'] :=
  ((quotes_agree_iff (c := '"') rfl).1 ['a', '"'] ['b'] (by decide)).mpr (by decide)

/-- In a quote of 2^32 letters that nothing closes, the index of comments wraps around. -/
theorem letters_not_counted {count : Nat} (long : 2 ^ 32 ≤ count) :
    ¬((∃ stop read copied,
        QuotesStop doubleQuote ('"' :: List.replicate count 'a') 0 stop read copied) ∨
      QuotesThrow doubleQuote ('"' :: List.replicate count 'a') 0) := by
  rw [agree_iff (c := '"') rfl (At.start _)]
  rintro (short | ⟨raw, after, split, _, _⟩)
  · rw [List.length_cons, List.length_replicate] at short
    omega
  · have member : '"' ∈ List.replicate count 'a' := by
      rw [show List.replicate count 'a' = raw ++ '"' :: after from split]
      exact List.mem_append_right _ List.mem_cons_self
    exact absurd (List.eq_of_mem_replicate member) (by decide)

theorem quotes_disagree_long :
    ¬((∃ stop read copied,
        QuotesStop doubleQuote ('"' :: List.replicate (2 ^ 32) 'a') 0 stop read copied) ∨
      QuotesThrow doubleQuote ('"' :: List.replicate (2 ^ 32) 'a') 0) :=
  letters_not_counted (Nat.le_refl (2 ^ 32))

end Ztd.Filedat
