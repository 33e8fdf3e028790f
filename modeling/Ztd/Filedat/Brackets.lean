import Ztd.Filedat.Quotes

/-! Groups as texts: what a bracket encloses and where it closes. The bracket
loops of the parser compute it, whatever the counters wrap around to. -/

namespace Ztd.Filedat
open Ztd.Lib

/-- An opening mark that nothing closes, with the text from the mark on. -/
structure Unclosed where
  message : Text
  text : Text
deriving DecidableEq, Repr

def Unclosed.error (str : Text) (unclosed : Unclosed) : FormatError :=
  formatError unclosed.message [] str ((str.length - unclosed.text.length : Nat) : Int)

/-- Text in front of what is read. -/
def prepend {α : Type} (text : Text) (read : Run Unclosed (Text × α)) : Run Unclosed (Text × α) :=
  read.map fun found => (text ++ found.1, found.2)

section Prepend
variable {α : Type} (text : Text)

@[simp] theorem prepend_ok (found : Text × α) :
    prepend text (.ok found) = .ok (text ++ found.1, found.2) := rfl

@[simp] theorem prepend_error (stop : Stop Unclosed) :
    prepend text (.error stop : Run Unclosed (Text × α)) = .error stop := rfl

@[simp] theorem prepend_nil (read : Run Unclosed (Text × α)) : prepend [] read = read := by
  cases read <;> rfl

@[simp] theorem prepend_prepend (first second : Text) (read : Run Unclosed (Text × α)) :
    prepend first (prepend second read) = prepend (first ++ second) read := by
  cases read <;> simp

end Prepend

/-- The kind of quote a character opens. -/
def quoteOf (c : Char) : Option QuoteKind :=
  if c = '"' then some doubleQuote else if c = '\'' then some singleQuote else none

theorem quoteOf_cases {c : Char} {quote : QuoteKind} (is : quoteOf c = some quote) :
    (c = '"' ∧ quote = doubleQuote) ∨ (c = '\'' ∧ quote = singleQuote) := by
  rw [quoteOf] at is
  split at is
  · exact .inl ⟨by assumption, (Option.some.inj is).symm⟩
  · split at is
    · exact .inr ⟨by assumption, (Option.some.inj is).symm⟩
    · simp at is

theorem quoteOf_eq_none {c : Char} (is : quoteOf c = none) : c ≠ '"' ∧ c ≠ '\'' := by
  rw [quoteOf] at is
  split at is
  · simp at is
  · split at is
    · simp at is
    · exact ⟨by assumption, by assumption⟩

theorem quoteOf_eq_some {c : Char} {quote : QuoteKind} (is : quoteOf c = some quote) :
    c = quote.mark ∧ IsMark quote.mark := by
  rcases quoteOf_cases is with ⟨rfl, rfl⟩ | ⟨rfl, rfl⟩
  · exact ⟨rfl, isMark_double⟩
  · exact ⟨rfl, isMark_single⟩

/-- The inside of a group, and the text behind the bracket that closes it. -/
def closeGroup (group : GroupKind) (counter : UInt32) : Text → Run Unclosed (Text × Option Text)
  | [] => .ok ([], none)
  | c :: rest =>
    if counter = 0 ∧ c = group.closing then .ok ([], some rest)
    else if c = group.down then prepend [c] (closeGroup group (counter - 1) rest)
    else if c = group.up then prepend [c] (closeGroup group (counter + 1) rest)
    else
      match quoteOf c with
      | none => prepend [c] (closeGroup group counter rest)
      | some quote =>
        match _found : closeQuote quote.mark rest with
        | none => .error (.thrown ⟨quote.openInside, c :: rest⟩)
        | some (raw, after) => prepend (c :: raw ++ [c]) (closeGroup group counter after)
termination_by text => text.length
decreasing_by
  all_goals simp only [List.length_cons]
  · omega
  · omega
  · omega
  · exact Nat.lt_succ_of_lt (closeQuote_length _found)

/-- A group with its brackets, and the text behind it. -/
def readGroup (group : GroupKind) (text : Text) : Run Unclosed (Text × Text) :=
  match closeGroup group 0 (text.drop 1) with
  | .error stop => .error stop
  | .ok (_, none) => .error (.thrown ⟨message "Brace does not close", text⟩)
  | .ok (body, some after) => .ok (group.opening :: body ++ [group.closing], after)

section Prepending
variable {α : Type} {text : Text} {read : Run Unclosed (Text × α)} {found : Text × α}

theorem prepend_eq_ok (is : prepend text read = .ok found) :
    ∃ inner, read = .ok (inner, found.2) ∧ found.1 = text ++ inner := by
  cases read with
  | error stop => simp at is
  | ok inner =>
    rw [prepend_ok, Except.ok.injEq] at is
    subst is
    exact ⟨inner.1, rfl, rfl⟩

end Prepending

section Group
variable (group : GroupKind) {counter : UInt32} {c : Char} {rest : Text}

theorem closeGroup_closing : closeGroup group 0 (group.closing :: rest) = .ok ([], some rest) := by
  rw [closeGroup, if_pos ⟨rfl, rfl⟩]

theorem closeGroup_down (inner : ¬(counter = 0 ∧ group.down = group.closing)) :
    closeGroup group counter (group.down :: rest) =
      prepend [group.down] (closeGroup group (counter - 1) rest) := by
  rw [closeGroup, if_neg inner, if_pos rfl]

theorem closeGroup_up (inner : ¬(counter = 0 ∧ group.up = group.closing))
    (other : group.up ≠ group.down) :
    closeGroup group counter (group.up :: rest) =
      prepend [group.up] (closeGroup group (counter + 1) rest) := by
  rw [closeGroup, if_neg inner, if_neg other, if_pos rfl]

theorem closeGroup_plain (inner : ¬(counter = 0 ∧ c = group.closing)) (down : c ≠ group.down)
    (up : c ≠ group.up) (noQuote : quoteOf c = none) :
    closeGroup group counter (c :: rest) = prepend [c] (closeGroup group counter rest) := by
  rw [closeGroup, if_neg inner, if_neg down, if_neg up]
  split
  · rfl
  · simp [noQuote] at *

/-- A quote that is none of the brackets is copied as a whole. -/
theorem closeGroup_quote (inner : ¬(counter = 0 ∧ c = group.closing)) (down : c ≠ group.down)
    (up : c ≠ group.up) {quote : QuoteKind} (is : quoteOf c = some quote) {raw after : Text}
    (closes : closeQuote quote.mark rest = some (raw, after)) :
    closeGroup group counter (c :: rest) =
      prepend (c :: raw ++ [c]) (closeGroup group counter after) := by
  rw [closeGroup, if_neg inner, if_neg down, if_neg up]
  split
  · simp [is] at *
  · rename_i other found
    obtain rfl := Option.some.inj (is.symm.trans found)
    split
    · simp [closes] at *
    · rename_i found
      obtain ⟨rfl, rfl⟩ := Prod.mk.inj (Option.some.inj (closes.symm.trans found))
      rfl

theorem closeGroup_quote_open (inner : ¬(counter = 0 ∧ c = group.closing))
    (down : c ≠ group.down) (up : c ≠ group.up) {quote : QuoteKind} (is : quoteOf c = some quote)
    (open_ : closeQuote quote.mark rest = none) :
    closeGroup group counter (c :: rest) =
      .error (.thrown ⟨quote.openInside, c :: rest⟩) := by
  rw [closeGroup, if_neg inner, if_neg down, if_neg up]
  split
  · simp [is] at *
  · rename_i other found
    obtain rfl := Option.some.inj (is.symm.trans found)
    split
    · rfl
    · simp [open_] at *

end Group

/-- The inside of a group ends in front of its bracket, or with the text. -/
theorem closeGroup_split (group : GroupKind) {counter : UInt32} {text body : Text}
    {after : Option Text} (found : closeGroup group counter text = .ok (body, after)) :
    text = body ++ after.elim [] (group.closing :: ·) := by
  induction counter, text using closeGroup.induct group generalizing body with
  | case1 =>
    simp only [closeGroup, Except.ok.injEq, Prod.mk.injEq] at found
    obtain ⟨rfl, rfl⟩ := found
    rfl
  | case2 counter c rest closes =>
    obtain ⟨rfl, rfl⟩ := closes
    simp only [closeGroup_closing, Except.ok.injEq, Prod.mk.injEq] at found
    obtain ⟨rfl, rfl⟩ := found
    rfl
  | case3 counter rest inner ih =>
    rw [closeGroup_down group inner] at found
    obtain ⟨body, found, rfl⟩ := prepend_eq_ok found
    rw [ih found, List.append_assoc, List.singleton_append]
  | case4 counter rest inner other ih =>
    rw [closeGroup_up group inner other] at found
    obtain ⟨body, found, rfl⟩ := prepend_eq_ok found
    rw [ih found, List.append_assoc, List.singleton_append]
  | case5 counter c rest inner down up noQuote ih =>
    rw [closeGroup_plain group inner down up noQuote] at found
    obtain ⟨body, found, rfl⟩ := prepend_eq_ok found
    rw [ih found, List.append_assoc, List.singleton_append]
  | case6 counter c rest inner down up quote is open_ =>
    simp [closeGroup_quote_open group inner down up is open_] at found
  | case7 counter c rest inner down up quote is raw behind closes ih =>
    rw [closeGroup_quote group inner down up is closes] at found
    obtain ⟨body, found, rfl⟩ := prepend_eq_ok found
    rw [(closed_of_closeQuote closes).2, ih found, (quoteOf_eq_some is).1]
    simp

section Indices
variable {str text rest : Text} {i : Nat} {c : Char}

/-- Where an exception for an unclosed mark points. -/
theorem Unclosed.error_at (at_ : At str i text) (message : Text) :
    Unclosed.error str ⟨message, text⟩ = formatError message [] str i := by
  have size := at_.size
  rw [Unclosed.error, show str.length - text.length = i by omega]

theorem groupQuote_closed {quote : QuoteKind} (is : quoteOf c = some quote)
    (at_ : At str i (c :: rest)) {raw after : Text}
    (closes : closeQuote quote.mark rest = some (raw, after)) (val : Text) :
    groupQuote quote str i val = .ok (i + 1 + raw.length, val ++ c :: raw) := by
  obtain ⟨same, valid⟩ := quoteOf_eq_some is
  have size := at_.next.size
  have shorter := congrArg List.length (closed_of_closeQuote closes).2
  simp only [List.length_append, List.length_cons] at shorter
  have inside : ¬ str.length ≤ i + 1 + raw.length := by omega
  simp [groupQuote, at_.charAt, quoteLoop_eq valid true at_.next (show _ < str.length + 1
    by omega), loopEnd, closes, quoted, inside, pure, Except.pure]

theorem groupQuote_open {quote : QuoteKind} (is : quoteOf c = some quote)
    (at_ : At str i (c :: rest)) (open_ : closeQuote quote.mark rest = none) (val : Text) :
    groupQuote quote str i val =
      .error (.thrown (Unclosed.error str ⟨quote.openInside, c :: rest⟩)) := by
  obtain ⟨same, valid⟩ := quoteOf_eq_some is
  have size := at_.next.size
  simp [groupQuote, at_.charAt, quoteLoop_eq valid true at_.next (show _ < str.length + 1
    by omega), loopEnd, open_, size, Unclosed.error_at at_, Run.raise]

theorem valueQuote_closed {quote : QuoteKind} (is : quoteOf c = some quote)
    (at_ : At str i (c :: rest)) {raw after : Text}
    (closes : closeQuote quote.mark rest = some (raw, after)) (val : Text) :
    valueQuote quote str i val = .ok (i + 1 + raw.length + 1, val ++ unescape quote.mark raw) := by
  obtain ⟨same, valid⟩ := quoteOf_eq_some is
  have size := at_.next.size
  have shorter := congrArg List.length (closed_of_closeQuote closes).2
  simp only [List.length_append, List.length_cons] at shorter
  have inside : ¬ str.length ≤ i + 1 + raw.length := by omega
  simp [valueQuote, quoteLoop_eq valid false at_.next (show _ < str.length + 1
    by omega), loopEnd, closes, quoted, inside, pure, Except.pure]

theorem valueQuote_open {quote : QuoteKind} (is : quoteOf c = some quote)
    (at_ : At str i (c :: rest)) (open_ : closeQuote quote.mark rest = none) (val : Text) :
    valueQuote quote str i val =
      .error (.thrown (Unclosed.error str ⟨quote.open_, c :: rest⟩)) := by
  obtain ⟨same, valid⟩ := quoteOf_eq_some is
  have size := at_.next.size
  simp [valueQuote, quoteLoop_eq valid false at_.next (show _ < str.length + 1
    by omega), loopEnd, open_, size, Unclosed.error_at at_, Run.raise]

/-- The position and the value the group loop reaches. -/
def groupEnd (str : Text) (i : Nat) (val : Text) :
    Run Unclosed (Text × Option Text) → Run FormatError (Nat × Text) :=
  fun read => Run.mapError (Unclosed.error str)
    (read.map fun found => (i + found.1.length, val ++ found.1))

theorem groupEnd_prepend (piece val : Text) (read : Run Unclosed (Text × Option Text)) :
    groupEnd str i val (prepend piece read) =
      groupEnd str (i + piece.length) (val ++ piece) read := by
  cases read with
  | ok found => simp [groupEnd, Except.map, Run.mapError, Nat.add_assoc]
  | error stop => rfl

theorem groupLoop_eq (group : GroupKind) (counter : UInt32) (at_ : At str i text) {fuel : Nat}
    (enough : text.length < fuel) (val : Text) :
    groupLoop group str fuel i counter val = groupEnd str i val (closeGroup group counter text) := by
  induction counter, text using closeGroup.induct group generalizing i fuel val with
  | case1 counter =>
    obtain ⟨fuel, rfl⟩ : ∃ rest, fuel = rest + 1 := ⟨fuel - 1, by omega⟩
    simp [groupLoop, at_.eq_length, closeGroup, groupEnd, Except.map, Run.mapError, pure,
      Except.pure]
  | case2 counter c rest closes =>
    obtain ⟨fuel, rfl⟩ : ∃ rest, fuel = rest + 1 := ⟨fuel - 1, by omega⟩
    obtain ⟨rfl, rfl⟩ := closes
    rw [closeGroup_closing]
    simp [groupLoop, at_.lt, at_.charAt, groupEnd, Except.map, Run.mapError, pure, Except.pure]
  | case3 counter rest inner ih =>
    obtain ⟨fuel, rfl⟩ : ∃ rest, fuel = rest + 1 := ⟨fuel - 1, by omega⟩
    rw [closeGroup_down group inner, groupEnd_prepend, List.length_singleton,
      ← ih at_.next (show _ < fuel by simp only [List.length_cons] at enough; omega)]
    simp [groupLoop, at_.lt, at_.charAt, inner]
  | case4 counter rest inner other ih =>
    obtain ⟨fuel, rfl⟩ : ∃ rest, fuel = rest + 1 := ⟨fuel - 1, by omega⟩
    rw [closeGroup_up group inner other, groupEnd_prepend, List.length_singleton,
      ← ih at_.next (show _ < fuel by simp only [List.length_cons] at enough; omega)]
    simp [groupLoop, at_.lt, at_.charAt, inner, other]
  | case5 counter c rest inner down up noQuote ih =>
    obtain ⟨fuel, rfl⟩ : ∃ rest, fuel = rest + 1 := ⟨fuel - 1, by omega⟩
    obtain ⟨notDouble, notSingle⟩ := quoteOf_eq_none noQuote
    rw [closeGroup_plain group inner down up noQuote, groupEnd_prepend, List.length_singleton,
      ← ih at_.next (show _ < fuel by simp only [List.length_cons] at enough; omega)]
    simp [groupLoop, at_.lt, at_.charAt, inner, down, up, notDouble, notSingle]
  | case6 counter c rest inner down up quote is open_ =>
    obtain ⟨fuel, rfl⟩ : ∃ rest, fuel = rest + 1 := ⟨fuel - 1, by omega⟩
    have copied := groupQuote_open is at_ open_ val
    rw [closeGroup_quote_open group inner down up is open_]
    rcases quoteOf_cases is with ⟨rfl, rfl⟩ | ⟨rfl, rfl⟩ <;>
      simp [groupLoop, at_.lt, at_.charAt, inner, down, up, copied, groupEnd, Except.map,
        Run.mapError]
  | case7 counter c rest inner down up quote is raw after closes ih =>
    obtain ⟨fuel, rfl⟩ : ∃ rest, fuel = rest + 1 := ⟨fuel - 1, by omega⟩
    obtain ⟨_, split⟩ := closed_of_closeQuote closes
    have copied := groupQuote_closed is at_ closes val
    have closing : At str (i + 1 + raw.length) (quote.mark :: after) := (split ▸ at_.next).append
    rw [closeGroup_quote group inner down up is closes, groupEnd_prepend]
    rw [split, List.length_cons, List.length_append, List.length_cons] at enough
    have behind : i + (c :: raw ++ [c]).length = i + 1 + raw.length + 1 := by
      simp only [List.length_append, List.length_cons, List.length_nil]
      omega
    rw [behind, ← ih closing.next (show _ < fuel by omega)]
    rcases quoteOf_cases is with ⟨rfl, rfl⟩ | ⟨rfl, rfl⟩ <;>
      simp_all [groupLoop, at_.lt, at_.charAt, closing.charAt]

theorem readGroup_split {group : GroupKind} {copied after : Text}
    (opens : c = group.opening) (found : readGroup group (c :: rest) = .ok (copied, after)) :
    c :: rest = copied ++ after := by
  rw [readGroup, List.drop_one, List.tail_cons] at found
  cases read : closeGroup group 0 rest with
  | error stop => simp [read] at found
  | ok inner =>
    obtain ⟨body, behind⟩ := inner
    cases behind with
    | none => simp [read] at found
    | some behind =>
      simp only [read, Except.ok.injEq, Prod.mk.injEq] at found
      obtain ⟨rfl, rfl⟩ := found
      rw [closeGroup_split group read, opens]
      simp

/-- Only an exception ends the search for a closing bracket early. -/
theorem closeGroup_throws (group : GroupKind) (counter : UInt32) {text : Text}
    {stop : Stop Unclosed} (ends : closeGroup group counter text = .error stop) :
    ∃ unclosed, stop = .thrown unclosed := by
  have prepended {piece : Text} {read : Run Unclosed (Text × Option Text)}
      (ends : prepend piece read = .error stop) : read = .error stop := by
    cases read <;> simp_all
  induction counter, text using closeGroup.induct group with
  | case1 => simp [closeGroup] at ends
  | case2 counter c rest closes =>
    obtain ⟨rfl, rfl⟩ := closes
    simp [closeGroup_closing] at ends
  | case3 counter rest inner ih =>
    rw [closeGroup_down group inner] at ends
    exact ih (prepended ends)
  | case4 counter rest inner other ih =>
    rw [closeGroup_up group inner other] at ends
    exact ih (prepended ends)
  | case5 counter c rest inner down up noQuote ih =>
    rw [closeGroup_plain group inner down up noQuote] at ends
    exact ih (prepended ends)
  | case6 counter c rest inner down up quote is open_ =>
    rw [closeGroup_quote_open group inner down up is open_] at ends
    exact ⟨_, (Except.error.inj ends).symm⟩
  | case7 counter c rest inner down up quote is raw behind closes ih =>
    rw [closeGroup_quote group inner down up is closes] at ends
    exact ih (prepended ends)

theorem readGroup_throws {group : GroupKind} {stop : Stop Unclosed}
    (ends : readGroup group text = .error stop) : ∃ unclosed, stop = .thrown unclosed := by
  rw [readGroup] at ends
  split at ends
  · rename_i inner
    obtain rfl := Except.error.inj ends
    exact closeGroup_throws group 0 inner
  · exact ⟨_, (Except.error.inj ends).symm⟩
  · simp at ends

/-- A group that is read is its inside between the brackets. -/
theorem readGroup_closed {group : GroupKind} {copied after : Text}
    (found : readGroup group text = .ok (copied, after)) :
    ∃ body, closeGroup group 0 (text.drop 1) = .ok (body, some after) ∧
      copied = group.opening :: body ++ [group.closing] := by
  rw [readGroup] at found
  split at found
  · simp at found
  · simp at found
  · rename_i body behind closes
    obtain ⟨rfl, rfl⟩ := by simpa using found
    exact ⟨body, closes, rfl⟩

theorem readGroup_ne_nil {group : GroupKind} {copied after : Text}
    (found : readGroup group text = .ok (copied, after)) : copied ≠ [] := by
  rw [readGroup] at found
  split at found
  · simp at found
  · simp at found
  · obtain ⟨rfl, _⟩ := by simpa using found
    simp

theorem copyGroup_eq {group : GroupKind} (opens : c = group.opening) (at_ : At str i (c :: rest))
    (val : Text) :
    copyGroup group str i val = Run.mapError (Unclosed.error str)
      ((readGroup group (c :: rest)).map fun found => (i + found.1.length, val ++ found.1)) := by
  have size := at_.next.size
  have loop := groupLoop_eq group 0 at_.next (show _ < str.length + 1 by omega) (val ++ [c])
  rw [readGroup, List.drop_one, List.tail_cons]
  simp only [copyGroup, at_.charAt, Run.bind_ok, loop]
  cases read : closeGroup group 0 rest with
  | error stop => cases stop <;> rfl
  | ok inner =>
    obtain ⟨body, behind⟩ := inner
    cases behind with
    | none =>
      obtain rfl : rest = body := by simpa using closeGroup_split group read
      simp [groupEnd, Except.map, Run.mapError, Run.raise, size, Unclosed.error_at at_]
    | some behind =>
      have split := closeGroup_split group read
      have closing : At str (i + 1 + body.length) (group.closing :: behind) :=
        (split ▸ at_.next).append
      have inside := Nat.not_le.mpr closing.lt
      have behind : i + (group.opening :: body ++ [group.closing]).length =
          i + 1 + body.length + 1 := by
        simp only [List.length_append, List.length_cons, List.length_nil]
        omega
      simp only [groupEnd, Except.map, Run.mapError, Run.bind_ok, ge_iff_le, if_neg inside,
        closing.charAt, behind, opens]
      simp [pure, Except.pure]

end Indices

/-- The brackets of a group are no quotes, and one of them counts up. -/
structure GroupKind.Valid (group : GroupKind) : Prop where
  opening : quoteOf group.opening = none
  closing : quoteOf group.closing = none
  different : group.opening ≠ group.closing
  counts : (group.down = group.closing ∧ group.up = group.opening) ∨
    (group.down = group.opening ∧ group.up = group.closing)

theorem brace_valid : brace.Valid := by constructor <;> decide

theorem bracket_valid : bracket.Valid := by constructor <;> decide

/-- The counter of a group scan at a depth below the group's own. -/
def GroupKind.level (group : GroupKind) (depth : Nat) : UInt32 :=
  if group.up = group.opening then UInt32.ofNat depth else -UInt32.ofNat depth

section Depth
variable {group : GroupKind} {depth : Nat} {rest : Text}

theorem level_zero : group.level 0 = 0 := by
  rw [GroupKind.level]
  split <;> rfl

theorem level_succ_ne_zero (room : depth + 1 < 2 ^ 32) : group.level (depth + 1) ≠ 0 := by
  have position : (UInt32.ofNat (depth + 1)).toNat = depth + 1 :=
    UInt32.toNat_ofNat_of_lt' room
  intro zero
  have number := congrArg UInt32.toNat zero
  rw [GroupKind.level] at number
  split at number
  · rw [position] at number
    simp at number
  · rw [UInt32.toNat_neg, position, Nat.mod_eq_of_lt (by
      have size : UInt32.size = 2 ^ 32 := rfl
      omega)] at number
    have size : UInt32.size = 2 ^ 32 := rfl
    simp only [UInt32.toNat_zero] at number
    omega

theorem ofNat_succ (depth : Nat) : UInt32.ofNat (depth + 1) = UInt32.ofNat depth + 1 := by
  rw [UInt32.ofNat_add]
  rfl

/-- An opening bracket goes one level down. -/
theorem closeGroup_opening (valid : group.Valid) :
    closeGroup group (group.level depth) (group.opening :: rest) =
      prepend [group.opening] (closeGroup group (group.level (depth + 1)) rest) := by
  have notClosing {counter : UInt32} : ¬(counter = 0 ∧ group.opening = group.closing) :=
    fun closes => valid.different closes.2
  rcases valid.counts with ⟨down, up⟩ | ⟨down, up⟩
  · have other : group.up ≠ group.down := by
      rw [up, down]
      exact valid.different
    rw [← up, closeGroup_up group (up ▸ notClosing) other, GroupKind.level, GroupKind.level,
      if_pos up, if_pos up, ofNat_succ]
  · have notUp : group.up ≠ group.opening := by
      rw [up]
      exact Ne.symm valid.different
    rw [← down, closeGroup_down group (down ▸ notClosing), GroupKind.level, GroupKind.level,
      if_neg notUp, if_neg notUp, ofNat_succ, UInt32.neg_add, UInt32.sub_eq_add_neg]

/-- A closing bracket that is not the group's own goes one level up. -/
theorem closeGroup_inner (valid : group.Valid) (room : depth + 1 < 2 ^ 32) :
    closeGroup group (group.level (depth + 1)) (group.closing :: rest) =
      prepend [group.closing] (closeGroup group (group.level depth) rest) := by
  have inner : ¬(group.level (depth + 1) = 0 ∧ group.closing = group.closing) :=
    fun closes => level_succ_ne_zero room closes.1
  rcases valid.counts with ⟨down, up⟩ | ⟨down, up⟩
  · have back : group.level (depth + 1) - 1 = group.level depth := by
      rw [GroupKind.level, GroupKind.level, if_pos up, if_pos up, ofNat_succ, UInt32.add_sub_cancel]
    rw [← down, closeGroup_down group (down ▸ inner), back]
  · have notUp : group.up ≠ group.opening := by
      rw [up]
      exact Ne.symm valid.different
    have other : group.up ≠ group.down := by
      rw [up, down]
      exact Ne.symm valid.different
    have back : group.level (depth + 1) + 1 = group.level depth := by
      rw [GroupKind.level, GroupKind.level, if_neg notUp, if_neg notUp, ofNat_succ,
        UInt32.neg_add, UInt32.sub_add_cancel]
    rw [← up, closeGroup_up group (up ▸ inner) other, back]

/-- A character that is neither a quote nor a bracket of the group. -/
structure GroupKind.Passes (group : GroupKind) (c : Char) : Prop where
  opening : c ≠ group.opening
  closing : c ≠ group.closing
  quote : quoteOf c = none

theorem closeGroup_passes (valid : group.Valid) {text : Text}
    (passes : ∀ c ∈ text, group.Passes c) (counter : UInt32) :
    closeGroup group counter (text ++ rest) = prepend text (closeGroup group counter rest) := by
  induction text with
  | nil => simp
  | cons c text ih =>
    have first := passes c (by simp)
    have down : c ≠ group.down := by
      rcases valid.counts with ⟨down, _⟩ | ⟨down, _⟩ <;> rw [down]
      exacts [first.closing, first.opening]
    have up : c ≠ group.up := by
      rcases valid.counts with ⟨_, up⟩ | ⟨_, up⟩ <;> rw [up]
      exacts [first.opening, first.closing]
    rw [List.cons_append, closeGroup_plain group (fun closes => first.closing closes.2) down up
      first.quote, ih (fun d member => passes d (List.mem_cons_of_mem c member)), prepend_prepend,
      List.singleton_append]

end Depth

end Ztd.Filedat
