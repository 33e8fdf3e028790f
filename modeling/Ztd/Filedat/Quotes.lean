import Ztd.Filedat.Comments
import Ztd.Filedat.Printer

/-! Quotes as texts: what a quote encloses, where it closes, and that every
quote loop of the parser and the escaping of the printer agree on it. -/

namespace Ztd.Filedat
open Ztd.Lib

/-- What stands up to the closing mark, and the text behind that mark. -/
def closeQuote (mark : Char) : Text → Option (Text × Text)
  | [] => none
  | [c] => if c = mark then some ([], []) else none
  | c :: d :: rest =>
    if c = mark then some ([], d :: rest)
    else if c = '\\' ∧ d = mark then
      (closeQuote mark rest).map fun found => (c :: d :: found.1, found.2)
    else (closeQuote mark (d :: rest)).map fun found => (c :: found.1, found.2)

/-- Drop the backslash in front of every mark. -/
def unescape (mark : Char) : Text → Text
  | [] => []
  | [c] => [c]
  | c :: d :: rest =>
    if c = '\\' ∧ d = mark then d :: unescape mark rest else c :: unescape mark (d :: rest)

/-- A text that a mark behind it closes: every mark inside has its backslash,
and no backslash is left for the closing one. -/
inductive Closed (mark : Char) : Text → Prop where
  | nil : Closed mark []
  | escaped {raw : Text} (rest : Closed mark raw) : Closed mark ('\\' :: mark :: raw)
  | plain {c : Char} {raw : Text} (other : c ≠ mark) (last : c = '\\' → raw ≠ [])
      (rest : Closed mark raw) : Closed mark (c :: raw)

/-- Neither kind of quote is a backslash. -/
structure IsMark (mark : Char) : Prop where
  notBackslash : mark ≠ '\\'

theorem isMark_double : IsMark doubleQuote.mark := ⟨by decide⟩

theorem isMark_single : IsMark singleQuote.mark := ⟨by decide⟩

variable {mark : Char}

theorem Closed.head_ne (valid : IsMark mark) {raw : Text} (closed : Closed mark raw) :
    raw.head? ≠ some mark := by
  cases closed with
  | nil => simp
  | escaped => simpa using Ne.symm valid.notBackslash
  | plain other => simpa using other

theorem closeQuote_closed (valid : IsMark mark) {raw : Text} (closed : Closed mark raw)
    (after : Text) : closeQuote mark (raw ++ mark :: after) = some (raw, after) := by
  induction closed with
  | nil => cases after <;> simp [closeQuote]
  | escaped rest ih => simp [closeQuote, Ne.symm valid.notBackslash, ih]
  | @plain c raw other last rest ih =>
    cases raw with
    | nil =>
      have notBackslash : c ≠ '\\' := fun same => last same rfl
      cases after <;> simp [closeQuote, other, notBackslash]
    | cons d raw =>
      have different : d ≠ mark := by simpa using rest.head_ne valid
      have closes : closeQuote mark (d :: (raw ++ mark :: after)) = some (d :: raw, after) := ih
      simp [closeQuote, other, different, closes]

theorem closed_of_closeQuote {text raw after : Text}
    (found : closeQuote mark text = some (raw, after)) :
    Closed mark raw ∧ text = raw ++ mark :: after := by
  induction text using closeQuote.induct mark generalizing raw with
  | case1 => simp [closeQuote] at found
  | case2 =>
    simp only [closeQuote, ↓reduceIte, Option.some.injEq, Prod.mk.injEq] at found
    obtain ⟨rfl, rfl⟩ := found
    exact ⟨.nil, rfl⟩
  | case3 c other => simp [closeQuote, other] at found
  | case4 d rest =>
    simp only [closeQuote, ↓reduceIte, Option.some.injEq, Prod.mk.injEq] at found
    obtain ⟨rfl, rfl⟩ := found
    exact ⟨.nil, rfl⟩
  | case5 c d rest other escape ih =>
    rw [closeQuote, if_neg other, if_pos escape, Option.map_eq_some_iff] at found
    obtain ⟨⟨inner, behind⟩, found, same⟩ := found
    obtain ⟨rfl, rfl⟩ := Prod.mk.inj same
    obtain ⟨closed, rfl⟩ := ih found
    obtain ⟨rfl, rfl⟩ := escape
    exact ⟨.escaped closed, rfl⟩
  | case6 c d rest other plain ih =>
    rw [closeQuote, if_neg other, if_neg plain, Option.map_eq_some_iff] at found
    obtain ⟨⟨inner, behind⟩, found, same⟩ := found
    obtain ⟨rfl, rfl⟩ := Prod.mk.inj same
    obtain ⟨closed, split⟩ := ih found
    refine ⟨.plain other ?_ closed, by rw [split, List.cons_append]⟩
    rintro rfl rfl
    rw [List.nil_append, List.cons.injEq] at split
    exact plain ⟨rfl, split.1⟩

/-- Behind the closing quote there is less text than behind the opening one. -/
theorem closeQuote_length {text raw after : Text}
    (found : closeQuote mark text = some (raw, after)) : after.length < text.length := by
  obtain ⟨_, rfl⟩ := closed_of_closeQuote found
  simp only [List.length_append, List.length_cons]
  omega

theorem head_escape_ne (valid : IsMark mark) (text : Text) :
    (escape mark text).head? ≠ some mark := by
  cases text with
  | nil => simp [escape]
  | cons c text =>
    rw [escape]
    split
    · simpa using Ne.symm valid.notBackslash
    · simpa

theorem unescape_cons {c : Char} {text : Text} (plain : c = '\\' → text.head? ≠ some mark) :
    unescape mark (c :: text) = c :: unescape mark text := by
  cases text with
  | nil => rfl
  | cons d text =>
    rw [unescape, if_neg]
    rintro ⟨backslash, same⟩
    exact plain backslash (by simp [same])

theorem unescape_escape (valid : IsMark mark) (text : Text) :
    unescape mark (escape mark text) = text := by
  induction text with
  | nil => rfl
  | cons c text ih =>
    rw [escape]
    split
    · rename_i same
      simp [unescape, same, ih]
    · rw [unescape_cons (fun _ => head_escape_ne valid text), ih]

theorem escape_eq_nil_iff {text : Text} : escape mark text = [] ↔ text = [] := by
  cases text with
  | nil => simp [escape]
  | cons c text => by_cases same : c = mark <;> simp [escape, same]

/-- What the printer puts between quotes closes, unless it ends in a backslash. -/
theorem closed_escape (valid : IsMark mark) {text : Text} (ends : text.getLast? ≠ some '\\') :
    Closed mark (escape mark text) := by
  induction text with
  | nil => exact .nil
  | cons c text ih =>
    have endsRest : text.getLast? ≠ some '\\' := by
      intro backslash
      cases text with
      | nil => simp at backslash
      | cons d text => exact ends (by rw [List.getLast?_cons_cons, backslash])
    rw [escape]
    split
    · rename_i same
      subst same
      exact .escaped (ih endsRest)
    · rename_i other
      refine .plain other ?_ (ih endsRest)
      rintro rfl empty
      rw [escape_eq_nil_iff] at empty
      exact ends (by simp [empty])

/-- What a quote loop adds to the value. -/
def quoted (mark : Char) (keep : Bool) (raw : Text) : Text :=
  if keep then raw else unescape mark raw

theorem quoted_cons {keep : Bool} {c : Char} {raw : Text}
    (plain : c = '\\' → raw.head? ≠ some mark) :
    quoted mark keep (c :: raw) = c :: quoted mark keep raw := by
  cases keep
  · exact unescape_cons plain
  · rfl

theorem quoted_escaped (keep : Bool) (raw : Text) :
    quoted mark keep ('\\' :: mark :: raw) =
      (if keep then ['\\'] else []) ++ mark :: quoted mark keep raw := by
  cases keep <;> simp [quoted, unescape]

section Loop
variable {str text : Text} {i : Nat} {c d : Char} (keep : Bool) (fuel : Nat) (val : Text)

theorem quoteLoop_end (at_ : At str i []) :
    quoteLoop mark keep str (fuel + 1) i val = .ok (i, val) := by
  rw [quoteLoop, if_neg (by simp [at_.eq_length])]
  rfl

theorem quoteLoop_mark (at_ : At str i (mark :: text)) :
    quoteLoop mark keep str (fuel + 1) i val = .ok (i, val) := by
  simp [quoteLoop, at_.lt, at_.charAt, pure, Except.pure]

theorem quoteLoop_escaped (valid : IsMark mark) (at_ : At str i ('\\' :: mark :: text)) :
    quoteLoop mark keep str (fuel + 1) i val =
      quoteLoop mark keep str fuel (i + 2) (val ++ ((if keep then ['\\'] else []) ++ [mark])) := by
  cases keep <;>
    simp [quoteLoop, at_.lt, at_.charAt, at_.next.lt, at_.next.charAt, Ne.symm valid.notBackslash,
      pure, Except.pure]

theorem quoteLoop_plain (other : c ≠ mark) (plain : c = '\\' → text.head? ≠ some mark)
    (at_ : At str i (c :: text)) :
    quoteLoop mark keep str (fuel + 1) i val =
      quoteLoop mark keep str fuel (i + 1) (val ++ [c]) := by
  by_cases ahead : i + 1 < str.length ∧ c = '\\'
  · obtain ⟨inside, rfl⟩ := ahead
    cases text with
    | nil =>
      have size := at_.next.eq_length
      omega
    | cons d text =>
      have different : d ≠ mark := by simpa using plain rfl
      simp [quoteLoop, at_.lt, at_.charAt, at_.next.charAt, other, different, inside, pure,
        Except.pure]
  · simp [quoteLoop, at_.lt, at_.charAt, other, ahead, pure, Except.pure]

end Loop

theorem closeQuote_plain {c : Char} {text : Text} (other : c ≠ mark)
    (plain : c = '\\' → text.head? ≠ some mark) :
    closeQuote mark (c :: text) =
      (closeQuote mark text).map fun found => (c :: found.1, found.2) := by
  cases text with
  | nil => simp [closeQuote, other]
  | cons d text =>
    rw [closeQuote, if_neg other, if_neg]
    rintro ⟨backslash, same⟩
    exact plain backslash (by simp [same])

theorem closeQuote_escaped (valid : IsMark mark) (text : Text) :
    closeQuote mark ('\\' :: mark :: text) =
      (closeQuote mark text).map fun found => ('\\' :: mark :: found.1, found.2) := by
  rw [closeQuote, if_neg (Ne.symm valid.notBackslash), if_pos ⟨rfl, rfl⟩]

theorem closeQuote_mark (text : Text) : closeQuote mark (mark :: text) = some ([], text) := by
  cases text <;> simp [closeQuote]

/-- A text begins with the mark, or with an escaped mark, or plainly. -/
theorem cases_quote (mark : Char) (text : Text) :
    text = [] ∨ (∃ rest, text = mark :: rest) ∨ (∃ rest, text = '\\' :: mark :: rest) ∨
      ∃ c rest, text = c :: rest ∧ c ≠ mark ∧ (c = '\\' → rest.head? ≠ some mark) := by
  cases text with
  | nil => exact .inl rfl
  | cons c rest =>
    by_cases same : c = mark
    · exact .inr (.inl ⟨rest, by rw [same]⟩)
    · by_cases escape : c = '\\' ∧ rest.head? = some mark
      · obtain ⟨rfl, head⟩ := escape
        cases rest with
        | nil => simp at head
        | cons d rest =>
          obtain rfl : d = mark := by simpa using head
          exact .inr (.inr (.inl ⟨rest, rfl⟩))
      · exact .inr (.inr (.inr ⟨c, rest, rfl, same, fun backslash head =>
          escape ⟨backslash, head⟩⟩))

/-- Where a quote loop stops and what it has added: on the closing quote, or at
the end of the string. -/
def loopEnd (mark : Char) (keep : Bool) (i : Nat) (val text : Text) : Nat × Text :=
  match closeQuote mark text with
  | some (raw, _) => (i + raw.length, val ++ quoted mark keep raw)
  | none => (i + text.length, val ++ quoted mark keep text)

theorem quoteLoop_eq (valid : IsMark mark) (keep : Bool) {str text : Text} {i : Nat}
    (at_ : At str i text) {fuel : Nat} (enough : text.length < fuel) (val : Text) :
    quoteLoop mark keep str fuel i val = .ok (loopEnd mark keep i val text) := by
  induction fuel generalizing text i val with
  | zero => omega
  | succ fuel ih =>
    rcases cases_quote mark text with rfl | ⟨rest, rfl⟩ | ⟨rest, rfl⟩ | ⟨c, rest, rfl, other, plain⟩
    · simp [quoteLoop_end keep fuel val at_, loopEnd, closeQuote, quoted, unescape]
    · simp [quoteLoop_mark keep fuel val at_, loopEnd, closeQuote_mark, quoted, unescape]
    · rw [quoteLoop_escaped keep fuel val valid at_, ih at_.next.next (by
        simp only [List.length_cons] at enough; omega)]
      cases found : closeQuote mark rest <;>
        simp [loopEnd, closeQuote_escaped valid, found, quoted_escaped, Nat.add_comm,
          Nat.add_left_comm]
    · rw [quoteLoop_plain keep fuel val other plain at_, ih at_.next (by
        simp only [List.length_cons] at enough; omega)]
      cases found : closeQuote mark rest with
      | none =>
        simp [loopEnd, closeQuote_plain other plain, found, quoted_cons plain, Nat.add_comm,
          Nat.add_left_comm]
      | some closed =>
        obtain ⟨raw, after⟩ := closed
        obtain ⟨inside, rfl⟩ := closed_of_closeQuote found
        have plainRaw : c = '\\' → raw.head? ≠ some mark := fun _ => inside.head_ne valid
        simp [loopEnd, closeQuote_plain other plain, found, quoted_cons plainRaw, Nat.add_comm,
          Nat.add_left_comm]

end Ztd.Filedat
