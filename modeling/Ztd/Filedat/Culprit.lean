import Ztd.Filedat.Placed
import Ztd.Filedat.Sizes

/-! The mark that is not closed: an exception of `_getstrval` is about an opening
quote, brace or bracket of its text. -/

namespace Ztd.Filedat
open Ztd.Lib

/-- The character opens a quote, a map or a list. -/
def Opens (c : Char) : Prop := c = '"' ∨ c = '\'' ∨ c = '{' ∨ c = '['

/-- What the parser says of an opening mark that nothing closes. -/
def unclosedMessages : List Text :=
  [doubleQuote.open_, singleQuote.open_, doubleQuote.openInside, singleQuote.openInside,
    message "Brace does not close"]

/-- The message is about an unclosed mark, which stands in the text. -/
structure Unclosed.Names (unclosed : Unclosed) (text : Text) : Prop where
  known : unclosed.message ∈ unclosedMessages
  opens : ∃ c rest, unclosed.text = c :: rest ∧ Opens c
  suffix : unclosed.text.IsSuffix text

variable {blanks : BlankRun} {delim altdelim : Char} {text : Text} {unclosed : Unclosed}

theorem Unclosed.Names.of_suffix {part : Text} (names : unclosed.Names part)
    (suffix : part.IsSuffix text) : unclosed.Names text :=
  { names with suffix := names.suffix.trans suffix }

theorem opens_of_quoteOf {c : Char} {quote : QuoteKind} (is : quoteOf c = some quote) : Opens c := by
  rcases quoteOf_cases is with ⟨rfl, _⟩ | ⟨rfl, _⟩
  · exact .inl rfl
  · exact .inr (.inl rfl)

theorem openQuote_names (throws : openQuote text = .error (.thrown unclosed)) :
    unclosed.Names text := by
  cases text with
  | nil => simp [openQuote] at throws
  | cons c rest =>
    rw [openQuote] at throws
    cases is : quoteOf c with
    | none => simp [is] at throws
    | some quote =>
      cases closes : closeQuote quote.mark rest with
      | some found => simp [is, closes] at throws
      | none =>
        obtain rfl := by simpa [is, closes] using throws
        refine ⟨?_, ⟨c, rest, rfl, opens_of_quoteOf is⟩, List.suffix_refl _⟩
        rcases quoteOf_cases is with ⟨_, rfl⟩ | ⟨_, rfl⟩ <;> simp [unclosedMessages]

theorem closeGroup_names (group : GroupKind) (counter : UInt32)
    (throws : closeGroup group counter text = .error (.thrown unclosed)) : unclosed.Names text := by
  induction counter, text using closeGroup.induct group with
  | case1 => simp [closeGroup] at throws
  | case2 counter c rest closes =>
    obtain ⟨rfl, rfl⟩ := closes
    simp [closeGroup_closing] at throws
  | case3 counter rest inner ih =>
    rw [closeGroup_down group inner] at throws
    exact (ih (prepend_eq_error throws)).of_suffix (List.suffix_cons _ _)
  | case4 counter rest inner other ih =>
    rw [closeGroup_up group inner other] at throws
    exact (ih (prepend_eq_error throws)).of_suffix (List.suffix_cons _ _)
  | case5 counter c rest inner down up noQuote ih =>
    rw [closeGroup_plain group inner down up noQuote] at throws
    exact (ih (prepend_eq_error throws)).of_suffix (List.suffix_cons _ _)
  | case6 counter c rest inner down up quote is open_ =>
    rw [closeGroup_quote_open group inner down up is open_] at throws
    cases throws
    refine ⟨?_, ⟨c, rest, rfl, opens_of_quoteOf is⟩, List.suffix_refl _⟩
    rcases quoteOf_cases is with ⟨_, rfl⟩ | ⟨_, rfl⟩ <;> simp [unclosedMessages]
  | case7 counter c rest inner down up quote is raw behind closes ih =>
    rw [closeGroup_quote group inner down up is closes] at throws
    refine (ih (prepend_eq_error throws)).of_suffix ⟨c :: raw ++ [quote.mark], ?_⟩
    rw [(closed_of_closeQuote closes).2]
    simp

theorem readGroup_names {group : GroupKind} {c : Char} {rest : Text} (opens : Opens c)
    (throws : readGroup group (c :: rest) = .error (.thrown unclosed)) :
    unclosed.Names (c :: rest) := by
  rw [readGroup, List.drop_one, List.tail_cons] at throws
  cases read : closeGroup group 0 rest with
  | error stop =>
    obtain rfl : stop = .thrown unclosed := by simpa [read] using throws
    exact (closeGroup_names group 0 read).of_suffix (List.suffix_cons c rest)
  | ok found =>
    obtain ⟨body, after⟩ := found
    cases after with
    | some after => simp [read] at throws
    | none =>
      obtain rfl := by simpa [read] using throws
      exact ⟨by simp [unclosedMessages], ⟨c, rest, rfl, opens⟩, List.suffix_refl _⟩

theorem scanBlanks_ne_thrown : scanBlanks blanks delim altdelim text ≠ .error (.thrown unclosed) := by
  by_cases delimited : delim = nul
  · simp [scanBlanks_whole blanks delimited]
  · rcases cases_gap delim altdelim text with blank | ⟨gap, c, rest, rfl, blank, stops⟩
    · rw [scanBlanks_end blanks delimited blank]
      split
      · simp
      · cases blanks <;> simp [Run.fault]
    · rw [scanBlanks_stop blanks delimited blank stops]
      split <;> simp

theorem scanBehind_names (throws : scanBehind blanks delim altdelim text = .error (.thrown unclosed)) :
    unclosed.Names text := by
  cases text with
  | nil => exact absurd throws scanBlanks_ne_thrown
  | cons c rest =>
    rw [scanBehind] at throws
    split at throws
    · rename_i brace
      exact readGroup_names (.inr (.inr (.inl brace))) (Run.map_eq_error.mp throws)
    · split at throws
      · rename_i bracket
        exact readGroup_names (.inr (.inr (.inr bracket))) (Run.map_eq_error.mp throws)
      · split at throws
        · split at throws <;> simp at throws
        · exact absurd throws scanBlanks_ne_thrown

theorem scanPiece_names (throws : scanPiece blanks delim altdelim text = .error (.thrown unclosed)) :
    unclosed.Names text := by
  rw [scanPiece] at throws
  cases opens : openQuote text with
  | error stop =>
    obtain rfl : stop = .thrown unclosed := by simpa [opens] using throws
    exact openQuote_names opens
  | ok found =>
    obtain ⟨val, behind⟩ := found
    obtain ⟨first, rfl⟩ := openQuote_split opens
    simp only [opens] at throws
    exact (scanBehind_names (prepend_eq_error throws)).of_suffix (List.suffix_append first behind)

/-- The rest of a round is an end of the text. -/
theorem scanPiece_suffix {val rest : Text}
    (found : scanPiece blanks delim altdelim text = .ok (val, .next rest)) : rest.IsSuffix text := by
  rw [scanPiece] at found
  cases opens : openQuote text with
  | error stop => simp [opens] at found
  | ok inner =>
    obtain ⟨quoted, behind⟩ := inner
    obtain ⟨first, rfl⟩ := openQuote_split opens
    simp only [opens] at found
    obtain ⟨copied, found, _⟩ := prepend_eq_ok found
    have split : behind = copied ++ rest := scanBehind_split found
    rw [split, ← List.append_assoc]
    exact List.suffix_append _ rest

theorem scan_names (throws : scan blanks delim altdelim text = .error (.thrown unclosed)) :
    unclosed.Names text := by
  induction size : text.length using Nat.strongRecOn generalizing text with
  | _ count ih =>
    subst size
    by_cases empty : text = []
    · simp [empty] at throws
    · cases found : scanPiece blanks delim altdelim text with
      | error stop =>
        rw [scan_error empty found] at throws
        cases throws
        exact scanPiece_names found
      | ok inner =>
        obtain ⟨val, reach⟩ := inner
        cases reach with
        | leave rest => simp [scan_leave empty found] at throws
        | next rest =>
          rw [scan_next empty found] at throws
          exact (ih _ (scanPiece_shorter empty found) (prepend_eq_error throws) rfl).of_suffix
            (scanPiece_suffix found)

/-- What `_getstrval` throws is about a mark behind the blanks of its text. -/
theorem read_names (throws : read blanks delim altdelim text = .error (.thrown unclosed)) :
    unclosed.Names text := by
  have scans : scan blanks delim altdelim (dropUnread text) = .error (.thrown unclosed) := by
    rw [read] at throws
    split at throws
    · simp at throws
    · exact throws
  exact (scan_names scans).of_suffix (List.dropWhile_suffix _)

end Ztd.Filedat
