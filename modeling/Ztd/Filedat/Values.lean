import Ztd.Filedat.Nesting
import Ztd.Filedat.Indices

/-! What `_getstrval` reads where a key or a value is written. -/

namespace Ztd.Filedat
open Ztd.Lib

/-- The delimiters `_getstrval` is called with: none is a bracket, a quote, a
space or a tab. -/
structure Delimits (delim altdelim : Char) : Prop where
  given : delim ≠ nul
  space : isDelim delim altdelim ' ' = false
  tab : isDelim delim altdelim '\t' = false
  inert : ∀ c, isDelim delim altdelim c = true → Inert c

theorem isDelim_iff {delim altdelim c : Char} :
    isDelim delim altdelim c = true ↔ c = delim ∨ c = altdelim := by
  simp [isDelim]

theorem delimits_key : Delimits '=' nul where
  given := by decide
  space := by decide
  tab := by decide
  inert c is := by rcases isDelim_iff.mp is with rfl | rfl <;> decide

theorem delimits_entry : Delimits ';' '\n' where
  given := by decide
  space := by decide
  tab := by decide
  inert c is := by rcases isDelim_iff.mp is with rfl | rfl <;> decide

theorem delimits_element : Delimits ',' ';' where
  given := by decide
  space := by decide
  tab := by decide
  inert c is := by rcases isDelim_iff.mp is with rfl | rfl <;> decide

section Trimming

theorem trimEnd_append {val gap : Text} (unread : ∀ c ∈ gap, isRead c = false) :
    trimEnd (val ++ gap) = trimEnd val := by
  have dropped : gap.reverse.dropWhile (!isRead ·) = [] := by
    rw [List.dropWhile_eq_nil_iff]
    intro c member
    simp [unread c (List.mem_reverse.mp member)]
  rw [trimEnd, trimEnd, List.reverse_append, List.dropWhile_append, dropped]
  simp

theorem trimmed_nil : Trimmed [] := rfl

theorem trimmed_append {c : Char} (val : Text) (readable : isRead c = true) :
    Trimmed (val ++ [c]) := trimEnd_append_read val readable

theorem dropUnread_append {gap rest : Text} {c : Char} (unread : ∀ d ∈ gap, isRead d = false)
    (readable : isRead c = true) : dropUnread (gap ++ c :: rest) = c :: rest := by
  rw [dropUnread, List.dropWhile_append_of_pos (by simpa using unread),
    List.dropWhile_cons_of_neg (by simp [readable])]

theorem dropUnread_blank {gap : Text} (unread : ∀ d ∈ gap, isRead d = false) :
    dropUnread gap = [] := by
  rw [dropUnread, List.dropWhile_eq_nil_iff]
  simpa using unread

end Trimming

section Scan
variable {blanks : BlankRun} {delim altdelim : Char} {rest : Text}

theorem isGap_blank (delimits : Delimits delim altdelim) {c : Char} (blank : c = ' ' ∨ c = '\t') :
    isGap delim altdelim c = true := by
  rcases blank with rfl | rfl
  · simp [isGap, delimits.space, isRead]
  · simp [isGap, delimits.tab, isRead]

/-- Text without quotes is taken over, with the blanks inside. -/
theorem scan_chars (delimits : Delimits delim altdelim) (text : Text)
    (chars : ∀ c ∈ text, (isRead c = true ∧ isMarkup c = false) ∨ c = ' ' ∨ c = '\t')
    (noDelim : ∀ c ∈ text, isDelim delim altdelim c = false)
    (ends : ∀ c ∈ text.getLast?, isRead c = true) :
    scan blanks delim altdelim (text ++ rest) =
      prepend text (scan blanks delim altdelim rest) := by
  induction size : text.length using Nat.strongRecOn generalizing text with
  | _ count ih =>
    subst size
    rcases cases_gap delim altdelim text with blank | ⟨gap, c, later, rfl, blank, stops⟩
    · cases last : text.getLast? with
      | none => simp [List.getLast?_eq_none_iff.mp last]
      | some c =>
        have gap := blank c (List.mem_of_getLast? last)
        simp [isGap, ends c last] at gap
    · have inside : c ∈ gap ++ c :: later := by simp
      have notDelim := noDelim c inside
      have readable : isRead c = true := by simpa [isGap, notDelim] using stops
      have plain : isMarkup c = false := by
        rcases chars c inside with ⟨_, plain⟩ | rfl | rfl
        · exact plain
        · simp [isRead] at readable
        · simp [isRead] at readable
      simp only [isMarkup, decide_eq_false_iff_not, List.mem_cons, List.not_mem_nil, or_false,
        not_or] at plain
      have within {d : Char} (member : d ∈ later) : d ∈ gap ++ c :: later := by simp [member]
      have lastLater : ∀ d ∈ later.getLast?, isRead d = true := by
        intro d last
        refine ends d ?_
        cases later with
        | nil => simp at last
        | cons e later =>
          rw [List.getLast?_append, List.getLast?_cons_cons]
          simp [Option.mem_def.mp last]
      rw [List.append_assoc, List.cons_append,
        scan_gap delimits.given blank stops notDelim,
        scan_char readable (by simp [quoteOf, plain]) plain.2.2.2.2.1 plain.2.2.2.2.2.2.1 notDelim,
        ih later.length (by simp only [List.length_append, List.length_cons]; omega) later
          (fun d member => chars d (within member)) (fun d member => noDelim d (within member))
          lastLater rfl, prepend_prepend, prepend_prepend]
      simp

theorem Word.getLast (word : Word) : ∀ c ∈ word.text.getLast?, isRead c = true := by
  obtain ⟨before, c, is, readable⟩ := word.ends
  simp [is, readable]

theorem scan_word (delimits : Delimits delim altdelim) (word : Word)
    (noDelim : ∀ c ∈ word.text, isDelim delim altdelim c = false) :
    scan blanks delim altdelim (word.text ++ rest) =
      prepend word.text (scan blanks delim altdelim rest) :=
  scan_chars delimits word.text word.chars noDelim word.getLast

theorem scan_quotation {quotation : Quotation} (closes : quotation.Closes)
    (follow : ∀ d ∈ rest.head?, quoteOf d = none) (safe : rest = [] → blanks = .checked) :
    scan blanks delim altdelim (quotation.text ++ rest) =
      prepend quotation.content (scan blanks delim altdelim rest) := by
  obtain ⟨is, valid⟩ := quotation.kind_spec
  rw [Quotation.text, List.cons_append, List.cons_append, List.append_assoc, List.singleton_append,
    scan_quote is (Quotation.closeQuote closes rest) follow safe, unescape_escape valid]

theorem scan_key (key : Key) (follow : ∀ d ∈ rest.head?, quoteOf d = none) (more : rest ≠ []) :
    scan blanks '=' nul (key.text ++ rest) = prepend key.content (scan blanks '=' nul rest) := by
  cases key with
  | plain word =>
    refine scan_word delimits_key word (fun c member => ?_)
    have notDelim : ¬ (c = '=' ∨ c = nul) := by
      rcases word.chars c member with ⟨readable, plain⟩ | rfl | rfl
      · rintro (rfl | rfl)
        · simp [isMarkup] at plain
        · simp [isRead, nul] at readable
      · decide
      · decide
    simpa [isDelim] using notDelim
  | quoted quotation closes begins => exact scan_quotation closes follow (fun end_ => absurd end_ more)

/-- A value adds its content, if no quote follows. -/
theorem scan_value (delimits : Delimits delim altdelim)
    (words : ∀ c, isRead c = true → isMarkup c = false → c ≠ ',' → isDelim delim altdelim c = false)
    (value : Value) (closes : value.Closes) (room : value.stripped.length < 2 ^ 32)
    (follow : ∀ d ∈ rest.head?, quoteOf d = none) (safe : rest = [] → blanks = .checked) :
    scan blanks delim altdelim (value.stripped ++ rest) =
      prepend value.content (scan blanks delim altdelim rest) := by
  have group {kind : GroupKind} (known : kind.Known) {inner : Text} (neutral : Neutral kind inner)
      (is : value.stripped = kind.opening :: (inner ++ [kind.closing])) :
      scan blanks delim altdelim (value.stripped ++ rest) =
        prepend value.stripped (scan blanks delim altdelim rest) := by
    rw [is] at room ⊢
    simp only [List.length_cons, List.length_append, List.length_nil] at room
    have found := readGroup_neutral neutral (by omega) rest
    rw [List.cons_append] at found ⊢
    exact scan_group known found
  cases value with
  | plain word noComma =>
    refine scan_word delimits word (fun c member => ?_)
    rcases word.chars c member with ⟨readable, plain⟩ | rfl | rfl
    · exact words c readable plain (fun same => noComma (same ▸ member))
    · exact delimits.space
    · exact delimits.tab
  | quoted quotation => exact scan_quotation closes follow safe
  | map first entries =>
    exact group (.inl rfl)
      (.append (Layout.neutral (.inl rfl) first) (Entries.neutral (.inl rfl) entries closes)) rfl
  | emptyList first => exact group (.inr rfl) (Layout.neutral (.inr rfl) first) rfl
  | list first elements =>
    exact group (.inr rfl)
      (.append (Layout.neutral (.inr rfl) first) (Elements.neutral (.inr rfl) elements closes)) rfl

end Scan

theorem isRead_mark (quotation : Quotation) : isRead quotation.kind.mark = true := by
  rw [Quotation.kind]
  split <;> rfl

theorem Word.begins_text (word : Word) (rest : Text) :
    ∃ c later, word.text ++ rest = c :: later ∧ isRead c = true ∧ c ≠ '=' := by
  obtain ⟨c, later, is, readable⟩ := word.begins
  refine ⟨c, later ++ rest, by rw [is, List.cons_append], readable, ?_⟩
  rintro rfl
  rcases word.chars '=' (by simp [is]) with ⟨_, plain⟩ | same | same
  · simp [isMarkup] at plain
  · simp at same
  · simp at same

/-- Keys begin readable, and not with the sign behind them. -/
theorem Key.begins_text (key : Key) (rest : Text) :
    ∃ c later, key.text ++ rest = c :: later ∧ isRead c = true ∧ c ≠ '=' := by
  cases key with
  | plain word => exact word.begins_text rest
  | quoted quotation closes begins =>
    refine ⟨_, _, rfl, isRead_mark quotation, ?_⟩
    intro same
    have is := quotation.kind_spec.1
    rw [same] at is
    simp [quoteOf] at is

theorem Value.begins_text (value : Value) (rest : Text) :
    ∃ c later, value.stripped ++ rest = c :: later ∧ isRead c = true := by
  cases value with
  | plain word noComma =>
    obtain ⟨c, later, is, readable, _⟩ := word.begins_text rest
    exact ⟨c, later, is, readable⟩
  | quoted quotation => exact ⟨_, _, rfl, isRead_mark quotation⟩
  | map first entries => exact ⟨_, _, rfl, rfl⟩
  | emptyList first => exact ⟨_, _, rfl, rfl⟩
  | list first elements => exact ⟨_, _, rfl, rfl⟩

theorem Value.Good.trimmed {atEnd : Prop} {value : Value} (good : value.Good atEnd)
    (here : atEnd) : Trimmed value.content := by
  cases value with
  | plain word noComma =>
    obtain ⟨before, c, is, readable⟩ := word.ends
    change Trimmed word.text
    rw [is]
    exact trimmed_append before readable
  | quoted quotation => exact good.2.2 here
  | map first entries => exact trimmed_append ('{' :: _) rfl
  | emptyList first => exact trimmed_append ('[' :: _) rfl
  | list first elements => exact trimmed_append ('[' :: _) rfl

/-- Text behind a value that ends it and leaves a rest. -/
structure Follows (delim altdelim : Char) (following rest : Text) : Prop where
  head : ∀ d ∈ following.head?, quoteOf d = none
  scans : ∃ kept, scan .checked delim altdelim following = .ok (kept, rest) ∧
    (∀ c ∈ kept, isRead c = false) ∧ (rest ≠ [] → kept = [])

section Follows
variable {delim altdelim c : Char} {gap rest : Text}

theorem quoteOf_head (blank : ∀ d ∈ gap, isRead d = false) (noQuote : quoteOf c = none) :
    ∀ d ∈ (gap ++ c :: rest).head?, quoteOf d = none := by
  cases gap with
  | nil => simpa using noQuote
  | cons e gap => simpa using quoteOf_unread (blank e (by simp))

theorem isRead_gap (blank : ∀ d ∈ gap, isGap delim altdelim d = true) :
    ∀ d ∈ gap, isRead d = false := by
  intro d member
  have gap := blank d member
  simp only [isGap, Bool.and_eq_true, Bool.not_eq_true'] at gap
  exact gap.1

theorem Follows.mark (delimits : Delimits delim altdelim)
    (blank : ∀ d ∈ gap, isGap delim altdelim d = true) (ends : isDelim delim altdelim c = true) :
    Follows delim altdelim (gap ++ c :: rest) rest := by
  have inert := delimits.inert c ends
  have noQuote := quoteOf_inert inert
  simp only [Inert, List.mem_cons, List.not_mem_nil, or_false, not_or] at inert
  exact ⟨quoteOf_head (isRead_gap blank) noQuote,
    [], scan_delim delimits.given blank ends noQuote inert.1 inert.2.2.1 rest, by simp, by simp⟩

theorem Follows.ending (delimits : Delimits delim altdelim)
    (blank : ∀ d ∈ gap, isGap delim altdelim d = true) : Follows delim altdelim gap [] := by
  refine ⟨?_, ?_⟩
  · intro d first
    exact quoteOf_unread (isRead_gap blank d (List.mem_of_mem_head? first))
  · obtain ⟨kept, scans, unread⟩ := scan_end delimits.given blank
    exact ⟨kept, scans, unread, fun more => absurd rfl more⟩

/-- Blanks behind the last value leave blanks, if anything. -/
theorem Follows.blanks (delimits : Delimits delim altdelim)
    (unread : ∀ d ∈ gap, isRead d = false) :
    ∃ rest, Follows delim altdelim gap rest ∧ (∀ d ∈ rest, isRead d = false) ∧
      rest.length ≤ gap.length := by
  rcases cases_gap delim altdelim gap with blank | ⟨before, c, later, rfl, blank, stops⟩
  · exact ⟨[], .ending delimits blank, by simp, by simp⟩
  · have ends : isDelim delim altdelim c = true := by
      have blankHere := unread c (by simp)
      simpa [isGap, blankHere] using stops
    refine ⟨later, .mark delimits blank ends, fun d member => unread d (by simp [member]), ?_⟩
    simp only [List.length_append, List.length_cons]
    omega

end Follows

/-- A value is read as its content, without the blanks at its end if nothing is
left behind it. -/
theorem read_value {delim altdelim : Char} (delimits : Delimits delim altdelim)
    (words : ∀ c, isRead c = true → isMarkup c = false → c ≠ ',' → isDelim delim altdelim c = false)
    {pre : Text} (blank : ∀ c ∈ pre, isRead c = false) (value : Value) (closes : value.Closes)
    (room : value.stripped.length < 2 ^ 32) {following rest : Text}
    (follows : Follows delim altdelim following rest) :
    read .checked delim altdelim (pre ++ (value.stripped ++ following)) =
      .ok (if rest = [] then trimEnd value.content else value.content, rest) := by
  obtain ⟨kept, scans, unread, nothing⟩ := follows.scans
  obtain ⟨c, later, is, readable⟩ := value.begins_text following
  have start : dropUnread (pre ++ (value.stripped ++ following)) = value.stripped ++ following := by
    rw [is, dropUnread_append blank readable]
  rw [read, start, scan_value delimits words value closes room follows.head (fun _ => rfl), scans,
    prepend_ok]
  cases rest with
  | nil => simp [trimEnd_append unread]
  | cons d rest => simp [nothing (List.cons_ne_nil d rest)]

/-- A good value is read as its content. -/
theorem read_good {delim altdelim : Char} (delimits : Delimits delim altdelim)
    (words : ∀ c, isRead c = true → isMarkup c = false → c ≠ ',' → isDelim delim altdelim c = false)
    {pre : Text} (blank : ∀ c ∈ pre, isRead c = false) (value : Value) {atEnd : Prop}
    (good : value.Good atEnd) (room : value.stripped.length < 2 ^ 32) {following rest : Text}
    (follows : Follows delim altdelim following rest) (ends : rest = [] → atEnd) :
    read .checked delim altdelim (pre ++ (value.stripped ++ following)) =
      .ok (value.content, rest) := by
  rw [read_value delimits words blank value good.closes room follows]
  split
  · rename_i empty
    rw [good.trimmed (ends empty)]
  · rfl

/-- A key is read up to the equal sign. -/
theorem read_key (blanks : BlankRun) {pre gap : Text} (blank : ∀ c ∈ pre, isRead c = false)
    (key : Key) (unread : ∀ c ∈ gap, isGap '=' nul c = true) {rest : Text} (more : rest ≠ []) :
    read blanks '=' nul (pre ++ (key.text ++ (gap ++ '=' :: rest))) = .ok (key.content, rest) := by
  obtain ⟨c, later, is, readable, _⟩ := key.begins_text (gap ++ '=' :: rest)
  have start : dropUnread (pre ++ (key.text ++ (gap ++ '=' :: rest))) =
      key.text ++ (gap ++ '=' :: rest) := by rw [is, dropUnread_append blank readable]
  have scans : scan blanks '=' nul (gap ++ '=' :: rest) = .ok ([], rest) :=
    scan_delim (by decide) unread rfl rfl (by decide) (by decide) rest
  rw [read, start, scan_key key (quoteOf_head (isRead_gap unread) rfl) (by simp), scans, prepend_ok]
  cases rest with
  | nil => exact absurd rfl more
  | cons d rest => simp

end Ztd.Filedat
