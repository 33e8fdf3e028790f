import Ztd.Filedat.Grammar

/-! How scanning goes over the parts of a document, whatever follows them. -/

namespace Ztd.Filedat
open Ztd.Lib

section Scan
variable {blanks : BlankRun} {delim altdelim : Char} {c : Char} {gap rest : Text}

theorem openQuote_plain (noQuote : quoteOf c = none) (rest : Text) :
    openQuote (c :: rest) = .ok ([], c :: rest) := by
  simp [openQuote, noQuote]

theorem scanPiece_plain (noQuote : quoteOf c = none) (rest : Text) :
    scanPiece blanks delim altdelim (c :: rest) = scanBehind blanks delim altdelim (c :: rest) := by
  simp [scanPiece, openQuote_plain noQuote]

theorem quoteOf_unread (unread : isRead c = false) : quoteOf c = none := by
  cases is : quoteOf c with
  | none => rfl
  | some quote => rcases quoteOf_cases is with ⟨rfl, _⟩ | ⟨rfl, _⟩ <;> simp [isRead] at unread

theorem scanPiece_unread (unread : isRead c = false) (rest : Text) :
    scanPiece blanks delim altdelim (c :: rest) = scanBlanks blanks delim altdelim (c :: rest) := by
  have notBrace : c ≠ '{' := by rintro rfl; simp [isRead] at unread
  have notBracket : c ≠ '[' := by rintro rfl; simp [isRead] at unread
  rw [scanPiece_plain (quoteOf_unread unread), scanBehind, if_neg notBrace, if_neg notBracket,
    if_neg (by simp [unread])]

/-- A readable character without a meaning of its own belongs to the value. -/
theorem scan_char (readable : isRead c = true) (noQuote : quoteOf c = none) (notBrace : c ≠ '{')
    (notBracket : c ≠ '[') (notDelim : isDelim delim altdelim c = false) (rest : Text) :
    scan blanks delim altdelim (c :: rest) = prepend [c] (scan blanks delim altdelim rest) := by
  refine scan_next (List.cons_ne_nil c rest) ?_
  simp [scanPiece_plain noQuote, scanBehind, notBrace, notBracket, readable, notDelim]

/-- Blanks in front of something readable belong to the value. -/
theorem scan_gap (delimited : delim ≠ nul) (blank : ∀ d ∈ gap, isGap delim altdelim d = true)
    (stops : isGap delim altdelim c = false) (notDelim : isDelim delim altdelim c = false)
    (rest : Text) :
    scan blanks delim altdelim (gap ++ c :: rest) =
      prepend gap (scan blanks delim altdelim (c :: rest)) := by
  cases gap with
  | nil => simp
  | cons d gap =>
    have unread : isRead d = false := by
      have gap := blank d (by simp)
      simp only [isGap, Bool.and_eq_true, Bool.not_eq_true'] at gap
      exact gap.1
    refine scan_next (by simp) ?_
    rw [List.cons_append, scanPiece_unread unread, ← List.cons_append,
      scanBlanks_stop blanks delimited blank stops, if_neg (by simp [notDelim])]

/-- A delimiter ends the value, and the blanks in front of it are dropped. -/
theorem scan_delim (delimited : delim ≠ nul) (blank : ∀ d ∈ gap, isGap delim altdelim d = true)
    (ends : isDelim delim altdelim c = true) (noQuote : quoteOf c = none) (notBrace : c ≠ '{')
    (notBracket : c ≠ '[') (rest : Text) :
    scan blanks delim altdelim (gap ++ c :: rest) = .ok ([], rest) := by
  refine scan_leave (by simp) ?_
  have stops : isGap delim altdelim c = false := by simp [isGap, ends]
  cases gap with
  | nil =>
    cases readable : isRead c with
    | true => simp [scanPiece_plain noQuote, scanBehind, notBrace, notBracket, readable, ends]
    | false =>
      rw [List.nil_append, scanPiece_unread readable,
        ← List.nil_append (c :: rest), scanBlanks_stop blanks delimited blank stops, if_pos ends]
  | cons d gap =>
    have unread : isRead d = false := by
      have gap := blank d (by simp)
      simp only [isGap, Bool.and_eq_true, Bool.not_eq_true'] at gap
      exact gap.1
    rw [List.cons_append, scanPiece_unread unread, ← List.cons_append,
      scanBlanks_stop blanks delimited blank stops, if_pos ends]

/-- Blanks up to the end of the text end the value with it. -/
theorem scan_end (delimited : delim ≠ nul) (blank : ∀ d ∈ gap, isGap delim altdelim d = true) :
    ∃ kept, scan .checked delim altdelim gap = .ok (kept, []) ∧ ∀ d ∈ kept, isRead d = false := by
  cases gap with
  | nil => exact ⟨[], scan_nil, by simp⟩
  | cons d gap =>
    have unread : ∀ d' ∈ d :: gap, isRead d' = false := by
      intro d' member
      have gap := blank d' member
      simp only [isGap, Bool.and_eq_true, Bool.not_eq_true'] at gap
      exact gap.1
    have piece := scanBlanks_end .checked delimited blank
    rw [← scanPiece_unread (unread d (by simp))] at piece
    by_cases terminates : isDelim delim altdelim nul = true
    · rw [if_pos terminates] at piece
      exact ⟨[], scan_leave (by simp) piece, by simp⟩
    · rw [if_neg terminates] at piece
      exact ⟨d :: gap, by simp [scan_next (by simp) piece], unread⟩

/-- A quote adds what it encloses; no quote may follow directly. -/
theorem scan_quote {quote : QuoteKind} (is : quoteOf c = some quote) {raw after : Text}
    (closes : closeQuote quote.mark rest = some (raw, after))
    (follow : ∀ d ∈ after.head?, quoteOf d = none) (safe : after = [] → blanks = .checked) :
    scan blanks delim altdelim (c :: rest) =
      prepend (unescape quote.mark raw) (scan blanks delim altdelim after) := by
  have opened : openQuote (c :: rest) = .ok (unescape quote.mark raw, after) := by
    simp [openQuote, is, closes]
  have piece : scanPiece blanks delim altdelim (c :: rest) =
      prepend (unescape quote.mark raw) (scanBehind blanks delim altdelim after) := by
    simp [scanPiece, opened]
  cases after with
  | nil =>
    rw [safe rfl] at piece ⊢
    by_cases whole : delim = nul
    · rw [scanBehind, scanBlanks_whole _ whole] at piece
      simp [scan_leave (List.cons_ne_nil c rest) piece]
    · rw [scanBehind, scanBlanks_end _ whole (by simp)] at piece
      split at piece
      · simp [scan_leave (List.cons_ne_nil c rest) piece]
      · simp [scan_next (List.cons_ne_nil c rest) piece]
  | cons d after =>
    rw [← scanPiece_plain (follow d (by simp))] at piece
    cases found : scanPiece blanks delim altdelim (d :: after) with
    | error stop =>
      rw [found] at piece
      rw [scan_error (List.cons_ne_nil c rest) piece, scan_error (List.cons_ne_nil d after) found]
      rfl
    | ok inner =>
      obtain ⟨val, reach⟩ := inner
      rw [found] at piece
      cases reach with
      | next behind =>
        rw [scan_next (List.cons_ne_nil c rest) piece,
          scan_next (List.cons_ne_nil d after) found, prepend_prepend]
      | leave behind =>
        rw [scan_leave (List.cons_ne_nil c rest) piece,
          scan_leave (List.cons_ne_nil d after) found, prepend_ok]

/-- A group is copied. -/
theorem scan_group {group : GroupKind} (known : group = brace ∨ group = bracket)
    {copied after : Text} (found : readGroup group (group.opening :: rest) = .ok (copied, after)) :
    scan blanks delim altdelim (group.opening :: rest) =
      prepend copied (scan blanks delim altdelim after) := by
  refine scan_next (List.cons_ne_nil _ _) ?_
  have noQuote : quoteOf group.opening = none := by rcases known with rfl | rfl <;> rfl
  rw [scanPiece_plain noQuote]
  rcases known with rfl | rfl
  · change (readGroup brace (brace.opening :: rest)).map _ = _
    rw [found]
    rfl
  · change (readGroup bracket (bracket.opening :: rest)).map _ = _
    rw [found]
    rfl

theorem scan_group_error {group : GroupKind} (known : group = brace ∨ group = bracket)
    {stop : Stop Unclosed} (found : readGroup group (group.opening :: rest) = .error stop) :
    scan blanks delim altdelim (group.opening :: rest) = .error stop := by
  refine scan_error (List.cons_ne_nil _ _) ?_
  have noQuote : quoteOf group.opening = none := by rcases known with rfl | rfl <;> rfl
  rw [scanPiece_plain noQuote]
  rcases known with rfl | rfl
  · change (readGroup brace (brace.opening :: rest)).map _ = _
    rw [found]
    rfl
  · change (readGroup bracket (bracket.opening :: rest)).map _ = _
    rw [found]
    rfl

end Scan

end Ztd.Filedat
