import Ztd.Filedat.Brackets
import Mathlib.Data.List.TakeWhile

/-! What `_getstrval` makes of a text, without indices: the value it reads and
the text it leaves. The loops over indices are proved to compute it. -/

namespace Ztd.Filedat
open Ztd.Lib

/-- What a quote at the beginning of the text adds to a value. -/
def openQuote : Text → Run Unclosed (Text × Text)
  | [] => .ok ([], [])
  | c :: rest =>
    match quoteOf c with
    | none => .ok ([], c :: rest)
    | some quote =>
      match closeQuote quote.mark rest with
      | none => .error (.thrown ⟨quote.open_, c :: rest⟩)
      | some (raw, after) => .ok (unescape quote.mark raw, after)

/-- Where a round leaves the text: to go on, or at the end of the value. -/
inductive Reach where
  | next (rest : Text)
  | leave (rest : Text)
deriving DecidableEq, Repr

section Scanning
variable (blanks : BlankRun) (delim altdelim : Char)

/-- Blanks in front of a delimiter are dropped, other blanks belong to the value. -/
def scanBlanks (text : Text) : Run Unclosed (Text × Reach) :=
  if delim = nul then .ok ([], .leave text)
  else
    match text.dropWhile (isGap delim altdelim) with
    | d :: after =>
      if isDelim delim altdelim d then .ok ([], .leave after)
      else .ok (text.takeWhile (isGap delim altdelim), .next (d :: after))
    | [] =>
      -- behind the text stands the terminator
      if isDelim delim altdelim nul then .ok ([], .leave [])
      else
        match blanks with
        | .unchecked => Run.fault
        | .checked => .ok (text, .next [])

/-- What follows the quote a round may begin with. -/
def scanBehind (text : Text) : Run Unclosed (Text × Reach) :=
  match text with
  | [] => scanBlanks blanks delim altdelim []
  | c :: rest =>
    if c = '{' then (readGroup brace (c :: rest)).map fun found => (found.1, .next found.2)
    else if c = '[' then (readGroup bracket (c :: rest)).map fun found => (found.1, .next found.2)
    else if isRead c then
      if isDelim delim altdelim c then .ok ([], .leave rest) else .ok ([c], .next rest)
    else scanBlanks blanks delim altdelim (c :: rest)

def scanPiece (text : Text) : Run Unclosed (Text × Reach) :=
  match openQuote text with
  | .error stop => .error stop
  | .ok (val, behind) => prepend val (scanBehind blanks delim altdelim behind)

end Scanning

section Blanks
variable (blanks : BlankRun) {delim altdelim : Char}

theorem scanBlanks_whole (whole : delim = nul) (text : Text) :
    scanBlanks blanks delim altdelim text = .ok ([], .leave text) := by
  rw [scanBlanks.eq_def, if_pos whole]

theorem scanBlanks_stop (delimited : delim ≠ nul) {gap : Text} {c : Char}
    (blank : ∀ d ∈ gap, isGap delim altdelim d = true) (stops : isGap delim altdelim c = false)
    (rest : Text) :
    scanBlanks blanks delim altdelim (gap ++ c :: rest) =
      if isDelim delim altdelim c then .ok ([], .leave rest) else .ok (gap, .next (c :: rest)) := by
  have behind : (gap ++ c :: rest).dropWhile (isGap delim altdelim) = c :: rest := by
    rw [List.dropWhile_append_of_pos blank, List.dropWhile_cons_of_neg (by simp [stops])]
  have front : (gap ++ c :: rest).takeWhile (isGap delim altdelim) = gap := by
    rw [List.takeWhile_append_of_pos blank, List.takeWhile_cons_of_neg (by simp [stops]),
      List.append_nil]
  rw [scanBlanks.eq_def, if_neg delimited, behind, front]

theorem scanBlanks_end (delimited : delim ≠ nul) {text : Text}
    (blank : ∀ d ∈ text, isGap delim altdelim d = true) :
    scanBlanks blanks delim altdelim text =
      if isDelim delim altdelim nul = true then .ok ([], .leave [])
      else
        match blanks with
        | .unchecked => Run.fault
        | .checked => .ok (text, .next []) := by
  have behind : text.dropWhile (isGap delim altdelim) = [] :=
    List.dropWhile_eq_nil_iff.mpr blank
  rw [scanBlanks.eq_def, if_neg delimited, behind]

/-- A text is all blanks, or blanks in front of something else. -/
theorem cases_gap (delim altdelim : Char) (text : Text) :
    (∀ d ∈ text, isGap delim altdelim d = true) ∨
      ∃ gap c rest, text = gap ++ c :: rest ∧ (∀ d ∈ gap, isGap delim altdelim d = true) ∧
        isGap delim altdelim c = false := by
  induction text with
  | nil => simp
  | cons d text ih =>
    cases first : isGap delim altdelim d with
    | false => exact .inr ⟨[], d, text, rfl, by simp, first⟩
    | true =>
      rcases ih with blank | ⟨gap, c, rest, rfl, blank, stops⟩
      · exact .inl (List.forall_mem_cons.mpr ⟨first, blank⟩)
      · exact .inr ⟨d :: gap, c, rest, rfl, List.forall_mem_cons.mpr ⟨first, blank⟩, stops⟩

end Blanks

section Lengths
variable {blanks : BlankRun} {delim altdelim : Char} {text : Text}

def Reach.rest : Reach → Text
  | .next rest | .leave rest => rest

theorem openQuote_split {val behind : Text} (opened : openQuote text = .ok (val, behind)) :
    ∃ first, text = first ++ behind := by
  cases text with
  | nil =>
    obtain ⟨rfl, rfl⟩ := by simpa [openQuote] using opened
    exact ⟨[], rfl⟩
  | cons c rest =>
    cases is : quoteOf c with
    | none =>
      obtain ⟨rfl, rfl⟩ := by simpa [openQuote, is] using opened
      exact ⟨[], rfl⟩
    | some quote =>
      cases closes : closeQuote quote.mark rest with
      | none => simp [openQuote, is, closes] at opened
      | some found =>
        obtain ⟨raw, after⟩ := found
        obtain ⟨rfl, rfl⟩ := by simpa [openQuote, is, closes] using opened
        exact ⟨c :: raw ++ [quote.mark], by simp [(closed_of_closeQuote closes).2]⟩

theorem scanBlanks_shorter {c : Char} {val rest : Text} (unread : isRead c = false)
    (found : scanBlanks blanks delim altdelim (c :: text) = .ok (val, .next rest)) :
    rest.length < (c :: text).length := by
  by_cases delimited : delim = nul
  · simp [scanBlanks_whole blanks delimited] at found
  · rcases cases_gap delim altdelim (c :: text) with blank | ⟨gap, d, after, split, blank, stops⟩
    · rw [scanBlanks_end blanks delimited blank] at found
      split at found
      · simp at found
      · cases blanks with
        | unchecked => simp [Run.fault] at found
        | checked =>
          obtain ⟨_, rfl⟩ := by simpa using found
          simp
    · rw [split, scanBlanks_stop blanks delimited blank stops] at found
      split at found
      · simp at found
      · rename_i notDelim
        obtain ⟨_, rfl⟩ := by simpa using found
        cases gap with
        | cons e gap =>
          simp only [split, List.cons_append, List.length_cons, List.length_append]
          omega
        | nil =>
          -- the first character is a blank, so it is a gap or a delimiter
          obtain ⟨rfl, rfl⟩ := by simpa using split
          simp [isGap, unread, notDelim] at stops

theorem scanBehind_shorter {c : Char} {val rest : Text}
    (found : scanBehind blanks delim altdelim (c :: text) = .ok (val, .next rest)) :
    rest.length < (c :: text).length := by
  have group {kind : GroupKind} (opens : c = kind.opening)
      (found : (readGroup kind (c :: text)).map (fun found => (found.1, Reach.next found.2)) =
        .ok (val, .next rest)) : rest.length < (c :: text).length := by
    cases read : readGroup kind (c :: text) with
    | error stop => simp [read, Except.map] at found
    | ok inner =>
      obtain ⟨copied, after⟩ := inner
      simp only [read, Except.map, Except.ok.injEq, Prod.mk.injEq, Reach.next.injEq] at found
      obtain ⟨rfl, rfl⟩ := found
      have nonempty := readGroup_ne_nil read
      rw [readGroup_split opens read, List.length_append]
      have positive := List.length_pos_iff.mpr nonempty
      omega
  rw [scanBehind] at found
  split at found
  · rename_i opens
    exact group opens found
  · split at found
    · rename_i opens
      exact group opens found
    · split at found
      · split at found
        · simp at found
        · obtain ⟨_, rfl⟩ := by simpa using found
          simp
      · rename_i unread
        exact scanBlanks_shorter (by simpa using unread) found

theorem scanPiece_shorter {val rest : Text} (nonempty : text ≠ [])
    (found : scanPiece blanks delim altdelim text = .ok (val, .next rest)) :
    rest.length < text.length := by
  rw [scanPiece] at found
  cases opened : openQuote text with
  | error stop => simp [opened] at found
  | ok inner =>
    obtain ⟨quoted, behind⟩ := inner
    obtain ⟨first, split⟩ := openQuote_split opened
    simp only [opened] at found
    obtain ⟨piece, found, _⟩ := prepend_eq_ok found
    have shorter : behind.length ≤ text.length := by simp [split]
    cases behind with
    | cons c behind => exact Nat.lt_of_lt_of_le (scanBehind_shorter found) shorter
    | nil =>
      have empty : rest = [] := by
        rw [scanBehind] at found
        by_cases delimited : delim = nul
        · simp [scanBlanks_whole blanks delimited] at found
        · rw [scanBlanks_end blanks delimited (by simp)] at found
          split at found
          · simp at found
          · cases blanks with
            | unchecked => simp [Run.fault] at found
            | checked =>
              obtain ⟨_, rfl⟩ := by simpa using found
              rfl
      rw [empty]
      exact List.length_pos_iff.mpr nonempty

end Lengths

section Values
variable (blanks : BlankRun) (delim altdelim : Char)

/-- The loop of `_getstrval` from a character on: the value and what is left. -/
def scan (text : Text) : Run Unclosed (Text × Text) :=
  if _empty : text = [] then .ok ([], [])
  else
    match _found : scanPiece blanks delim altdelim text with
    | .error stop => .error stop
    | .ok (val, .leave rest) => .ok (val, rest)
    | .ok (val, .next rest) => prepend val (scan rest)
termination_by text.length
decreasing_by exact scanPiece_shorter _empty _found

/-- A text from its first readable character on. -/
def dropUnread (text : Text) : Text := text.dropWhile (!isRead ·)

/-- A text up to its last readable character. -/
def trimEnd (text : Text) : Text := (text.reverse.dropWhile (!isRead ·)).reverse

/-- `_getstrval` without the positions: a value that ends with the text loses
the blanks at its end. -/
def read (text : Text) : Run Unclosed (Text × Text) :=
  match scan blanks delim altdelim (dropUnread text) with
  | .ok (val, []) => .ok (trimEnd val, [])
  | other => other

end Values

section Steps
variable {blanks : BlankRun} {delim altdelim : Char} {text rest val : Text}

@[simp] theorem scan_nil : scan blanks delim altdelim [] = .ok ([], []) := by
  rw [scan, dif_pos rfl]

theorem scan_next (nonempty : text ≠ [])
    (found : scanPiece blanks delim altdelim text = .ok (val, .next rest)) :
    scan blanks delim altdelim text = prepend val (scan blanks delim altdelim rest) := by
  rw [scan, dif_neg nonempty]
  split <;> simp_all

theorem scan_leave (nonempty : text ≠ [])
    (found : scanPiece blanks delim altdelim text = .ok (val, .leave rest)) :
    scan blanks delim altdelim text = .ok (val, rest) := by
  rw [scan, dif_neg nonempty]
  split <;> simp_all

theorem scan_error (nonempty : text ≠ []) {stop : Stop Unclosed}
    (found : scanPiece blanks delim altdelim text = .error stop) :
    scan blanks delim altdelim text = .error stop := by
  rw [scan, dif_neg nonempty]
  split <;> simp_all

/-- What is read is what is scanned, perhaps without the blanks at its end. -/
theorem read_scanned (reads : read blanks delim altdelim text = .ok (val, rest)) :
    ∃ whole, scan blanks delim altdelim (dropUnread text) = .ok (whole, rest) ∧
      (val = whole ∨ val = trimEnd whole) := by
  rw [read] at reads
  cases scans : scan blanks delim altdelim (dropUnread text) with
  | error stop => simp [scans] at reads
  | ok found =>
    obtain ⟨whole, left⟩ := found
    rw [scans] at reads
    cases left with
    | nil =>
      obtain ⟨rfl, rfl⟩ := by simpa using reads
      exact ⟨whole, rfl, .inr rfl⟩
    | cons c left =>
      obtain ⟨rfl, rfl⟩ := by simpa using reads
      exact ⟨whole, rfl, .inl rfl⟩

end Steps

end Ztd.Filedat
