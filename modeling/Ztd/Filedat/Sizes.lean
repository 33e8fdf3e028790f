import Ztd.Filedat.Scanning

/-! What the scans leave is no longer than what they got, and they always end. -/

namespace Ztd.Filedat
open Ztd.Lib

variable {blanks : BlankRun} {delim altdelim : Char} {text : Text}

theorem unescape_length (mark : Char) (raw : Text) : (unescape mark raw).length ≤ raw.length := by
  fun_induction unescape mark raw with
  | case1 => simp
  | case2 => simp
  | case3 c d rest escaped ih =>
    simp only [List.length_cons]
    omega
  | case4 c d rest plain ih =>
    simp only [List.length_cons] at ih ⊢
    omega

theorem openQuote_length {val behind : Text} (opened : openQuote text = .ok (val, behind)) :
    val.length + behind.length ≤ text.length := by
  cases text with
  | nil =>
    obtain ⟨rfl, rfl⟩ := by simpa [openQuote] using opened
    simp
  | cons c rest =>
    cases is : quoteOf c with
    | none =>
      obtain ⟨rfl, rfl⟩ := by simpa [openQuote, is] using opened
      simp
    | some quote =>
      cases closes : closeQuote quote.mark rest with
      | none => simp [openQuote, is, closes] at opened
      | some found =>
        obtain ⟨raw, after⟩ := found
        obtain ⟨rfl, rfl⟩ := by simpa [openQuote, is, closes] using opened
        have size := unescape_length quote.mark raw
        have split := congrArg List.length (closed_of_closeQuote closes).2
        simp only [List.length_append, List.length_cons] at split ⊢
        omega

theorem scanBlanks_length {val : Text} {reach : Reach}
    (found : scanBlanks blanks delim altdelim text = .ok (val, reach)) :
    val.length + reach.rest.length ≤ text.length := by
  by_cases delimited : delim = nul
  · rw [scanBlanks_whole blanks delimited] at found
    obtain ⟨rfl, rfl⟩ := by simpa using found
    simp [Reach.rest]
  · rcases cases_gap delim altdelim text with blank | ⟨gap, d, after, rfl, blank, stops⟩
    · rw [scanBlanks_end blanks delimited blank] at found
      split at found
      · obtain ⟨rfl, rfl⟩ := by simpa using found
        simp [Reach.rest]
      · cases blanks with
        | unchecked => simp [Run.fault] at found
        | checked =>
          obtain ⟨rfl, rfl⟩ := by simpa using found
          simp [Reach.rest]
    · rw [scanBlanks_stop blanks delimited blank stops] at found
      split at found
      · obtain ⟨rfl, rfl⟩ := by simpa using found
        simp only [Reach.rest, List.length_append, List.length_cons, List.length_nil]
        omega
      · obtain ⟨rfl, rfl⟩ := by simpa using found
        simp [Reach.rest]

theorem readGroup_length {group : GroupKind} {c : Char} {copied after : Text}
    (opens : c = group.opening) (found : readGroup group (c :: text) = .ok (copied, after)) :
    copied.length + after.length = (c :: text).length := by
  rw [readGroup_split opens found, List.length_append]

theorem scanBehind_length {val : Text} {reach : Reach}
    (found : scanBehind blanks delim altdelim text = .ok (val, reach)) :
    val.length + reach.rest.length ≤ text.length := by
  cases text with
  | nil => exact scanBlanks_length found
  | cons c rest =>
    have group {kind : GroupKind} (opens : c = kind.opening)
        (found : (readGroup kind (c :: rest)).map (fun found => (found.1, Reach.next found.2)) =
          .ok (val, reach)) : val.length + reach.rest.length ≤ (c :: rest).length := by
      cases read : readGroup kind (c :: rest) with
      | error stop => simp [read, Except.map] at found
      | ok inner =>
        simp only [read, Except.map, Except.ok.injEq, Prod.mk.injEq] at found
        obtain ⟨rfl, rfl⟩ := found
        exact (readGroup_length opens read).le
    rw [scanBehind] at found
    split at found
    · rename_i opens
      exact group opens found
    · split at found
      · rename_i opens
        exact group opens found
      · split at found
        · split at found
          · obtain ⟨rfl, rfl⟩ := by simpa using found
            simp [Reach.rest]
          · obtain ⟨rfl, rfl⟩ := by simpa using found
            simp only [Reach.rest, List.length_cons, List.length_nil]
            omega
        · exact scanBlanks_length found

theorem scanPiece_length {val : Text} {reach : Reach}
    (found : scanPiece blanks delim altdelim text = .ok (val, reach)) :
    val.length + reach.rest.length ≤ text.length := by
  rw [scanPiece] at found
  cases opened : openQuote text with
  | error stop => simp [opened] at found
  | ok inner =>
    obtain ⟨quoted, behind⟩ := inner
    simp only [opened] at found
    obtain ⟨piece, found, rfl⟩ := prepend_eq_ok found
    have first := openQuote_length opened
    have later : piece.length + reach.rest.length ≤ behind.length := scanBehind_length found
    rw [List.length_append]
    omega

theorem scan_length {val rest : Text} (found : scan blanks delim altdelim text = .ok (val, rest)) :
    val.length + rest.length ≤ text.length := by
  induction size : text.length using Nat.strongRecOn generalizing text val with
  | _ count ih =>
    subst size
    by_cases empty : text = []
    · rw [empty, scan_nil] at found
      obtain ⟨rfl, rfl⟩ := by simpa using found
      simp
    · cases piece : scanPiece blanks delim altdelim text with
      | error stop => simp [scan_error empty piece] at found
      | ok inner =>
        obtain ⟨first, reach⟩ := inner
        have size := scanPiece_length piece
        cases reach with
        | leave later =>
          rw [scan_leave empty piece] at found
          obtain ⟨rfl, rfl⟩ := by simpa using found
          exact size
        | next later =>
          rw [scan_next empty piece] at found
          obtain ⟨inner, found, rfl⟩ := prepend_eq_ok found
          have shorter := ih _ (scanPiece_shorter empty piece) found rfl
          simp only [Reach.rest, List.length_append] at size ⊢
          omega

theorem openQuote_shorter {c : Char} {quote : QuoteKind} {val behind : Text}
    (is : quoteOf c = some quote) (opened : openQuote (c :: text) = .ok (val, behind)) :
    behind.length < (c :: text).length := by
  cases closes : closeQuote quote.mark text with
  | none => simp [openQuote, is, closes] at opened
  | some found =>
    obtain ⟨raw, after⟩ := found
    obtain ⟨_, rfl⟩ := by simpa [openQuote, is, closes] using opened
    rw [(closed_of_closeQuote closes).2]
    simp only [List.length_cons, List.length_append]
    omega

/-- A round that starts on something readable takes at least that. -/
theorem scanPiece_taken {c : Char} {val rest : Text} (readable : isRead c = true)
    (found : scanPiece blanks delim altdelim (c :: text) = .ok (val, .leave rest)) :
    rest.length < (c :: text).length := by
  rw [scanPiece] at found
  cases opened : openQuote (c :: text) with
  | error stop => simp [opened] at found
  | ok inner =>
    obtain ⟨quoted, behind⟩ := inner
    simp only [opened] at found
    obtain ⟨piece, behindFound, _⟩ := prepend_eq_ok found
    clear found
    cases is : quoteOf c with
    | some quote =>
      have shorter := openQuote_shorter is opened
      have later : piece.length + rest.length ≤ behind.length := scanBehind_length behindFound
      omega
    | none =>
      obtain ⟨rfl, rfl⟩ := by simpa [openQuote_plain is] using opened
      clear opened
      have group (kind : GroupKind) : (readGroup kind (c :: text)).map
          (fun found => (found.1, Reach.next found.2)) ≠ .ok (piece, .leave rest) := by
        cases readGroup kind (c :: text) <;> simp [Except.map]
      rw [scanBehind] at behindFound
      split at behindFound
      · exact absurd behindFound (group brace)
      · split at behindFound
        · exact absurd behindFound (group bracket)
        · split at behindFound
          · obtain ⟨_, rfl⟩ := by simpa using behindFound
            simp
          · simp at behindFound

theorem scan_shorter {c : Char} {val rest : Text} (readable : isRead c = true)
    (found : scan blanks delim altdelim (c :: text) = .ok (val, rest)) :
    rest.length < (c :: text).length := by
  cases piece : scanPiece blanks delim altdelim (c :: text) with
  | error stop => simp [scan_error (List.cons_ne_nil c text) piece] at found
  | ok inner =>
    obtain ⟨first, reach⟩ := inner
    cases reach with
    | leave later =>
      rw [scan_leave (List.cons_ne_nil c text) piece] at found
      obtain ⟨rfl, rfl⟩ := by simpa using found
      exact scanPiece_taken readable piece
    | next later =>
      rw [scan_next (List.cons_ne_nil c text) piece] at found
      obtain ⟨inner, found, _⟩ := prepend_eq_ok found
      have shorter := scanPiece_shorter (List.cons_ne_nil c text) piece
      have size : inner.length + rest.length ≤ later.length := scan_length found
      omega

/-- A text without readable characters, or its first readable character. -/
theorem cases_unread (str : Text) :
    dropUnread str = [] ∨ ∃ c text, dropUnread str = c :: text ∧ isRead c = true := by
  cases start : dropUnread str with
  | nil => exact .inl rfl
  | cons c text =>
    have first := List.head?_dropWhile_not (!isRead ·) str
    rw [show str.dropWhile (!isRead ·) = c :: text from start] at first
    exact .inr ⟨c, text, rfl, by simpa using first⟩

theorem dropUnread_length (str : Text) : (dropUnread str).length ≤ str.length :=
  (List.dropWhile_suffix _).length_le

theorem trimEnd_cons_append (front : Text) {c : Char} (readable : isRead c = true) (text : Text) :
    trimEnd (front ++ c :: text) = front ++ c :: trimEnd text := by
  simp only [trimEnd, List.reverse_append, List.reverse_cons]
  rw [List.append_assoc]
  rcases cases_unread text.reverse with blank | ⟨d, later, is, _⟩
  · have unread := List.dropWhile_eq_nil_iff.mp blank
    rw [List.dropWhile_append_of_pos unread, show text.reverse.dropWhile (!isRead ·) = [] from blank]
    simp [readable]
  · rw [List.dropWhile_append, show text.reverse.dropWhile (!isRead ·) = d :: later from is]
    simp

theorem trimEnd_length (val : Text) : (trimEnd val).length ≤ val.length := by
  have shorter := (List.dropWhile_suffix (!isRead ·) (l := val.reverse)).length_le
  simpa [trimEnd] using shorter

/-- What `_getstrval` returns is no longer than its text, and the rest is shorter. -/
theorem read_length {str value rest : Text}
    (found : read blanks delim altdelim str = .ok (value, rest)) :
    value.length + rest.length ≤ str.length ∧ (str ≠ [] → rest.length < str.length) := by
  have start := dropUnread_length str
  rcases cases_unread str with blank | ⟨c, text, is, readable⟩
  · rw [read, blank, scan_nil] at found
    obtain ⟨rfl, rfl⟩ := by simpa [trimEnd] using found
    exact ⟨Nat.zero_le _, fun nonempty => List.length_pos_iff.mpr nonempty⟩
  · rw [read, is] at found
    rw [is] at start
    cases scanned : scan blanks delim altdelim (c :: text) with
    | error stop => simp [scanned] at found
    | ok inner =>
      obtain ⟨val, after⟩ := inner
      have size := scan_length scanned
      have shorter := scan_shorter readable scanned
      cases after with
      | nil =>
        obtain ⟨rfl, rfl⟩ := by simpa [scanned] using found
        have trimmed := trimEnd_length val
        simp only [List.length_nil] at size shorter ⊢
        exact ⟨by omega, fun _ => by omega⟩
      | cons d after =>
        obtain ⟨rfl, rfl⟩ := by simpa [scanned] using found
        exact ⟨by omega, fun _ => by omega⟩

/-- How a scan ends early: with an exception, or outside of its text. -/
def Halts (blanks : BlankRun) (delim altdelim : Char) (stop : Stop Unclosed) : Prop :=
  (∃ unclosed, stop = .thrown unclosed) ∨
    stop = .fault ∧ blanks = .unchecked ∧ delim ≠ nul ∧ isDelim delim altdelim nul = false

section Endings
variable {stop : Stop Unclosed}

theorem prepend_eq_error {α : Type} {read : Run Unclosed (Text × α)} {piece : Text}
    (ends : prepend piece read = .error stop) : read = .error stop := by
  cases read <;> simp_all

theorem scanBlanks_halts (ends : scanBlanks blanks delim altdelim text = .error stop) :
    Halts blanks delim altdelim stop := by
  by_cases delimited : delim = nul
  · simp [scanBlanks_whole blanks delimited] at ends
  · rcases cases_gap delim altdelim text with blank | ⟨gap, c, rest, rfl, blank, stops⟩
    · rw [scanBlanks_end blanks delimited blank] at ends
      split at ends
      · simp at ends
      · rename_i notNul
        cases blanks with
        | checked => simp at ends
        | unchecked => exact .inr ⟨(Except.error.inj ends).symm, rfl, delimited, by simpa using notNul⟩
    · rw [scanBlanks_stop blanks delimited blank stops] at ends
      split at ends <;> simp at ends

theorem scanBehind_halts (ends : scanBehind blanks delim altdelim text = .error stop) :
    Halts blanks delim altdelim stop := by
  cases text with
  | nil => exact scanBlanks_halts ends
  | cons c rest =>
    have group {kind : GroupKind} (ends : (readGroup kind (c :: rest)).map
        (fun found => (found.1, Reach.next found.2)) = .error stop) :
        Halts blanks delim altdelim stop := by
      cases read : readGroup kind (c :: rest) with
      | ok found => simp [read, Except.map] at ends
      | error other =>
        obtain rfl : other = stop := by simpa [read, Except.map] using ends
        exact .inl (readGroup_throws read)
    rw [scanBehind] at ends
    split at ends
    · exact group ends
    · split at ends
      · exact group ends
      · split at ends
        · split at ends <;> simp at ends
        · exact scanBlanks_halts ends

theorem openQuote_throws (ends : openQuote text = .error stop) :
    ∃ unclosed, stop = .thrown unclosed := by
  cases text with
  | nil => simp [openQuote] at ends
  | cons c rest =>
    rw [openQuote] at ends
    split at ends
    · simp at ends
    · split at ends
      · exact ⟨_, (Except.error.inj ends).symm⟩
      · simp at ends

theorem scanPiece_halts (ends : scanPiece blanks delim altdelim text = .error stop) :
    Halts blanks delim altdelim stop := by
  rw [scanPiece] at ends
  split at ends
  · rename_i opened
    obtain rfl := Except.error.inj ends
    exact .inl (openQuote_throws opened)
  · exact scanBehind_halts (prepend_eq_error ends)

theorem scan_halts (ends : scan blanks delim altdelim text = .error stop) :
    Halts blanks delim altdelim stop := by
  induction size : text.length using Nat.strongRecOn generalizing text with
  | _ count ih =>
    subst size
    by_cases empty : text = []
    · simp [empty] at ends
    · cases piece : scanPiece blanks delim altdelim text with
      | error other =>
        rw [scan_error empty piece] at ends
        obtain rfl := Except.error.inj ends
        exact scanPiece_halts piece
      | ok inner =>
        obtain ⟨val, reach⟩ := inner
        cases reach with
        | leave rest => simp [scan_leave empty piece] at ends
        | next rest =>
          rw [scan_next empty piece] at ends
          exact ih _ (scanPiece_shorter empty piece) (prepend_eq_error ends) rfl

theorem read_halts {str : Text} (ends : read blanks delim altdelim str = .error stop) :
    Halts blanks delim altdelim stop := by
  rw [read] at ends
  split at ends
  · simp at ends
  · exact scan_halts ends

end Endings

end Ztd.Filedat
