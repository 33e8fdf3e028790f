import Ztd.Filedat.Loops

/-! Text whose characters carry their places in the data, and what `_getstrval`
reads of it. The quote marks and backslashes it drops leave gaps in the places. -/

namespace Ztd.Filedat
open Ztd.Lib

/-- Characters with their places. -/
abbrev Placed := List (Char × Nat)

namespace Placed

def text (placed : Placed) : Text := placed.map Prod.fst

def places (placed : Placed) : List Nat := placed.map Prod.snd

/-- A text as it stands in the data. -/
def ofData (data : Text) : Placed := data.zipIdx

/-- `unescape` with places. -/
def unescape (mark : Char) : Placed → Placed
  | [] => []
  | [c] => [c]
  | c :: d :: rest =>
    if c.1 = '\\' ∧ d.1 = mark then d :: unescape mark rest else c :: unescape mark (d :: rest)

/-- What the quote a text begins with adds to the value. -/
def opened : Placed → Placed
  | [] => []
  | c :: rest =>
    match quoteOf c.1 with
    | none => []
    | some quote =>
      match closeQuote quote.mark (text rest) with
      | none => []
      | some (raw, _) => unescape quote.mark (rest.take raw.length)

/-- The end of a text that is as long as another text. -/
def behind (placed : Placed) (rest : Text) : Placed := placed.drop (placed.length - rest.length)

/-- What a round of the loop of `_getstrval` adds to the value: what a quote
encloses, and what follows the quote up to where the round ends. -/
def piece (placed : Placed) (val rest : Text) : Placed :=
  opened placed ++
    behind (placed.take (placed.length - rest.length)) (val.drop (opened placed).length)

@[simp] theorem text_nil : text [] = [] := rfl

@[simp] theorem text_cons (c : Char × Nat) (rest : Placed) : text (c :: rest) = c.1 :: text rest := rfl

@[simp] theorem text_append (first second : Placed) :
    text (first ++ second) = text first ++ text second := List.map_append

@[simp] theorem text_length (placed : Placed) : placed.text.length = placed.length :=
  List.length_map _

@[simp] theorem text_ofData (data : Text) : (ofData data).text = data := List.zipIdx_map_fst 0 data

theorem text_eq_nil_iff {placed : Placed} : placed.text = [] ↔ placed = [] := List.map_eq_nil_iff

/-- A text is split like the characters it consists of. -/
theorem of_text_append {placed : Placed} {first second : Text} (is : placed.text = first ++ second) :
    ∃ front back, placed = front ++ back ∧ front.text = first ∧ back.text = second := by
  obtain ⟨front, back, rfl, rfl, rfl⟩ := List.map_eq_append_iff.mp is
  exact ⟨front, back, rfl, rfl, rfl⟩

@[simp] theorem behind_append (front back : Placed) : behind (front ++ back) back.text = back := by
  simp [behind]

theorem unescape_text (mark : Char) (placed : Placed) :
    (unescape mark placed).text = Filedat.unescape mark placed.text := by
  induction placed using unescape.induct mark with
  | case1 => rfl
  | case2 => rfl
  | case3 c d rest escape ih => simp [unescape, Filedat.unescape, escape, ih]
  | case4 c d rest plain ih =>
    simp only [unescape, text_cons, Filedat.unescape, if_neg plain, ih]

theorem unescape_sublist (mark : Char) (placed : Placed) : (unescape mark placed).Sublist placed := by
  induction placed using unescape.induct mark with
  | case1 | case2 => exact .refl _
  | case3 c d rest escape ih =>
    rw [unescape, if_pos escape]
    exact .cons _ (.cons_cons _ ih)
  | case4 c d rest plain ih =>
    rw [unescape, if_neg plain]
    exact .cons_cons _ ih

/-- The quote a text begins with encloses a part of it. -/
theorem opened_split {placed : Placed} {val behind : Text}
    (opens : openQuote placed.text = .ok (val, behind)) :
    ∃ front back, placed = front ++ back ∧ back.text = behind ∧ (opened placed).text = val ∧
      (opened placed).Sublist front := by
  cases placed with
  | nil =>
    obtain ⟨rfl, rfl⟩ := by simpa [openQuote] using opens
    exact ⟨[], [], rfl, rfl, rfl, .slnil⟩
  | cons c rest =>
    rw [text_cons, openQuote] at opens
    cases is : quoteOf c.1 with
    | none =>
      obtain ⟨rfl, rfl⟩ := by simpa [is] using opens
      exact ⟨[], c :: rest, rfl, rfl, by simp [opened, is], by simp [opened, is]⟩
    | some quote =>
      cases closes : closeQuote quote.mark (text rest) with
      | none => simp [is, closes] at opens
      | some found =>
        obtain ⟨raw, after⟩ := found
        obtain ⟨rfl, rfl⟩ := by simpa [is, closes] using opens
        obtain ⟨inner, marked, rfl, rfl, back⟩ := of_text_append (closed_of_closeQuote closes).2
        cases marked with
        | nil => simp at back
        | cons mark back' =>
          obtain ⟨_, rfl⟩ := by simpa using back
          have taken : opened (c :: (inner ++ mark :: back')) = unescape quote.mark inner := by
            simp only [opened, is, closes, text_length, List.take_left]
          refine ⟨c :: inner ++ [mark], back', by simp, rfl, ?_, ?_⟩
          · rw [taken, unescape_text]
          · rw [taken]
            exact ((unescape_sublist quote.mark inner).cons c).trans
              (List.sublist_append_left _ [mark])

end Placed

section Scanning
variable {blanks : BlankRun} {delim altdelim : Char} {text val rest : Text}

/-- What follows a quote is copied up to where a round ends, or dropped. -/
def Reach.Splits (text val : Text) : Reach → Prop
  | .next rest => text = val ++ rest
  | .leave rest => val = [] ∧ rest.IsSuffix text

theorem scanBlanks_split {reach : Reach}
    (found : scanBlanks blanks delim altdelim text = .ok (val, reach)) : reach.Splits text val := by
  by_cases delimited : delim = nul
  · obtain ⟨rfl, rfl⟩ := by simpa [scanBlanks_whole blanks delimited] using found
    exact ⟨rfl, List.suffix_refl _⟩
  · rcases cases_gap delim altdelim text with blank | ⟨gap, c, later, rfl, blank, stops⟩
    · rw [scanBlanks_end blanks delimited blank] at found
      split at found
      · obtain ⟨rfl, rfl⟩ := by simpa using found
        exact ⟨rfl, List.nil_suffix⟩
      · cases blanks with
        | unchecked => simp [Run.fault] at found
        | checked =>
          obtain ⟨rfl, rfl⟩ := by simpa using found
          exact (List.append_nil _).symm
    · rw [scanBlanks_stop blanks delimited blank stops] at found
      split at found
      · obtain ⟨rfl, rfl⟩ := by simpa using found
        exact ⟨rfl, ⟨gap ++ [c], by simp⟩⟩
      · obtain ⟨rfl, rfl⟩ := by simpa using found
        rfl

theorem scanBehind_split {reach : Reach}
    (found : scanBehind blanks delim altdelim text = .ok (val, reach)) : reach.Splits text val := by
  cases text with
  | nil => exact scanBlanks_split found
  | cons c later =>
    have group {kind : GroupKind} (opens : c = kind.opening)
        (found : (readGroup kind (c :: later)).map (fun found => (found.1, Reach.next found.2)) =
          .ok (val, reach)) : reach.Splits (c :: later) val := by
      obtain ⟨⟨copied, after⟩, read, same⟩ := Run.map_eq_ok.mp found
      obtain ⟨rfl, rfl⟩ := Prod.mk.inj same
      exact readGroup_split opens read
    rw [scanBehind] at found
    split at found
    · rename_i opens
      exact group opens found
    · split at found
      · rename_i opens
        exact group opens found
      · split at found
        · split at found
          · obtain ⟨rfl, rfl⟩ := by simpa using found
            exact ⟨rfl, List.suffix_cons c later⟩
          · obtain ⟨rfl, rfl⟩ := by simpa using found
            rfl
        · exact scanBlanks_split found

end Scanning

namespace Placed
section Reading
variable (blanks : BlankRun) (delim altdelim : Char)

/-- The value `scan` makes of a text, with places. -/
def scanned (placed : Placed) : Placed :=
  if _empty : placed = [] then []
  else
    match _found : scanPiece blanks delim altdelim placed.text with
    | .error _ => []
    | .ok (_, .leave _) => opened placed
    | .ok (val, .next rest) => piece placed val rest ++ scanned (behind placed rest)
termination_by placed.length
decreasing_by
  have shorter := scanPiece_shorter (by simpa [text_eq_nil_iff] using _empty) _found
  rw [text_length] at shorter
  simp only [behind, List.length_drop]
  omega

/-- A text up to its first readable character. -/
def blank (placed : Placed) : Placed := placed.takeWhile (!isRead ·.1)

/-- A text from its first readable character on. -/
def dropUnread (placed : Placed) : Placed := placed.dropWhile (!isRead ·.1)

/-- `read` with places. -/
def read (placed : Placed) : Run Unclosed (Placed × Placed) :=
  (Filedat.read blanks delim altdelim placed.text).map fun found =>
    ((scanned blanks delim altdelim placed.dropUnread).take found.1.length,
      behind placed found.2)

end Reading

variable {blanks : BlankRun} {delim altdelim : Char} {placed : Placed}

/-- A round of the loop splits the text and takes a part of its front. -/
theorem piece_split {val rest : Text}
    (found : scanPiece blanks delim altdelim placed.text = .ok (val, .next rest)) :
    ∃ front back, placed = front ++ back ∧ back.text = rest ∧ (piece placed val rest).text = val ∧
      (piece placed val rest).Sublist front := by
  rw [scanPiece] at found
  cases opens : openQuote placed.text with
  | error stop => simp [opens] at found
  | ok inner =>
    obtain ⟨quoted, after⟩ := inner
    simp only [opens] at found
    obtain ⟨copied, found, same⟩ := prepend_eq_ok found
    obtain ⟨first, back, split, rfl, text, sublist⟩ := opened_split opens
    have copies : back.text = copied ++ rest := scanBehind_split found
    obtain ⟨middle, last, rfl, rfl, rfl⟩ := of_text_append copies
    have val_eq : val = (opened placed).text ++ middle.text := by rw [text]; exact same
    have whole : piece placed val last.text = opened placed ++ middle := by
      have front : placed.take (placed.length - last.length) = first ++ middle := by
        rw [split, ← List.append_assoc, List.length_append, Nat.add_sub_cancel, List.take_left]
      rw [piece, text_length, front, val_eq]
      congr 1
      have tail : ((opened placed).text ++ middle.text).drop (opened placed).length = middle.text := by
        rw [← text_length, List.drop_left]
      rw [tail, behind_append]
    refine ⟨first ++ middle, last, by rw [split, List.append_assoc], rfl, ?_, ?_⟩
    · rw [whole, text_append, val_eq]
    · rw [whole]
      exact sublist.append (.refl middle)

section Steps
variable (nonempty : placed ≠ [])
include nonempty

theorem scanned_leave {val rest : Text}
    (found : scanPiece blanks delim altdelim placed.text = .ok (val, .leave rest)) :
    scanned blanks delim altdelim placed = opened placed := by
  rw [scanned, dif_neg nonempty]
  split <;> simp_all

theorem scanned_next {val rest : Text}
    (found : scanPiece blanks delim altdelim placed.text = .ok (val, .next rest)) :
    scanned blanks delim altdelim placed =
      piece placed val rest ++ scanned blanks delim altdelim (behind placed rest) := by
  rw [scanned, dif_neg nonempty]
  split <;> simp_all

end Steps

/-- The scanned value is a part of the text in front of the rest. -/
theorem scanned_split {val rest : Text}
    (scans : scan blanks delim altdelim placed.text = .ok (val, rest)) :
    ∃ front back, placed = front ++ back ∧ back.text = rest ∧
      (scanned blanks delim altdelim placed).text = val ∧
      (scanned blanks delim altdelim placed).Sublist front := by
  induction size : placed.length using Nat.strongRecOn generalizing placed val with
  | _ count ih =>
    subst size
    by_cases empty : placed = []
    · subst empty
      obtain ⟨rfl, rfl⟩ := by simpa using scans
      exact ⟨[], [], rfl, rfl, by simp [scanned], by simp [scanned]⟩
    · have nonempty : placed.text ≠ [] := by simpa [text_eq_nil_iff] using empty
      cases found : scanPiece blanks delim altdelim placed.text with
      | error stop => simp [scan_error nonempty found] at scans
      | ok inner =>
        obtain ⟨piece, reach⟩ := inner
        cases reach with
        | leave after =>
          rw [scan_leave nonempty found] at scans
          obtain ⟨rfl, rfl⟩ := by simpa using scans
          rw [scanned_leave empty found]
          rw [scanPiece] at found
          cases opens : openQuote placed.text with
          | error stop => simp [opens] at found
          | ok inner =>
            obtain ⟨quoted, left⟩ := inner
            simp only [opens] at found
            obtain ⟨copied, found, same⟩ := prepend_eq_ok found
            obtain ⟨first, back, split, rfl, text, sublist⟩ := opened_split opens
            obtain ⟨rfl, skipped, left⟩ := scanBehind_split found
            obtain ⟨middle, last, rfl, rfl, rfl⟩ := of_text_append left.symm
            refine ⟨first ++ middle, last, by rw [split, List.append_assoc], rfl, ?_,
              sublist.trans (List.sublist_append_left _ _)⟩
            rw [text, show piece = quoted ++ [] from same, List.append_nil]
        | next after =>
          rw [scan_next nonempty found] at scans
          obtain ⟨later, scans, rfl⟩ := prepend_eq_ok scans
          obtain ⟨first, back, split, rfl, text, sublist⟩ := piece_split found
          have shorter := scanPiece_shorter nonempty found
          rw [text_length, text_length] at shorter
          obtain ⟨middle, last, rfl, rfl, laterText, laterSublist⟩ := ih _ shorter scans rfl
          have rest : behind placed (Placed.text (middle ++ last)) = middle ++ last := by
            rw [split, behind_append]
          rw [scanned_next empty found, rest]
          refine ⟨first ++ middle, last, by rw [split, List.append_assoc], rfl, ?_,
            sublist.append laterSublist⟩
          rw [text_append, text, laterText]

theorem dropUnread_text (placed : Placed) :
    placed.dropUnread.text = Filedat.dropUnread placed.text := by
  rw [dropUnread, text, text, Filedat.dropUnread, List.dropWhile_map]
  rfl

theorem blank_append (placed : Placed) : placed.blank ++ placed.dropUnread = placed :=
  List.takeWhile_append_dropWhile

theorem trimEnd_prefix (val : Text) : (trimEnd val).IsPrefix val := by
  rw [trimEnd, ← List.reverse_suffix, List.reverse_reverse]
  exact List.dropWhile_suffix _

/-- What is read is a part of the text in front of the rest. -/
theorem read_split {value rest : Placed} (reads : read blanks delim altdelim placed = .ok (value, rest)) :
    Filedat.read blanks delim altdelim placed.text = .ok (value.text, rest.text) ∧
      ∃ front, placed = placed.blank ++ (front ++ rest) ∧ value.Sublist front := by
  obtain ⟨⟨val, after⟩, found, is⟩ := Run.map_eq_ok.mp reads
  obtain ⟨rfl, rfl⟩ := Prod.mk.inj is
  obtain ⟨whole, scans, trims⟩ := read_scanned found
  rw [← dropUnread_text] at scans
  obtain ⟨front, back, split, rfl, same, sublist⟩ := scanned_split scans
  have start : val.IsPrefix whole := by
    rcases trims with rfl | rfl
    · exact List.prefix_refl _
    · exact trimEnd_prefix whole
  have value : text ((scanned blanks delim altdelim placed.dropUnread).take val.length) = val := by
    rw [Placed.text, List.map_take]
    exact (congrArg (List.take val.length) same).trans (List.prefix_iff_eq_take.mp start).symm
  have parts : placed = placed.blank ++ (front ++ back) := by
    rw [← split, blank_append]
  have rest : behind placed back.text = back := by
    rw [parts, ← List.append_assoc, behind_append]
  simp only [rest, value]
  exact ⟨found, front, parts, (List.take_sublist _ _).trans sublist⟩

end Placed

end Ztd.Filedat
