import Ztd.Filedat.Apart
import Mathlib.Data.List.Forall2

/-! Comment removal only truncates lines, so that the places errors are reported
at stay those of the file. -/

namespace Ztd.Filedat
open Ztd.Lib

/-- The line number and the start of the line `printErrorIndex` finds for an
index, from the character at `i` on. -/
def lineLoop (inSize index : Int) : Text → Int → Int → Int → Int × Int
  | [], _, j, line => (line, j)
  | c :: rest, i, j, line =>
    if i < inSize && i < index then
      if c == '\n' then lineLoop inSize index rest (i + 1) (i + 1) (line + 1)
      else lineLoop inSize index rest (i + 1) j line
    else (line, j)

/-- The line and the column `printErrorIndex` prints; it takes a C string. -/
def errorPlace (input : Text) (index : Int) : Int × Int :=
  let inSize := toInt (cstr input).length
  if index ≥ 0 then
    let found := lineLoop inSize index (cstr input) 0 0 1
    (found.1, index - found.2 + 1)
  else (1, index + 1)

/-- Some lines of the second text lack their ends in the first. -/
inductive Truncated : Text → Text → Prop where
  | done {cut : Text} (single : '\n' ∉ cut) : Truncated [] cut
  | line {cut left text : Text} (single : '\n' ∉ cut) (rest : Truncated left text) :
    Truncated ('\n' :: left) (cut ++ '\n' :: text)
  | char {left text : Text} (c : Char) (rest : Truncated left text) :
    Truncated (c :: left) (c :: text)

theorem Truncated.append {left text : Text} (front : Text) (rest : Truncated left text) :
    Truncated (front ++ left) (front ++ text) := by
  induction front with
  | nil => exact rest
  | cons c front ih => exact .char c ih

theorem strip_truncated {text left : Text} (strips : strip text = .ok left) :
    Truncated left text := by
  induction text using strip.induct generalizing left with
  | case1 =>
    obtain rfl : [] = left := by simpa [strip] using strips
    exact .done (by simp)
  | case2 rest ih =>
    rw [strip_escaped] at strips
    obtain ⟨later, stripped, rfl⟩ := lead_eq_ok strips
    have whole := (ih stripped).append ('\\' :: rest.take 1)
    rwa [List.cons_append, List.cons_append, List.take_append_drop] at whole
  | case3 c rest notBackslash quote is found =>
    rw [strip_quote_open is found] at strips
    simp at strips
  | case4 c rest notBackslash quote is raw after found ih =>
    rw [strip_quote is found] at strips
    obtain ⟨later, stripped, rfl⟩ := lead_eq_ok strips
    obtain ⟨same, _⟩ := quoteOf_eq_some is
    have split : c :: raw ++ c :: after.take 1 ++ after.drop 1 = c :: (raw ++ c :: after) := by
      rw [List.append_assoc, List.cons_append, List.cons_append, List.take_append_drop]
    have whole := (ih stripped).append (c :: raw ++ c :: after.take 1)
    rwa [split, same, ← (closed_of_closeQuote found).2, ← same] at whole
  | case5 c rest notBackslash is comment after =>
    rename_i ih
    rw [strip_comment notBackslash is comment] at strips
    obtain ⟨later, stripped, rfl⟩ := lead_eq_ok strips
    have single : '\n' ∉ c :: rest.takeWhile (· != '\n') := by
      rintro (_ | ⟨_, inside⟩)
      · simp [startsComment] at comment
      · simpa using List.mem_takeWhile_imp (p := (· != '\n')) inside
    have split : c :: rest = c :: rest.takeWhile (· != '\n') ++ rest.dropWhile (· != '\n') := by
      simp
    rw [split]
    cases ends : rest.dropWhile (· != '\n') with
    | nil =>
      rw [ends] at stripped
      obtain rfl : [] = later := by simpa [strip] using stripped
      simpa using Truncated.done single
    | cons d more =>
      have newline : d = '\n' := by
        have first := List.head_dropWhile_not (p := (· != '\n')) (l := rest) (by simp [ends])
        simpa [ends] using first
      subst newline
      have shorter := ih stripped
      simp only [after, ends] at shorter
      exact .line single shorter
  | case6 c rest notBackslash is plain ih =>
    rw [strip_plain notBackslash is (by simpa using plain)] at strips
    obtain ⟨later, stripped, rfl⟩ := lead_eq_ok strips
    exact .char c (ih stripped)

theorem Truncated.count {left text : Text} (truncated : Truncated left text) :
    left.count '\n' = text.count '\n' := by
  induction truncated with
  | done single => simp [List.count_eq_zero_of_not_mem single]
  | line single _ ih => simp [List.count_eq_zero_of_not_mem single, ih]
  | char c _ ih => rw [List.count_cons, List.count_cons, ih]

section Lines

theorem splitOn_newline (text : Text) :
    ('\n' :: text).splitOn '\n' = [] :: text.splitOn '\n' := by
  rw [List.splitOn, List.splitOnP_cons_eq_if_modifyHead]
  exact if_pos rfl

theorem splitOn_other {c : Char} (other : c ≠ '\n') (text : Text) :
    (c :: text).splitOn '\n' = (text.splitOn '\n').modifyHead (List.cons c) := by
  rw [List.splitOn, List.splitOnP_cons_eq_if_modifyHead, if_neg (by simpa using other)]
  rfl

theorem splitOn_line {cut : Text} (single : '\n' ∉ cut) (text : Text) :
    (cut ++ '\n' :: text).splitOn '\n' = cut :: text.splitOn '\n' := by
  induction cut with
  | nil => exact splitOn_newline text
  | cons c cut ih =>
    obtain ⟨other, later⟩ := not_or.mp (List.mem_cons.not.mp single)
    rw [List.cons_append, splitOn_other (Ne.symm other), ih later]
    rfl

theorem splitOn_single {cut : Text} (single : '\n' ∉ cut) : cut.splitOn '\n' = [cut] := by
  refine List.splitOnP_eq_singleton fun c member => ?_
  have other : c ≠ '\n' := fun same => single (same ▸ member)
  simpa using other

theorem prefix_modifyHead (c : Char) {left text : List Text}
    (prefixes : List.Forall₂ (· <+: ·) left text) :
    List.Forall₂ (· <+: ·) (left.modifyHead (List.cons c)) (text.modifyHead (List.cons c)) := by
  cases prefixes with
  | nil => exact .nil
  | cons first later => exact .cons (List.cons_prefix_cons.mpr ⟨rfl, first⟩) later

theorem Truncated.lines {left text : Text} (truncated : Truncated left text) :
    List.Forall₂ (· <+: ·) (left.splitOn '\n') (text.splitOn '\n') := by
  induction truncated with
  | done single =>
    rw [splitOn_single single, splitOn_single (by simp)]
    exact .cons List.nil_prefix .nil
  | line single _ ih =>
    rw [splitOn_line single, splitOn_newline]
    exact .cons List.nil_prefix ih
  | char c _ ih =>
    by_cases newline : c = '\n'
    · subst newline
      rw [splitOn_newline, splitOn_newline]
      exact .cons (List.prefix_refl []) ih
    · rw [splitOn_other newline, splitOn_other newline]
      exact prefix_modifyHead c ih

end Lines

section Places

/-- The line and column behind a character. -/
def advance (place : Int × Int) (c : Char) : Int × Int :=
  if c = '\n' then (place.1 + 1, 0) else (place.1, place.2 + 1)

theorem lineLoop_eq (inSize : Int) (front rest : Text) (i j line : Int)
    (inside : i + front.length ≤ inSize) :
    let found := lineLoop inSize (i + front.length) (front ++ rest) i j line
    (found.1, i + front.length - found.2) = front.foldl advance (line, i - j) := by
  induction front generalizing i j line with
  | nil => cases rest <;> simp [lineLoop]
  | cons c front ih =>
    have size : ((c :: front).length : Int) = 1 + front.length := by
      rw [List.length_cons]
      omega
    rw [size, ← Int.add_assoc] at inside ⊢
    have below : i < inSize ∧ i < i + 1 + front.length := by omega
    by_cases newline : c = '\n'
    · have later := ih (i + 1) (i + 1) (line + 1) (by omega)
      simpa [lineLoop, below, newline, advance] using later
    · have later := ih (i + 1) j line (by omega)
      have column : i + 1 - j = i - j + 1 := by omega
      simpa [lineLoop, below, newline, advance, column] using later

theorem errorPlace_eq {front rest : Text} (room : (front ++ rest).length < 2 ^ 31)
    (noNul : nul ∉ front) :
    errorPlace (front ++ rest) front.length =
      ((front.foldl advance (1, 0)).1, (front.foldl advance (1, 0)).2 + 1) := by
  have plain : ∀ c ∈ front, (c != nul) = true := by
    intro c member
    have other : c ≠ nul := fun same => noNul (same ▸ member)
    simpa using other
  have split : cstr (front ++ rest) = front ++ cstr rest := List.takeWhile_append_of_pos plain
  have shorter : (front ++ cstr rest).length ≤ (front ++ rest).length := by
    rw [← split]
    exact (List.takeWhile_sublist (· != nul)).length_le
  have inSize : toInt (front ++ cstr rest).length = (front ++ cstr rest).length := by
    rw [toInt, Int.bmod_eq_of_le] <;> omega
  have found := lineLoop_eq (front ++ cstr rest).length front (cstr rest) 0 0 1 (by
    rw [List.length_append]
    omega)
  simp only [Int.zero_add, Int.sub_zero] at found
  rw [errorPlace, split, inSize, if_pos (by omega), ← found]

theorem advance_line {cut : Text} (single : '\n' ∉ cut) (place : Int × Int) :
    advance (cut.foldl advance place) '\n' = advance place '\n' := by
  induction cut generalizing place with
  | nil => rfl
  | cons c cut ih =>
    obtain ⟨other, later⟩ := not_or.mp (List.mem_cons.not.mp single)
    rw [List.foldl_cons, ih later]
    simp [advance, Ne.symm other]

/-- A character that is no newline has its place in the text without its cuts. -/
theorem Truncated.place {left text : Text} (truncated : Truncated left text) {front rest : Text}
    {c : Char} (is : left = front ++ c :: rest) (other : c ≠ '\n') :
    ∃ before after, text = before ++ c :: after ∧ front.Sublist before ∧
      ∀ place, front.foldl advance place = before.foldl advance place := by
  induction truncated generalizing front with
  | done single => simp at is
  | @line cut left text single _ ih =>
    cases front with
    | nil =>
      obtain ⟨rfl, _⟩ := List.cons.inj is
      exact absurd rfl other
    | cons d front =>
      obtain ⟨rfl, tail⟩ := List.cons.inj is
      obtain ⟨before, after, rfl, sub, same⟩ := ih tail
      refine ⟨cut ++ '\n' :: before, after, by simp, ?_, fun place => ?_⟩
      · exact (sub.cons_cons '\n').trans (List.sublist_append_right cut _)
      · rw [List.foldl_append, List.foldl_cons, List.foldl_cons, same, advance_line single]
  | char d _ ih =>
    cases front with
    | nil =>
      obtain ⟨rfl, _⟩ := List.cons.inj is
      exact ⟨[], _, rfl, .slnil, fun _ => rfl⟩
    | cons e front =>
      obtain ⟨rfl, tail⟩ := List.cons.inj is
      obtain ⟨before, after, rfl, sub, same⟩ := ih tail
      exact ⟨d :: before, after, rfl, sub.cons_cons d, fun place => same _⟩

end Places

theorem Truncated.sublist {left text : Text} (truncated : Truncated left text) :
    left.Sublist text := by
  induction truncated with
  | done => exact List.nil_sublist _
  | line _ _ ih => exact (ih.cons_cons '\n').trans (List.sublist_append_right _ _)
  | char c _ ih => exact ih.cons_cons c

section Again

/-- What is left begins as the text does, or where a comment was cut. -/
theorem strip_head {text left : Text} (strips : strip text = .ok left) :
    ∀ c ∈ left.head?, c = '\n' ∨ text.head? = some c := by
  have truncated := strip_truncated strips
  intro c first
  cases truncated with
  | done => simp at first
  | line => exact .inl (by simpa using first.symm)
  | char d _ =>
    obtain rfl : d = c := by simpa using first
    exact .inr rfl

/-- No comment starts in front of what is left. -/
theorem startsComment_left {c : Char} {rest left : Text}
    (plain : startsComment (c :: rest) = false)
    (heads : ∀ d ∈ left.head?, d = '\n' ∨ rest.head? = some d) :
    startsComment (c :: left) = false := by
  cases left with
  | nil => simpa [startsComment] using fun hash => by simp [startsComment, hash] at plain
  | cons d left =>
    rcases heads d rfl with rfl | same
    · simpa [startsComment] using fun hash => by simp [startsComment, hash] at plain
    · obtain ⟨rest, rfl⟩ : ∃ others, rest = d :: others := by
        cases rest with
        | nil => simp at same
        | cons e rest => exact ⟨rest, by simpa using same⟩
      simpa [startsComment] using plain

/-- Without its comments a text has no comments. -/
theorem strip_again {text left : Text} (strips : strip text = .ok left) :
    strip left = .ok left := by
  induction text using strip.induct generalizing left with
  | case1 =>
    obtain rfl : [] = left := by simpa [strip] using strips
    exact strips
  | case2 rest ih =>
    rw [strip_escaped] at strips
    obtain ⟨later, stripped, rfl⟩ := lead_eq_ok strips
    rw [List.cons_append, strip_escaped]
    cases rest with
    | nil =>
      obtain rfl : [] = later := by simpa [strip] using stripped
      simp [strip]
    | cons d rest => simpa using congrArg (lead ['\\', d]) (ih stripped)
  | case3 c rest notBackslash quote is found =>
    rw [strip_quote_open is found] at strips
    simp at strips
  | case4 c rest notBackslash quote is raw after found ih =>
    rw [strip_quote is found] at strips
    obtain ⟨later, stripped, rfl⟩ := lead_eq_ok strips
    obtain ⟨same, valid⟩ := quoteOf_eq_some is
    have closes : closeQuote quote.mark (raw ++ c :: (after.take 1 ++ later)) =
        some (raw, after.take 1 ++ later) := by
      rw [same]
      exact closeQuote_closed valid (closed_of_closeQuote found).1 _
    have split : c :: raw ++ c :: after.take 1 ++ later =
        c :: (raw ++ c :: (after.take 1 ++ later)) := by simp
    rw [split, strip_quote is closes]
    cases after with
    | nil =>
      obtain rfl : [] = later := by simpa [strip] using stripped
      simp [strip]
    | cons d after => simpa using congrArg (lead (c :: raw ++ [c, d])) (ih stripped)
  | case5 c rest notBackslash is comment after =>
    rename_i ih
    rw [strip_comment notBackslash is comment] at strips
    obtain ⟨later, stripped, rfl⟩ := lead_eq_ok strips
    cases ends : rest.dropWhile (· != '\n') with
    | nil =>
      rw [ends] at stripped
      obtain rfl : [] = later := by simpa [strip] using stripped
      simp [strip]
    | cons d more =>
      have newline : d = '\n' := by
        have first := List.head_dropWhile_not (p := (· != '\n')) (l := rest) (by simp [ends])
        simpa [ends] using first
      subst newline
      have again := ih stripped
      rw [List.take_one, List.head?_cons, Option.toList_some, List.singleton_append,
        strip_plain (by decide) rfl rfl, again]
      rfl
  | case6 c rest notBackslash is plain ih =>
    rw [strip_plain notBackslash is (by simpa using plain)] at strips
    obtain ⟨later, stripped, rfl⟩ := lead_eq_ok strips
    have comment := startsComment_left (by simpa using plain) (strip_head stripped)
    rw [List.singleton_append, strip_plain notBackslash is comment, ih stripped]
    rfl

end Again

theorem removeComments_again {str left : Text} (room : str.length < 2 ^ 32)
    (returns : removeComments str = .ok left) : removeComments left = .ok left := by
  have strips := removeComments_ok room returns
  have sublist := (strip_truncated strips).sublist
  by_cases longest : left.length + 1 < 2 ^ 32
  · rw [removeComments_eq longest, strip_again strips]
    rfl
  · have shorter := sublist.length_le
    obtain rfl := sublist.eq_of_length (by omega)
    exact returns

/-- Removing comments truncates lines and does nothing more the second time, and
a character that stays is reported at the place it has in the file. -/
theorem removeComments_lines {str left : Text} (room : str.length < 2 ^ 32)
    (returns : removeComments str = .ok left) :
    left.count '\n' = str.count '\n' ∧
    List.Forall₂ (· <+: ·) (left.splitOn '\n') (str.splitOn '\n') ∧
    removeComments left = .ok left ∧
    ∀ front c rest, left = front ++ c :: rest → c ≠ '\n' →
      ∃ before after, str = before ++ c :: after ∧
        before.foldl advance (1, 0) = front.foldl advance (1, 0) ∧
        (nul ∉ before → str.length < 2 ^ 31 →
          errorPlace left front.length = errorPlace str before.length) := by
  have truncated := strip_truncated (removeComments_ok room returns)
  refine ⟨truncated.count, truncated.lines, removeComments_again room returns, ?_⟩
  intro front c rest is other
  obtain ⟨before, after, split, sublist, same⟩ := truncated.place is other
  refine ⟨before, after, split, (same _).symm, fun noNul short => ?_⟩
  have shorter := truncated.sublist.length_le
  rw [is, split] at shorter
  rw [split] at short
  rw [is, split, errorPlace_eq (by omega) (fun member => noNul (sublist.subset member)),
    errorPlace_eq short noNul, same]

theorem removeComments_lines_cut :
    removeComments ['a', '\n', 'b'] = .ok ['a', '\n', 'b'] :=
  (removeComments_lines (show ['a', '#', 'c', '\n', 'b'].length < 2 ^ 32 by decide) rfl).2.2.1

section Long

/-- In a text too long for an `int` all characters are on the first line. -/
theorem errorPlace_long {c : Char} {rest : Text} (index : Nat)
    (long : 2 ^ 31 ≤ (cstr (c :: rest)).length) (room : (cstr (c :: rest)).length < 2 ^ 32) :
    errorPlace (c :: rest) index = (1, (index : Int) + 1) := by
  have negative : toInt (cstr (c :: rest)).length < 0 := by
    rw [toInt, Int.bmod_def, Int.emod_eq_of_lt (by omega) (by omega), if_neg (by omega)]
    omega
  have outside (text : Text) :
      lineLoop (toInt (cstr (c :: rest)).length) index text 0 0 1 = (1, 0) := by
    cases text with
    | nil => rfl
    | cons d text =>
      have notBelow : ¬ (0 : Int) < toInt (cstr (c :: rest)).length := by omega
      simp only [lineLoop, notBelow, decide_false, Bool.false_and, Bool.false_eq_true, if_false]
  rw [errorPlace, if_pos (by omega)]
  simp [outside]

theorem long_moves {text : Text} (plain : ∀ c ∈ text, c = 'b') (long : 2 ^ 31 ≤ text.length)
    (room : text.length + 3 < 2 ^ 32) :
    removeComments ('#' :: '\n' :: text) = .ok ('\n' :: text) ∧
      errorPlace ('\n' :: text) (1 : Nat) ≠ errorPlace ('#' :: '\n' :: text) (2 : Nat) := by
  constructor
  · have bare : ∀ c ∈ text, Bare c := by
      intro c member
      rw [plain c member]
      decide
    have rest := strip_bares bare []
    rw [List.append_nil, strip] at rest
    have strips : strip ('#' :: '\n' :: text) = .ok ('\n' :: text) := by
      rw [strip_comment (by decide) rfl rfl, List.dropWhile_cons_of_neg (by decide),
        List.drop_one, List.tail_cons, rest]
      simp
    rw [removeComments_eq (by simp only [List.length_cons]; omega), strips]
    rfl
  · have whole (front : Text) (noNul : ∀ c ∈ front, (c != nul) = true) :
        cstr (front ++ text) = front ++ text := by
      refine List.takeWhile_eq_self_iff.mpr fun c member => ?_
      rcases List.mem_append.mp member with first | later
      · exact noNul c first
      · rw [plain c later]
        rfl
    have left := whole ['\n'] (by simp [nul])
    have full := whole ['#', '\n'] (by simp [nul])
    simp only [List.cons_append, List.nil_append] at left full
    rw [errorPlace_long 1 (by rw [left, List.length_cons]; omega)
        (by rw [left, List.length_cons]; omega),
      errorPlace_long 2 (by rw [full, List.length_cons, List.length_cons]; omega)
        (by rw [full, List.length_cons, List.length_cons]; omega)]
    decide

end Long

/-- The end of a line moves when its comment is cut; a NUL hides the lines behind
it; and a text of 2^31 characters has a size that is no `int`. -/
theorem removeComments_moves_places :
    (removeComments ['#', '\n'] = .ok ['\n'] ∧
      errorPlace ['\n'] (0 : Nat) ≠ errorPlace ['#', '\n'] (1 : Nat)) ∧
    (removeComments [nul, '#', '\n', 'b'] = .ok [nul, '\n', 'b'] ∧
      errorPlace [nul, '\n', 'b'] (2 : Nat) ≠ errorPlace [nul, '#', '\n', 'b'] (3 : Nat)) ∧
    (removeComments ('#' :: '\n' :: List.replicate (2 ^ 31) 'b') =
        .ok ('\n' :: List.replicate (2 ^ 31) 'b') ∧
      errorPlace ('\n' :: List.replicate (2 ^ 31) 'b') (1 : Nat) ≠
        errorPlace ('#' :: '\n' :: List.replicate (2 ^ 31) 'b') (2 : Nat)) :=
  ⟨⟨rfl, by decide⟩, ⟨rfl, by decide⟩,
    long_moves (fun _ member => List.eq_of_mem_replicate member) (by rw [List.length_replicate])
      (by rw [List.length_replicate]; decide)⟩

end Ztd.Filedat
