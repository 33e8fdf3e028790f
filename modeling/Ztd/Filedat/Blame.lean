import Ztd.Filedat.Offsets

/-! Where the exception of an import points that says that a mark is not closed. -/

namespace Ztd.Filedat
open Ztd.Lib

/-- `where()` and the C string `data()`: the position is inside of the data, and at the
place of the mark. -/
def FormatError.PointsAt (error : FormatError) (place : Nat) : Prop :=
  0 ≤ error.index ∧ error.index < error.data.length ∧ error.index = place

/-- The mark a document is rejected for: a quote that is open when comments are taken
out, straight if nothing has been taken out in front of it, or a mark of the text
without comments. -/
def culprit (blanks : BlankRun) (data : Text) : Option Spot :=
  match strip data with
  | .error (.thrown (front, unclosed)) =>
    let place := data.length - unclosed.text.length
    some ⟨place, front = data.take place⟩
  | .error _ => none
  | .ok text =>
    match locateData blanks text with
    | .error (.thrown (.unclosed mark)) => some mark
    | _ => none

variable {blanks : BlankRun} {data text : Text}

theorem lead_eq_thrown {kept front : Text} {unclosed : Unclosed} {run : Run OpenQuote Text}
    (throws : lead kept run = .error (.thrown (front, unclosed))) :
    ∃ later, run = .error (.thrown (later, unclosed)) ∧ front = kept ++ later := by
  rcases run with (⟨later, other⟩ | _ | _) | left
  · obtain ⟨rfl, rfl⟩ := by simpa using throws
    exact ⟨later, rfl, rfl⟩
  all_goals simp [lead] at throws

/-- A quote that is open stands behind the text that is left of what precedes it. -/
def OpenBehind (text front : Text) (unclosed : Unclosed) : Prop :=
  unclosed.Names text ∧ ∃ before, text = before ++ unclosed.text ∧ front.Sublist before

theorem OpenBehind.append {first kept later rest : Text} {unclosed : Unclosed}
    (behind : OpenBehind rest later unclosed) (sublist : kept.Sublist first) :
    OpenBehind (first ++ rest) (kept ++ later) unclosed := by
  obtain ⟨names, before, rfl, inside⟩ := behind
  exact ⟨names.of_suffix (List.suffix_append first _), first ++ before,
    by rw [List.append_assoc], sublist.append inside⟩

theorem openBehind_lead {first kept rest front : Text} {unclosed : Unclosed}
    (sublist : kept.Sublist first)
    (ih : ∀ {later}, strip rest = .error (.thrown (later, unclosed)) → OpenBehind rest later unclosed)
    (throws : lead kept (strip rest) = .error (.thrown (front, unclosed))) :
    OpenBehind (first ++ rest) front unclosed := by
  obtain ⟨later, behind, rfl⟩ := lead_eq_thrown throws
  exact (ih behind).append sublist

theorem strip_thrown {front : Text} {unclosed : Unclosed}
    (throws : strip text = .error (.thrown (front, unclosed))) : OpenBehind text front unclosed := by
  induction text using strip.induct generalizing front with
  | case1 => simp [strip] at throws
  | case2 rest ih =>
    rw [strip_escaped] at throws
    have found := openBehind_lead (.refl ('\\' :: rest.take 1)) ih throws
    rwa [List.cons_append, List.take_append_drop] at found
  | case3 c rest notBackslash quote is found =>
    rw [strip_quote_open is found] at throws
    obtain ⟨rfl, rfl⟩ := by simpa using throws
    refine ⟨⟨?_, ⟨c, rest, rfl, opens_of_quoteOf is⟩, List.suffix_refl _⟩, [], rfl, .slnil⟩
    rcases quoteOf_cases is with ⟨_, rfl⟩ | ⟨_, rfl⟩ <;> simp [unclosedMessages]
  | case4 c rest notBackslash quote is raw after found ih =>
    rw [strip_quote is found] at throws
    have behind := openBehind_lead (.refl (c :: raw ++ c :: after.take 1)) ih throws
    have whole : c :: raw ++ c :: after.take 1 ++ after.drop 1 = c :: rest := by
      rw [(closed_of_closeQuote found).2, ← (quoteOf_eq_some is).1]
      simp only [List.cons_append, List.append_assoc, List.take_append_drop]
    rwa [whole] at behind
  | case5 c rest notBackslash is comment after =>
    rename_i ih
    rw [strip_comment notBackslash is comment] at throws
    have sublist : (after.take 1).Sublist (c :: (rest.takeWhile (· != '\n') ++ after.take 1)) :=
      (List.sublist_append_right _ _).cons c
    have found := openBehind_lead sublist ih throws
    have whole : c :: (rest.takeWhile (· != '\n') ++ after.take 1) ++ after.drop 1 = c :: rest := by
      rw [List.cons_append, List.append_assoc, List.take_append_drop, List.takeWhile_append_dropWhile]
    rwa [whole] at found
  | case6 c rest notBackslash is plain ih =>
    rw [strip_plain notBackslash is (by simpa using plain)] at throws
    exact openBehind_lead (.refl [c]) ih throws

/-- A character stands in front of the end of the C string if no NUL precedes it. -/
theorem lt_cstr_iff {place : Nat} {c : Char} (stands : text[place]? = some c) (given : c ≠ nul) :
    place < (cstr text).length ↔ nul ∉ text.take place := by
  obtain ⟨inside, here⟩ := List.getElem?_eq_some_iff.mp stands
  constructor
  · intro before member
    have front : text.take place = (cstr text).take place := by
      have start : (cstr text).IsPrefix text := List.takeWhile_prefix _
      rw [List.prefix_iff_eq_take.mp start, List.take_take, min_eq_left before.le]
    rw [front] at member
    have plain := List.mem_takeWhile_imp (p := (· != nul)) (List.mem_of_mem_take member)
    simp at plain
  · intro none
    have split : text = text.take place ++ c :: text.drop (place + 1) := by
      rw [← here, List.cons_getElem_drop_succ, List.take_append_drop]
    have plain : ∀ d ∈ text.take place, (d != nul) = true := by
      intro d member
      have other : d ≠ nul := fun same => none (same ▸ member)
      simpa using other
    have size : (text.take place).length = place := List.length_take_of_le inside.le
    rw [split, cstr, List.takeWhile_append_of_pos plain, List.takeWhile_cons_of_pos (by simpa using given),
      List.length_append, size, List.length_cons]
    omega

/-- A position that is counted up to a mark points at it in the data, unless a NUL
ends the C string in front of it. -/
theorem pointsAt_iff {error : FormatError} {mark : Spot} {c : Char} (opens : Opens c)
    (stands : error.sdat[mark.place]? = some c) (counts : mark.Counts error.index) :
    error.PointsAt mark.place ↔ mark.straight = true ∧ nul ∉ error.sdat.take mark.place := by
  have given : c ≠ nul := by
    rintro rfl
    exact absurd opens (by unfold Opens; decide)
  have ends : mark.place < error.data.length ↔ nul ∉ error.sdat.take mark.place :=
    lt_cstr_iff stands given
  rw [FormatError.PointsAt, ← counts.exact]
  constructor
  · rintro ⟨_, before, same⟩
    exact ⟨same, ends.mp (by omega)⟩
  · rintro ⟨same, none⟩
    have before := ends.mpr none
    exact ⟨counts.nonneg, by omega, same⟩

/-- The mark of a quote that is open when comments are taken out. -/
theorem OpenBehind.counts {front : Text} {unclosed : Unclosed} (behind : OpenBehind data front unclosed) :
    ∃ place c, data.length - unclosed.text.length = place ∧ data[place]? = some c ∧ Opens c ∧
      (Spot.mk place (front = data.take place)).Counts front.length := by
  obtain ⟨⟨_, ⟨c, rest, is, opens⟩, _⟩, before, rfl, sublist⟩ := behind
  have shorter := sublist.length_le
  refine ⟨before.length, c, by simp, by simp [is], opens, by simp, by simpa using shorter, ?_⟩
  rw [List.take_left, decide_eq_true_eq, Int.natCast_inj]
  exact ⟨sublist.eq_of_length, congrArg List.length⟩

theorem formatError_index (what origin input : Text) (number : Int) :
    (formatError what origin input number).index = toInt number := rfl

/-- The position of an exception about a mark is the mark's place if and only if the
mark is straight; `data()` ends at a NUL. -/
theorem importString_pointsAt_iff (room : data.length < 2 ^ 31) {file after : Ztd.Filedat}
    {error : FormatError} (rejected : file.importString blanks data = (after, some (.thrown error)))
    (unclosed : error.what ∈ unclosedMessages) :
    ∃ mark c, culprit blanks data = some mark ∧ error.sdat[mark.place]? = some c ∧ Opens c ∧
      (error.PointsAt mark.place ↔ mark.straight = true ∧ nul ∉ error.sdat.take mark.place) := by
  rw [Filedat.importString, Filedat.generateChunk] at rejected
  rw [culprit]
  have comments : removeComments data = left (strip data) := removeComments_eq (by omega)
  cases strips : strip data with
  | error stop =>
    rw [strips] at comments
    rcases stop with ⟨front, open_⟩ | _ | _
    · have behind := strip_thrown strips
      obtain ⟨place, c, is, stands, opens, counts⟩ := behind.counts
      have small : front.length < 2 ^ 31 := by
        obtain ⟨_, before, rfl, sublist⟩ := behind
        rw [List.length_append] at room
        have shorter := sublist.length_le
        omega
      rw [comments] at rejected
      obtain ⟨rfl, rfl⟩ := by simpa [left, Run.mapError, Filedat.failed] using rejected
      refine ⟨_, c, rfl, by rwa [is], opens, ?_⟩
      rw [is]
      refine @pointsAt_iff _ ⟨place, front = data.take place⟩ c opens stands ?_
      have inner : toInt (front.length : Int) = front.length := toInt_of_lt (by omega) (by omega)
      rw [formatError_index, formatError_index, inner, inner]
      exact counts
    · simp [comments, left, Run.mapError, Filedat.failed] at rejected
    · simp [comments, left, Run.mapError, Filedat.failed] at rejected
  | ok text =>
    have shorter := strip_length strips
    have same : Run.Matches (Chunk.Alike Tracks) (Blames text 0) (set blanks text 0).construct
      (locateData blanks text) := set_matches (by omega)
    replace comments : removeComments data = .ok text := by rw [comments, strips]; rfl
    simp only [comments] at rejected
    cases built : (set blanks text 0).construct with
    | ok chunk => simp [built] at rejected
    | error stop =>
      rw [built] at same
      rcases stop with inner | _ | _
      · obtain ⟨rfl, rfl⟩ := by simpa [built, Filedat.failed] using rejected
        cases located : locateData blanks text with
        | ok other =>
          rw [located] at same
          cases same
        | error stop =>
          rw [located] at same
          rcases stop with (mark | _) | _ | _
          · obtain ⟨known, nonneg, counts, small, c, stands, opens⟩ := same
            rw [Int.zero_add] at counts
            have le := counts.le
            refine ⟨mark, c, by simp [located], stands, opens, pointsAt_iff opens stands ?_⟩
            rwa [formatError_index, toInt_of_lt nonneg (by omega)]
          · have known : cstr inner.what ∈ unclosedMessages := unclosed
            rw [FormatError.what, cstr_cstr] at known
            exact absurd known same
          · exact same.elim
          · exact same.elim
      · simp [built, Filedat.failed] at rejected
      · simp [built, Filedat.failed] at rejected

/-- `[a,{b]`: the exception points at the brace. -/
theorem importString_pointsAt_iff_list : ∃ mark c,
    culprit .unchecked ['[', 'a', ',', '{', 'b', ']'] = some mark ∧
      ['[', 'a', ',', '{', 'b', ']'][mark.place]? = some c ∧ Opens c ∧
      ((formatError (message "Brace does not close") [] ['[', 'a', ',', '{', 'b', ']'] 3).PointsAt
        mark.place ↔ mark.straight = true ∧ nul ∉ ['[', 'a', ',', '{', 'b', ']'].take mark.place) :=
  @importString_pointsAt_iff .unchecked ['[', 'a', ',', '{', 'b', ']'] (by decide) {} _ _ rfl
    (by decide)

/-- The exception for the bracket in `{a=[x}` points at the key. -/
theorem importString_misses_mark :
    ¬ ∀ (blanks : BlankRun) (data : Text) (file after : Ztd.Filedat) (error : FormatError),
      data.length < 2 ^ 31 → file.importString blanks data = (after, some (.thrown error)) →
      error.what ∈ unclosedMessages →
      ∃ mark, culprit blanks data = some mark ∧ error.PointsAt mark.place := by
  intro points
  have is : culprit .unchecked ['{', 'a', '=', '[', 'x', '}'] = some ⟨3, false⟩ := by decide +kernel
  obtain ⟨mark, found, _, _, place⟩ := points .unchecked ['{', 'a', '=', '[', 'x', '}'] {} _
    (formatError (message "Brace does not close") [] ['{', 'a', '=', '[', 'x', '}'] 1)
    (by decide) rfl (by decide)
  obtain rfl : mark = ⟨3, false⟩ := Option.some.inj (found.symm.trans is)
  exact absurd place (by decide)

end Ztd.Filedat
