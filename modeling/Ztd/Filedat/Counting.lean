import Ztd.Filedat.Locating
import Ztd.Filedat.Endings
import Ztd.Filedat.Nodes

/-! The positions the parser counts against the places in the data. Every addition
of the code is exact or too small, so that a sum is right only if nothing has been
missed on the way. -/

namespace Ztd.Filedat
open Ztd.Lib

/-- A position that is counted up to a spot: never too far, and right if the spot is
straight. -/
structure Spot.Counts (spot : Spot) (position : Int) : Prop where
  nonneg : 0 ≤ position
  le : position ≤ spot.place
  exact : position = spot.place ↔ spot.straight = true

def Tracks (position : Int) (spot : Option Spot) : Prop := ∀ start ∈ spot, start.Counts position

/-- Text behind a place of data whose places are `int`s. -/
structure Placed.Fits (data : Text) (placed : Placed) (start : Nat) : Prop where
  ascending : placed.places.Pairwise (· < ·)
  within : ∀ place ∈ placed.places, start ≤ place ∧ place < 2 ^ 31
  short : placed.length < 2 ^ 31
  stands : ∀ mark ∈ placed, data[mark.2]? = some mark.1

/-- An exception of a text that starts at a position, and why the text is rejected. -/
def Blames (data : Text) (position : Int) (error : FormatError) : Trouble → Prop
  | .unclosed mark => error.what ∈ unclosedMessages ∧ 0 ≤ error.index ∧
      mark.Counts (position + error.index) ∧ mark.place < 2 ^ 31 ∧
        ∃ c, data[mark.place]? = some c ∧ Opens c
  | .other => error.what ∉ unclosedMessages

variable {data : Text} {start : Spot} {position : Int} {front rest whole : Placed}

theorem Placed.Fits.sublist {placed part : Placed} {place : Nat} (fits : placed.Fits data place)
    (sublist : part.Sublist placed) : part.Fits data place where
  ascending := fits.ascending.sublist (sublist.map Prod.snd)
  within number member := fits.within number ((sublist.map Prod.snd).subset member)
  short := sublist.length_le.trans_lt fits.short
  stands mark member := fits.stands mark (sublist.subset member)

/-- Text that starts later on. -/
theorem Placed.Fits.from_ {placed : Placed} {place later : Nat} (fits : placed.Fits data place)
    (behind : ∀ number ∈ placed.places, later ≤ number) : placed.Fits data later :=
  { fits with within := fun number member => ⟨behind number member, (fits.within number member).2⟩ }

section Counts
variable {c : Char} {place : Nat} {before after : Placed}

/-- The characters in front of a place are counted. -/
theorem Spot.Counts.ahead (counts : start.Counts position)
    (fits : Placed.Fits data (before ++ (c, place) :: after) start.place) :
    (start.ahead (before ++ (c, place) :: after) place).Counts (position + before.length) := by
  have places : Placed.places (before ++ (c, place) :: after) =
      before.map Prod.snd ++ place :: after.map Prod.snd := by simp [Placed.places]
  obtain ⟨room, full⟩ := add_length_le (places ▸ fits.ascending)
    fun number member => (fits.within number (places ▸ member)).1
  rw [List.length_map, ← places] at full
  rw [List.length_map] at room
  have nonneg := counts.nonneg
  have le := counts.le
  refine ⟨by omega, by simp only [Spot.ahead]; omega, ?_⟩
  simp only [Spot.ahead, Bool.and_eq_true, decide_eq_true_eq, ← full, ← counts.exact]
  omega

/-- Fewer characters are counted than there are in front of a place. -/
theorem Spot.Counts.missed (counts : start.Counts position)
    (fits : Placed.Fits data (before ++ (c, place) :: after) start.place) {count : Nat}
    (fewer : count < before.length) : (Spot.missed place).Counts (position + count) := by
  have room := (counts.ahead fits).le
  have nonneg := counts.nonneg
  simp only [Spot.ahead] at room
  refine ⟨by omega, by simp only [Spot.missed]; omega, ?_⟩
  simp only [Spot.missed, Bool.false_eq_true, iff_false]
  omega

end Counts

theorem toInt_of_lt {number : Int} (nonneg : 0 ≤ number) (small : number < 2 ^ 31) :
    toInt number = number := by
  rw [toInt, Int.bmod_eq_of_le] <;> omega

section Errors

theorem cstr_cstr (text : Text) : cstr (cstr text) = cstr text := by
  have given : ∀ c ∈ cstr text, (c != nul) = true := fun c member =>
    List.mem_takeWhile_imp (p := (· != nul)) member
  exact List.takeWhile_eq_self_iff.mpr given

theorem cstr_unclosed {text : Text} (known : text ∈ unclosedMessages) : cstr text = text := by
  simp only [unclosedMessages, List.mem_cons, List.not_mem_nil, or_false] at known
  rcases known with rfl | rfl | rfl | rfl | rfl <;> rfl

/-- Other messages begin with other letters. -/
theorem cstr_other {c : Char} {rest : Text} (letter : c ∈ ['V', 'K', 'U']) :
    cstr (c :: rest) ∉ unclosedMessages := by
  have given : (c != nul) = true := by
    simp only [List.mem_cons, List.not_mem_nil, or_false] at letter
    rcases letter with rfl | rfl | rfl <;> decide
  rw [cstr, List.takeWhile_cons, if_pos given]
  intro known
  simp only [unclosedMessages, List.mem_cons, List.not_mem_nil, or_false] at known letter
  rcases known with same | same | same | same | same <;>
    rcases letter with rfl | rfl | rfl <;> exact absurd (List.cons.inj same).1 (by decide)

/-- A handler that adds where its text starts. -/
theorem Blames.rethrow {error : FormatError} {trouble : Trouble} {count : Int}
    (counted : 0 ≤ count) (started : 0 ≤ position) (blames : Blames data (position + count) error trouble)
    (origin input : Text) :
    Blames data position (formatError error.what origin input (count + error.index)) trouble := by
  cases trouble with
  | other =>
    change cstr (cstr error.desc) ∉ unclosedMessages
    rw [cstr_cstr]
    exact blames
  | unclosed mark =>
    obtain ⟨known, nonneg, counts, small⟩ := blames
    have le := counts.le
    have index : (formatError error.what origin input (count + error.index)).index =
        count + error.index := toInt_of_lt (by omega) (by omega)
    refine ⟨?_, by omega, by rwa [index, ← Int.add_assoc], small⟩
    change cstr error.what ∈ unclosedMessages
    rwa [cstr_unclosed known]

/-- The place at which an end of a text begins. -/
theorem Placed.start_eq {placed before after : Placed} {c : Char × Nat}
    (split : placed = before ++ c :: after) : placed.start (c.1 :: after.text) = c.2 := by
  rw [Placed.start, ← Placed.text_cons, split, Placed.behind_append]
  rfl

/-- What an exception of `_getstrval` is about. -/
theorem Unclosed.Names.split {unclosed : Unclosed} {placed : Placed}
    (names : unclosed.Names placed.text) : ∃ before c place after,
      placed = before ++ (c, place) :: after ∧ placed.start unclosed.text = place ∧ Opens c ∧
      (unclosed.error placed.text).index = toInt (before.length : Nat) ∧
      (unclosed.error placed.text).what ∈ unclosedMessages := by
  obtain ⟨known, ⟨c, rest, is, opens⟩, first, split⟩ := names
  obtain ⟨before, back, rfl, rfl, text⟩ := Placed.of_text_append split.symm
  rw [is] at text
  cases back with
  | nil => simp at text
  | cons mark after =>
    obtain ⟨mark, place⟩ := mark
    obtain ⟨rfl, rfl⟩ := by simpa using text
    have size : (before ++ (mark, place) :: after).text.length - unclosed.text.length =
        before.length := by simp [is]
    refine ⟨before, mark, place, after, rfl, ?_, opens, ?_, ?_⟩
    · rw [is]
      exact Placed.start_eq rfl
    · simp only [Unclosed.error, size, formatError]
    · change cstr unclosed.message ∈ unclosedMessages
      rwa [cstr_unclosed known]

theorem Blames.ahead (counts : start.Counts position) (fits : Placed.Fits data (front ++ rest) start.place)
    {unclosed : Unclosed} (names : unclosed.Names rest.text) :
    Blames data (position + front.length) (unclosed.error rest.text)
      (rest.blame (start.ahead (front ++ rest)) unclosed) := by
  obtain ⟨before, c, place, after, rfl, begins, opens, index, known⟩ := names.split
  rw [← List.append_assoc] at fits ⊢
  have short := fits.short
  simp only [List.length_append, List.length_cons] at short
  rw [toInt_of_lt (by omega) (by omega)] at index
  rw [Placed.blame, begins]
  refine ⟨known, by omega, ?_, (fits.within place (by simp [Placed.places])).2, c,
    fits.stands (c, place) (by simp), opens⟩
  have counted := counts.ahead fits
  rwa [index, Int.add_assoc, ← Int.natCast_add, ← List.length_append]

/-- An exception of the value of a pair is not moved behind the key. -/
theorem Blames.missed {skipped : Placed} (counts : start.Counts position)
    (fits : Placed.Fits data (front ++ (skipped ++ rest)) start.place) (nonempty : skipped ≠ [])
    {unclosed : Unclosed} (names : unclosed.Names rest.text) :
    Blames data (position + front.length) (unclosed.error rest.text)
      (rest.blame Spot.missed unclosed) := by
  obtain ⟨before, c, place, after, rfl, begins, opens, index, known⟩ := names.split
  have positive := List.length_pos_iff.mpr nonempty
  rw [← List.append_assoc skipped, ← List.append_assoc] at fits
  have short := fits.short
  simp only [List.length_append, List.length_cons] at short
  rw [toInt_of_lt (by omega) (by omega)] at index
  rw [Placed.blame, begins]
  refine ⟨known, by omega, ?_, (fits.within place (by simp [Placed.places])).2, c,
    fits.stands (c, place) (by simp), opens⟩
  have counted := counts.missed fits (show front.length + before.length < _ by
    simp only [List.length_append]
    omega)
  rwa [index, Int.add_assoc, ← Int.natCast_add]

end Errors

/-- What `_getstrval` returns, by the characters it reads. -/
structure Reads (blanks : BlankRun) (delim altdelim : Char) (placed : Placed) (tup : StrVal)
    (found : Placed × Placed) : Prop where
  reads : placed.read blanks delim altdelim = .ok found
  value : tup.value = found.1.text
  rest : tup.rest = found.2.text
  restStart : placed.dropUnread ≠ [] → tup.restStart = (placed.length - found.2.length : Nat)
  valueStart : placed.dropUnread ≠ [] → tup.valueStart = placed.blank.length
  delimFound : placed.dropUnread ≠ [] → tup.delimFound = (found.2 != [])
  blank : placed.dropUnread = [] → tup.restStart = 0 ∧ tup.valueStart = 0 ∧ found.2 = []

section Strings
variable {blanks : BlankRun} {delim altdelim : Char} {placed : Placed}

theorem Placed.dropUnread_eq_nil_iff :
    Filedat.dropUnread placed.text = [] ↔ placed.dropUnread = [] := by
  rw [← Placed.dropUnread_text, Placed.text_eq_nil_iff]

theorem Placed.blank_length (placed : Placed) :
    placed.blank.length = placed.length - placed.dropUnread.length := by
  have size := congrArg List.length placed.blank_append
  rw [List.length_append] at size
  omega

/-- There is no text, or it starts with the first readable character. -/
theorem Placed.spot_cases (delim altdelim : Char) (at_ : Nat → Spot) (placed : Placed) :
    placed.spot delim altdelim at_ = none ∨ ∃ c place after,
      placed = placed.blank ++ (c, place) :: after ∧ placed.dropUnread = (c, place) :: after ∧
      placed.spot delim altdelim at_ = some (at_ place) := by
  cases start : placed.dropUnread with
  | nil => exact .inl (by rw [Placed.spot, start])
  | cons head after =>
    obtain ⟨c, place⟩ := head
    cases ends : isDelim delim altdelim c with
    | true => exact .inl (by simp [Placed.spot, start, ends])
    | false =>
      refine .inr ⟨c, place, after, ?_, rfl, by simp [Placed.spot, start, ends]⟩
      rw [← start, Placed.blank_append]

/-- A value that is missing is empty. -/
theorem Placed.read_missing (delimits : Delimits delim altdelim) {at_ : Nat → Spot}
    {value behind : Placed} (missing : placed.spot delim altdelim at_ = none)
    (reads : placed.read blanks delim altdelim = .ok (value, behind)) : value = [] := by
  have found := (Placed.read_split reads).1
  cases start : placed.dropUnread with
  | nil =>
    rw [read_blank (Placed.dropUnread_eq_nil_iff.mpr start)] at found
    exact Placed.text_eq_nil_iff.mp (Prod.mk.inj (Except.ok.inj found)).1.symm
  | cons head after =>
    obtain ⟨c, place⟩ := head
    have ends : isDelim delim altdelim c = true := by
      by_contra not
      simp [Placed.spot, start, not] at missing
    have text : placed.text = placed.blank.text ++ c :: Placed.text after := by
      conv_lhs => rw [← Placed.blank_append placed, start]
      exact Placed.text_append _ _
    have unread : ∀ d ∈ placed.blank.text, isRead d = false := by
      intro d member
      obtain ⟨mark, inside, rfl⟩ := List.mem_map.mp member
      simpa using List.mem_takeWhile_imp inside
    have readable : isRead c = true := by
      rcases cases_unread placed.text with none | ⟨d, later, is, readable⟩
      · simp [Placed.dropUnread_eq_nil_iff.mp none] at start
      · rw [← Placed.dropUnread_text, start] at is
        obtain ⟨rfl, _⟩ := by simpa using is
        exact readable
    rw [text, Filedat.read_missing delimits unread readable ends] at found
    exact Placed.text_eq_nil_iff.mp (Prod.mk.inj (Except.ok.inj found)).1.symm

/-- `_getstrval` reads the characters and counts them. -/
theorem getstrval_matches (short : placed.length < 2 ^ 31) :
    Run.Matches (Reads blanks delim altdelim placed)
      (fun error unclosed => error = unclosed.error placed.text ∧ unclosed.Names placed.text)
      (getstrval blanks placed.text delim altdelim) (placed.read blanks delim altdelim) := by
  rw [getstrval_eq]
  cases reads : placed.read blanks delim altdelim with
  | error stop =>
    have found := Run.map_eq_error.mp reads
    rw [found]
    cases stop with
    | thrown unclosed => exact ⟨rfl, read_names found⟩
    | fault => trivial
    | diverged => trivial
  | ok result =>
    obtain ⟨value, behind⟩ := result
    have found := (Placed.read_split reads).1
    rw [found]
    have size := placed.blank_length
    change Reads blanks delim altdelim placed (strVal placed.text (value.text, behind.text))
      (value, behind)
    by_cases blank : placed.dropUnread = []
    · have empty := Placed.dropUnread_eq_nil_iff.mpr blank
      rw [read_blank empty] at found
      obtain ⟨noValue, noRest⟩ := Prod.mk.inj (Except.ok.inj found)
      have none := Placed.text_eq_nil_iff.mp noRest.symm
      exact ⟨reads, by simp [strVal, empty, ← noValue], by simp [strVal, empty, ← noRest],
        fun filled => absurd blank filled, fun filled => absurd blank filled,
        fun filled => absurd blank filled, fun _ => by simp [strVal, empty, none]⟩
    · have filled : Filedat.dropUnread placed.text ≠ [] := fun none =>
        blank (Placed.dropUnread_eq_nil_iff.mp none)
      refine ⟨reads, by simp [strVal, filled], by simp [strVal, filled], fun _ => ?_, fun _ => ?_,
        fun _ => ?_, fun none => absurd none blank⟩
      · simp only [strVal, filled, if_false, Placed.text_length]
        exact toInt_of_lt (by omega) (by omega)
      · simp only [strVal, filled, if_false]
        rw [← Placed.dropUnread_text, Placed.text_length, Placed.text_length, ← size]
        exact toInt_of_lt (by omega) (by omega)
      · simp only [strVal, filled, if_false]
        cases behind <;> rfl

end Strings

/-- A value is read of a text with readable characters. -/
theorem Reads.filled {blanks : BlankRun} {delim altdelim : Char} {tup : StrVal}
    {found : Placed × Placed} (reads : Reads blanks delim altdelim rest tup found)
    (some : found.1 ≠ []) : rest.dropUnread ≠ [] := by
  intro blank
  have none := (Placed.read_split reads.reads).1
  rw [read_blank (Placed.dropUnread_eq_nil_iff.mpr blank)] at none
  exact some (Placed.text_eq_nil_iff.mp (Prod.mk.inj (Except.ok.inj none)).1.symm)

theorem Reads.started {blanks : BlankRun} {delim altdelim : Char} {tup : StrVal}
    {found : Placed × Placed} (reads : Reads blanks delim altdelim rest tup found) :
    0 ≤ tup.valueStart := by
  by_cases blank : rest.dropUnread = []
  · exact (reads.blank blank).2.1.ge
  · rw [reads.valueStart blank]
    exact Int.natCast_nonneg _

/-- The text of a value behind its spot; without a spot there is none. -/
def Placed.FitsSpot (data : Text) (value : Placed) : Option Spot → Prop
  | none => value = []
  | some start => value.Fits data start.place

section Values
variable {blanks : BlankRun} {delim altdelim : Char} {tup : StrVal} {found : Placed × Placed}

theorem Reads.fits (reads : Reads blanks delim altdelim rest tup found)
    (delimits : Delimits delim altdelim) {place : Nat} (fits : rest.Fits data place)
    {at_ : Nat → Spot} (is : ∀ place, (at_ place).place = place) :
    found.1.FitsSpot data (rest.spot delim altdelim at_) := by
  rcases rest.spot_cases delim altdelim at_ with missing | ⟨c, first, after, split, start, spot⟩
  · rw [missing]
    exact Placed.read_missing delimits missing reads.reads
  · obtain ⟨_, taken, parts, sublist⟩ := Placed.read_split reads.reads
    have behind : taken ++ found.2 = (c, first) :: after :=
      List.append_cancel_left (parts.symm.trans split)
    have value : found.1.Sublist ((c, first) :: after) :=
      (sublist.trans (List.sublist_append_left _ _)).trans (by rw [behind])
    have later : Placed.Fits data ((c, first) :: after) place :=
      fits.sublist (by rw [split]; exact List.sublist_append_right _ _)
    rw [spot]
    change found.1.Fits data (at_ first).place
    rw [is]
    refine (later.from_ ?_).sublist value
    intro number member
    rcases List.mem_cons.mp member with rfl | behind
    · exact Nat.le_refl _
    · exact Nat.le_of_lt ((List.pairwise_cons.mp later.ascending).1 number behind)

theorem Reads.tracks (reads : Reads blanks delim altdelim rest tup found)
    (counts : start.Counts position) (fits : Placed.Fits data (front ++ rest) start.place) :
    Tracks (position + (front.length + tup.valueStart))
      (rest.spot delim altdelim (start.ahead (front ++ rest))) := by
  rcases rest.spot_cases delim altdelim (start.ahead (front ++ rest)) with
    missing | ⟨c, first, after, split, begins, spot⟩
  · simp [Tracks, missing]
  · have whole : front ++ rest = (front ++ rest.blank) ++ (c, first) :: after := by
      rw [List.append_assoc, ← split]
    have counted := counts.ahead (whole ▸ fits)
    rw [← whole, List.length_append] at counted
    rw [spot, reads.valueStart (by simp [begins])]
    intro found member
    obtain rfl := Option.some.inj member
    exact counted

/-- The position of the value of a pair is not moved behind the key. -/
theorem Reads.tracks_missed (reads : Reads blanks delim altdelim rest tup found)
    (counts : start.Counts position) {skipped : Placed}
    (fits : Placed.Fits data (front ++ (skipped ++ rest)) start.place) (nonempty : skipped ≠ []) :
    Tracks (position + (front.length + tup.valueStart))
      (rest.spot delim altdelim Spot.missed) := by
  rcases rest.spot_cases delim altdelim Spot.missed with missing | ⟨c, first, after, split, begins, spot⟩
  · simp [Tracks, missing]
  · have positive := List.length_pos_iff.mpr nonempty
    have whole : front ++ (skipped ++ rest) = (front ++ skipped ++ rest.blank) ++ (c, first) :: after := by
      conv_lhs => rw [split]
      simp
    have counted := counts.missed (whole ▸ fits) (show front.length + rest.blank.length < _ by
      simp only [List.length_append]
      omega)
    rw [spot, reads.valueStart (by simp [begins])]
    intro found member
    obtain rfl := Option.some.inj member
    exact counted

end Values

/-- Chunks are made alike of a text, or the same exceptions. -/
def BuildsAlike (data : Text) (construct : Construct) (locate : Locate) : Prop :=
  ∀ value offset spot, 0 ≤ offset → Tracks offset spot → value.FitsSpot data spot →
    Run.Matches (Chunk.Alike Tracks) (Blames data offset) (construct value.text offset) (locate spot value)

/-- Alike elements, and rests up to which the text in front has been counted. -/
def ElementAlike (front rest : Placed) (round : Chunkdat × Text × Int) (located : Located × Placed) :
    Prop :=
  round.1.Alike Tracks located.1 ∧ round.2.1 = located.2.text ∧
    (located.2 ≠ [] → ∃ taken : Placed, rest = taken ++ located.2 ∧
      round.2.2 = (front ++ taken).length)

section Rounds
variable {blanks : BlankRun} {construct : Construct} {build : Locate} {tup : StrVal}
  {found : Placed × Placed}

/-- A rest that is not empty has been counted up to. -/
theorem Reads.counted {delim altdelim : Char} (reads : Reads blanks delim altdelim rest tup found)
    (more : found.2 ≠ []) : ∃ taken : Placed, rest = taken ++ found.2 ∧
      tup.restStart = taken.length ∧ taken = rest.take (rest.length - found.2.length) := by
  obtain ⟨_, taken, split, _⟩ := Placed.read_split reads.reads
  have filled : rest.dropUnread ≠ [] := fun blank => more (reads.blank blank).2.2
  have whole : rest = (rest.blank ++ taken) ++ found.2 := by rw [List.append_assoc, ← split]
  have size : rest.length - found.2.length = (rest.blank ++ taken).length := by
    have sum := congrArg List.length whole
    rw [@List.length_append _ (rest.blank ++ taken)] at sum
    omega
  refine ⟨rest.blank ++ taken, whole, by rw [reads.restStart filled, size], ?_⟩
  rw [size]
  exact (congrArg (List.take _) whole).symm ▸ (List.take_left ..).symm

section List
variable (builds : BuildsAlike data construct build) (counts : start.Counts position)
include builds counts

theorem listElement_matches (input : Text) (fits : Placed.Fits data (front ++ rest) start.place) :
    Run.Matches (ElementAlike front rest) (Blames data position)
      (listElement blanks construct input position rest.text front.length)
      (locateElement blanks build start (front ++ rest) rest) := by
  have behind := fits.sublist (List.sublist_append_right front rest)
  have nonneg := counts.nonneg
  have reading : Run.Matches (Reads blanks ',' ';' rest) (Blames data (position + front.length))
      (getstrval blanks rest.text ',' ';')
      ((rest.read blanks ',' ';').mapError (rest.blame (start.ahead (front ++ rest)))) := by
    refine (getstrval_matches behind.short).mapError ?_
    rintro error unclosed ⟨rfl, names⟩
    exact .ahead counts fits names
  rw [listElement, locateElement]
  refine (reading.rethrow ?_).bind fun tup found reads => ?_
  · intro error trouble blames
    rw [Int.add_comm error.index]
    exact blames.rethrow (Int.natCast_nonneg _) nonneg _ _
  · have tracks := reads.tracks counts fits
    have started := reads.started
    have built := builds found.1 (position + (front.length + tup.valueStart)) _ (by omega) tracks
      (reads.fits delimits_element behind fun _ => rfl)
    rw [← reads.value] at built
    refine (built.rethrow ?_).bind fun chunk located alike => ?_
    · intro error trouble blames
      rw [Int.add_comm error.index]
      exact blames.rethrow (by omega) nonneg _ _
    · refine ⟨alike, reads.rest, fun more => ?_⟩
      obtain ⟨taken, split, count, _⟩ := reads.counted more
      refine ⟨taken, split, ?_⟩
      rw [count, List.length_append, Int.natCast_add]

theorem listLoop_matches (input : Text) (fuel : Nat) {front rest : Placed}
    (fits : Placed.Fits data (front ++ rest) start.place) {elements : List Chunkdat}
    {located : List Located} (alike : List.Forall₂ (Chunk.Alike Tracks) elements located) :
    Run.Matches (List.Forall₂ (Chunk.Alike Tracks)) (Blames data position)
      (outcome (listLoop blanks construct input position fuel rest.text front.length elements))
      (locateElements blanks build start (front ++ rest) fuel rest located) := by
  induction fuel generalizing front rest elements located with
  | zero => trivial
  | succ fuel ih =>
    rw [outcome_listLoop, locateElements]
    refine (listElement_matches builds counts input fits).bind fun round found later => ?_
    obtain ⟨chunk, str, i⟩ := round
    obtain ⟨element, behind⟩ := found
    obtain ⟨here, text, counted⟩ := later
    obtain rfl : str = behind.text := text
    have grown : List.Forall₂ (Chunk.Alike Tracks) (elements ++ [chunk]) (located ++ [element]) :=
      List.rel_append alike (.cons here .nil)
    by_cases ends : behind = []
    · rw [if_neg (by simp [ends]), if_pos ends]
      exact grown
    · obtain ⟨taken, split, count⟩ := counted ends
      obtain rfl : i = ((front ++ taken).length : Nat) := count
      simp only [bne_iff_ne, ne_eq, Placed.text_eq_nil_iff, ends, not_false_eq_true, if_true, if_false]
      rw [split, ← List.append_assoc] at fits ⊢
      exact ih fits grown

end List

section Map

/-- Alike pairs, and rests up to which text has been counted. -/
structure PairAlike (data : Text) (position : Int) (front rest : Placed) (tup : KeyVal) (pair : LocatedPair) :
    Prop where
  key : tup.key = pair.key
  value : tup.value = pair.value.text
  left : tup.rest = pair.rest.text
  given : tup.key ≠ [] → 0 ≤ tup.valueStart ∧
    Tracks (position + (front.length + tup.valueStart)) pair.spot ∧ pair.value.FitsSpot data pair.spot
  counted : pair.rest ≠ [] → front.length + tup.restStart = (pair.front.length : Int) ∧
    (pair.front ++ pair.rest).Sublist (front ++ rest)

section Pair
variable {key rstr : Placed} {valueTup : StrVal}

/-- A semicolon in front of a key: the position behind it is the one in front of the rest. -/
theorem PairAlike.semicolon {mark : Char × Nat} {later : Placed}
    (reads : Reads blanks '=' nul rest tup (mark :: later, rstr)) :
    PairAlike data position front rest
      { key := [], value := [], rest := Placed.text later ++ tup.rest, restStart := tup.valueStart + 1
        valueStart := -1, keyStart := -1 }
      ⟨[], [], none, front ++ rest.blank ++ [mark], later ++ rstr⟩ := by
  have restText : tup.rest = rstr.text := reads.rest
  have filled : rest.dropUnread ≠ [] := reads.filled (List.cons_ne_nil mark later)
  obtain ⟨_, taken, split, sublist⟩ := Placed.read_split reads.reads
  refine ⟨rfl, rfl, ?_, fun given => absurd rfl given, fun _ => ⟨?_, ?_⟩⟩
  · rw [restText]
    exact (Placed.text_append _ _).symm
  · simp only [reads.valueStart filled, List.length_append, List.length_cons, List.length_nil]
    omega
  · have parts : front ++ rest.blank ++ [mark] ++ (later ++ rstr) =
        front ++ (rest.blank ++ ((mark :: later) ++ rstr)) := by simp
    rw [parts]
    conv_rhs => rw [split]
    exact .append (.refl _) (.append (.refl _) (sublist.append (.refl _)))

variable (counts : start.Counts position) (fits : Placed.Fits data (front ++ rest) start.place)
  (reads : Reads blanks '=' nul rest tup (key, rstr)) (given : key ≠ []) (more : rstr ≠ [])

/-- Between a key and its value at least one character has been taken. -/
theorem Reads.skipped (reads : Reads blanks '=' nul rest tup (key, rstr)) (given : key ≠ [])
    (more : rstr ≠ []) : ∃ skipped : Placed, rest = skipped ++ rstr ∧
      tup.restStart = skipped.length ∧ skipped ≠ [] := by
  obtain ⟨skipped, whole, count, _⟩ := reads.counted more
  obtain ⟨_, taken, split, sublist⟩ := Placed.read_split reads.reads
  refine ⟨skipped, whole, count, ?_⟩
  rintro rfl
  have size := congrArg List.length (whole.symm.trans split)
  have shorter := sublist.length_le
  have positive := List.length_pos_of_ne_nil given
  simp only [List.nil_append, List.length_append] at size shorter
  omega

include counts fits reads given more

theorem value_matches : Run.Matches (Reads blanks ';' '\n' rstr)
    (Blames data (position + front.length)) (getstrval blanks rstr.text ';' '\n')
    ((rstr.read blanks ';' '\n').mapError (rstr.blame Spot.missed)) := by
  obtain ⟨skipped, whole, _, nonempty⟩ := reads.skipped given more
  have inside : Placed.Fits data (front ++ (skipped ++ rstr)) start.place := whole ▸ fits
  have rstrFits := (inside.sublist (List.sublist_append_right front _)).sublist
    (List.sublist_append_right skipped rstr)
  refine (getstrval_matches rstrFits.short).mapError ?_
  rintro error unclosed ⟨rfl, names⟩
  exact .missed counts inside nonempty names

theorem PairAlike.withValue {valueFound : Placed × Placed}
    (valueReads : Reads blanks ';' '\n' rstr valueTup valueFound) :
    PairAlike data position front rest (Filedat.withValue rest.text tup valueTup)
      ⟨key.text, valueFound.1, rstr.spot ';' '\n' Spot.missed,
        front ++ rest.take (rest.length - valueFound.2.length), valueFound.2⟩ := by
  obtain ⟨skipped, whole, count, nonempty⟩ := reads.skipped given more
  have inside : Placed.Fits data (front ++ (skipped ++ rstr)) start.place := whole ▸ fits
  have rstrFits := (inside.sublist (List.sublist_append_right front _)).sublist
    (List.sublist_append_right skipped rstr)
  refine ⟨reads.value, valueReads.value, valueReads.rest, fun _ => ⟨valueReads.started,
    valueReads.tracks_missed counts inside nonempty,
    valueReads.fits delimits_entry rstrFits fun _ => rfl⟩, fun left => ?_⟩
  obtain ⟨taken, valueSplit, valueCount, _⟩ := valueReads.counted left
  have parts : rest = (skipped ++ taken) ++ valueFound.2 := by
    rw [List.append_assoc, ← valueSplit, ← whole]
  have front : rest.take (rest.length - valueFound.2.length) = skipped ++ taken := by
    rw [parts, List.length_append, Nat.add_sub_cancel, List.take_left]
  simp only [Filedat.withValue, front, valueCount, count]
  refine ⟨?_, ?_⟩
  · rw [if_pos (Int.natCast_nonneg _), List.length_append, List.length_append]
    omega
  · rw [List.append_assoc, ← parts]

end Pair

theorem getkeyval_matches (counts : start.Counts position)
    (fits : Placed.Fits data (front ++ rest) start.place) :
    Run.Matches (PairAlike data position front rest) (Blames data (position + front.length))
      (getkeyval blanks rest.text) (locatePair blanks start front rest) := by
  have behind := fits.sublist (List.sublist_append_right front rest)
  have reading : Run.Matches (Reads blanks '=' nul rest) (Blames data (position + front.length))
      (getstrval blanks rest.text '=' nul)
      ((rest.read blanks '=' nul).mapError (rest.blame (start.ahead (front ++ rest)))) := by
    refine (getstrval_matches behind.short).mapError ?_
    rintro error unclosed ⟨rfl, names⟩
    exact .ahead counts fits names
  rw [getkeyval_eq, locatePair]
  refine reading.bind fun tup found reads => ?_
  obtain ⟨key, rstr⟩ := found
  have value : tup.value = key.text := reads.value
  have restText : tup.rest = rstr.text := reads.rest
  have other {text data : Text} {index : Int} {c : Char} {later : Text} (is : text = c :: later)
      (letter : c ∈ ['V', 'K', 'U']) :
      Blames data (position + front.length) (formatError text [] data index) .other := by
    rw [is]
    exact cstr_other letter
  cases key with
  | nil =>
    by_cases blank : rstr.dropUnread = []
    · have empty : Filedat.dropUnread tup.rest = [] :=
        restText ▸ Placed.dropUnread_eq_nil_iff.mpr blank
      obtain ⟨pair, got, pairValue, pairRest, _⟩ := getstrval_ok
        (show Filedat.read blanks ';' '\n' tup.rest = .ok ([], []) from read_blank empty)
      have readNone : rstr.read blanks ';' '\n' = .ok ([], []) := by
        rw [Placed.read, read_blank (restText ▸ empty)]
        simp [Except.map, Placed.behind]
      rw [keyvalOf_blank blanks _ value empty, got]
      simp only [blank, readNone, Placed.text_nil, List.head?_nil, reduceCtorEq, if_false, ne_eq,
        not_true_eq_false, and_false, false_and, Run.mapError, Run.bind_ok]
      exact ⟨value, pairValue, pairRest, fun given => absurd value given, fun more => absurd rfl more⟩
    · have some : Filedat.dropUnread tup.rest ≠ [] := fun none =>
        blank (Placed.dropUnread_eq_nil_iff.mp (restText ▸ none))
      rw [keyvalOf_noKey blanks _ value some]
      simp only [blank, Placed.text_nil, List.head?_nil, reduceCtorEq, if_false, ne_eq,
        not_false_eq_true, and_self, if_true]
      exact other (show message "Value has no Key" = 'V' :: message "alue has no Key" from rfl)
        (by simp)
  | cons mark later =>
    have some : tup.value = mark.1 :: Placed.text later := value
    have filled : rest.dropUnread ≠ [] := reads.filled (List.cons_ne_nil mark later)
    by_cases semicolon : mark.1 = ';'
    · rw [keyvalOf_semicolon blanks _ (semicolon ▸ some),
        if_pos (by rw [Placed.text_cons, List.head?_cons, semicolon])]
      exact .semicolon reads
    · have delimited : tup.delimFound = (rstr != []) := reads.delimFound filled
      have plain : ¬(Placed.text (mark :: later)).head? = .some ';' := by
        simpa [Placed.text_cons] using semicolon
      rw [if_neg plain, if_neg (by simp)]
      by_cases more : rstr = []
      · have noDelim : tup.delimFound = false := by
          rw [delimited, more]
          rfl
        rw [keyvalOf_noValue blanks _ some semicolon noDelim,
          if_pos ⟨List.cons_ne_nil mark later, more⟩]
        exact other (show message "Key '" ++ _ ++ _ = 'K' :: _ from rfl) (by simp)
      · have delim : tup.delimFound = true := by
          rw [delimited]
          simpa using more
        have given := List.cons_ne_nil mark later
        rw [keyvalOf_keyed blanks _ some semicolon delim, restText, if_neg (fun ends => more ends.2)]
        exact (value_matches counts fits reads given more).bind fun valueTup valueFound valueReads =>
          .withValue counts fits reads given more valueReads

/-- Alike values, and rests up to which text has been counted. -/
def EntryAlike (front rest : Placed) (round : List (Text × Chunkdat) × Text × Int)
    (located : List (Text × Located) × Placed × Placed) : Prop :=
  OrderedMap.Related (Chunk.Alike Tracks) round.1 located.1 ∧ round.2.1 = located.2.2.text ∧
    (located.2.2 ≠ [] → round.2.2 = located.2.1.length ∧
      (located.2.1 ++ located.2.2).Sublist (front ++ rest))

/-- A value is constructed, and inserted under a key that is not taken. -/
theorem addEntry_matches {place : Int} {values : List (Text × Chunkdat)}
    {located : List (Text × Located)} {construction : Run FormatError Chunkdat}
    {location : Run Trouble Located}
    (built : Run.Matches (Chunk.Alike Tracks) (Blames data place) construction location)
    (alike : OrderedMap.Related (Chunk.Alike Tracks) values located) (key : Text)
    (taken : FormatError) (other : Blames data place taken .other) :
    Run.Matches (OrderedMap.Related (Chunk.Alike Tracks)) (Blames data place)
      (construction >>= fun chunk =>
        match OrderedMap.find? key values with
        | none => pure (OrderedMap.insert key chunk values)
        | some _ => Run.raise taken)
      (location >>= fun chunk =>
        match OrderedMap.find? key located with
        | none => pure (OrderedMap.insert key chunk located)
        | some _ => Run.raise .other) := by
  refine built.bind fun chunk element here => ?_
  have held := alike.find? key
  generalize OrderedMap.find? key values = found at held ⊢
  generalize OrderedMap.find? key located = against at held ⊢
  cases held with
  | none => exact alike.insert key here
  | some _ => exact other

variable (builds : BuildsAlike data construct build) (counts : start.Counts position)
include builds counts

theorem mapEntry_matches (input : Text) (fits : Placed.Fits data (front ++ rest) start.place)
    {values : List (Text × Chunkdat)} {located : List (Text × Located)}
    (alike : OrderedMap.Related (Chunk.Alike Tracks) values located) :
    Run.Matches (EntryAlike front rest) (Blames data position)
      (mapEntry blanks construct input position rest.text front.length values)
      (locateEntry blanks build start front rest located) := by
  have nonneg := counts.nonneg
  rw [mapEntry, locateEntry, skip_eq, Run.bind_ok, charAt_zero, Run.bind_ok, Placed.dropUnread_text]
  by_cases starts : (dropUnread rest.text).head? = some '='
  · rw [if_pos (by simp [starts]), if_pos starts]
    exact cstr_other (c := 'V') (by simp)
  · have notEqual : ¬((dropUnread rest.text).head?.getD nul == '=') = true := by
      cases head : (dropUnread rest.text).head? with
      | none => decide
      | some c => simpa [head] using starts
    rw [if_neg notEqual, if_neg starts]
    refine ((getkeyval_matches counts fits).rethrow ?_).bind fun tup pair same => ?_
    · intro error trouble blames
      exact blames.rethrow (Int.natCast_nonneg _) nonneg _ _
    · by_cases noKey : pair.key = []
      · rw [if_neg (by simp [same.key, noKey]), if_pos noKey]
        exact ⟨alike, same.left, fun more => same.counted more⟩
      · have given : tup.key ≠ [] := fun none => noKey (same.key ▸ none)
        obtain ⟨started, tracks, fits⟩ := same.given given
        have built := builds pair.value (position + (front.length + tup.valueStart)) pair.spot
          (by omega) tracks fits
        rw [← same.value] at built
        rw [if_pos (by simpa using given), if_neg noKey]
        have inserted := addEntry_matches built alike tup.key
          (formatError (message "Key '" ++ tup.key ++ message "' already present") [] input
            (front.length + tup.keyStart)) (cstr_other (c := 'K') (by simp))
        rw [same.key] at inserted ⊢
        refine (inserted.rethrow ?_).bind fun after results related => ?_
        · intro error trouble blames
          rw [Int.add_comm error.index]
          exact blames.rethrow (by omega) nonneg _ _
        · exact ⟨related, same.left, fun more => same.counted more⟩

theorem mapLoop_matches (input : Text) (fuel : Nat) {front rest : Placed}
    (fits : Placed.Fits data (front ++ rest) start.place) {values : List (Text × Chunkdat)}
    {located : List (Text × Located)} (alike : OrderedMap.Related (Chunk.Alike Tracks) values located) :
    Run.Matches (OrderedMap.Related (Chunk.Alike Tracks)) (Blames data position)
      (outcome (mapLoop blanks construct input position fuel rest.text front.length values))
      (locateEntries blanks build start fuel front rest located) := by
  induction fuel generalizing front rest values located with
  | zero => trivial
  | succ fuel ih =>
    rw [outcome_mapLoop, locateEntries]
    refine (mapEntry_matches builds counts input fits alike).bind fun round found later => ?_
    obtain ⟨after, str, i⟩ := round
    obtain ⟨results, ahead, behind⟩ := found
    obtain ⟨here, text, counted⟩ := later
    obtain rfl : str = behind.text := text
    by_cases ends : behind = []
    · rw [if_neg (by simp [ends]), if_pos ends]
      exact here
    · obtain ⟨count, sublist⟩ := counted ends
      obtain rfl : i = (ahead.length : Nat) := count
      rw [if_pos (by simpa [Placed.text_eq_nil_iff] using ends), if_neg ends]
      exact ih (fits.sublist sublist) here

end Map

end Rounds

section Set
variable {blanks : BlankRun} {construct : Construct} {build : Locate}

theorem insideBrackets_cases (input : Text) {tup : StrVal} {c : Char} {inner : Text}
    (is : tup.value = c :: inner) :
    insideBrackets input tup =
      if dropUnread tup.rest ≠ [] then Run.raise (formatError (message "Unexpected char") [] input
        (tup.restStart + (tup.rest.length - (dropUnread tup.rest).length : Nat)))
      else if inner = [] then Run.fault else .ok (inner.dropLast, tup.valueStart + 1) := by
  rw [insideBrackets, skip_eq, is]
  by_cases follows : dropUnread tup.rest = []
  · cases inner <;> simp [follows, eraseBegin, popBack, Run.fault, pure, Except.pure]
  · simp [follows]

/-- What `set` makes of what is between brackets. -/
theorem inside_matches (builds : BuildsAlike data construct build) (counts : start.Counts position)
    (input : Text) (opening : Char) {front inside : Placed}
    (fits : Placed.Fits data (front ++ inside) start.place) {tup : StrVal}
    (brackets : insideBrackets input tup = .ok (inside.text, (front.length : Int))) :
    Run.Matches (Chunk.Alike Tracks) (Blames data position)
      (if opening = '{' then (setMap blanks construct input position tup).construct
        else (setList blanks construct input position tup).construct)
      (locateInside blanks build start opening front inside) := by
  have here : Tracks position (some start) := by
    intro spot member
    obtain rfl := Option.some.inj member
    exact counts
  rw [locateInside, setMap_construct, setList_construct, brackets, Run.bind_ok, Run.bind_ok,
    Placed.text_length]
  by_cases brace : opening = '{'
  · rw [if_pos brace, if_pos brace]
    by_cases blank : inside.dropUnread = []
    · rw [if_pos blank, if_pos (Placed.dropUnread_eq_nil_iff.mpr blank)]
      exact Chunk.alike_map here .nil
    · rw [if_neg blank, if_neg (blank ∘ Placed.dropUnread_eq_nil_iff.mp)]
      exact (mapLoop_matches builds counts input _ fits .nil).map fun _ _ => Chunk.alike_map here
  · rw [if_neg brace, if_neg brace]
    by_cases blank : inside.dropUnread = []
    · rw [if_pos blank, if_pos (Placed.dropUnread_eq_nil_iff.mpr blank)]
      exact Chunk.alike_list here .nil
    · rw [if_neg blank, if_neg (blank ∘ Placed.dropUnread_eq_nil_iff.mp)]
      exact (listLoop_matches builds counts input _ fits .nil).map fun _ _ => Chunk.alike_list here

/-- The parser builds the chunks of the places, with positions that are counted. -/
theorem setFuel_matches (fuel : Nat) :
    BuildsAlike data (fun value offset => (setFuel blanks fuel value offset).construct)
      (locate blanks fuel) := by
  induction fuel with
  | zero =>
    intro value offset spot _ _ _
    trivial
  | succ fuel ih =>
    intro placed offset spot nonneg tracks fits
    change Run.Matches _ _ (setFuel blanks (fuel + 1) placed.text offset).construct _
    rw [setFuel_construct]
    cases spot with
    | none =>
      obtain rfl : placed = [] := fits
      exact ⟨tracks, rfl⟩
    | some start =>
      have counts : start.Counts offset := tracks start rfl
      replace fits : placed.Fits data start.place := fits
      have reading : Run.Matches (Reads blanks nul nul placed) (Blames data offset)
          (getstrval blanks placed.text nul nul)
          ((placed.read blanks nul nul).mapError (placed.blame (start.ahead placed))) := by
        refine (getstrval_matches fits.short).mapError ?_
        rintro error unclosed ⟨rfl, names⟩
        have blames := @Blames.ahead data start offset [] placed counts fits unclosed names
        simpa using blames
      rw [locate]
      refine reading.bind fun tup found reads => ?_
      obtain ⟨value, rest⟩ := found
      have text : tup.value = value.text := reads.value
      have restText : tup.rest = rest.text := reads.rest
      cases value with
      | nil =>
        rw [chunkOf, text]
        exact ⟨tracks, rfl⟩
      | cons mark inner =>
        rw [chunkOf, text]
        simp only [Placed.text_cons]
        by_cases bracket : mark.1 = '{' ∨ mark.1 = '['
        · have brackets := insideBrackets_cases placed.text (text.trans (Placed.text_cons mark inner))
          rw [if_pos bracket, if_pos bracket]
          by_cases follows : rest.dropUnread = []
          · have nothing : dropUnread tup.rest = [] := by
              rw [restText]
              exact Placed.dropUnread_eq_nil_iff.mpr follows
            rw [if_neg (not_not.mpr nothing)] at brackets
            rw [if_neg (not_not.mpr follows)]
            by_cases alone : inner = []
            · rw [if_pos (Placed.text_eq_nil_iff.mpr alone)] at brackets
              rw [if_pos alone, setMap_construct, setList_construct, brackets, Run.fault, Run.bind_error,
                Run.bind_error, ite_self]
              trivial
            · rw [if_neg (alone ∘ Placed.text_eq_nil_iff.mp)] at brackets
              rw [if_neg alone]
              obtain ⟨_, taken, split, sublist⟩ := Placed.read_split reads.reads
              have whole : (placed.blank ++ [mark] ++ inner.dropLast).Sublist placed := by
                rw [List.append_assoc]
                conv_rhs => rw [split]
                exact .append (.refl _) ((((List.dropLast_sublist inner).cons_cons mark).trans
                  sublist).trans (List.sublist_append_left _ _))
              refine inside_matches ih counts placed.text mark.1 (fits.sublist whole) ?_
              rw [brackets, reads.valueStart (reads.filled (List.cons_ne_nil mark inner))]
              simp [Placed.text]
          · have something : dropUnread tup.rest ≠ [] := by
              rw [restText]
              exact follows ∘ Placed.dropUnread_eq_nil_iff.mp
            rw [if_pos something] at brackets
            rw [if_pos follows, setMap_construct, setList_construct, brackets, Run.raise, Run.bind_error,
              Run.bind_error, ite_self]
            exact cstr_other (c := 'U') (by simp)
        · rw [if_neg bracket, if_neg bracket]
          exact ⟨tracks, rfl⟩

end Set

end Ztd.Filedat
