import Ztd.Filedat.Loops

/-! The parser of the code and the one whose loop over blanks stops at the end of
the string: they agree, unless the first reads outside of its string. -/

namespace Ztd.Filedat
open Ztd.Lib

section Scanning
variable {delim altdelim : Char}

theorem scanBlanks_within (text : Text) :
    Run.Within (scanBlanks .unchecked delim altdelim text)
      (scanBlanks .checked delim altdelim text) := by
  by_cases delimited : delim = nul
  · rw [scanBlanks_whole _ delimited, scanBlanks_whole _ delimited]
    exact .refl _
  · rcases cases_gap delim altdelim text with blank | ⟨gap, c, rest, rfl, blank, stops⟩
    · rw [scanBlanks_end _ delimited blank, scanBlanks_end _ delimited blank]
      exact .ite (.refl _) (.inl rfl)
    · rw [scanBlanks_stop _ delimited blank stops, scanBlanks_stop _ delimited blank stops]
      exact .refl _

theorem scanBehind_within (text : Text) :
    Run.Within (scanBehind .unchecked delim altdelim text)
      (scanBehind .checked delim altdelim text) := by
  cases text with
  | nil => exact scanBlanks_within []
  | cons c rest =>
    exact .ite (.refl _) (.ite (.refl _) (.ite (.refl _) (scanBlanks_within _)))

theorem prepend_within {α : Type} {run bounded : Run Unclosed (Text × α)} (val : Text)
    (within : Run.Within run bounded) : Run.Within (prepend val run) (prepend val bounded) :=
  within.map _

variable (delim altdelim) in
theorem scanPiece_within (text : Text) :
    Run.Within (scanPiece .unchecked delim altdelim text)
      (scanPiece .checked delim altdelim text) := by
  rw [scanPiece, scanPiece]
  split
  · exact .refl _
  · exact prepend_within _ (scanBehind_within _)

variable (delim altdelim) in
theorem scan_within (text : Text) :
    Run.Within (scan .unchecked delim altdelim text) (scan .checked delim altdelim text) := by
  induction size : text.length using Nat.strongRecOn generalizing text with
  | _ count ih =>
    subst size
    by_cases empty : text = []
    · rw [empty, scan_nil, scan_nil]
      exact .refl _
    · rcases scanPiece_within delim altdelim text with faults | same
      · exact .inl (scan_error empty faults)
      · cases found : scanPiece .checked delim altdelim text with
        | error stop =>
          rw [scan_error empty found, scan_error empty (same.trans found)]
          exact .refl _
        | ok inner =>
          obtain ⟨val, reach⟩ := inner
          cases reach with
          | leave rest =>
            rw [scan_leave empty found, scan_leave empty (same.trans found)]
            exact .refl _
          | next rest =>
            rw [scan_next empty found, scan_next empty (same.trans found)]
            exact prepend_within val (ih _ (scanPiece_shorter empty found) rest rfl)

theorem read_within (text : Text) :
    Run.Within (read .unchecked delim altdelim text) (read .checked delim altdelim text) := by
  rcases scan_within delim altdelim (dropUnread text) with faults | same
  · exact .inl (by rw [read, faults]; rfl)
  · exact .inr (by rw [read, read, same])

theorem getstrval_within (text : Text) (delim altdelim : Char) :
    Run.Within (getstrval .unchecked text delim altdelim)
      (getstrval .checked text delim altdelim) := by
  rw [getstrval_eq, getstrval_eq]
  exact ((read_within text).map _).mapError _

end Scanning

theorem getkeyval_within (text : Text) :
    Run.Within (getkeyval .unchecked text) (getkeyval .checked text) := by
  refine (getstrval_within text '=' nul).bind fun key => ?_
  refine Run.Within.bind (.refl _) fun first => .ite (.refl _) ?_
  refine Run.Within.bind (.refl _) fun behind => .ite (.refl _) (.ite (.refl _) ?_)
  exact (getstrval_within key.rest ';' '\n').bind fun value => .refl _

section Rounds
variable {construct bounded : Construct}
  (within : ∀ value offset, Run.Within (construct value offset) (bounded value offset))
include within

theorem mapEntry_within (input : Text) (offset : Int) (str : Text) (i : Int)
    (values : List (Text × Chunkdat)) :
    Run.Within (mapEntry .unchecked construct input offset str i values)
      (mapEntry .checked bounded input offset str i values) := by
  refine Run.Within.bind (.refl _) fun start => Run.Within.bind (.refl _) fun first =>
    .ite (.refl _) ?_
  refine (getkeyval_within str).catchError.bind fun pair => .ite ?_ (.refl _)
  exact ((within _ _).bind fun chunk => .refl _).catchError.bind fun values => .refl _

theorem listElement_within (input : Text) (offset : Int) (str : Text) (i : Int) :
    Run.Within (listElement .unchecked construct input offset str i)
      (listElement .checked bounded input offset str i) := by
  refine (getstrval_within str ',' ';').catchError.bind fun value => ?_
  exact (within _ _).catchError.bind fun chunk => .refl _

/-- The first call leaves its string, or both leave the same behind. -/
def Ended {α ε : Type} (call bounded : α × Option (Stop ε)) : Prop :=
  call.2 = some .fault ∨ call = bounded

theorem mapLoop_within (input : Text) (offset : Int) (fuel : Nat) (str : Text) (i : Int)
    (values : List (Text × Chunkdat)) :
    Ended (mapLoop .unchecked construct input offset fuel str i values)
      (mapLoop .checked bounded input offset fuel str i values) := by
  induction fuel generalizing str i values with
  | zero => exact .inr rfl
  | succ fuel ih =>
    rcases mapEntry_within within input offset str i values with faults | same
    · exact .inl (by simp [mapLoop, faults, Run.fault])
    · simp only [mapLoop, same]
      split
      · exact .inr rfl
      · split
        · exact ih _ _ _
        · exact .inr rfl

theorem listLoop_within (input : Text) (offset : Int) (fuel : Nat) (str : Text) (i : Int)
    (elements : List Chunkdat) :
    Ended (listLoop .unchecked construct input offset fuel str i elements)
      (listLoop .checked bounded input offset fuel str i elements) := by
  induction fuel generalizing str i elements with
  | zero => exact .inr rfl
  | succ fuel ih =>
    rcases listElement_within within input offset str i with faults | same
    · exact .inl (by simp [listLoop, faults, Run.fault])
    · simp only [listLoop, same]
      split
      · exact .inr rfl
      · split
        · exact ih _ _ _
        · exact .inr rfl

theorem setMap_within (input : Text) (offset : Int) (tup : StrVal) :
    Ended (setMap .unchecked construct input offset tup)
      (setMap .checked bounded input offset tup) := by
  rw [setMap, setMap]
  split
  · exact .inr rfl
  · rename_i str i _
    rw [skip_eq]
    by_cases blank : dropUnread str = []
    · exact .inr (by simp [blank])
    · rcases mapLoop_within within input offset (str.length + 1) str i [] with faults | same
      · exact .inl (by simp [blank, faults])
      · exact .inr (by simp [blank, same])

theorem setList_within (input : Text) (offset : Int) (tup : StrVal) :
    Ended (setList .unchecked construct input offset tup)
      (setList .checked bounded input offset tup) := by
  rw [setList, setList]
  split
  · exact .inr rfl
  · rename_i str i _
    rw [skip_eq]
    by_cases blank : dropUnread str = []
    · exact .inr (by simp [blank])
    · rcases listLoop_within within input offset (str.length + 1) str i [] with faults | same
      · exact .inl (by simp [blank, faults])
      · exact .inr (by simp [blank, same])

end Rounds

theorem Ended.construct {call bounded : Setting} (ended : Ended call bounded) :
    Run.Within call.construct bounded.construct := by
  rcases ended with faults | rfl
  · obtain ⟨chunk, stop⟩ := call
    obtain rfl : stop = some .fault := faults
    exact .inl rfl
  · exact .refl _

theorem setFuel_within (fuel : Nat) (input : Text) (offset : Int) :
    Ended (setFuel .unchecked fuel input offset) (setFuel .checked fuel input offset) := by
  induction fuel generalizing input offset with
  | zero => exact .inr rfl
  | succ fuel ih =>
    have within (value : Text) (offset : Int) := (ih value offset).construct
    rcases getstrval_within input nul nul with faults | same
    · exact .inl (by simp [setFuel, faults, Run.fault])
    · simp only [setFuel, same]
      split
      · exact .inr rfl
      · split
        · exact .inr rfl
        · exact setMap_within within input offset _
        · exact setList_within within input offset _
        · exact .inr rfl

theorem set_within (input : Text) (offset : Int) :
    Ended (set .unchecked input offset) (set .checked input offset) :=
  setFuel_within _ input offset

theorem importString_within (data : Text) (file : Ztd.Filedat) :
    Ended (file.importString .unchecked data) (file.importString .checked data) := by
  simp only [Ztd.Filedat.importString, Ztd.Filedat.generateChunk]
  split
  · exact .inr rfl
  · rename_i stripped _
    rcases (set_within stripped 0).construct with faults | same
    · exact .inl (by simp only [faults]; rfl)
    · exact .inr (by simp only [same])

end Ztd.Filedat
