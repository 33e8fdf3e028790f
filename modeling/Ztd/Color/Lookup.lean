import Ztd.Color.Basic
import Mathlib.Data.List.Basic

/-! Looking a color up by its name: what the search through the table of names finds,
and for which strings that is the color of the name. -/

namespace Ztd.Color
open Ztd.Lib

section Search
variable {ε : Type} {str : Text}

/-- The search through the slots that are left: how many are passed, or all of them. -/
def search (str : Text) : List CString → Run ε (Option Nat)
  | [] => .ok none
  | entry :: rest => equals entry str >>= fun same =>
    if same then .ok (some 0) else (search str rest).map (·.map (· + 1))

/-- The code of what the search finds, from a slot on. -/
def codeAt (i : Nat) : Option Nat → Run ε CString
  | some count => getColorCodeIndex (i + count)
  | none => .ok (some colorReset.toList)

theorem codeAt_next (i : Nat) (found : Option Nat) :
    (codeAt i (found.map (· + 1)) : Run ε CString) = codeAt (i + 1) found := by
  cases found with
  | none => rfl
  | some count => rw [Option.map_some, codeAt, codeAt, Nat.add_right_comm, Nat.add_assoc]

theorem colorNameIndex_length : colorNameIndex.length = colorCount := rfl

/-- The loop over the names is the search through the slots ahead of its index. -/
theorem nameLoop_eq (str : Text) {fuel i : Nat} (inside : i ≤ colorCount)
    (enough : colorCount - i < fuel) :
    (nameLoop str fuel i : Run ε CString) = search str (colorNameIndex.drop i) >>= codeAt i := by
  induction fuel generalizing i with
  | zero => omega
  | succ fuel ih =>
    by_cases ahead : i < colorCount
    · have slot : i < colorNameIndex.length := colorNameIndex_length ▸ ahead
      rw [nameLoop, if_pos ahead, List.drop_eq_getElem_cons slot, search, element,
        List.getElem?_eq_getElem slot, Run.bind_ok]
      cases equals (ε := ε) colorNameIndex[i] str with
      | error stop => rfl
      | ok same =>
        rw [Run.bind_ok, Run.bind_ok]
        cases same with
        | true => rfl
        | false =>
          rw [if_neg Bool.false_ne_true, if_neg Bool.false_ne_true, ih ahead (by omega)]
          cases search (ε := ε) str (colorNameIndex.drop (i + 1)) with
          | error stop => rfl
          | ok found => exact (codeAt_next i found).symm
    · have ended : colorNameIndex.drop i = [] := List.drop_eq_nil_of_le (by
        rw [colorNameIndex_length]
        omega)
      rw [nameLoop, if_neg ahead, ended]
      rfl

/-- A name in front of the first null pointer is found where it stands first, and any
other string is compared with the null pointer. -/
theorem search_null (names : List Text) (rest : List CString) :
    (search str (names.map some ++ none :: rest) : Run ε (Option Nat)) =
      if str ∈ names then .ok (some (names.idxOf str)) else Run.fault := by
  induction names with
  | nil => rfl
  | cons name names ih =>
    rw [List.map_cons, List.cons_append, search, equals, Run.bind_ok]
    by_cases same : name = str
    · subst same
      simp
    · rw [if_neg (by simpa using same), ih, List.idxOf_cons_ne names same]
      by_cases member : str ∈ names
      · rw [if_pos member, if_pos (List.mem_cons_of_mem name member)]
        rfl
      · rw [if_neg member, if_neg (by simp [member, Ne.symm same])]
        rfl

end Search

/-- The enumerators whose names stand at their values in the table. -/
def aligned : List ColorName :=
  [.none, .white, .gray, .black, .red, .green, .orange, .blue, .magenta, .cyan,
    .bWhite, .bLightgray, .bGray, .bRed, .bGreen, .bYellow, .bBlue, .bMagenta]

/-- The names behind them, each one slot too early. -/
def shifted : List Text := ["b_cyanbold".toList, "italic".toList, "underline".toList,
  "blink".toList, "strike".toList]

theorem mem_aligned (color : ColorName) :
    color ∈ aligned ↔ color.value < ColorName.bCyan.value := by
  cases color <;> decide

/-- The names there are in the table, in front of a null pointer. -/
def tableNames : List Text := aligned.map ColorName.name ++ shifted

theorem colorNameIndex_eq : colorNameIndex = tableNames.map some ++ [none] := rfl

/-- What the lookup does with any string. -/
theorem getColorCodeString_eq (ε : Type) (str : Text) :
    (getColorCodeString str : Run ε CString) =
      if str ∈ tableNames then getColorCodeIndex (tableNames.idxOf str) else Run.fault := by
  have loop : (nameLoop str (colorCount + 1) 0 : Run ε CString) = _ :=
    nameLoop_eq str (Nat.zero_le _) (Nat.lt_succ_self _)
  rw [getColorCodeString, loop, List.drop_zero, colorNameIndex_eq, search_null]
  split
  · rw [Run.bind_ok, codeAt, Nat.zero_add]
  · rfl

/-- Two enumerators have different names. -/
theorem name_injective : Function.Injective ColorName.name := by
  have back (color : ColorName) :
      (aligned ++ [ColorName.bCyan, .bold, .italic, .underline, .blink, .strike]).find?
        (·.name == color.name) = some color := by
    cases color <;> rfl
  intro color other same
  have found := back color
  rw [same, back other] at found
  exact (Option.some.inj found).symm

/-- The name of an aligned enumerator is looked up as its value. -/
theorem getColorCodeString_aligned (ε : Type) {color : ColorName} (member : color ∈ aligned) :
    (getColorCodeString color.name : Run ε CString) = getColorCodeName color := by
  have present : color.name ∈ tableNames :=
    List.mem_append_left _ (List.mem_map_of_mem member)
  have index : tableNames.idxOf color.name = color.value := by
    rw [mem_aligned] at member
    cases color <;> first | rfl | exact absurd member (by decide)
  have small : ¬ color.value ≥ colorCount := by cases color <;> decide
  rw [getColorCodeString_eq, if_pos present, index, getColorCodeIndex, if_neg small,
    getColorCodeName]

/-- Looking a string up compares no null pointer, and gives the code of the enumerator of
that name, or the reset code if there is none. -/
structure LooksUp (ε : Type) (str : Text) : Prop where
  safe : (getColorCodeString str : Run ε CString) ≠ Run.fault
  named : ∀ color : ColorName, color.name = str →
    (getColorCodeString str : Run ε CString) = getColorCodeName color
  other : (∀ color : ColorName, color.name ≠ str) →
    (getColorCodeString str : Run ε CString) = .ok (some colorReset.toList)

theorem looksUp_aligned (ε : Type) {color : ColorName} (member : color ∈ aligned) :
    LooksUp ε color.name where
  safe := by
    rw [getColorCodeString_aligned ε member]
    cases color <;> exact nofun
  named other same := by
    rw [name_injective same]
    exact getColorCodeString_aligned ε member
  other none := absurd rfl (none color)

theorem colorIndex_nodup : colorIndex.Nodup := by
  decide +kernel

/-- Different slots of the table of codes hold different codes. -/
theorem element_injective (ε : Type) {index other : Nat} (inside : index < colorCount)
    (same : (element colorIndex index : Run ε CString) = element colorIndex other) :
    index = other := by
  have slot : index < colorIndex.length := inside
  refine (List.getElem?_inj slot colorIndex_nodup).mp ?_
  rw [element, element, List.getElem?_eq_getElem slot] at same
  rw [List.getElem?_eq_getElem slot]
  cases found : colorIndex[other]? with
  | none => simp [found, Run.fault] at same
  | some entry => simpa [found] using same

theorem slot_inside {str : Text} (present : str ∈ tableNames) :
    tableNames.idxOf str < colorCount :=
  Nat.lt_trans (List.idxOf_lt_length_of_mem present) (by decide)

/-- A string of the table that is looked up as a slot of the codes stands at that slot. -/
theorem slot_of_code {ε : Type} {str : Text} (present : str ∈ tableNames) {index : Nat}
    (found : (getColorCodeString str : Run ε CString) = element colorIndex index) :
    tableNames.idxOf str = index := by
  have inside := slot_inside present
  rw [getColorCodeString_eq, if_pos present, getColorCodeIndex, if_neg (Nat.not_le.mpr inside)]
    at found
  exact element_injective ε inside found

/-- The names behind `b_cyan` have the code of the enumerator in front of theirs. -/
theorem not_looksUp_shifted {ε : Type} {str : Text} (member : str ∈ shifted) : ¬ LooksUp ε str := by
  intro looksUp
  have present : str ∈ tableNames := List.mem_append_right _ member
  simp only [shifted, List.mem_cons, List.not_mem_nil, or_false] at member
  rcases member with rfl | rfl | rfl | rfl | rfl
  · have reset : (.ok (some colorReset.toList) : Run ε CString) = element colorIndex 0 := rfl
    have first := looksUp.other fun color => by cases color <;> decide
    exact absurd (slot_of_code present (first.trans reset)) (by decide +kernel)
  · exact absurd (slot_of_code present (looksUp.named .italic rfl)) (by decide +kernel)
  · exact absurd (slot_of_code present (looksUp.named .underline rfl)) (by decide +kernel)
  · exact absurd (slot_of_code present (looksUp.named .blink rfl)) (by decide +kernel)
  · exact absurd (slot_of_code present (looksUp.named .strike rfl)) (by decide +kernel)

theorem LooksUp.aligned {ε : Type} {str : Text} (looksUp : LooksUp ε str) :
    ∃ color ∈ aligned, color.name = str := by
  by_cases present : str ∈ tableNames
  · rcases List.mem_append.mp present with front | behind
    · exact List.mem_map.mp front
    · exact absurd looksUp (not_looksUp_shifted behind)
  · have faults := getColorCodeString_eq ε str
    rw [if_neg present] at faults
    exact absurd faults looksUp.safe

/-- The lookup is right for the names of the enumerators in front of `b_cyan` only. -/
theorem getColorCodeString_looksUp_iff (ε : Type) (str : Text) : LooksUp ε str ↔
    ∃ color : ColorName, color.name = str ∧ color.value < ColorName.bCyan.value := by
  constructor
  · intro looksUp
    obtain ⟨color, member, is⟩ := looksUp.aligned
    exact ⟨color, is, (mem_aligned color).mp member⟩
  · rintro ⟨color, rfl, before⟩
    exact looksUp_aligned ε ((mem_aligned color).mpr before)

/-- `bold` is compared with the null pointer. -/
theorem bold_not_looked_up : ¬ ∀ str : Text, LooksUp Unit str := by
  intro looksUp
  exact (looksUp "bold".toList).safe rfl

/-- Setting a color by its enumerator always returns, and the code is printed as it is. -/
theorem setColorName_code (ε : Type) (cm : ColorName) : ∃ color : Color,
    (setColorName cm : Run ε Color) = .ok color ∧
      (getColorCodeName cm : Run ε CString) = .ok (some color.code) := by
  cases cm <;> exact ⟨_, rfl, rfl⟩

/-- No code in the table is a null pointer. -/
theorem element_code (ε : Type) {index : Nat} (inside : index < colorCount) :
    ∃ code, (element colorIndex index : Run ε CString) = .ok (some code) := by
  have slot : index < colorIndex.length := inside
  have given : colorIndex[index].isSome = true :=
    List.all_eq_true.mp (rfl : colorIndex.all Option.isSome = true) _ (List.getElem_mem slot)
  obtain ⟨code, is⟩ := Option.isSome_iff_exists.mp given
  exact ⟨code, by rw [element, List.getElem?_eq_getElem slot, is]⟩

/-- Setting a color by a string either returns or compares it with the null pointer. -/
theorem setColorString_fault_iff (ε : Type) (name : Text) :
    (setColorString name : Run ε Color) = Run.fault ↔ name ∉ tableNames := by
  rw [setColorString, getColorCodeString_eq]
  by_cases present : name ∈ tableNames
  · have inside := slot_inside present
    obtain ⟨code, is⟩ := element_code ε inside
    rw [if_pos present, getColorCodeIndex, if_neg (Nat.not_le.mpr inside), is, Run.bind_ok, assign]
    simp [present, Run.fault]
  · rw [if_neg present]
    simp [present, Run.fault]

/-- The codes of two lookups that set the same color are the same. -/
theorem assign_inj {ε : Type} {found : Run ε CString} {code : Text}
    (same : found >>= assign = (.ok (some code) : Run ε CString) >>= assign) :
    found = .ok (some code) := by
  rcases found with stop | _ | other
  · cases same
  · cases same
  · obtain rfl : other = code := by simpa [assign] using same
    rfl

/-- A color is set by its name as by its enumerator exactly in front of `b_cyan`. -/
theorem setColorString_name_iff (ε : Type) (cm : ColorName) :
    (setColorString cm.name : Run ε Color) = setColorName cm ↔
      cm.value < ColorName.bCyan.value := by
  constructor
  · intro same
    obtain ⟨color, _, code⟩ := setColorName_code ε cm
    rw [setColorString, setColorName, code] at same
    have found := assign_inj same
    have looksUp : LooksUp ε cm.name :=
      { safe := by simp [found, Run.fault]
        named := fun other is => by rw [found, name_injective is, code]
        other := fun none => absurd rfl (none cm) }
    obtain ⟨other, member, is⟩ := looksUp.aligned
    exact name_injective is ▸ (mem_aligned other).mp member
  · intro before
    rw [setColorString, getColorCodeString_aligned ε ((mem_aligned cm).mpr before), setColorName]

/-- Setting a color: by an enumerator to its code; by a string, unless that is none of the
table and is compared with the null pointer; by the name of an enumerator as by the
enumerator only in front of `b_cyan`. -/
theorem setColor_outcomes (ε : Type) (cm : ColorName) (name : Text) :
    (∃ color : Color, (setColorName cm : Run ε Color) = .ok color ∧
      (getColorCodeName cm : Run ε CString) = .ok (some color.code)) ∧
    ((setColorString name : Run ε Color) = Run.fault ↔ name ∉ tableNames) ∧
    ((setColorString cm.name : Run ε Color) = setColorName cm ↔
      cm.value < ColorName.bCyan.value) :=
  ⟨setColorName_code ε cm, setColorString_fault_iff ε name, setColorString_name_iff ε cm⟩

end Ztd.Color
