import Mathlib.Algebra.Ring.Int.Defs

/-! Running sums of weights along a list, and the first place where one is zero. -/

namespace Ztd.Lib
variable {α : Type} (weight : α → Int)

/-- The sum of what precedes a list and of the weights up to a place of it. -/
def levelAt (level : Int) (elements : List α) (place : Nat) : Int :=
  level + ((elements.take (place + 1)).map weight).sum

/-- The first place of a list with level zero. -/
def firstZero (level : Int) : List α → Option Nat
  | [] => none
  | element :: rest =>
    if level + weight element = 0 then some 0
    else (firstZero (level + weight element) rest).map (· + 1)

section Levels
variable {weight} {level : Int} {element : α} {elements still : List α} {place : Nat}

theorem levelAt_cons_zero : levelAt weight level (element :: elements) 0 = level + weight element := by
  simp [levelAt]

theorem levelAt_cons_succ : levelAt weight level (element :: elements) (place + 1) =
    levelAt weight (level + weight element) elements place := by
  simp [levelAt, Int.add_assoc]

theorem levelAt_cons_never (count : Nat) :
    (∀ earlier < count + 1, levelAt weight level (element :: elements) earlier ≠ 0) ↔
      level + weight element ≠ 0 ∧
        ∀ earlier < count, levelAt weight (level + weight element) elements earlier ≠ 0 := by
  rw [Nat.forall_lt_succ_left, levelAt_cons_zero]
  simp only [levelAt_cons_succ]

/-- The first place with level zero is a place, and no level is zero before. -/
theorem firstZero_eq_some_iff : firstZero weight level elements = some place ↔
    place < elements.length ∧ levelAt weight level elements place = 0 ∧
      ∀ earlier < place, levelAt weight level elements earlier ≠ 0 := by
  induction elements generalizing level place with
  | nil => simp [firstZero]
  | cons element rest ih =>
    by_cases zero : level + weight element = 0
    · rw [firstZero, if_pos zero]
      cases place with
      | zero => simp [levelAt_cons_zero, zero]
      | succ place =>
        rw [levelAt_cons_never]
        simp [zero]
    · rw [firstZero, if_neg zero]
      cases place with
      | zero => simp [levelAt_cons_zero, zero]
      | succ place =>
        rw [levelAt_cons_never, levelAt_cons_succ]
        simp [ih, zero]

theorem firstZero_eq_none_iff : firstZero weight level elements = none ↔
    ∀ place < elements.length, levelAt weight level elements place ≠ 0 := by
  induction elements generalizing level with
  | nil => simp [firstZero]
  | cons element rest ih =>
    rw [List.length_cons, levelAt_cons_never, firstZero]
    by_cases zero : level + weight element = 0
    · simp [zero]
    · rw [if_neg zero, Option.map_eq_none_iff, ih]
      exact (and_iff_right zero).symm

/-- A level that is not zero only becomes zero by a weight. -/
theorem firstZero_weight (other : level ≠ 0) (found : firstZero weight level elements = some place) :
    ∃ element, elements[place]? = some element ∧ weight element ≠ 0 := by
  induction elements generalizing level place with
  | nil => simp [firstZero] at found
  | cons element rest ih =>
    rw [firstZero] at found
    split at found
    · rename_i zero
      obtain rfl : 0 = place := by simpa using found
      exact ⟨element, rfl, by omega⟩
    · rename_i nonzero
      obtain ⟨inner, later, rfl⟩ := Option.map_eq_some_iff.mp found
      simpa using ih nonzero later

/-- Without weights the level stays. -/
theorem firstZero_still (other : level ≠ 0) (weightless : ∀ element ∈ still, weight element = 0) :
    firstZero weight level (still ++ elements) =
      (firstZero weight level elements).map (still.length + ·) := by
  induction still with
  | nil => simp
  | cons element still ih =>
    obtain ⟨none_, weightless⟩ := List.forall_mem_cons.mp weightless
    rw [List.cons_append, firstZero, none_, Int.add_zero, if_neg other, ih weightless]
    cases firstZero weight level elements <;> simp [Nat.add_assoc, Nat.add_comm]

end Levels

end Ztd.Lib
