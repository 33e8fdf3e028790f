import Mathlib.Data.List.Rotate

/-! Words read in a circle. Taking a common front away turns a word, and where a mark
is never far, it stays so when the word is turned or goes on behind a mark. -/

namespace Ztd.Lib
universe u
variable {α : Type u}

/-- A word in front of one side of an equation is turned by what both sides begin with. -/
theorem exists_turned {word front rest whole : List α}
    (same : word ++ (front ++ rest) = front ++ whole) :
    ∃ turned, word.IsRotated turned ∧ whole = turned ++ rest := by
  induction front generalizing word with
  | nil => exact ⟨word, .refl word, same.symm⟩
  | cons letter front ih =>
    cases word with
    | nil => exact ⟨[], .refl [], (@List.append_cancel_left α (letter :: front) _ _ same).symm⟩
    | cons first word =>
      simp only [List.cons_append, List.cons.injEq] at same
      obtain ⟨rfl, same⟩ := same
      obtain ⟨turned, rotated, wholeIs⟩ := ih (show word ++ [first] ++ (front ++ rest) = _ by
        simpa using same)
      exact ⟨turned, List.IsRotated.cons_append_singleton.trans rotated, wholeIs⟩

/-- A word that holds what the front of the other side does not, holds all of that front. -/
theorem exists_behind {word behind front rest : List α} {letter : α} {held : α → Prop}
    (same : word ++ behind = front ++ letter :: rest) (holds : ∃ found ∈ word, held found)
    (lacks : ∀ found ∈ front, ¬ held found) :
    ∃ later, word = front ++ letter :: later ∧ rest = later ++ behind := by
  have inside (most : word <+: front) : False := by
    obtain ⟨found, member, is⟩ := holds
    exact lacks found (most.subset member) is
  rcases List.append_eq_append_iff.mp same with ⟨most, is, -⟩ | ⟨later, is, behindIs⟩
  · exact (inside ⟨most, is.symm⟩).elim
  · cases later with
    | nil => exact (inside (by simp [is])).elim
    | cons first later =>
      simp only [List.cons_append, List.cons.injEq] at behindIs
      obtain ⟨rfl, restIs⟩ := behindIs
      exact ⟨later, is, restIs⟩

theorem exists_cut {word turned : List α} (rotated : word.IsRotated turned) :
    ∃ front behind, word = front ++ behind ∧ turned = behind ++ front := by
  obtain ⟨place, inside, rfl⟩ := List.isRotated_iff_mod.mp rotated
  exact ⟨word.take place, word.drop place, (List.take_append_drop place word).symm,
    List.rotate_eq_drop_append_take inside⟩

section Marks
variable {near : Nat} {marks others front : List Bool}

/-- From every place on, one of the next letters is marked. -/
def Frequent (near : Nat) (marks : List Bool) : Prop :=
  ∀ suffix, suffix <:+ marks → suffix ≠ [] → true ∈ suffix.take near

/-- The same of a word read in a circle. -/
def FrequentAround (near : Nat) (marks : List Bool) : Prop :=
  ∃ turned, marks.IsRotated turned ∧ turned ≠ [] ∧ Frequent near turned

theorem Frequent.right (frequent : Frequent near (front ++ marks)) : Frequent near marks :=
  fun suffix within => frequent suffix (within.trans (List.suffix_append front marks))

private theorem mem_of_suffix {suffix : List Bool} (within : suffix <:+ front ++ [true])
    (nonempty : suffix ≠ []) : true ∈ suffix := by
  obtain ⟨before, split⟩ := within
  have last := congrArg List.getLast? split
  rw [List.getLast?_append_of_ne_nil _ nonempty] at last
  exact List.mem_of_getLast? (by simpa using last)

theorem Frequent.block (short : front.length < near) : Frequent near (front ++ [true]) := by
  intro suffix within nonempty
  have shorter : suffix.length ≤ near := by
    have := within.length_le
    simp only [List.length_append, List.length_singleton] at this
    omega
  rw [List.take_of_length_le shorter]
  exact mem_of_suffix within nonempty

/-- A word that ends with a mark does not need what follows it. -/
theorem Frequent.left (frequent : Frequent near (front ++ [true] ++ others)) :
    Frequent near (front ++ [true]) := by
  intro suffix within nonempty
  rcases Nat.lt_or_ge suffix.length near with short | long
  · rw [List.take_of_length_le (Nat.le_of_lt short)]
    exact mem_of_suffix within nonempty
  · obtain ⟨before, split⟩ := within
    have behind : suffix ++ others <:+ front ++ [true] ++ others :=
      ⟨before, by rw [← List.append_assoc, split]⟩
    have found := frequent (suffix ++ others) behind (by simp [nonempty])
    rwa [List.take_append_of_le_length long] at found

theorem Frequent.append (first : Frequent near marks) (second : Frequent near others) :
    Frequent near (marks ++ others) := by
  rintro suffix ⟨before, split⟩ nonempty
  rcases List.append_eq_append_iff.mp split with ⟨most, marksIs, suffixIs⟩ | ⟨most, _, othersIs⟩
  · cases most with
    | nil => exact second suffix (by simp [suffixIs]) nonempty
    | cons mark most =>
      have found := first (mark :: most) ⟨before, marksIs.symm⟩ (by simp)
      rw [suffixIs, List.take_append]
      exact List.mem_append_left _ found
  · exact second suffix ⟨most, othersIs.symm⟩ nonempty

/-- Read from any place, the circle begins with a mark among the next letters. -/
theorem FrequentAround.begins (around : FrequentAround near marks) : true ∈ marks.take near := by
  obtain ⟨turned, rotated, nonempty, frequent⟩ := around
  obtain ⟨front, behind, rfl, rfl⟩ := exists_cut rotated
  cases front with
  | nil => exact frequent _ (by simp) (by simpa using nonempty)
  | cons mark front =>
    rw [List.take_append]
    exact List.mem_append_left _ (frequent _ (List.suffix_append _ _) (by simp))

/-- Cut behind a mark, the circle is a word with the same property. -/
theorem FrequentAround.cut (around : FrequentAround near (front ++ [true])) :
    Frequent near (front ++ [true]) := by
  obtain ⟨turned, rotated, nonempty, frequent⟩ := around
  obtain ⟨first, second, split, rfl⟩ := exists_cut rotated
  rcases List.eq_nil_or_concat second with rfl | ⟨before, last, rfl⟩
  · simpa [split] using frequent
  · have split' : first ++ before ++ [last] = front ++ [true] := by simpa using split.symm
    obtain ⟨-, marked⟩ := List.append_inj' split' rfl
    obtain rfl : last = true := by simpa using marked
    rw [split]
    simp only [List.concat_eq_append] at frequent ⊢
    exact frequent.right.append frequent.left

theorem FrequentAround.turn (around : FrequentAround near marks)
    (rotated : marks.IsRotated others) : FrequentAround near others := by
  obtain ⟨turned, same, nonempty, frequent⟩ := around
  exact ⟨turned, rotated.symm.trans same, nonempty, frequent⟩

theorem Frequent.around (frequent : Frequent near marks) (nonempty : marks ≠ []) :
    FrequentAround near marks := ⟨marks, .refl marks, nonempty, frequent⟩

end Marks

end Ztd.Lib
