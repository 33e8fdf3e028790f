import Mathlib.Order.Interval.Finset.Nat
import Mathlib.Data.Finset.Card

/-! Ascending numbers: how many of them precede one, and when none is missing. -/

namespace Ztd.Lib

/-- Every number from the first one up to the second one is listed. -/
def Fills (start stop : Nat) (numbers : List Nat) : Prop :=
  ∀ number, start ≤ number → number < stop → number ∈ numbers

instance (start stop : Nat) (numbers : List Nat) : Decidable (Fills start stop numbers) :=
  decidable_of_iff (∀ number ∈ List.range' start (stop - start), number ∈ numbers) <| by
    simp only [List.mem_range'_1, Fills, and_imp]
    refine forall_congr' fun number => forall_congr' fun from_ => ?_
    rw [show number < start + (stop - start) ↔ number < stop by omega]

section Ascending
variable {start stop : Nat} {before after numbers : List Nat}

/-- No more numbers precede one than there is room for. -/
theorem add_length_le (ascending : (before ++ stop :: after).Pairwise (· < ·))
    (above : ∀ number ∈ before ++ stop :: after, start ≤ number) :
    start + before.length ≤ stop ∧
      (start + before.length = stop ↔ Fills start stop (before ++ stop :: after)) := by
  obtain ⟨sorted, sortedBehind, below⟩ := List.pairwise_append.mp ascending
  have within : before.toFinset ⊆ Finset.Ico start stop := by
    intro number member
    have inside := List.mem_toFinset.mp member
    exact Finset.mem_Ico.mpr ⟨above number (List.mem_append_left _ inside),
      below number inside stop List.mem_cons_self⟩
  have count : before.toFinset.card = before.length :=
    List.toFinset_card_of_nodup (sorted.imp fun less => less.ne)
  have room := Finset.card_le_card within
  have first := above stop (List.mem_append_right _ List.mem_cons_self)
  rw [count, Nat.card_Ico] at room
  refine ⟨by omega, ?_⟩
  constructor
  · intro full number from_ less
    have all : before.toFinset = Finset.Ico start stop :=
      Finset.eq_of_subset_of_card_le within (by rw [count, Nat.card_Ico]; omega)
    have listed : number ∈ before.toFinset := by
      rw [all]
      exact Finset.mem_Ico.mpr ⟨from_, less⟩
    exact List.mem_append_left _ (List.mem_toFinset.mp listed)
  · intro fills
    have covered : Finset.Ico start stop ⊆ before.toFinset := by
      intro number member
      obtain ⟨from_, less⟩ := Finset.mem_Ico.mp member
      rcases List.mem_append.mp (fills number from_ less) with here | behind
      · exact List.mem_toFinset.mpr here
      · rcases List.mem_cons.mp behind with rfl | later
        · omega
        · have greater := (List.pairwise_cons.mp sortedBehind).1 number later
          omega
    have size := Finset.card_le_card covered
    rw [count, Nat.card_Ico] at size
    omega

end Ascending

end Ztd.Lib
