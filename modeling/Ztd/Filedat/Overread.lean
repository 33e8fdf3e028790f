import Ztd.Filedat.Bounded
import Ztd.Filedat.Sizes

/-! When the loop over blanks reads outside of its string: it finds neither a
delimiter nor anything readable in front of the terminator. -/

namespace Ztd.Filedat
open Ztd.Lib

/-- The scan of a text comes to a point where a round starts, and where behind
the quote it may start with only blanks are left. -/
inductive OverReads (delim altdelim : Char) : Text → Prop where
  | here {text val gap : Text} (nonempty : text ≠ []) (opened : openQuote text = .ok (val, gap))
      (blank : ∀ c ∈ gap, isGap delim altdelim c = true) : OverReads delim altdelim text
  | later {text val rest : Text} (nonempty : text ≠ [])
      (round : scanPiece .checked delim altdelim text = .ok (val, .next rest))
      (behind : OverReads delim altdelim rest) : OverReads delim altdelim text

section Faults
variable {delim altdelim : Char} {text : Text} (delimited : delim ≠ nul)
  (notNul : isDelim delim altdelim nul = false)
include delimited notNul

theorem scanBlanks_fault_iff : scanBlanks .unchecked delim altdelim text = .error .fault ↔
    ∀ c ∈ text, isGap delim altdelim c = true := by
  rcases cases_gap delim altdelim text with blank | ⟨gap, c, rest, rfl, blank, stops⟩
  · simp only [scanBlanks_end .unchecked delimited blank, notNul, Bool.false_eq_true, if_false,
      Run.fault, true_iff]
    exact blank
  · rw [scanBlanks_stop .unchecked delimited blank stops]
    constructor
    · intro faults
      split at faults <;> simp at faults
    · intro all
      have first := all c (by simp)
      simp [stops] at first

theorem scanBehind_fault_iff : scanBehind .unchecked delim altdelim text = .error .fault ↔
    ∀ c ∈ text, isGap delim altdelim c = true := by
  cases text with
  | nil => exact scanBlanks_fault_iff delimited notNul
  | cons c rest =>
    by_cases readable : isRead c = true
    · have gap : isGap delim altdelim c = false := by simp [isGap, readable]
      have group (kind : GroupKind) : (readGroup kind (c :: rest)).map
          (fun found => (found.1, Reach.next found.2)) ≠ .error .fault := by
        cases read : readGroup kind (c :: rest) with
        | ok found => simp [Except.map]
        | error stop =>
          obtain ⟨unclosed, rfl⟩ := readGroup_throws read
          simp [Except.map]
      constructor
      · intro faults
        rw [scanBehind] at faults
        split at faults
        · exact absurd faults (group brace)
        · split at faults
          · exact absurd faults (group bracket)
          · split at faults <;> simp at faults
      · intro blank
        have first := blank c (by simp)
        simp [gap] at first
    · have notBrace : c ≠ '{' := by rintro rfl; simp [isRead] at readable
      have notBracket : c ≠ '[' := by rintro rfl; simp [isRead] at readable
      rw [scanBehind, if_neg notBrace, if_neg notBracket, if_neg readable]
      exact scanBlanks_fault_iff delimited notNul

theorem scanPiece_fault_iff : scanPiece .unchecked delim altdelim text = .error .fault ↔
    ∃ val gap, openQuote text = .ok (val, gap) ∧ ∀ c ∈ gap, isGap delim altdelim c = true := by
  rw [scanPiece]
  cases opened : openQuote text with
  | error stop =>
    obtain ⟨unclosed, rfl⟩ := openQuote_throws opened
    simp
  | ok inner =>
    obtain ⟨val, gap⟩ := inner
    simp only [Except.ok.injEq, Prod.mk.injEq]
    constructor
    · intro faults
      exact ⟨val, gap, ⟨rfl, rfl⟩, (scanBehind_fault_iff delimited notNul).mp (prepend_eq_error faults)⟩
    · rintro ⟨_, _, ⟨rfl, rfl⟩, blank⟩
      rw [(scanBehind_fault_iff delimited notNul).mpr blank, prepend_error]

/-- The loop over blanks leaves its string exactly where a scan over-reads. -/
theorem scan_fault_iff :
    scan .unchecked delim altdelim text = .error .fault ↔ OverReads delim altdelim text := by
  constructor
  · intro faults
    induction size : text.length using Nat.strongRecOn generalizing text with
    | _ count ih =>
      subst size
      by_cases empty : text = []
      · simp [empty] at faults
      · rcases scanPiece_within delim altdelim text with here | same
        · obtain ⟨val, gap, opened, blank⟩ := (scanPiece_fault_iff delimited notNul).mp here
          exact .here empty opened blank
        · cases found : scanPiece .checked delim altdelim text with
          | error stop =>
            rcases scanPiece_halts found with ⟨unclosed, rfl⟩ | ⟨_, checked, _⟩
            · simp [scan_error empty (same.trans found)] at faults
            · simp at checked
          | ok inner =>
            obtain ⟨val, reach⟩ := inner
            cases reach with
            | leave rest => simp [scan_leave empty (same.trans found)] at faults
            | next rest =>
              rw [scan_next empty (same.trans found)] at faults
              exact .later empty found (ih _ (scanPiece_shorter empty found) (prepend_eq_error faults) rfl)
  · intro overReads
    induction overReads with
    | here nonempty opened blank =>
      exact scan_error nonempty ((scanPiece_fault_iff delimited notNul).mpr ⟨_, _, opened, blank⟩)
    | later nonempty round _ ih =>
      rcases scanPiece_within delim altdelim _ with faults | same
      · exact scan_error nonempty faults
      · rw [scan_next nonempty (same.trans round), ih, prepend_error]

theorem read_fault_iff : read .unchecked delim altdelim text = .error .fault ↔
    OverReads delim altdelim (dropUnread text) := by
  rw [← scan_fault_iff delimited notNul, read]
  split
  · rename_i scans
    simp [scans]
  · exact Iff.rfl

end Faults

end Ztd.Filedat
