import Ztd.Options.Groups

/-! Where reading stops: how a vector splits into option groups and a rest, and
what comes back of both. -/

namespace Ztd.Options
open Ztd.Lib

section Splits
variable (set : OptionSet) (behavior : ProcessArguments)

/-- A vector as its groups up to the first argument that stops, or all of it. -/
structure Splits (arguments : List Text) (groups : List Group) (rest : List Text) : Prop where
  split : arguments = groups.flatMap Group.tokens ++ rest
  reads : ∀ group ∈ groups, ReadsGroup set behavior group
  passes : ∀ token, .argument token ∈ groups → ¬ Stops behavior token
  stops : rest = [] ∨
    ∃ token others, rest = token :: others ∧ NotOption behavior token ∧ Stops behavior token

/-- How reading ends in front of what it leaves. -/
def endingOf : List Text → Ending
  | [] => .finished
  | token :: others =>
    if behavior.stopOnArgument then .stoppedOnArgument (token :: others)
    else .doubledash (if behavior.outputDoubledash then others else [])

end Splits

variable {set : OptionSet} {behavior : ProcessArguments}

/-- Reading an argument that it stops at. -/
theorem scan_of_stops {token : Text} (plain : NotOption behavior token)
    (stops : Stops behavior token) (others : List Text) :
    scan set behavior (token :: others) = ([], endingOf behavior (token :: others)) := by
  obtain ⟨notLong, plain⟩ := plain
  apply scan_ending
  rcases stops with stops | ⟨enabled, rfl⟩
  · rcases plain with notShort | ⟨number, below⟩
    · simp [scanToken, notLong, notShort, stops, endingOf]
    · have below : ¬ 2 ^ 32 ≤ token.length := Nat.not_le.mpr below
      cases short : isShort token <;>
        simp only [scanToken, notLong, short, scanShort, number, below, stops, endingOf,
          Bool.false_eq_true, ↓reduceIte]
  · cases goesOn : behavior.stopOnArgument <;>
      simp [scanToken, isLong, isShort, goesOn, enabled, endingOf]

theorem scan_of_splits {arguments : List Text} {groups : List Group} {rest : List Text}
    (splits : Splits set behavior arguments groups rest) :
    scan set behavior arguments = (groups, endingOf behavior rest) := by
  obtain ⟨rfl, reads, passes, stops⟩ := splits
  rw [scan_of_groups reads passes]
  rcases stops with rfl | ⟨token, others, rfl, plain, stops⟩
  · simp [scan, endingOf]
  · rw [scan_of_stops plain stops, List.append_nil]

/-- A vector that processing returns on splits. -/
theorem splits_of_returns {arguments out : List Text}
    (returns : (process set arguments behavior).1 = .ok out) :
    ∃ groups rest, Splits set behavior arguments groups rest := by
  obtain ⟨rest, split, reads, ends⟩ := scan_reads set behavior arguments
  have passes := @scan_passes set behavior arguments
  rw [process_eq_scan] at returns
  generalize scan set behavior arguments = scanned at *
  obtain ⟨groups, ending⟩ := scanned
  refine ⟨groups, rest, split, reads, passes, ?_⟩
  cases ends with
  | finished => exact .inl rfl
  | threw => simp [Ending.result] at returns
  | endless => simp [Ending.result] at returns
  | stoppedOnArgument stops plain others => exact .inr ⟨_, others, rfl, plain, .inl stops⟩
  | doubledash _ stops others =>
    exact .inr ⟨_, others, rfl, ⟨by decide, .inl (by decide)⟩, .inr ⟨stops, rfl⟩⟩

/-- What is in front of the rest is read the same way without it. -/
theorem Splits.front {arguments : List Text} {groups : List Group} {rest : List Text}
    (splits : Splits set behavior arguments groups rest) :
    Splits set behavior (groups.flatMap Group.tokens) groups [] where
  split := by simp
  reads := splits.reads
  passes := splits.passes
  stops := .inl rfl

def Group.isOption : Group → Bool
  | .argument _ => false
  | _ => true

/-- The vector splits into options with their arguments and a rest that begins
with something else; the options are as after the former alone, and what was
put aside of them comes back with the rest. -/
structure Keeps (set : OptionSet) (behavior : ProcessArguments) (arguments : List Text)
    (groups : List Group) (rest : List Text) : Prop where
  split : arguments = groups.flatMap Group.tokens ++ rest
  options : ∀ group ∈ groups, ReadsGroup set behavior group ∧ group.isOption = true
  stops : rest = [] ∨ ∃ token others, rest = token :: others ∧ NotOption behavior token
  state : (process set arguments behavior).2 =
    (process set (groups.flatMap Group.tokens) behavior).2
  result : (process set arguments behavior).1 = .ok (groups.flatMap Group.leftover ++ rest)

theorem Keeps.splits {arguments : List Text} {groups : List Group} {rest : List Text}
    (stopping : behavior.stopOnArgument = true) (keeps : Keeps set behavior arguments groups rest) :
    Splits set behavior arguments groups rest where
  split := keeps.split
  reads group member := (keeps.options group member).1
  passes token member := by
    have option := (keeps.options _ member).2
    simp [Group.isOption] at option
  stops := keeps.stops.imp_right fun ⟨token, others, is, plain⟩ =>
    ⟨token, others, is, plain, .inl stopping⟩

end Ztd.Options
