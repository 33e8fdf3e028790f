import Ztd.Options.Canon
import Ztd.Options.DoubleDash
import Ztd.Options.Stopping
import Mathlib.Data.List.Induction

/-! What a run leaves in the options of a set, and what a later run makes of it. -/

namespace Ztd.Options
open Ztd.Lib

/-- An activation as reading makes it: of an option that a name was found for,
with an argument exactly when the option takes one. -/
structure Met (set : OptionSet) (activation : Activation) : Prop where
  named : (∃ c, set.findChar c = some activation.1) ∨ ∃ str, set.findString str = some activation.1
  argument : activation.2.isSome = (set.deref activation.1).takesArgument

section Reading
variable (set : OptionSet) (behavior : ProcessArguments)

theorem scanLetters_met (token : Text) (rest : List Text) (fuel : Nat) (i : UInt32) :
    ∀ activation ∈ (scanLetters set behavior token rest fuel i).1.activations,
      Met set activation := by
  induction fuel generalizing i with
  | zero => simp [scanLetters]
  | succ fuel ih =>
    rw [scanLetters]
    cases letter : token[i.toNat]? with
    | none => simp
    | some c =>
      cases found : set.findChar c with
      | none =>
        cases ignored : behavior.ignoreUnknown with
        | false => simp [found]
        | true => simpa [found] using ih (i + 1)
      | some popt =>
        have met (taken : Option Text) (fits : taken.isSome = (set.deref popt).takesArgument) :
            Met set (popt, taken) := ⟨.inl ⟨c, found⟩, fits⟩
        cases taking : (set.deref popt).takesArgument with
        | false =>
          simpa [found, taking] using
            ⟨met none (by simp [taking]), fun popt taken => ih (i + 1) (popt, taken)⟩
        | true =>
          have attached (argument : Text) : Met set (popt, some argument) :=
            met (some argument) (by simp [taking])
          simp only [found, taking, ↓reduceIte]
          split
          · simp [attached]
          · cases rest <;> simp [attached]

theorem scanLong_met (token : Text) (rest : List Text) :
    ∀ activation ∈ activationsOf (scanLong set behavior token rest), Met set activation := by
  rw [scanLong]
  cases found : set.findString (longName token) with
  | none =>
    cases behavior.ignoreUnknown <;>
      simp [activationsOf, Group.activations, Ending.activations]
  | some popt =>
    have met (taken : Option Text) (fits : taken.isSome = (set.deref popt).takesArgument) :
        Met set (popt, taken) := ⟨.inr ⟨_, found⟩, fits⟩
    cases taking : (set.deref popt).takesArgument <;>
      cases token.findIdx? (· == '=') <;> cases rest <;>
        simp [activationsOf, Group.activations, Ending.activations, met, taking]

theorem scanToken_met (token : Text) (rest : List Text) :
    ∀ activation ∈ activationsOf (scanToken set behavior token rest), Met set activation := by
  rw [scanToken]
  split
  · exact scanLong_met set behavior token rest
  · split
    · rw [scanShort]
      have letters := scanLetters_met set behavior token rest (token.length + 1) 1
      split
      · split
        · simp [activationsOf, Ending.activations]
        · split <;> simp [activationsOf, Group.activations, Ending.activations]
      · generalize scanLetters set behavior token rest (token.length + 1) 1 = scanned at *
        obtain ⟨cluster, stop⟩ := scanned
        cases stop <;>
          simpa [activationsOf, Group.activations, Ending.activations] using letters
    · split
      · simp [activationsOf, Ending.activations]
      · split <;> simp [activationsOf, Group.activations, Ending.activations]

/-- Everything a run activates was met. -/
theorem outcome_met (arguments : List Text) :
    ∀ activation ∈ (outcome set behavior arguments).2, Met set activation := by
  induction arguments using scan_induction set behavior with
  | nil => simp [outcome, scan, Ending.activations]
  | ending token rest ending scanned =>
    have met := scanToken_met set behavior token rest
    rw [scanned] at met
    rw [outcome_ending scanned]
    exact met
  | group token rest group scanned ih =>
    have met := scanToken_met set behavior token rest
    rw [scanned] at met
    simp only [outcome, scan_group set behavior scanned, List.flatMap_cons,
      List.append_assoc, List.mem_append] at ih ⊢
    rintro activation (here | behind)
    · exact met activation here
    · exact ih activation behind

end Reading

variable {set state : OptionSet} {behavior : ProcessArguments}

/-- A run reads the names of the options, not what earlier runs left in them. -/
theorem process_same (same : SameNames state set) (arguments : List Text) :
    process state arguments behavior =
      ((outcome set behavior arguments).1,
        state.cleared.activateAll (outcome set behavior arguments).2) := by
  have loop := processLoop_exec behavior (show SameNames state.cleared set from same) arguments []
    (Nat.lt_succ_self _)
  simpa [process, OptionSet.cleared, outcome] using loop

theorem Met.inside {activation : Activation} (met : Met set activation) :
    activation.1 < set.optionVec.length := by
  rcases met.named with ⟨_, found⟩ | ⟨_, found⟩
  · exact (List.findIdx?_eq_some_iff_getElem.mp found).1
  · exact (List.findIdx?_eq_some_iff_getElem.mp found).1

theorem SameNames.length (same : SameNames state set) :
    state.optionVec.length = set.optionVec.length := by
  simpa using congrArg List.length same

/-- The options are the same but for what runs may write into them. -/
structure Alike (left right : OptionSet) : Prop where
  names : SameNames left right
  argument : ∀ popt, (right.deref popt).takesArgument = false →
    (left.deref popt).argument = (right.deref popt).argument

theorem Alike.refl (set : OptionSet) : Alike set set := ⟨.refl set, fun _ _ => rfl⟩

theorem Opt.activate_congr {left right : Opt} (same : left.blank = right.blank)
    (argument : Option Text) (bare : argument = none → left.argument = right.argument) :
    left.activate argument = right.activate argument := by
  obtain ⟨shortDef, charName, longDef, strName, takesArgument, activated, given⟩ := left
  cases right
  cases argument <;> simp_all [Opt.activate, Opt.blank]

/-- What an activation makes of its option does not depend on earlier ones. -/
theorem Alike.activated (alike : Alike state set) {activation : Activation}
    (met : Met set activation) :
    (state.deref activation.1).activate activation.2 =
      (set.deref activation.1).activate activation.2 := by
  apply Opt.activate_congr (alike.names.deref activation.1)
  intro bare
  exact alike.argument activation.1 (by rw [← met.argument, bare]; rfl)

theorem OptionSet.deref_activate (state : OptionSet) {popt : Nat}
    (inside : popt < state.optionVec.length) (argument : Option Text) (other : Nat) :
    (state.activate popt argument).deref other =
      if other = popt then (state.deref popt).activate argument else state.deref other := by
  by_cases same : other = popt
  · subst same
    simp [OptionSet.deref, OptionSet.activate, inside]
  · simp [OptionSet.deref, OptionSet.activate, same, Ne.symm same]

theorem Alike.activate (alike : Alike state set) {activation : Activation}
    (met : Met set activation) : Alike (state.activate activation.1 activation.2) set where
  names := alike.names.activate _ _
  argument popt bare := by
    have inside : activation.1 < state.optionVec.length := alike.names.length ▸ met.inside
    rw [state.deref_activate inside]
    split
    · rename_i same
      subst same
      have none : activation.2 = none := by simpa [bare] using met.argument
      simpa [Opt.activate, none] using alike.argument activation.1 bare
    · exact alike.argument popt bare

theorem Alike.activateAll (alike : Alike state set) {activations : List Activation}
    (met : ∀ activation ∈ activations, Met set activation) :
    Alike (state.activateAll activations) set := by
  induction activations generalizing state with
  | nil => exact alike
  | cons activation rest ih =>
    exact ih (alike.activate (met activation List.mem_cons_self))
      (fun later member => met later (List.mem_cons_of_mem _ member))

/-- The copy of its option that an activation pushes to the sequence. -/
def OptionSet.pushed (set : OptionSet) (activation : Activation) : Opt :=
  (set.deref activation.1).activate activation.2

theorem activateAll_pushed (alike : Alike state set) {activations : List Activation}
    (met : ∀ activation ∈ activations, Met set activation) :
    (state.activateAll activations).optionSequence =
      state.optionSequence ++ activations.map set.pushed := by
  induction activations generalizing state with
  | nil => simp
  | cons activation rest ih =>
    have first := met activation List.mem_cons_self
    rw [OptionSet.activateAll_cons, ih (alike.activate first)
      (fun later member => met later (List.mem_cons_of_mem _ member))]
    simp [OptionSet.activate, OptionSet.pushed, alike.activated first]

/-- An option ends as its last activation left it, or as it was. -/
theorem deref_activateAll (alike : Alike state set) {activations : List Activation}
    (met : ∀ activation ∈ activations, Met set activation) (popt : Nat) :
    (state.activateAll activations).deref popt =
      match (activations.filter (fun activation => activation.1 == popt)).getLast? with
      | none => state.deref popt
      | some last => set.pushed last := by
  induction activations using List.reverseRecOn with
  | nil => rfl
  | append_singleton before last ih =>
    have metBefore : ∀ activation ∈ before, Met set activation :=
      fun activation member => met activation (List.mem_append_left _ member)
    have metLast : Met set last := met last (by simp)
    have alikeBefore := alike.activateAll metBefore
    have inside : last.1 < (state.activateAll before).optionVec.length :=
      alikeBefore.names.length ▸ metLast.inside
    rw [OptionSet.activateAll_append, OptionSet.activateAll_cons, OptionSet.activateAll_nil,
      OptionSet.deref_activate _ inside, List.filter_append]
    by_cases same : popt = last.1
    · subst same
      simp [OptionSet.pushed, alikeBefore.activated metLast]
    · simp [same, Ne.symm same, ih metBefore]

section Splitting

/-- A run returns or throws, unless it comes to an endless token. -/
theorem outcome_cases (arguments : List Text) :
    (∃ out, (outcome set behavior arguments).1 = .ok out) ∨
      (∃ error, (outcome set behavior arguments).1 = .error (.thrown error)) ∨
      (outcome set behavior arguments).1 = .error .diverged ∧
        ∃ token, ComesTo set behavior arguments token ∧ Endless set behavior token := by
  have endless := @scan_diverges_iff set behavior arguments
  obtain ⟨rest, _, _, ends⟩ := scan_reads set behavior arguments
  rw [outcome]
  generalize scan set behavior arguments = scanned at *
  obtain ⟨groups, ending⟩ := scanned
  cases ends with
  | endless _ activations => exact .inr (.inr ⟨rfl, endless.mp ⟨activations, rfl⟩⟩)
  | _ => simp [Ending.result]

theorem outcome_append {first out : List Text} (goesOn : behavior.stopOnArgument = false)
    (passes : behavior.stopOnDoubledash = false)
    (returns : (outcome set behavior first).1 = .ok out) (second : List Text) :
    outcome set behavior (first ++ second) =
      ((outcome set behavior second).1.map (out ++ ·),
        (outcome set behavior first).2 ++ (outcome set behavior second).2) := by
  have finished := scan_finished goesOn returns fun stops => by simp [passes] at stops
  obtain ⟨rest, _, _, ends⟩ := scan_reads set behavior second
  simp only [outcome, finished, Ending.result, Except.ok.injEq] at returns
  simp only [outcome, scan_append first second finished, finished, List.flatMap_append, returns]
  generalize scan set behavior second = scanned at *
  obtain ⟨groups, ending⟩ := scanned
  cases ends with
  | stoppedOnArgument stops => simp [goesOn] at stops
  | doubledash _ stops => simp [passes] at stops
  | _ => simp [Ending.result, Ending.activations, Except.map]

theorem activateAll_optionVec {left right : OptionSet} (same : left.optionVec = right.optionVec)
    (activations : List Activation) :
    (left.activateAll activations).optionVec = (right.activateAll activations).optionVec := by
  induction activations generalizing left right with
  | nil => exact same
  | cons activation rest ih => exact ih (by simp [OptionSet.activate, same])

theorem process_alike (set : OptionSet) (arguments : List Text) (behavior : ProcessArguments) :
    Alike (process set arguments behavior).2 set := by
  rw [process_eq_outcome]
  have cleared : Alike set.cleared set := ⟨rfl, fun _ _ => rfl⟩
  exact cleared.activateAll (outcome_met set behavior arguments)

/-- The sequence a run leaves holds what its own arguments push, whatever
earlier runs left in the options. -/
theorem process_sequence (alike : Alike state set) (arguments : List Text) :
    (process state arguments behavior).2.optionSequence =
      (outcome set behavior arguments).2.map set.pushed := by
  rw [process_same alike.names]
  have cleared : Alike state.cleared set := ⟨alike.names, alike.argument⟩
  rw [activateAll_pushed cleared (outcome_met set behavior arguments)]
  rfl

/-- Processing two vectors one behind the other is processing them one after
the other: no pending state crosses the place where the first one ends. This holds
exactly when processing comes to no endless token in the second one. -/
theorem process_append_iff (set : OptionSet) (behavior : ProcessArguments)
    (goesOn : behavior.stopOnArgument = false) (passes : behavior.stopOnDoubledash = false)
    (first second out : List Text) (returns : (process set first behavior).1 = .ok out) :
    let before := process set first behavior
    let alone := process set second behavior
    let after := process before.2 second behavior
    let whole := process set (first ++ second) behavior
    ((after.1 = alone.1 ∧ after.2.optionSequence = alone.2.optionSequence) ∧
      ((∃ error, whole.1 = .error (.thrown error)) ↔
        ∃ error, alone.1 = .error (.thrown error)) ∧
      ((¬ ∃ error, alone.1 = .error (.thrown error)) →
        ∃ result, alone.1 = .ok result ∧ whole.1 = .ok (out ++ result) ∧
          whole.2.optionSequence = before.2.optionSequence ++ alone.2.optionSequence ∧
          whole.2.optionVec = after.2.optionVec)) ↔
    ∀ token, ComesTo set behavior second token → ¬ Endless set behavior token := by
  intro before alone after whole
  rw [process_eq_outcome] at returns
  have joined := outcome_append goesOn passes returns second
  have alike := process_alike set first behavior
  have afterIs : after = _ := process_same alike.names second
  have aloneIs : alone = _ := process_eq_outcome second
  have wholeIs : whole = _ := process_eq_outcome (first ++ second)
  have wholeResult : whole.1 = alone.1.map (out ++ ·) := by rw [wholeIs, aloneIs, joined]
  have sequence : alone.2.optionSequence = (outcome set behavior second).2.map set.pushed :=
    process_sequence (.refl set) second
  constructor
  · rintro ⟨-, -, ends⟩ token comes endless
    obtain ⟨activations, diverges⟩ := (scan_diverges_iff second).mpr ⟨token, comes, endless⟩
    have diverged : alone.1 = .error .diverged := by
      rw [aloneIs, outcome, diverges]
      rfl
    obtain ⟨result, returns, -⟩ := ends (by simp [diverged])
    simp [diverged] at returns
  · intro quiet
    refine ⟨⟨by rw [afterIs, aloneIs], ?_⟩, ?_, ?_⟩
    · rw [sequence]
      exact process_sequence alike second
    · rw [wholeResult]
      cases alone.1 <;> simp [Except.map]
    · intro noThrow
      rcases @outcome_cases set behavior second with
        ⟨result, ok⟩ | thrown | ⟨-, token, comes, endless⟩
      · have aloneOk : alone.1 = .ok result := by rw [aloneIs, ok]
        refine ⟨result, aloneOk, by rw [wholeResult, aloneOk]; rfl, ?_, ?_⟩
        · have firstSequence : before.2.optionSequence = _ := process_sequence (.refl set) first
          have wholeSequence : whole.2.optionSequence = _ :=
            process_sequence (.refl set) (first ++ second)
          rw [wholeSequence, joined, List.map_append, firstSequence, sequence]
        · rw [wholeIs, joined, OptionSet.activateAll_append, afterIs]
          exact activateAll_optionVec (by simp [process_eq_outcome, OptionSet.cleared]) _
      · rw [aloneIs] at noThrow
        exact absurd thrown noThrow
      · exact absurd endless (quiet token comes)

theorem process_append_argument :
    let opt : Opt := { shortDef := true, charName := 'o', takesArgument := true }
    let set : OptionSet := { optionVec := [opt] }
    let behavior : ProcessArguments := { stopOnDoubledash := false }
    let first : List Text := [['-', 'o'], ['x']]
    let second : List Text := [['y']]
    let before := process set first behavior
    let alone := process set second behavior
    let after := process before.2 second behavior
    let whole := process set (first ++ second) behavior
    ((after.1 = alone.1 ∧ after.2.optionSequence = alone.2.optionSequence) ∧
      ((∃ error, whole.1 = .error (.thrown error)) ↔
        ∃ error, alone.1 = .error (.thrown error)) ∧
      ((¬ ∃ error, alone.1 = .error (.thrown error)) →
        ∃ result, alone.1 = .ok result ∧ whole.1 = .ok ([] ++ result) ∧
          whole.2.optionSequence = before.2.optionSequence ++ alone.2.optionSequence ∧
          whole.2.optionVec = after.2.optionVec)) ↔
    ∀ token, ComesTo set behavior second token → ¬ Endless set behavior token :=
  process_append_iff { optionVec := [{ shortDef := true, charName := 'o', takesArgument := true }] }
    { stopOnDoubledash := false } rfl rfl [['-', 'o'], ['x']] [['y']] [] (by decide)

/-- On a number of more than `2 ^ 32` digits, `process` neither throws nor returns. -/
theorem process_append_endless :
    let behavior : ProcessArguments := { ignoreNumbers := true, stopOnDoubledash := false }
    let set : OptionSet := { optionVec := [] }
    let second : List Text := ['-' :: '1' :: List.replicate (2 ^ 32) '0']
    (process set [] behavior).1 = .ok [] ∧
      (¬ ∃ error, (process set second behavior).1 = .error (.thrown error)) ∧
      ¬ ∃ result, (process set ([] ++ second) behavior).1 = .ok result := by
  obtain ⟨digits, is, enough⟩ : ∃ digits, 2 ^ 32 = digits ∧ 2 ^ 32 ≤ digits :=
    ⟨_, rfl, Nat.le_refl _⟩
  rw [is]
  intro behavior set second
  have diverged : (process set second behavior).1 = .error .diverged :=
    process_endless (endless_number enough rfl) []
  exact ⟨rfl, by simp [diverged], by simp [diverged]⟩

end Splitting

section Agreement

/-- The two options have a name in common. -/
def Opt.shares (opt other : Opt) : Bool :=
  (opt.shortDef && other.hasChar opt.charName) || (opt.longDef && other.hasString opt.strName)

/-- No two options have a short or a long name in common. -/
def OptionSet.DistinctNames (set : OptionSet) : Prop :=
  set.optionVec.Pairwise fun left right => left.shares right = false

theorem Opt.shares_comm (opt other : Opt) : opt.shares other = other.shares opt := by
  simp only [Opt.shares, Opt.hasChar, Opt.hasString]
  rw [Bool.eq_iff_iff]
  grind

theorem Opt.shares_activate (opt other : Opt) (argument : Option Text) :
    opt.shares (other.activate argument) = opt.shares other := rfl

theorem OptionSet.deref_eq (set : OptionSet) {popt : Nat} (inside : popt < set.optionVec.length) :
    set.deref popt = set.optionVec[popt] := by
  simp [OptionSet.deref, inside]

/-- A name an option was found by is a name of it. -/
theorem Met.shares {activation : Activation} (met : Met set activation) :
    (set.deref activation.1).shares (set.deref activation.1) = true := by
  rw [set.deref_eq met.inside]
  rcases met.named with ⟨_, found⟩ | ⟨_, found⟩ <;>
    obtain ⟨_, holds, _⟩ := List.findIdx?_eq_some_iff_getElem.mp found <;>
      simp_all [Opt.shares, Opt.hasChar, Opt.hasString]

/-- With distinct names, a copy has the names of no option but its own. -/
theorem OptionSet.DistinctNames.shares_pushed (distinct : set.DistinctNames) {popt : Nat}
    (inside : popt < set.optionVec.length) {activation : Activation} (met : Met set activation) :
    (set.deref popt).shares (set.pushed activation) = (activation.1 == popt) := by
  rw [OptionSet.pushed, Opt.shares_activate]
  rcases Nat.lt_trichotomy popt activation.1 with before | same | behind
  · rw [set.deref_eq inside, set.deref_eq met.inside,
      List.pairwise_iff_getElem.mp distinct popt activation.1 inside met.inside before]
    exact (beq_eq_false_iff_ne.mpr (Nat.ne_of_gt before)).symm
  · rw [same, met.shares, beq_self_eq_true]
  · rw [Opt.shares_comm, set.deref_eq inside, set.deref_eq met.inside,
      List.pairwise_iff_getElem.mp distinct activation.1 popt met.inside inside behind]
    exact (beq_eq_false_iff_ne.mpr (Nat.ne_of_lt behind)).symm

/-- The options and the sequence say the same: however the run ends, an option
is as its last entry in the sequence, and untouched if it has none. -/
theorem process_agrees (set : OptionSet) (distinct : set.DistinctNames) (arguments : List Text)
    (behavior : ProcessArguments) :
    let run := process set arguments behavior
    run.2.optionVec.map Opt.blank = set.optionVec.map Opt.blank ∧
    (∀ entry ∈ run.2.optionSequence, entry.activated = true) ∧
    ∀ popt, popt < set.optionVec.length →
      let entries := run.2.optionSequence.filter (set.deref popt).shares
      (∀ last, entries.getLast? = some last →
        (run.2.deref popt).activated = true ∧ (run.2.deref popt).argument = last.argument) ∧
      (entries = [] → run.2.deref popt = set.deref popt) := by
  intro run
  have runIs : run = _ := process_eq_outcome arguments
  have met := outcome_met set behavior arguments
  have sequence : run.2.optionSequence = _ := process_sequence (.refl set) arguments
  refine ⟨(process_alike set arguments behavior).names, ?_, ?_⟩
  · rw [sequence]
    intro entry member
    obtain ⟨activation, _, rfl⟩ := List.mem_map.mp member
    rfl
  · intro popt inside entries
    have cleared : Alike set.cleared set := ⟨rfl, fun _ _ => rfl⟩
    have left := deref_activateAll cleared met popt
    have entriesAre : entries = ((outcome set behavior arguments).2.filter
        (fun activation => activation.1 == popt)).map set.pushed := by
      simp only [entries, sequence, List.filter_map]
      congr 1
      apply List.filter_congr
      intro activation member
      exact distinct.shares_pushed inside (met activation member)
    rw [entriesAre, runIs]
    simp only [List.getLast?_map, List.map_eq_nil_iff]
    rw [left]
    constructor
    · intro last isLast
      obtain ⟨activation, found, rfl⟩ := Option.map_eq_some_iff.mp isLast
      rw [found]
      exact ⟨rfl, rfl⟩
    · intro none
      rw [none]
      rfl

theorem process_agrees_repeated :
    let opt : Opt := { shortDef := true, charName := 'o', takesArgument := true }
    let set : OptionSet := { optionVec := [opt] }
    let run := process set [['-', 'o', 'x'], ['-', 'o', 'y']] {}
    run.2.optionVec.map Opt.blank = set.optionVec.map Opt.blank ∧
    (∀ entry ∈ run.2.optionSequence, entry.activated = true) ∧
    ∀ popt, popt < set.optionVec.length →
      let entries := run.2.optionSequence.filter (set.deref popt).shares
      (∀ last, entries.getLast? = some last →
        (run.2.deref popt).activated = true ∧ (run.2.deref popt).argument = last.argument) ∧
      (entries = [] → run.2.deref popt = set.deref popt) :=
  process_agrees { optionVec := [{ shortDef := true, charName := 'o', takesArgument := true }] }
    (List.pairwise_singleton ..) [['-', 'o', 'x'], ['-', 'o', 'y']] {}

end Agreement

section Independence

/-- A token of the arguments that processing reads as an option names it. -/
def Mentions (set : OptionSet) (behavior : ProcessArguments) (arguments : List Text)
    (popt : Nat) : Prop :=
  ∃ groups rest, Splits set behavior arguments groups rest ∧
    ∃ group ∈ groups, ∃ taken, (popt, taken) ∈ group.activations

theorem mentions_iff {arguments out : List Text}
    (returns : (process set arguments behavior).1 = .ok out) (popt : Nat) :
    Mentions set behavior arguments popt ↔
      ∃ activation ∈ (outcome set behavior arguments).2, activation.1 = popt := by
  have activations {groups : List Group} {rest : List Text}
      (splits : Splits set behavior arguments groups rest) :
      (outcome set behavior arguments).2 = groups.flatMap Group.activations := by
    rw [outcome, scan_of_splits splits]
    cases rest <;> cases stops : behavior.stopOnArgument <;>
      simp [endingOf, Ending.activations, stops]
  constructor
  · rintro ⟨groups, rest, splits, group, member, taken, met⟩
    rw [activations splits]
    exact ⟨(popt, taken), List.mem_flatMap.mpr ⟨group, member, met⟩, rfl⟩
  · rintro ⟨⟨popt, taken⟩, met, rfl⟩
    obtain ⟨groups, rest, splits⟩ := splits_of_returns returns
    rw [activations splits] at met
    obtain ⟨group, member, met⟩ := List.mem_flatMap.mp met
    exact ⟨groups, rest, splits, group, member, taken, met⟩

/-- Activated options are those that were, and those of the activations. -/
theorem activated_activateAll (alike : Alike state set) {activations : List Activation}
    (met : ∀ activation ∈ activations, Met set activation) (popt : Nat) :
    ((state.activateAll activations).deref popt).activated = true ↔
      (state.deref popt).activated = true ∨ ∃ activation ∈ activations, activation.1 = popt := by
  rw [deref_activateAll alike met popt]
  cases found : (activations.filter (fun activation => activation.1 == popt)).getLast? with
  | none =>
    have noneMet := List.filter_eq_nil_iff.mp (List.getLast?_eq_none_iff.mp found)
    simp only [beq_iff_eq] at noneMet
    exact ⟨.inl, fun either => either.resolve_right fun ⟨activation, member, is⟩ =>
      noneMet activation member is⟩
  | some last =>
    have member := List.mem_of_getLast? found
    simp only [List.mem_filter, beq_iff_eq] at member
    exact iff_of_true rfl (.inr ⟨last, member⟩)

/-- A later run leaves what it would leave alone exactly when it names every
option the earlier one activated: nothing else deactivates an option. -/
theorem process_twice_iff (set : OptionSet)
    (inactive : ∀ opt ∈ set.optionVec, opt.activated = false) (behavior : ProcessArguments)
    (first second out result : List Text) (accepted : (process set first behavior).1 = .ok out)
    (accepts : (process set second behavior).1 = .ok result) :
    let twice := (process (process set first behavior).2 second behavior).2
    let alone := (process set second behavior).2
    ((∀ popt, (twice.deref popt).activated = (alone.deref popt).activated) ∧
      (∀ popt, (alone.deref popt).activated = true →
        (twice.deref popt).argument = (alone.deref popt).argument) ∧
      twice.optionSequence = alone.optionSequence) ↔
    ∀ popt, Mentions set behavior first popt → Mentions set behavior second popt := by
  intro twice alone
  have alike := process_alike set first behavior
  have metFirst := outcome_met set behavior first
  have metSecond := outcome_met set behavior second
  have cleared : Alike set.cleared set := ⟨rfl, fun _ _ => rfl⟩
  have clearedAfter : Alike (process set first behavior).2.cleared set :=
    ⟨alike.names, alike.argument⟩
  have twiceIs : twice = _ := congrArg Prod.snd (process_same alike.names second)
  have aloneIs : alone = _ := congrArg Prod.snd (process_eq_outcome second)
  have quiet (popt : Nat) : (set.deref popt).activated = false := by
    by_cases inside : popt < set.optionVec.length
    · rw [set.deref_eq inside]
      exact inactive _ (List.getElem_mem inside)
    · simp [OptionSet.deref, List.getElem?_eq_none (Nat.le_of_not_lt inside)]
  have firstOn (popt : Nat) : ((process set first behavior).2.deref popt).activated = true ↔
      Mentions set behavior first popt := by
    have start : (set.cleared.deref popt).activated = false := quiet popt
    rw [mentions_iff accepted, process_eq_outcome, activated_activateAll cleared metFirst, start]
    simp
  have aloneOn (popt : Nat) : (alone.deref popt).activated = true ↔
      Mentions set behavior second popt := by
    have start : (set.cleared.deref popt).activated = false := quiet popt
    rw [mentions_iff accepts, aloneIs, activated_activateAll cleared metSecond, start]
    simp
  have twiceOn (popt : Nat) : (twice.deref popt).activated = true ↔
      Mentions set behavior first popt ∨ Mentions set behavior second popt := by
    rw [mentions_iff accepts, twiceIs, activated_activateAll clearedAfter metSecond, ← firstOn]
    rfl
  constructor
  · rintro ⟨flags, _⟩ popt mentioned
    rw [← aloneOn, ← flags, twiceOn]
    exact .inl mentioned
  · intro covered
    refine ⟨fun popt => ?_, fun popt on => ?_, ?_⟩
    · rw [Bool.eq_iff_iff, twiceOn, aloneOn]
      exact ⟨fun either => either.elim (covered popt) id, .inr⟩
    · obtain ⟨activation, member, is⟩ := (mentions_iff accepts popt).mp ((aloneOn popt).mp on)
      have leftTwice := deref_activateAll clearedAfter metSecond popt
      have leftAlone := deref_activateAll cleared metSecond popt
      cases found : ((outcome set behavior second).2.filter
          (fun activation => activation.1 == popt)).getLast? with
      | none =>
        have noneMet := List.filter_eq_nil_iff.mp (List.getLast?_eq_none_iff.mp found)
        exact absurd (beq_iff_eq.mpr is) (noneMet activation member)
      | some last =>
        rw [found] at leftTwice leftAlone
        rw [twiceIs, aloneIs, leftTwice, leftAlone]
    · exact (process_sequence alike second).trans (process_sequence (.refl set) second).symm

theorem process_twice_iff_flag :
    let opt : Opt := { shortDef := true, charName := 'a' }
    let set : OptionSet := { optionVec := [opt] }
    let twice := (process (process set [['-', 'a']] {}).2 [['-', 'a']] {}).2
    let alone := (process set [['-', 'a']] {}).2
    ((∀ popt, (twice.deref popt).activated = (alone.deref popt).activated) ∧
      (∀ popt, (alone.deref popt).activated = true →
        (twice.deref popt).argument = (alone.deref popt).argument) ∧
      twice.optionSequence = alone.optionSequence) ↔
    ∀ popt, Mentions set {} [['-', 'a']] popt → Mentions set {} [['-', 'a']] popt :=
  process_twice_iff { optionVec := [{ shortDef := true, charName := 'a' }] } (by decide) {}
    [['-', 'a']] [['-', 'a']] [] [] (by decide) (by decide)

/-- After `process` on `-a`, an empty vector leaves `a` activated. -/
theorem process_twice_stays_activated :
    ¬ ∀ (set : OptionSet) (behavior : ProcessArguments) (first second out result : List Text),
      (∀ opt ∈ set.optionVec, opt.activated = false) →
      (process set first behavior).1 = .ok out → (process set second behavior).1 = .ok result →
      (∀ popt, ((process (process set first behavior).2 second behavior).2.deref popt).activated =
          ((process set second behavior).2.deref popt).activated) ∧
        (∀ popt, ((process set second behavior).2.deref popt).activated = true →
          ((process (process set first behavior).2 second behavior).2.deref popt).argument =
            ((process set second behavior).2.deref popt).argument) ∧
        (process (process set first behavior).2 second behavior).2.optionSequence =
          (process set second behavior).2.optionSequence := by
  intro independent
  have same := (independent { optionVec := [{ shortDef := true, charName := 'a' }] } {}
    [['-', 'a']] [] [] [] (by decide) (by decide) (by decide)).1 0
  exact absurd same (by decide)

end Independence

end Ztd.Options
