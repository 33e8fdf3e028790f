import Ztd.Options.Scan

/-! `process` computes the reading of its arguments: it stays inside the vector
and its tokens, ends, and leaves what the groups say. -/

namespace Ztd.Options
open Ztd.Lib

/-- An option without its processing status. -/
def Opt.blank (opt : Opt) : Opt := { opt with activated := false, argument := [] }

/-- Two sets with the same options up to their status. -/
def SameNames (left right : OptionSet) : Prop :=
  left.optionVec.map Opt.blank = right.optionVec.map Opt.blank

theorem SameNames.refl (set : OptionSet) : SameNames set set := rfl

private theorem map_blank_modify (opts : List Opt) (popt : Nat) (argument : Option Text) :
    (opts.modify popt (Opt.activate argument)).map Opt.blank = opts.map Opt.blank := by
  apply List.ext_getElem?
  intro index
  simp only [List.getElem?_map, List.getElem?_modify]
  split <;> cases opts[index]? <;> rfl

theorem SameNames.activate {left right : OptionSet} (same : SameNames left right) (popt : Nat)
    (argument : Option Text) : SameNames (left.activate popt argument) right :=
  (map_blank_modify left.optionVec popt argument).trans same

theorem SameNames.activateAll {left right : OptionSet} (same : SameNames left right)
    (activations : List Activation) : SameNames (left.activateAll activations) right := by
  induction activations generalizing left with
  | nil => exact same
  | cons activation rest ih => exact ih (same.activate activation.1 activation.2)

theorem SameNames.findChar {left right : OptionSet} (same : SameNames left right) (c : Char) :
    left.findChar c = right.findChar c := by
  have lookup (set : OptionSet) :
      set.findChar c = (set.optionVec.map Opt.blank).findIdx? (fun it => it.hasChar c) := by
    rw [List.findIdx?_map]
    rfl
  rw [lookup left, lookup right, same]

theorem SameNames.findString {left right : OptionSet} (same : SameNames left right) (str : Text) :
    left.findString str = right.findString str := by
  have lookup (set : OptionSet) :
      set.findString str = (set.optionVec.map Opt.blank).findIdx? (fun it => it.hasString str) := by
    rw [List.findIdx?_map]
    rfl
  rw [lookup left, lookup right, same]

theorem SameNames.deref {left right : OptionSet} (same : SameNames left right) (popt : Nat) :
    (left.deref popt).blank = (right.deref popt).blank := by
  have lookup (set : OptionSet) :
      (set.deref popt).blank = (set.optionVec.map Opt.blank).getD popt {} := by
    simp only [OptionSet.deref, List.getD_eq_getElem?_getD, List.getElem?_map]
    cases set.optionVec[popt]? <;> rfl
  rw [lookup left, lookup right, same]

theorem SameNames.takesArgument {left right : OptionSet} (same : SameNames left right)
    (popt : Nat) : (left.deref popt).takesArgument = (right.deref popt).takesArgument := by
  simpa [Opt.blank] using congrArg Opt.takesArgument (same.deref popt)

theorem SameNames.charName {left right : OptionSet} (same : SameNames left right)
    (popt : Nat) : (left.deref popt).charName = (right.deref popt).charName := by
  simpa [Opt.blank] using congrArg Opt.charName (same.deref popt)

theorem SameNames.strName {left right : OptionSet} (same : SameNames left right)
    (popt : Nat) : (left.deref popt).strName = (right.deref popt).strName := by
  simpa [Opt.blank] using congrArg Opt.strName (same.deref popt)

theorem OptionSet.activateAll_append (set : OptionSet) (first second : List Activation) :
    set.activateAll (first ++ second) = (set.activateAll first).activateAll second :=
  List.foldl_append ..

@[simp] theorem OptionSet.activateAll_nil (set : OptionSet) : set.activateAll [] = set := rfl

@[simp] theorem OptionSet.activateAll_cons (set : OptionSet) (activation : Activation)
    (rest : List Activation) : set.activateAll (activation :: rest) =
      (set.activate activation.1 activation.2).activateAll rest := rfl

section Loops
variable {set state : OptionSet} {behavior : ProcessArguments}

/-- Where the iterator stands after a group that may have taken the next token. -/
def iteratorAfter (token : Text) (rest : List Text) (next : Option Text) : List Text :=
  if next.isSome then rest else token :: rest

/-- An index of 32 bits never comes to the end of a long number, however long it runs. -/
theorem numberLoop_long {token : Text} (long : 2 ^ 32 ≤ token.length) (rest : List Text)
    (fuel : Nat) (i : UInt32) :
    (numberLoop fuel (token :: rest) i).exec state = (.error .diverged, state) := by
  induction fuel generalizing i with
  | zero => rfl
  | succ fuel ih =>
    have inside : ¬ token.length ≤ i.toNat :=
      Nat.not_le.mpr (Nat.lt_of_lt_of_le i.toNat_lt long)
    simp only [numberLoop, readIterator, Act.exec_bind, Act.exec_pure, reduceCtorEq, ↓reduceIte,
      inside, ih]

theorem numberLoop_ends {token : Text} (short : token.length < 2 ^ 32) (rest : List Text)
    {fuel : Nat} {i : UInt32} (inside : i.toNat ≤ token.length)
    (enough : token.length - i.toNat < fuel) :
    ∃ stop, (numberLoop fuel (token :: rest) i).exec state = (.ok stop, state) := by
  induction fuel generalizing i with
  | zero => omega
  | succ fuel ih =>
    simp only [numberLoop, readIterator, Act.exec_bind, Act.exec_pure, reduceCtorEq, ↓reduceIte]
    by_cases ends : token.length ≤ i.toNat
    · exact ⟨i, by rw [if_pos ends, Act.exec_pure]⟩
    · have next : (i + 1).toNat = i.toNat + 1 := by
        rw [UInt32.toNat_add, UInt32.toNat_one]
        exact Nat.mod_eq_of_lt (by omega)
      rw [if_neg ends]
      exact ih (by omega) (by omega)

variable (behavior) in
/-- The letter loop does what reading the letters from its index on says. -/
theorem letterLoop_exec (same : SameNames state set) (token : Text) (rest : List Text) (fuel : Nat)
    (i : UInt32) (ropt : Text) :
    (letterLoop behavior fuel (token :: rest) i ropt).exec state =
      match scanLetters set behavior token rest fuel i with
      | (cluster, none) =>
        (.ok (iteratorAfter token rest cluster.next, ropt ++ cluster.ropt),
          state.activateAll cluster.activations)
      | (cluster, some stop) => (.error stop, state.activateAll cluster.activations) := by
  induction fuel generalizing i ropt state with
  | zero => rfl
  | succ fuel ih =>
    cases letter : token[i.toNat]? with
    | none =>
      have ends : token.length ≤ i.toNat := List.getElem?_eq_none_iff.mp letter
      simp [letterLoop, readIterator, ends, scanLetters, iteratorAfter]
    | some c =>
      obtain ⟨inside, is⟩ := List.getElem?_eq_some_iff.mp letter
      have goesOn : ¬ token.length ≤ i.toNat := Nat.not_le.mpr inside
      have read : (charAt token i.toNat : Run OptionError Char) = .ok c := by
        rw [charAt_of_lt inside, is]
      simp only [letterLoop, Act.exec_bind, readIterator, Act.exec_pure, reduceCtorEq,
        ↓reduceIte, goesOn, Act.exec_lift, read, Act.exec_get, same.findChar]
      cases found : set.findChar c with
      | none =>
        cases ignored : behavior.ignoreUnknown with
        | false => simp [scanLetters, letter, found, ignored, throwOption]
        | true =>
          simp only [Bool.not_true, Bool.false_eq_true, ↓reduceIte, ih same]
          cases scanned : scanLetters set behavior token rest fuel (i + 1) with
          | mk cluster stop =>
            cases stop <;> simp [scanLetters, letter, found, ignored, scanned]
      | some popt =>
        have takes := same.takesArgument popt
        cases taking : (set.deref popt).takesArgument with
        | false =>
          simp only [takes, taking, Bool.false_eq_true, ↓reduceIte, activate, Act.exec_bind,
            Act.exec_modify, ih (same.activate popt none)]
          cases scanned : scanLetters set behavior token rest fuel (i + 1) with
          | mk cluster stop =>
            cases stop <;> simp [scanLetters, letter, found, taking, scanned]
        | true =>
          by_cases text : (i + 1).toNat < token.length
          · have goesOn : ¬ token.length ≤ (i + 1).toNat := Nat.not_le.mpr text
            have readNext : (charAt token (i + 1).toNat : Run OptionError Char) =
                .ok token[(i + 1).toNat] := charAt_of_lt text
            have next : token[(i + 1).toNat]? = some token[(i + 1).toNat] :=
              List.getElem?_eq_getElem text
            simp only [takes, taking, ↓reduceIte, goesOn, Act.exec_bind, Act.exec_lift, readNext,
              activate, Act.exec_modify, Act.exec_pure, scanLetters, letter, found, text,
              attachedAt, next, Option.some.injEq, iteratorAfter, Option.isSome_none,
              Bool.false_eq_true, List.append_nil, OptionSet.activateAll_cons,
              OptionSet.activateAll_nil]
          · have ends : token.length ≤ (i + 1).toNat := Nat.not_lt.mp text
            simp only [takes, taking, ↓reduceIte, ends, scanLetters, letter, found, text]
            cases rest with
            | nil => simp [advance, throwOption, same.charName]
            | cons argument others => simp [advance, Act.exec_map, activate, iteratorAfter]

/-- What a token leads to: a group that processing goes on after, or the end. -/
def flowOf (token : Text) (rest out : List Text) :
    Group ⊕ Ending → Except (Stop OptionError) Flow
  | .inl group => .ok (.next (iteratorAfter token rest group.next) (out ++ group.leftover))
  | .inr ending => (ending.result out).map .finish

def activationsOf : Group ⊕ Ending → List Activation
  | .inl group => group.activations
  | .inr ending => ending.activations

theorem processLong_exec (same : SameNames state set) (token : Text) (rest out : List Text) :
    (processLong behavior (token :: rest) out).exec state =
      (flowOf token rest out (scanLong set behavior token rest),
        state.activateAll (activationsOf (scanLong set behavior token rest))) := by
  simp only [processLong, readIterator, scanLong, Act.exec_bind, Act.exec_pure, Act.exec_get,
    same.findString]
  cases found : set.findString (longName token) with
  | none =>
    cases behavior.ignoreUnknown <;> cases token.findIdx? (· == '=') <;>
      simp [throwOption, flowOf, activationsOf, Ending.result, Ending.activations, Except.map,
        Group.next, Group.leftover, Group.activations, iteratorAfter]
  | some popt =>
    simp only [same.takesArgument popt, same.strName popt]
    cases (set.deref popt).takesArgument <;> cases token.findIdx? (· == '=') <;> cases rest <;>
      simp [throwOption, advance, activate, Act.exec_map, flowOf, activationsOf, Ending.result,
        Ending.activations, Except.map, Group.next, Group.leftover, Group.activations,
        iteratorAfter]

theorem isShort_cases {token : Text} (short : isShort token = true) :
    ∃ first letters, token = '-' :: first :: letters ∧ first ≠ '-' := by
  match token, short with
  | dash :: first :: letters, short =>
    simp only [isShort, Bool.and_eq_true, bne_iff_ne, beq_iff_eq, List.getElem?_cons_zero,
      List.getElem?_cons_succ, ne_eq, Option.some.injEq] at short
    exact ⟨first, letters, by rw [short.1.2], short.2⟩

theorem processShort_exec (same : SameNames state set) {token : Text} (short : isShort token = true)
    (rest out : List Text) :
    (processShort behavior (token :: rest) out).exec state =
      (flowOf token rest out (scanShort set behavior token rest),
        state.activateAll (activationsOf (scanShort set behavior token rest))) := by
  obtain ⟨first, letters, is, _⟩ := isShort_cases short
  have read : (charAt token 1 : Run OptionError Char) = .ok first := by
    simpa [is] using charAt_append (ε := OptionError) ['-'] first letters
  simp only [processShort, readIterator, Act.exec_bind, Act.exec_pure, Act.exec_lift, read]
  have number : isNumber behavior token =
      (behavior.ignoreNumbers && decide ('0' ≤ first) && decide (first ≤ '9')) := by
    simp [isNumber, is, Bool.and_assoc]
  rw [scanShort, number]
  split
  · by_cases long : 2 ^ 32 ≤ token.length
    · rw [if_pos long, Act.exec_bind, numberLoop_long long]
      rfl
    · obtain ⟨stop, ends⟩ := @numberLoop_ends state token (Nat.not_le.mp long) rest _ _
        (show (1 : UInt32).toNat ≤ token.length by simp [is])
        (show token.length - (1 : UInt32).toNat < token.length + 1 by omega)
      rw [if_neg long, Act.exec_bind, ends]
      cases behavior.stopOnArgument <;>
        simp [flowOf, activationsOf, Ending.result, Ending.activations, Except.map, Group.next,
          Group.leftover, Group.activations, iteratorAfter]
  · simp only [Act.exec_bind, letterLoop_exec behavior same]
    cases scanLetters set behavior token rest (token.length + 1) 1 with
    | mk cluster stop =>
      cases stop with
      | none =>
        by_cases ignored : cluster.ropt = [] <;>
          simp [flowOf, activationsOf, Group.next, Group.leftover, Group.activations, ignored]
      | some stop =>
        simp [flowOf, activationsOf, Ending.result, Ending.activations, Except.map]

theorem processToken_exec (same : SameNames state set) (token : Text) (rest out : List Text) :
    (processToken behavior (token :: rest) out).exec state =
      (flowOf token rest out (scanToken set behavior token rest),
        state.activateAll (activationsOf (scanToken set behavior token rest))) := by
  simp only [processToken, readIterator, scanToken, Act.exec_bind, Act.exec_pure]
  split
  · exact processLong_exec same token rest out
  · split
    · rename_i short
      exact processShort_exec same short rest out
    · cases stops : behavior.stopOnArgument with
      | true =>
        simp [processArgument, stops, flowOf, activationsOf, Ending.result, Ending.activations,
          Except.map]
      | false =>
        simp only [processArgument, stops, readIterator, Bool.false_eq_true, ↓reduceIte,
          Act.exec_bind, Act.exec_pure]
        split
        · cases behavior.outputDoubledash <;>
            simp [advance, flowOf, activationsOf, Ending.result, Ending.activations,
              Except.map]
        · simp [flowOf, activationsOf, Group.next, Group.leftover, Group.activations,
            iteratorAfter]

variable (behavior) in
/-- The token loop computes the reading of what its iterator has ahead. -/
theorem processLoop_exec (same : SameNames state set) (it out : List Text) {fuel : Nat}
    (enough : it.length < fuel) :
    (processLoop behavior fuel it out).exec state =
      ((scan set behavior it).2.result (out ++ (scan set behavior it).1.flatMap Group.leftover),
        state.activateAll ((scan set behavior it).1.flatMap Group.activations ++
          (scan set behavior it).2.activations)) := by
  induction fuel generalizing it out state with
  | zero => simp at enough
  | succ fuel ih =>
    cases it with
    | nil => simp [processLoop, scan, Ending.result, Ending.activations]
    | cons token rest =>
      have shorter : rest.length < fuel := by simpa using enough
      simp only [processLoop, reduceCtorEq, ↓reduceIte, Act.exec_bind,
        processToken_exec same token rest out]
      cases scanned : scanToken set behavior token rest with
      | inr ending =>
        rw [scan_ending set behavior scanned]
        cases ending <;> simp [flowOf, activationsOf, Ending.result, Ending.activations,
          Except.map]
      | inl group =>
        rw [scan_group set behavior scanned]
        simp only [flowOf, activationsOf, List.flatMap_cons, List.append_assoc,
          OptionSet.activateAll_append]
        have afterSame := same.activateAll group.activations
        cases taken : group.next with
        | none =>
          simp only [iteratorAfter, Option.isSome_none, Bool.false_eq_true, ↓reduceIte,
            reduceCtorEq, advance, Act.exec_bind, Act.exec_pure, ih afterSame rest _ shorter]
          simp [OptionSet.activateAll_append]
        | some next =>
          cases rest with
          | nil => simp [iteratorAfter, scan, Ending.result, Ending.activations]
          | cons first others =>
            have shorterStill : others.length < fuel := Nat.lt_of_succ_lt shorter
            simp only [iteratorAfter, Option.isSome_some, ↓reduceIte, reduceCtorEq, advance,
              Act.exec_bind, Act.exec_pure, ih afterSame others _ shorterStill]
            simp [OptionSet.activateAll_append]

end Loops

/-- The set a run starts from: `process` clears the sequence. -/
def OptionSet.cleared (set : OptionSet) : OptionSet := { set with optionSequence := [] }

theorem process_eq_scan (set : OptionSet) (arguments : List Text) (behavior : ProcessArguments) :
    process set arguments behavior =
      ((scan set behavior arguments).2.result ((scan set behavior arguments).1.flatMap Group.leftover),
        set.cleared.activateAll ((scan set behavior arguments).1.flatMap Group.activations ++
          (scan set behavior arguments).2.activations)) := by
  have loop := processLoop_exec behavior
    (show SameNames set.cleared set from rfl) arguments [] (Nat.lt_succ_self _)
  simpa [process, OptionSet.cleared] using loop

end Ztd.Options
