import Ztd.Options.Groups

/-! Arguments behind a vector that processing reads to its end, and behind `--`. -/

namespace Ztd.Options
open Ztd.Lib

variable {set : OptionSet} {behavior : ProcessArguments}

theorem scanLetters_append {token : Text} {others : List Text} {fuel : Nat} {i : UInt32}
    {cluster : Cluster} (scanned : scanLetters set behavior token others fuel i = (cluster, none))
    (tail : List Text) :
    scanLetters set behavior token (others ++ tail) fuel i = (cluster, none) := by
  induction fuel generalizing i cluster with
  | zero => simp [scanLetters] at scanned
  | succ fuel ih =>
    rw [scanLetters] at scanned ⊢
    cases letter : token[i.toNat]? with
    | none => simpa only [letter] using scanned
    | some c =>
      cases found : set.findChar c with
      | none =>
        cases ignored : behavior.ignoreUnknown with
        | false => simp [letter, found, ignored] at scanned
        | true =>
          cases later : scanLetters set behavior token others fuel (i + 1) with
          | mk inner stop =>
            simp only [letter, found, ignored, later, Bool.not_true, Bool.false_eq_true,
              ↓reduceIte, Prod.mk.injEq] at scanned
            obtain ⟨rfl, rfl⟩ := scanned
            simp [found, ih later]
      | some popt =>
        cases taking : (set.deref popt).takesArgument with
        | false =>
          cases later : scanLetters set behavior token others fuel (i + 1) with
          | mk inner stop =>
            simp only [letter, found, taking, later, Bool.false_eq_true, ↓reduceIte,
              Prod.mk.injEq] at scanned
            obtain ⟨rfl, rfl⟩ := scanned
            simp [found, taking, ih later]
        | true =>
          simp only [letter, found, taking, ↓reduceIte] at scanned
          simp only [found, taking, ↓reduceIte]
          split at scanned
          · rename_i text
            rw [if_pos text, scanned]
          · rename_i ends
            rw [if_neg ends]
            cases others with
            | nil => simp at scanned
            | cons argument others => exact scanned

/-- A token that makes a group makes the same one when more arguments follow. -/
theorem scanToken_append {token : Text} {rest : List Text} {group : Group}
    (scanned : scanToken set behavior token rest = .inl group) (tail : List Text) :
    scanToken set behavior token (rest ++ tail) = .inl group := by
  rw [scanToken] at scanned ⊢
  by_cases long : isLong token = true
  · rw [if_pos long, scanLong] at scanned ⊢
    cases found : set.findString (longName token) with
    | none => simpa [found] using scanned
    | some popt =>
      cases equals : token.findIdx? (· == '=') <;>
        cases taking : (set.deref popt).takesArgument <;> cases rest <;>
          simp [found, equals, taking] at scanned ⊢ <;> exact scanned
  · rw [if_neg long] at scanned ⊢
    by_cases short : isShort token = true
    · rw [if_pos short, scanShort] at scanned ⊢
      by_cases number : isNumber behavior token = true
      · rw [if_pos number] at scanned ⊢
        split at scanned
        · simp at scanned
        · rename_i below
          rw [if_neg below]
          split at scanned
          · simp at scanned
          · rename_i goesOn
            rw [if_neg goesOn]
            exact scanned
      · rw [if_neg number] at scanned ⊢
        cases letters : scanLetters set behavior token rest (token.length + 1) 1 with
        | mk cluster stop =>
          rw [letters] at scanned
          cases stop with
          | none =>
            rw [scanLetters_append letters]
            exact scanned
          | some stop => simp at scanned
    · rw [if_neg short] at scanned ⊢
      split at scanned
      · simp at scanned
      · split at scanned
        · simp at scanned
        · rename_i goesOn noDashes
          rw [if_neg goesOn, if_neg noDashes]
          exact scanned

/-- A vector read to its end is read the same way in front of other arguments,
which are read as if they stood alone. -/
theorem scan_append (arguments tail : List Text)
    (finished : (scan set behavior arguments).2 = .finished) :
    scan set behavior (arguments ++ tail) =
      ((scan set behavior arguments).1 ++ (scan set behavior tail).1,
        (scan set behavior tail).2) := by
  induction arguments using scan_induction set behavior with
  | nil => simp [scan]
  | ending token rest ending scanned =>
    rw [scan_ending set behavior scanned] at finished
    have ends := scanToken_ends scanned
    rw [show ending = .finished from finished] at ends
    cases ends
  | group token rest group scanned ih =>
    rw [scan_group set behavior scanned] at finished ⊢
    have taken := (scanToken_reads scanned).2.2
    have inside : group.next.toList.length ≤ rest.length := by
      rcases taken with none | ⟨next, others, follows, taken⟩
      · simp [none]
      · simp [follows, taken]
    rw [List.cons_append, scan_group set behavior (scanToken_append scanned tail),
      List.drop_append_of_le_length inside, ih finished]
    rfl

theorem scan_doubledash (goesOn : behavior.stopOnArgument = false)
    (stops : behavior.stopOnDoubledash = true) (rest : List Text) :
    scan set behavior (['-', '-'] :: rest) =
      ([], .doubledash (if behavior.outputDoubledash then rest else [])) := by
  apply scan_ending
  simp [scanToken, isLong, isShort, goesOn, stops]

/-- With no `--` among them, arguments that process without an exception are
read to their end. -/
theorem scan_finished {arguments collected : List Text} (goesOn : behavior.stopOnArgument = false)
    (returns : (scan set behavior arguments).2.result collected = .ok out)
    (noDashes : behavior.stopOnDoubledash = true → ['-', '-'] ∉ arguments) :
    (scan set behavior arguments).2 = .finished := by
  obtain ⟨rest, split, _, ends⟩ := scan_reads set behavior arguments
  generalize scan set behavior arguments = scanned at *
  obtain ⟨groups, ending⟩ := scanned
  cases ends with
  | finished => rfl
  | threw => simp [Ending.result] at returns
  | endless => simp [Ending.result] at returns
  | stoppedOnArgument stops => simp [goesOn] at stops
  | doubledash _ stops => exact absurd (by simp [split]) (noDashes stops)

/-- What a run over arguments with `--` does: the options are those of the part
before it, and the part behind it comes back when `--` was to be put out. -/
theorem process_doubledash {before : List Text} (goesOn : behavior.stopOnArgument = false)
    (stops : behavior.stopOnDoubledash = true)
    (returns : (process set before behavior).1 = .ok out) (noDashes : ['-', '-'] ∉ before)
    (behind : List Text) :
    process set (before ++ ['-', '-'] :: behind) behavior =
      (.ok (out ++ if behavior.outputDoubledash then behind else []),
        (process set before behavior).2) := by
  rw [process_eq_scan] at returns ⊢
  have finished := scan_finished goesOn returns fun _ => noDashes
  rw [process_eq_scan, scan_append before _ finished, scan_doubledash goesOn stops]
  rw [finished] at returns ⊢
  simp only [Ending.result, Except.ok.injEq] at returns
  simp [Ending.result, Ending.activations, returns]

/-- The options are left as by the part before `--`, and the part behind it is
returned, with `--` in front when that was asked for: this holds exactly when
`--` was not asked for and nothing stands behind it. -/
theorem doubledash_keeps_arguments_iff (set : OptionSet) (behavior : ProcessArguments)
    (goesOn : behavior.stopOnArgument = false) (stops : behavior.stopOnDoubledash = true)
    (before behind out : List Text) (returns : (process set before behavior).1 = .ok out)
    (noDashes : ['-', '-'] ∉ before) :
    let run := process set (before ++ [['-', '-']] ++ behind) behavior
    (run.2 = (process set before behavior).2 ∧
      run.1 = .ok (if behavior.outputDoubledash then out ++ [['-', '-']] ++ behind
        else out ++ behind)) ↔
    behavior.outputDoubledash = false ∧ behind = [] := by
  intro run
  have runIs : run = (.ok (out ++ if behavior.outputDoubledash then behind else []),
      (process set before behavior).2) := by
    simpa [run] using process_doubledash goesOn stops returns noDashes behind
  rw [runIs]
  cases behavior.outputDoubledash with
  | false => simp
  | true => simp

theorem doubledash_keeps_arguments_iff_flag :
    let set : OptionSet := { optionVec := [{ shortDef := true, charName := 'a' }] }
    let run := process set ([['-', 'a'], ['x']] ++ [['-', '-']] ++ []) {}
    (run.2 = (process set [['-', 'a'], ['x']] {}).2 ∧
      run.1 = .ok (if false then [['x']] ++ [['-', '-']] ++ [] else [['x']] ++ [])) ↔
      (false = false ∧ ([] : List Text) = []) :=
  doubledash_keeps_arguments_iff { optionVec := [{ shortDef := true, charName := 'a' }] } {}
    rfl rfl [['-', 'a'], ['x']] [] [['x']] (by decide) (by decide)

/-- Without options, `process` on `-- x` returns nothing. -/
theorem doubledash_drops_arguments :
    ¬ ∀ (set : OptionSet) (before behind out : List Text) (behavior : ProcessArguments),
      behavior.stopOnDoubledash = true → behavior.stopOnArgument = false →
      (process set before behavior).1 = .ok out → ['-', '-'] ∉ before →
      (process set (before ++ [['-', '-']] ++ behind) behavior).2 =
          (process set before behavior).2 ∧
        (process set (before ++ [['-', '-']] ++ behind) behavior).1 =
          .ok (if behavior.outputDoubledash then out ++ [['-', '-']] ++ behind
            else out ++ behind) := by
  intro keeps
  have kept := (keeps { optionVec := [] } [] [['x']] [] {} rfl rfl (by decide) (by decide)).2
  exact absurd kept (by decide)

end Ztd.Options
