import Ztd.Options.Letters

/-! What the groups of a reading are: nothing of the argument vector is lost,
repeated or moved, and every option met is in the sequence. -/

namespace Ztd.Options
open Ztd.Lib

section Reads
variable (set : OptionSet) (behavior : ProcessArguments)

/-- A token that is not an option; the end of a number has to come before its index wraps. -/
def NotOption (token : Text) : Prop :=
  isLong token = false ∧
    (isShort token = false ∨ isNumber behavior token = true ∧ token.length < 2 ^ 32)

/-- An argument that processing does not go on behind. -/
def Stops (token : Text) : Prop :=
  behavior.stopOnArgument = true ∨ behavior.stopOnDoubledash = true ∧ token = ['-', '-']

/-- A token whose loop goes round and round: as long as the index counts, and a number or
nothing to stop at as far as the index comes. -/
def Endless (token : Text) : Prop :=
  isShort token = true ∧ 2 ^ 32 ≤ token.length ∧
    (isNumber behavior token = true ∨ ∀ c ∈ token.take (2 ^ 32), PassedOver set behavior c)

/-- What a group may be: each kind with what its tokens look like. -/
inductive ReadsGroup : Group → Prop where
  | argument (plain : NotOption behavior token) : ReadsGroup (.argument token)
  | unknownLong (long : isLong token = true) (missing : set.findString (longName token) = none)
      (ignored : behavior.ignoreUnknown = true) : ReadsGroup (.unknownLong token)
  | flag (long : isLong token = true) (noArgument : '=' ∉ token)
      (found : set.findString (token.drop 2) = some popt)
      (bare : (set.deref popt).takesArgument = false) : ReadsGroup (.long token popt none)
  | attached (long : isLong token = true) (split : token = ['-', '-'] ++ name ++ '=' :: argument)
      (first : '=' ∉ name) (found : set.findString name = some popt)
      (takes : (set.deref popt).takesArgument = true) :
      ReadsGroup (.long token popt (some argument))
  | detached (long : isLong token = true) (noArgument : '=' ∉ token)
      (found : set.findString (token.drop 2) = some popt)
      (takes : (set.deref popt).takesArgument = true) (next : Text) :
      ReadsGroup (.longNext token popt next)
  | cluster (short : isShort token = true) (option : isNumber behavior token = false)
      (letters : ReadsLetters set behavior token 1 cluster) :
      ReadsGroup (.cluster token cluster)

/-- Where reading may end, by what is left of the vector there. -/
inductive ReadsEnding : Ending → List Text → Prop where
  | finished : ReadsEnding .finished []
  | threw (activations : List Activation) (error : OptionError) (token : Text)
      (rest : List Text) : ReadsEnding (.halted activations (.thrown error)) (token :: rest)
  | endless (endless : Endless set behavior token) (activations : List Activation)
      (rest : List Text) : ReadsEnding (.halted activations .diverged) (token :: rest)
  | stoppedOnArgument (stops : behavior.stopOnArgument = true)
      (plain : NotOption behavior token) (rest : List Text) :
      ReadsEnding (.stoppedOnArgument (token :: rest)) (token :: rest)
  | doubledash (goesOn : behavior.stopOnArgument = false)
      (stops : behavior.stopOnDoubledash = true) (rest : List Text) :
      ReadsEnding (.doubledash (if behavior.outputDoubledash then rest else []))
        (['-', '-'] :: rest)

/-- Reading comes to a token: what stands in front of it is whole groups. -/
def ComesTo (arguments : List Text) (token : Text) : Prop :=
  ∃ (groups : List Group) (rest : List Text),
    arguments = groups.flatMap Group.tokens ++ token :: rest ∧
    (∀ group ∈ groups, ReadsGroup set behavior group) ∧
    ∀ argument, .argument argument ∈ groups → ¬ Stops behavior argument

end Reads

variable {set : OptionSet} {behavior : ProcessArguments}

theorem isLong_iff {token : Text} :
    isLong token = true ↔ ∃ name, token = '-' :: '-' :: name ∧ name ≠ [] := by
  match token with
  | [] | [_] | [_, _] => simp [isLong]
  | first :: second :: third :: name =>
    simp only [isLong, List.length_cons, List.take_succ_cons, List.take_zero, Bool.and_eq_true,
      decide_eq_true_eq, beq_iff_eq, List.cons.injEq, and_true]
    constructor
    · rintro ⟨_, rfl, rfl⟩
      exact ⟨third :: name, ⟨rfl, rfl, rfl⟩, by simp⟩
    · rintro ⟨_, ⟨rfl, rfl, _⟩, _⟩
      exact ⟨by omega, rfl, rfl⟩

/-- The name of a long option token ends at the first `=`. -/
theorem longName_equals {name : Text} (first : '=' ∉ name) (argument : Text) :
    (['-', '-'] ++ name ++ '=' :: argument).findIdx? (· == '=') = some (name.length + 2) ∧
      longName (['-', '-'] ++ name ++ '=' :: argument) = name := by
  have none : (['-', '-'] ++ name).findIdx? (· == '=') = none := by
    apply List.findIdx?_eq_none_iff.mpr
    intro c member
    simp only [beq_eq_false_iff_ne, ne_eq]
    rintro rfl
    simp [first] at member
  have position : (['-', '-'] ++ name ++ '=' :: argument).findIdx? (· == '=') =
      some (name.length + 2) := by
    rw [List.findIdx?_append, none]
    simp [List.findIdx?_cons]
  refine ⟨position, ?_⟩
  simp only [longName, position]
  simp

theorem longName_plain {token : Text} (noArgument : '=' ∉ token) :
    token.findIdx? (· == '=') = none ∧ longName token = token.drop 2 := by
  have position : token.findIdx? (· == '=') = none := by
    apply List.findIdx?_eq_none_iff.mpr
    intro c member
    simp only [beq_eq_false_iff_ne, ne_eq]
    rintro rfl
    exact noArgument member
  exact ⟨position, by simp [longName, position]⟩

theorem scanLong_reads {token : Text} {rest : List Text} {group : Group}
    (long : isLong token = true) (scanned : scanLong set behavior token rest = .inl group) :
    ReadsGroup set behavior group ∧ group.token = token ∧
      (group.next = none ∨ ∃ next others, rest = next :: others ∧ group.next = some next) := by
  rw [scanLong] at scanned
  cases found : set.findString (longName token) with
  | none =>
    cases ignored : behavior.ignoreUnknown with
    | false => simp [found, ignored] at scanned
    | true =>
      simp only [found, ignored, Bool.not_true, Bool.false_eq_true, ↓reduceIte,
        Sum.inl.injEq] at scanned
      subst scanned
      exact ⟨.unknownLong long found ignored, rfl, .inl rfl⟩
  | some popt =>
    by_cases equals : '=' ∈ token
    · obtain ⟨name, longIs, _⟩ := isLong_iff.mp long
      have inName : '=' ∈ name := by simpa [longIs] using equals
      obtain ⟨before, argument, split, first⟩ := List.eq_append_cons_of_mem inName
      have whole : token = ['-', '-'] ++ before ++ '=' :: argument := by simp [longIs, split]
      obtain ⟨position, named⟩ := longName_equals first argument
      rw [← whole] at position named
      rw [named] at found
      cases taking : (set.deref popt).takesArgument with
      | false => simp [named, found, position, taking] at scanned
      | true =>
        have taken : token.drop (before.length + 2 + 1) = argument := by
          rw [whole]
          simp [List.drop_append]
        simp only [named, found, position, taking, taken, Sum.inl.injEq] at scanned
        subst scanned
        exact ⟨.attached long whole first found taking, rfl, .inl rfl⟩
    · obtain ⟨position, named⟩ := longName_plain equals
      rw [named] at found
      cases taking : (set.deref popt).takesArgument with
      | false =>
        simp only [named, found, position, taking, Sum.inl.injEq] at scanned
        subst scanned
        exact ⟨.flag long equals found taking, rfl, .inl rfl⟩
      | true =>
        cases rest with
        | nil => simp [named, found, position, taking] at scanned
        | cons next others =>
          simp only [named, found, position, taking, Sum.inl.injEq] at scanned
          subst scanned
          exact ⟨.detached long equals found taking next, rfl, .inr ⟨next, others, rfl, rfl⟩⟩

theorem scanToken_reads {token : Text} {rest : List Text} {group : Group}
    (scanned : scanToken set behavior token rest = .inl group) :
    ReadsGroup set behavior group ∧ group.token = token ∧
      (group.next = none ∨ ∃ next others, rest = next :: others ∧ group.next = some next) := by
  rw [scanToken] at scanned
  by_cases long : isLong token = true
  · rw [if_pos long] at scanned
    exact scanLong_reads long scanned
  · rw [if_neg long] at scanned
    by_cases short : isShort token = true
    · rw [if_pos short, scanShort] at scanned
      by_cases number : isNumber behavior token = true
      · rw [if_pos number] at scanned
        split at scanned
        · simp at scanned
        · rename_i short
          split at scanned
          · simp at scanned
          · simp only [Sum.inl.injEq] at scanned
            subst scanned
            have plain : NotOption behavior token :=
              ⟨by simpa using long, .inr ⟨number, Nat.not_le.mp short⟩⟩
            exact ⟨.argument plain, rfl, .inl rfl⟩
      · rw [if_neg number] at scanned
        cases letters : scanLetters set behavior token rest (token.length + 1) 1 with
        | mk cluster stop =>
          rw [letters] at scanned
          cases stop with
          | some stop => simp at scanned
          | none =>
            simp only [ofLetters, Sum.inl.injEq] at scanned
            subst scanned
            obtain ⟨reads, taken⟩ := scanLetters_reads letters
            exact ⟨.cluster short (by simpa using number) reads, rfl, taken⟩
    · rw [if_neg short] at scanned
      cases stops : behavior.stopOnArgument with
      | true => simp [stops] at scanned
      | false =>
        simp only [stops, Bool.false_eq_true, ↓reduceIte] at scanned
        split at scanned
        · simp at scanned
        · simp only [Sum.inl.injEq] at scanned
          subst scanned
          exact ⟨.argument ⟨by simpa using long, .inl (by simpa using short)⟩, rfl, .inl rfl⟩

theorem scanToken_ends {token : Text} {rest : List Text} {ending : Ending}
    (scanned : scanToken set behavior token rest = .inr ending) :
    ReadsEnding set behavior ending (token :: rest) := by
  rw [scanToken] at scanned
  by_cases long : isLong token = true
  · rw [if_pos long, scanLong] at scanned
    have threw : ∃ error, ending = .halted [] (.thrown error) := by
      split at scanned
      · split at scanned
        · exact ⟨_, (Sum.inr.inj scanned).symm⟩
        · simp at scanned
      · split at scanned
        · simp at scanned
        · split at scanned
          · exact ⟨_, (Sum.inr.inj scanned).symm⟩
          · simp at scanned
        · exact ⟨_, (Sum.inr.inj scanned).symm⟩
        · simp at scanned
    obtain ⟨error, rfl⟩ := threw
    exact .threw [] error token rest
  · rw [if_neg long] at scanned
    have notLong : isLong token = false := by simpa using long
    by_cases short : isShort token = true
    · rw [if_pos short, scanShort] at scanned
      by_cases number : isNumber behavior token = true
      · rw [if_pos number] at scanned
        split at scanned
        · rename_i tooLong
          simp only [Sum.inr.injEq] at scanned
          subst scanned
          exact .endless ⟨short, tooLong, .inl number⟩ [] rest
        · rename_i below
          cases stops : behavior.stopOnArgument with
          | true =>
            simp only [stops, ↓reduceIte, Sum.inr.injEq] at scanned
            subst scanned
            exact .stoppedOnArgument stops ⟨notLong, .inr ⟨number, Nat.not_le.mp below⟩⟩ rest
          | false => simp [stops] at scanned
      · rw [if_neg number] at scanned
        cases letters : scanLetters set behavior token rest (token.length + 1) 1 with
        | mk cluster stop =>
          rw [letters] at scanned
          cases stop with
          | none => simp at scanned
          | some stop =>
            simp only [ofLetters, Sum.inr.injEq] at scanned
            subst scanned
            rcases scanLetters_stops letters with ⟨error, rfl⟩ | ⟨rfl, -⟩
            · exact .threw _ _ _ _
            · obtain ⟨tooLong, passed⟩ := scanLetters_endless letters
              exact .endless ⟨short, tooLong, .inr passed⟩ _ rest
    · rw [if_neg short] at scanned
      have notShort : isShort token = false := by simpa using short
      cases stops : behavior.stopOnArgument with
      | true =>
        simp only [stops, ↓reduceIte, Sum.inr.injEq] at scanned
        subst scanned
        exact .stoppedOnArgument stops ⟨notLong, .inl notShort⟩ rest
      | false =>
        simp only [stops, Bool.false_eq_true, ↓reduceIte] at scanned
        split at scanned
        · rename_i dashes
          simp only [Bool.and_eq_true, beq_iff_eq] at dashes
          obtain ⟨enabled, rfl⟩ := dashes
          simp only [Sum.inr.injEq] at scanned
          subst scanned
          exact .doubledash stops enabled rest
        · simp at scanned

variable (set behavior) in
/-- A reading splits the vector into its groups and what is left at its end. -/
theorem scan_reads (arguments : List Text) :
    ∃ rest, arguments = (scan set behavior arguments).1.flatMap Group.tokens ++ rest ∧
      (∀ group ∈ (scan set behavior arguments).1, ReadsGroup set behavior group) ∧
      ReadsEnding set behavior (scan set behavior arguments).2 rest := by
  induction arguments using scan_induction set behavior with
  | nil => exact ⟨[], by simp [scan], by simp [scan], .finished⟩
  | ending token rest ending scanned =>
    rw [scan_ending set behavior scanned]
    exact ⟨token :: rest, by simp, by simp, scanToken_ends scanned⟩
  | group token rest group scanned ih =>
    rw [scan_group set behavior scanned]
    obtain ⟨reads, is, taken⟩ := scanToken_reads scanned
    obtain ⟨left, split, allRead, ends⟩ := ih
    refine ⟨left, ?_, by simpa using ⟨reads, allRead⟩, ends⟩
    rw [List.flatMap_cons, List.append_assoc, ← split, Group.tokens, is]
    rcases taken with none | ⟨next, others, follows, taken⟩
    · simp [none]
    · simp [follows, taken]

theorem scanToken_passes {token argument : Text} {rest : List Text}
    (scanned : scanToken set behavior token rest = .inl (.argument argument)) :
    ¬ Stops behavior argument := by
  obtain ⟨_, is, _⟩ := scanToken_reads scanned
  obtain rfl : argument = token := is
  rw [scanToken] at scanned
  cases goesOn : behavior.stopOnArgument with
  | true =>
    exfalso
    split at scanned
    · rw [scanLong] at scanned
      repeat' split at scanned
      all_goals simp at scanned
    · split at scanned
      · rw [scanShort] at scanned
        split at scanned
        · split at scanned <;> simp at scanned
        · cases letters : scanLetters set behavior argument rest (argument.length + 1) 1 with
          | mk cluster stop =>
            rw [letters] at scanned
            cases stop <;> simp at scanned
      · simp at scanned
  | false =>
    rintro (stops | ⟨enabled, rfl⟩)
    · simp [goesOn] at stops
    · simp [isLong, isShort, goesOn, enabled] at scanned

theorem scan_passes (arguments : List Text) (token : Text)
    (member : .argument token ∈ (scan set behavior arguments).1) : ¬ Stops behavior token := by
  induction arguments using scan_induction set behavior with
  | nil => simp [scan] at member
  | ending first rest ending scanned => simp [scan_ending set behavior scanned] at member
  | group first rest group scanned ih =>
    rw [scan_group set behavior scanned] at member
    rcases List.mem_cons.mp member with rfl | later
    · exact scanToken_passes scanned
    · exact ih later

theorem scanToken_of_reads {group : Group} (reads : ReadsGroup set behavior group)
    (passes : ∀ token, group = .argument token → ¬ Stops behavior token) (rest : List Text) :
    scanToken set behavior group.token (group.next.toList ++ rest) = .inl group := by
  cases reads with
  | @argument token plain =>
    have passes := passes token rfl
    have goesOn : behavior.stopOnArgument = false := by
      simpa using fun stops => passes (.inl stops)
    have noDashes : (behavior.stopOnDoubledash && token == ['-', '-']) = false := by
      simpa using fun stops dashes => passes (.inr ⟨stops, dashes⟩)
    obtain ⟨notLong, notShort | ⟨number, below⟩⟩ := plain
    · simp [scanToken, Group.token, notLong, notShort, goesOn, noDashes]
    · have below : ¬ 2 ^ 32 ≤ token.length := Nat.not_le.mpr below
      cases short : isShort token <;>
        simp only [scanToken, Group.token, notLong, short, scanShort, number, below, goesOn,
          noDashes, Bool.false_eq_true, ↓reduceIte]
  | unknownLong long missing ignored =>
    simp [scanToken, Group.token, long, scanLong, missing, ignored]
  | flag long noArgument found bare =>
    obtain ⟨position, named⟩ := longName_plain noArgument
    simp [scanToken, Group.token, long, scanLong, named, position, found, bare]
  | @attached token name argument popt long split first found takes =>
    obtain ⟨position, named⟩ := longName_equals first argument
    rw [← split] at position named
    have taken : token.drop (name.length + 2 + 1) = argument := by
      rw [split]
      simp [List.drop_append]
    simp [scanToken, Group.token, long, scanLong, named, position, found, takes, taken]
  | detached long noArgument found takes next =>
    obtain ⟨position, named⟩ := longName_plain noArgument
    simp [scanToken, Group.token, Group.next, long, scanLong, named, position, found, takes]
  | @cluster token cluster short option letters =>
    have notLong : isLong token = false := by
      obtain ⟨first, letters, rfl, notDash⟩ := isShort_cases short
      simp [isLong, notDash]
    have scanned := scanLetters_of_reads letters rest
    simp [scanToken, Group.token, Group.next, notLong, short, scanShort, option] at scanned ⊢
    simp [scanned]

/-- Groups that can be read are read, and what follows them as if it stood alone. -/
theorem scan_of_groups {groups : List Group}
    (reads : ∀ group ∈ groups, ReadsGroup set behavior group)
    (passes : ∀ token, .argument token ∈ groups → ¬ Stops behavior token) (rest : List Text) :
    scan set behavior (groups.flatMap Group.tokens ++ rest) =
      (groups ++ (scan set behavior rest).1, (scan set behavior rest).2) := by
  induction groups with
  | nil => rfl
  | cons group groups ih =>
    have scanned := scanToken_of_reads (reads group List.mem_cons_self)
      (fun token is => passes token (is ▸ List.mem_cons_self))
      (groups.flatMap Group.tokens ++ rest)
    have later := ih (fun group member => reads group (List.mem_cons_of_mem _ member))
      (fun token member => passes token (List.mem_cons_of_mem _ member))
    rw [List.flatMap_cons, Group.tokens, List.cons_append, List.cons_append, List.append_assoc,
      scan_group set behavior scanned, List.drop_left, later]
    rfl

theorem scanToken_endless {token : Text} (endless : Endless set behavior token)
    (rest : List Text) : ∃ activations,
      scanToken set behavior token rest = .inr (.halted activations .diverged) := by
  obtain ⟨short, long, goesOn⟩ := endless
  have notLong : isLong token = false := by
    obtain ⟨first, letters, rfl, notDash⟩ := isShort_cases short
    simp [isLong, notDash]
  rw [scanToken, if_neg (by simp [notLong]), if_pos short, scanShort]
  cases number : isNumber behavior token with
  | true => exact ⟨[], by rw [if_pos rfl, if_pos long]⟩
  | false =>
    have passed := goesOn.resolve_left (by simp [number])
    have never := scanLetters_passes long passed rest (token.length + 1) 1
    generalize scanLetters set behavior token rest (token.length + 1) 1 = scanned at never
    obtain ⟨cluster, stop⟩ := scanned
    obtain rfl : stop = some .diverged := never
    exact ⟨cluster.activations, rfl⟩

/-- Reading does not end exactly when it comes to an endless token. -/
theorem scan_diverges_iff (arguments : List Text) :
    (∃ activations, (scan set behavior arguments).2 = .halted activations .diverged) ↔
      ∃ token, ComesTo set behavior arguments token ∧ Endless set behavior token := by
  constructor
  · rintro ⟨activations, diverged⟩
    obtain ⟨rest, split, reads, ends⟩ := scan_reads set behavior arguments
    have passes := @scan_passes set behavior arguments
    rw [diverged] at ends
    cases ends with
    | @endless token endless _ others =>
      exact ⟨token, ⟨_, others, split, reads, passes⟩, endless⟩
  · rintro ⟨token, ⟨groups, rest, rfl, reads, passes⟩, endless⟩
    obtain ⟨activations, scanned⟩ := scanToken_endless endless rest
    exact ⟨activations, by rw [scan_of_groups reads passes, scan_ending set behavior scanned]⟩

theorem process_endless {token : Text} (endless : Endless set behavior token)
    (rest : List Text) : (process set (token :: rest) behavior).1 = .error .diverged := by
  obtain ⟨activations, scanned⟩ := scanToken_endless endless rest
  rw [process_eq_scan, scan_ending _ _ scanned]
  rfl

theorem endless_number {digits : Nat} (enough : 2 ^ 32 ≤ digits)
    (ignored : behavior.ignoreNumbers = true) :
    Endless set behavior ('-' :: '1' :: List.replicate digits '0') := by
  refine ⟨by simp [isShort], ?_, .inl (by simp [isNumber, ignored])⟩
  simp only [List.length_cons, List.length_replicate]
  omega

end Ztd.Options
