import Ztd.Lib.Turns
import Ztd.Options.Wrapping

/-! A vector and its detached spelling: when both come to the same. -/

namespace Ztd.Options
open Ztd.Lib

variable {set : OptionSet} {behavior : ProcessArguments}

/-- Options that a run is ahead by: no long stretch of them lacks an argument, and every
argument is a token that was taken for an argument of itself. -/
structure Ahead (set : OptionSet) (opts : List Opt) : Prop where
  around : FrequentAround (2 ^ 32 - 1) (opts.map Opt.takesArgument)
  taken : ∀ opt ∈ opts, opt.takesArgument = true → isShort opt.argument = true ∧
    ∃ flags c popt text, TakesItself set opt.argument flags c popt text

theorem Ahead.takes {opts : List Opt} (ahead : Ahead set opts) :
    ∃ opt ∈ opts, opt.takesArgument = true := by
  have marked := List.mem_of_mem_take ahead.around.begins
  simpa using marked

theorem Ahead.turn {opts turned : List Opt} (ahead : Ahead set opts)
    (rotated : opts.IsRotated turned) : Ahead set turned where
  around := ahead.around.turn (rotated.map _)
  taken opt member := ahead.taken opt (rotated.mem_iff.mpr member)

section Ahead
variable {token flags text : Text} {c : Char} {popt : Nat}

theorem TakesItself.ahead (takes : TakesItself set token flags c popt text)
    (short : isShort token = true) :
    Ahead set ((set.flagged flags).map set.pushed ++ [set.pushed (popt, some token)]) := by
  have marked : (set.pushed (popt, some token)).takesArgument = true := takes.takes
  have few : flags.length < 2 ^ 32 - 1 := by
    have := takes.count
    omega
  constructor
  · rw [List.map_append, List.map_singleton, marked]
    apply Frequent.around _ (by simp)
    apply Frequent.block
    rwa [List.length_map, length_flagged]
  · intro opt member taking
    rcases List.mem_append.mp member with flag | last
    · simp [flagged_pushed takes.bare opt flag] at taking
    · obtain rfl := List.mem_singleton.mp last
      exact ⟨short, flags, c, popt, text, takes⟩

/-- Another run of the same shape in place of the one at the front, behind the rest. -/
theorem Ahead.replace {front later : List Opt} {opt other : Opt}
    (ahead : Ahead set (front ++ opt :: later)) (taking : opt.takesArgument = true)
    (block : Ahead set (front ++ [other])) (marked : other.takesArgument = true) :
    Ahead set (later ++ (front ++ [other])) where
  around := by
    have same : (front ++ opt :: later).map Opt.takesArgument =
        (front ++ [other]).map Opt.takesArgument ++ later.map Opt.takesArgument := by
      simp [taking, marked]
    rw [List.map_append]
    exact (same ▸ ahead.around).turn List.isRotated_append
  taken := by
    intro found member
    rcases List.mem_append.mp member with behind | here
    · exact ahead.taken found (by simp [behind])
    · exact block.taken found here

theorem Ahead.append {front more : List Opt} {opt last : Opt} (first : Ahead set (front ++ [opt]))
    (taking : opt.takesArgument = true) (second : Ahead set (more ++ [last]))
    (marked : last.takesArgument = true) : Ahead set (front ++ [opt] ++ (more ++ [last])) where
  around := by
    have around := first.around
    have others := second.around
    simp only [List.map_append, List.map_singleton, taking, marked] at around others ⊢
    exact (around.cut.append others.cut).around (by simp)
  taken := by
    intro found member
    rcases List.mem_append.mp member with here | behind
    · exact first.taken found here
    · exact second.taken found behind

/-- What a run is ahead by does not begin with so many flags. -/
theorem Ahead.not_flags {opts more later : List Opt} (ahead : Ahead set opts)
    (bare : ∀ opt ∈ more, opt.takesArgument = false) (count : more.length = 2 ^ 32 - 1) :
    opts ++ more ≠ more ++ later := by
  intro same
  have marked := ahead.around.begins
  rw [← List.map_take, List.mem_map] at marked
  obtain ⟨opt, member, takes⟩ := marked
  have first : opt ∈ (opts ++ more).take (2 ^ 32 - 1) := by
    rw [List.take_append]
    exact List.mem_append_left _ member
  rw [same, List.take_left' count] at first
  simp [bare opt first] at takes

/-- Behind a token that is taken for its own argument, the run is ahead by other options. -/
theorem Ahead.goes_on (plain : Plain behavior) (named : Named set) {opts : List Opt}
    (ahead : Ahead set opts) (takes : TakesItself set token flags c popt text)
    (short : isShort token = true) (spelled : spellLetters set (token.drop 1) ≠ none)
    {rest : List Text}
    (same : opts ++ (outcome set behavior (token :: rest)).pushed set =
      (outcomeRewritten set behavior (token :: rest)).pushed set) :
    ∃ later arguments, Ahead set later ∧ arguments.length ≤ rest.length ∧
      later ++ (outcome set behavior arguments).pushed set =
        (outcomeRewritten set behavior arguments).pushed set := by
  rw [takes.pushed plain short] at same
  have bare : ∀ opt ∈ (set.flagged flags).map set.pushed, ¬ opt.takesArgument = true := by
    intro opt member
    simp [flagged_pushed takes.bare opt member]
  have itself := takes.ahead short
  by_cases held : text = []
  · subst held
    cases rest with
    | nil =>
      rw [takes.rewritten_last plain named short spelled] at same
      have := congrArg List.length same
      simp only [List.length_append, List.length_cons] at this
      omega
    | cons next others =>
      rw [takes.rewritten_next plain named short spelled] at same
      obtain ⟨later, rfl, behind⟩ := exists_behind same ahead.takes bare
      -- the argument is a token like this one, which the run reads as a token
      have nextTaken : isShort next = true ∧
          ∃ flags c popt text, TakesItself set next flags c popt text :=
        ahead.taken (set.pushed (popt, some next)) (by simp) takes.takes
      obtain ⟨nextShort, _, _, _, _, nextTakes⟩ := nextTaken
      rw [nextTakes.pushed plain nextShort] at behind
      have both := ahead.replace takes.takes itself takes.takes
      rw [← List.append_assoc] at both
      refine ⟨_, others, both.append takes.takes (nextTakes.ahead nextShort) nextTakes.takes,
        Nat.le_succ _, ?_⟩
      rw [behind]
      simp
  · rw [takes.rewritten_text plain named short spelled held] at same
    obtain ⟨later, rfl, behind⟩ := exists_behind same ahead.takes bare
    refine ⟨_, rest, ahead.replace takes.takes itself takes.takes, Nat.le_refl _, ?_⟩
    rw [behind]
    simp

/-- A run that is ahead by some options of its rewritten vector stays ahead. -/
theorem Ahead.stays (plain : Plain behavior) (named : Named set) {opts : List Opt}
    (ahead : Ahead set opts) (arguments : List Text) :
    opts ++ (outcome set behavior arguments).pushed set ≠
      (outcomeRewritten set behavior arguments).pushed set := by
  induction size : arguments.length using Nat.strongRecOn generalizing arguments opts with
  | _ count ih =>
    intro same
    obtain ⟨opt, member, -⟩ := ahead.takes
    cases arguments with
    | nil =>
      obtain ⟨rfl, -⟩ := List.append_eq_nil_iff.mp
        (show opts ++ (outcome set behavior []).pushed set = [] from same)
      simp at member
    | cons token rest =>
      rw [List.length_cons] at size
      by_cases fits : Fits set token
      · rw [outcome_step plain, outcomeRewritten_step plain named,
          scanSpelled_of_fits plain fits] at same
        cases scanned : scanToken set behavior token rest with
        | inr ending =>
          rw [scanned] at same
          obtain rfl := List.append_left_eq_self.mp same
          simp at member
        | inl group =>
          simp only [scanned, outcomeOf, Outcome.pushed, Outcome.after, List.map_append] at same
          obtain ⟨turned, rotated, later⟩ := exists_turned same
          have shorter : (rest.drop group.next.toList.length).length < count := by
            rw [← size, List.length_drop]
            omega
          exact ih _ shorter (ahead.turn rotated) _ rfl later.symm
      · obtain ⟨short, spelled, ⟨flags, more, throws⟩ | ⟨flags, c, popt, text, takes⟩⟩ :=
          misfit_cases fits
        · obtain ⟨later, rewritten⟩ := throws.rewritten plain named short spelled rest
          rw [throws.pushed plain named short, rewritten] at same
          have many : ((set.flagged flags).map set.pushed).length = 2 ^ 32 - 1 := by
            rw [length_flagged, ← throws.count, Nat.add_sub_cancel]
          exact ahead.not_flags (flagged_pushed throws.bare) many same
        · obtain ⟨later, fewer, aheadLater, shorter, same⟩ :=
            ahead.goes_on plain named takes short spelled same
          exact ih _ (by omega) aheadLater fewer rfl same

end Ahead

section Rewriting
variable {token : Text} {rest : List Text}

/-- A cluster whose index comes back to the dash, in front of what throws the same when the
vector is rewritten: it holds flags alone, and a long token without a name follows behind
plain arguments. -/
structure ThrowsAlike (set : OptionSet) (token : Text) (rest : List Text) : Prop where
  length : token.length = 2 ^ 32
  bare : ∀ flag ∈ token.drop 1, Flag set flag
  unnamed : ∃ before text behind, rest = before ++ ('-' :: '-' :: '=' :: text) :: behind ∧
    ∀ argument ∈ before, isLong argument = false ∧ isShort argument = false

variable (set behavior) in
/-- Every cluster that reading comes to fits, or throws what the rewritten vector does. -/
def Agreeing (arguments : List Text) : Prop :=
  ∀ (groups : List Group) (token : Text) (rest : List Text),
    arguments = groups.flatMap Group.tokens ++ token :: rest →
    (∀ group ∈ groups, ReadsGroup set behavior group) →
    Fits set token ∨ ThrowsAlike set token rest

theorem agreeing_cons_iff (plain : Plain behavior) :
    Agreeing set behavior (token :: rest) ↔
      (Fits set token ∨ ThrowsAlike set token rest) ∧
        ∀ group, scanToken set behavior token rest = .inl group →
          Agreeing set behavior (rest.drop group.next.toList.length) := by
  constructor
  · intro agreeing
    refine ⟨agreeing [] token rest rfl (by simp), ?_⟩
    intro group scanned groups later others split reads
    obtain ⟨read, is, taken⟩ := scanToken_reads scanned
    apply agreeing (group :: groups) later others
    · rw [List.flatMap_cons, List.append_assoc, ← split, Group.tokens, is]
      rcases taken with none | ⟨next, behind, follows, taken⟩
      · simp [none]
      · simp [follows, taken]
    · simpa using ⟨read, reads⟩
  · rintro ⟨first, behind⟩ groups later others split reads
    cases groups with
    | nil =>
      obtain ⟨rfl, rfl⟩ := List.cons.inj split
      exact first
    | cons group groups =>
      rw [List.flatMap_cons, Group.tokens, List.append_assoc, List.cons_append] at split
      obtain ⟨rfl, rfl⟩ := List.cons.inj split
      have passes (token : Text) (_ : group = .argument token) : ¬ Stops behavior token := by
        simp [Stops, plain.argument, plain.doubledash]
      have scanned := scanToken_of_reads (reads group List.mem_cons_self) passes
        (groups.flatMap Group.tokens ++ later :: others)
      refine behind group scanned groups later others ?_ fun inner member =>
        reads inner (List.mem_cons_of_mem _ member)
      rw [List.drop_left]

theorem ThrowsAlike.dash (alike : ThrowsAlike set token rest) (short : isShort token = true) :
    ThrowsDash set token (token.drop 1) [] where
  split := by
    obtain ⟨first, letters, rfl, _⟩ := isShort_cases short
    simp
  bare := alike.bare
  count := by
    have := alike.length
    rw [List.length_drop]
    omega

/-- Plain arguments do not keep a token without a name from throwing. -/
theorem outcomeRewritten_unnamed (plain : Plain behavior) (named : Named set)
    {before behind : List Text} {text : Text}
    (arguments : ∀ argument ∈ before, isLong argument = false ∧ isShort argument = false) :
    outcomeRewritten set behavior (before ++ ('-' :: '-' :: '=' :: text) :: behind) =
      (.error (.thrown (optionError .unknownOption ['-', '-'])), []) := by
  induction before with
  | nil =>
    have unknown : set.findString [] = none := by
      cases found : set.findString [] with
      | none => rfl
      | some popt => exact absurd rfl (named.findString found).1
    have unnamed : longName ('-' :: '-' :: '=' :: text) = [] :=
      (@longName_equals [] (by simp) text).2
    have long : isLong ('-' :: '-' :: '=' :: text) = true := isLong_iff.mpr ⟨_, rfl, by simp⟩
    have throws : scanSpelled set behavior ('-' :: '-' :: '=' :: text) behind =
        .inr (.halted [] (.thrown (optionError .unknownOption ['-', '-']))) := by
      rw [scanSpelled, if_neg (by simp [isShort]), scanToken, if_pos long, scanLong, unnamed,
        unknown]
      simp [plain.unknown]
    rw [List.nil_append, outcomeRewritten_step plain named, throws]
    rfl
  | cons argument before ih =>
    have here := arguments argument List.mem_cons_self
    have reads (rest : List Text) : scanSpelled set behavior argument rest =
        .inl (.argument argument) := by
      simp [scanSpelled, scanToken, here, plain.argument, plain.doubledash]
    have later := ih fun other member => arguments other (List.mem_cons_of_mem _ member)
    rw [List.cons_append, outcomeRewritten_step plain named, reads, outcomeOf]
    simp [Group.next, later, Outcome.after, Except.map, Group.activations]

/-- A cluster of flags alone is in front of what the rest comes to. -/
theorem ThrowsDash.rewritten_flags (plain : Plain behavior) (named : Named set) {flags : Text}
    (throws : ThrowsDash set token flags []) (short : isShort token = true)
    (spelled : spellLetters set (token.drop 1) ≠ none) (rest : List Text) :
    outcomeRewritten set behavior (token :: rest) =
      ((outcomeRewritten set behavior rest).1,
        set.flagged flags ++ (outcomeRewritten set behavior rest).2) := by
  rw [outcomeRewritten_short plain named short spelled, throws.letters,
    readLetters_flags throws.bare]
  simp [readLetters, Cluster.behind, outcomeOf, Group.next, Group.activations, Group.leftover,
    Outcome.after_silent]

/-- Where reading goes on, the token fits. -/
theorem fits_of_group (plain : Plain behavior) (named : Named set) {group : Group}
    (first : Fits set token ∨ ThrowsAlike set token rest)
    (scanned : scanToken set behavior token rest = .inl group) : Fits set token := by
  by_contra misfit
  have short := (misfit_cases misfit).1
  have throws := ((first.resolve_left misfit).dash short).scanned plain named short rest
  simp [throws] at scanned

theorem outcomeRewritten_eq (plain : Plain behavior) (named : Named set) {arguments : List Text}
    (agreeing : Agreeing set behavior arguments) :
    outcomeRewritten set behavior arguments = outcome set behavior arguments := by
  induction arguments using scan_induction set behavior with
  | nil => rfl
  | group token rest group scanned ih =>
    obtain ⟨first, behind⟩ := (agreeing_cons_iff plain).mp agreeing
    have fits := fits_of_group plain named first scanned
    rw [outcomeRewritten_step plain named, outcome_step plain, scanSpelled_of_fits plain fits,
      scanned, outcomeOf, outcomeOf, ih (behind group scanned)]
  | ending token rest ending scanned =>
    obtain ⟨first, -⟩ := (agreeing_cons_iff plain).mp agreeing
    by_cases fits : Fits set token
    · rw [outcomeRewritten_step plain named, outcome_step plain, scanSpelled_of_fits plain fits,
        scanned]
      rfl
    · obtain ⟨short, spelled, _⟩ := misfit_cases fits
      have alike := first.resolve_left fits
      have dash := alike.dash short
      obtain ⟨before, text, others, rfl, arguments⟩ := alike.unnamed
      rw [dash.rewritten_flags plain named short spelled,
        outcomeRewritten_unnamed plain named arguments, outcome_step plain,
        dash.scanned plain named short]
      simp [outcomeOf, Ending.result, Ending.activations]

theorem spellLetters_flags_iff {flags letters : Text} (bare : ∀ flag ∈ flags, Flag set flag) :
    spellLetters set (flags ++ letters) ≠ none ↔ spellLetters set letters ≠ none := by
  induction flags with
  | nil => rfl
  | cons c flags ih =>
    obtain ⟨popt, found, taking⟩ := bare c List.mem_cons_self
    have later := ih fun flag member => bare flag (List.mem_cons_of_mem _ member)
    simpa [spellLetters, found, taking] using later

/-- When the rewritten vector throws the same as the cluster does, and activates no more, the
cluster holds nothing behind its flags and the rest throws so. -/
theorem ThrowsDash.alike (plain : Plain behavior) (named : Named set) {flags more : Text}
    (throws : ThrowsDash set token flags more) (short : isShort token = true)
    (spelled : spellLetters set (token.drop 1) ≠ none)
    (result : (outcomeRewritten set behavior (token :: rest)).1 =
      .error (.thrown (optionError .unknownOption ['-', '-'])))
    (pushed : (outcomeRewritten set behavior (token :: rest)).pushed set =
      (set.flagged flags).map set.pushed) : ThrowsAlike set token rest := by
  cases more with
  | cons c text =>
    have rewritten := throws.rewritten plain named short spelled rest
    rw [outcomeRewritten_short plain named short spelled, throws.letters,
      readLetters_flags throws.bare] at result
    rw [throws.letters] at spelled
    rcases readLetters_first behavior ((spellLetters_flags_iff throws.bare).mp spelled) rest with
      active | ⟨option, lacks⟩
    · obtain ⟨behind, is⟩ := rewritten
      rw [is] at pushed
      have nothing := List.append_right_eq_self.mp pushed
      simp [active] at nothing
    · rw [lacks] at result
      simp only [Cluster.behind, ofLetters, outcomeOf, Ending.result, Except.error.injEq,
        Stop.thrown.injEq] at result
      exact error_other (.inl (by simp)) result
  | nil =>
    rw [throws.rewritten_flags plain named short spelled] at result pushed
    have silent : (outcomeRewritten set behavior rest).pushed set = [] := by
      simpa [Outcome.pushed] using pushed
    refine ⟨?_, ?_, outcomeRewritten_dash plain named result silent⟩
    · rw [throws.split, List.length_cons, List.append_nil, throws.count]
    · rw [throws.letters, List.append_nil]
      exact throws.bare

/-- Spelled out, a token that was taken for its own argument pushes something else. -/
theorem TakesItself.apart (plain : Plain behavior) (named : Named set) {flags text : Text}
    {c : Char} {popt : Nat} (takes : TakesItself set token flags c popt text) (short : isShort token = true)
    (spelled : spellLetters set (token.drop 1) ≠ none) :
    (outcomeRewritten set behavior (token :: rest)).pushed set ≠
      (outcome set behavior (token :: rest)).pushed set := by
  intro same
  rw [takes.pushed plain short] at same
  by_cases held : text = []
  · subst held
    cases rest with
    | nil =>
      rw [takes.rewritten_last plain named short spelled] at same
      have := congrArg List.length same
      simp at this
    | cons next others =>
      rw [takes.rewritten_next plain named short spelled] at same
      obtain ⟨argument, behind⟩ := List.cons.inj (List.append_cancel_left same)
      obtain rfl : next = token := congrArg Opt.argument argument
      rw [takes.pushed plain short] at behind
      refine (takes.ahead short).stays plain named others ?_
      rw [behind]
      simp
  · rw [takes.rewritten_text plain named short spelled held] at same
    have argument : attached text = token :=
      congrArg Opt.argument (List.cons.inj (List.append_cancel_left same)).1
    have shorter : (attached text).length ≤ text.length := by
      cases text with
      | nil => exact Nat.le_refl _
      | cons first text =>
        by_cases equals : first = '=' <;> simp [attached, equals]
    have longer := congrArg List.length takes.split
    rw [argument] at shorter
    simp only [List.length_cons, List.length_append] at longer
    omega

theorem Outcome.after_inj {group : Group} {left right : Outcome}
    (same : (left.after group).1 = (right.after group).1) : left.1 = right.1 := by
  obtain ⟨left, _⟩ := left
  obtain ⟨right, _⟩ := right
  cases left <;> cases right <;> simp_all [Outcome.after, Except.map]

theorem first_of_same (plain : Plain behavior) (named : Named set)
    (result : (outcomeRewritten set behavior (token :: rest)).1 =
      (outcome set behavior (token :: rest)).1)
    (pushed : (outcomeRewritten set behavior (token :: rest)).pushed set =
      (outcome set behavior (token :: rest)).pushed set) :
    Fits set token ∨ ThrowsAlike set token rest := by
  by_cases fits : Fits set token
  · exact .inl fits
  · obtain ⟨short, spelled, ⟨flags, more, throws⟩ | ⟨flags, c, popt, text, takes⟩⟩ :=
      misfit_cases fits
    · rw [throws.pushed plain named short] at pushed
      rw [outcome_step plain, throws.scanned plain named short] at result
      exact .inr (throws.alike plain named short spelled result pushed)
    · exact absurd pushed (takes.apart plain named short spelled)

/-- Vectors that come to the same as their rewritten ones agree token by token. -/
theorem agreeing_of_same (plain : Plain behavior) (named : Named set) {arguments : List Text}
    (result : (outcomeRewritten set behavior arguments).1 = (outcome set behavior arguments).1)
    (pushed : (outcomeRewritten set behavior arguments).pushed set =
      (outcome set behavior arguments).pushed set) : Agreeing set behavior arguments := by
  induction arguments using scan_induction set behavior with
  | nil => exact fun groups token rest split _ => absurd split (by simp)
  | ending token rest ending scanned =>
    refine (agreeing_cons_iff plain).mpr ⟨first_of_same plain named result pushed, ?_⟩
    intro group read
    simp [scanned] at read
  | group token rest group scanned ih =>
    have first := first_of_same plain named result pushed
    have fits := fits_of_group plain named first scanned
    refine (agreeing_cons_iff plain).mpr ⟨first, ?_⟩
    intro read is
    obtain rfl : group = read := Sum.inl.inj (scanned.symm.trans is)
    rw [outcomeRewritten_step plain named, outcome_step plain, scanSpelled_of_fits plain fits,
      scanned] at result pushed
    simp only [outcomeOf, Outcome.pushed, Outcome.after, List.map_append] at pushed
    exact ih (Outcome.after_inj result) (List.append_cancel_left pushed)

/-- A vector and its detached spelling are processed alike, with the same result or the same
exception, and the same options and sequence afterwards, exactly when every cluster that
reading comes to fits an index of 32 bits, or throws what the spelling does. -/
theorem process_canon_iff (set : OptionSet) (behavior : ProcessArguments) (plain : Plain behavior)
    (named : Named set) (arguments : List Text) :
    process set (canon set arguments) behavior = process set arguments behavior ↔
      Agreeing set behavior arguments := by
  constructor
  · intro same
    have sequence := congrArg (fun run => run.2.optionSequence) same
    simp only [process_sequence (.refl set)] at sequence
    rw [process_eq_outcome, process_eq_outcome] at same
    exact agreeing_of_same plain named (Prod.mk.inj same).1 sequence
  · intro agreeing
    rw [process_eq_outcome, process_eq_outcome, ← outcomeRewritten_eq plain named agreeing]
    rfl

theorem process_canon_iff_attached :
    let set : OptionSet := { optionVec := [{ shortDef := true, charName := 'v' },
      { shortDef := true, charName := 'o', takesArgument := true }] }
    process set (canon set [['-', 'v', 'o', '=', 'f'], ['x']]) { stopOnDoubledash := false } =
      process set [['-', 'v', 'o', '=', 'f'], ['x']] { stopOnDoubledash := false } :=
  (process_canon_iff { optionVec := [{ shortDef := true, charName := 'v' },
      { shortDef := true, charName := 'o', takesArgument := true }] }
    { stopOnDoubledash := false } ⟨rfl, rfl, rfl, rfl⟩ ⟨by decide, by decide⟩ _).mpr (by
      intro groups token rest split _
      have member : token ∈ [['-', 'v', 'o', '=', 'f'], ['x']] := by
        rw [split]
        simp
      refine .inl (fits_of_lt ?_)
      simp only [List.mem_cons, List.not_mem_nil, or_false] at member
      rcases member with rfl | rfl <;> decide)

/-- With the flag `a`, a cluster of more than `2 ^ 32` of it throws, while its spelling returns. -/
theorem process_canon_wraps :
    let set : OptionSet := { optionVec := [{ shortDef := true, charName := 'a' }] }
    let token : Text := '-' :: 'a' :: List.replicate (2 ^ 32) 'a'
    (process set [token] { stopOnDoubledash := false }).1 =
        .error (.thrown (optionError .unknownOption ['-', '-'])) ∧
      (process set (canon set [token]) { stopOnDoubledash := false }).1 = .ok [] := by
  intro set
  obtain ⟨count, is, long⟩ : ∃ count, 2 ^ 32 = count + 1 ∧ count + 1 = 2 ^ 32 :=
    ⟨2 ^ 32 - 1, rfl, rfl⟩
  rw [is]
  intro token
  have plain : Plain { stopOnDoubledash := false } := ⟨rfl, rfl, rfl, rfl⟩
  have named : Named set := ⟨by decide, by decide⟩
  have flag : Flag set 'a' := ⟨0, by decide, by decide⟩
  have flags (number : Nat) : ∀ c ∈ List.replicate number 'a', Flag set c :=
    fun c member => List.eq_of_mem_replicate member ▸ flag
  have short : isShort token = true := by simp [isShort, token]
  have letters : token.drop 1 = List.replicate (count + 2) 'a' ++ [] := by
    rw [List.append_nil]
    rfl
  constructor
  · have throws : ThrowsDash set token (List.replicate count 'a') ['a', 'a'] := by
      refine ⟨congrArg ('-' :: ·) ?_, flags count, by rw [List.length_replicate, long]⟩
      show List.replicate (count + 2) 'a' = List.replicate count 'a' ++ List.replicate 2 'a'
      exact List.replicate_append_replicate.symm
    rw [process_eq_outcome, outcome_step plain, throws.scanned plain named short]
    rfl
  · have spelled : spellLetters set (token.drop 1) ≠ none := by
      rw [letters, spellLetters_flags_iff (flags _)]
      simp [spellLetters]
    have rewritten := outcomeRewritten_short plain named short spelled []
    rw [letters, readLetters_flags (flags _)] at rewritten
    have result := congrArg Prod.fst rewritten
    rw [process_eq_outcome]
    exact result

end Rewriting

end Ztd.Options
