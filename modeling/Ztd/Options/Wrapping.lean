import Ztd.Options.Runs

/-! Clusters whose index wraps around: what the loop makes of them, and what their
spelling comes to. -/

namespace Ztd.Options
open Ztd.Lib

section Clusters
variable (set : OptionSet)

/-- What flags activate. -/
def OptionSet.flagged (flags : Text) : List Activation :=
  flags.map fun c => ((set.findChar c).getD 0, none)

/-- A cluster of known letters whose index comes back to the dash behind flags alone. -/
structure ThrowsDash (token flags more : Text) : Prop where
  split : token = '-' :: (flags ++ more)
  bare : ∀ flag ∈ flags, Flag set flag
  count : flags.length + 1 = 2 ^ 32

/-- A token whose letter `c` is given all of the token as its argument: the index comes
back to the dash behind the letter, or behind the `=` that follows it. -/
structure TakesItself (token flags : Text) (c : Char) (popt : Nat) (text : Text) : Prop where
  split : token = '-' :: (flags ++ c :: text)
  bare : ∀ flag ∈ flags, Flag set flag
  found : set.findChar c = some popt
  takes : (set.deref popt).takesArgument = true
  count : flags.length + 2 = 2 ^ 32 ∨ flags.length + 3 = 2 ^ 32 ∧ ∃ behind, text = '=' :: behind

end Clusters

variable {set : OptionSet} {behavior : ProcessArguments}

/-- Letters that are spelled out are flags up to one that takes an argument. -/
theorem spellLetters_some {letters : Text} (spelled : spellLetters set letters ≠ none) :
    ∃ flags behind, letters = flags ++ behind ∧ (∀ flag ∈ flags, Flag set flag) ∧
      (behind = [] ∨ ∃ c text popt, behind = c :: text ∧ set.findChar c = some popt ∧
        (set.deref popt).takesArgument = true) := by
  induction letters with
  | nil => exact ⟨[], [], rfl, by simp, .inl rfl⟩
  | cons c letters ih =>
    rw [spellLetters] at spelled
    cases found : set.findChar c with
    | none => simp [found] at spelled
    | some popt =>
      cases taking : (set.deref popt).takesArgument with
      | true => exact ⟨[], _, rfl, by simp, .inr ⟨c, letters, popt, rfl, found, taking⟩⟩
      | false =>
        simp only [found, taking, Bool.false_eq_true, ↓reduceIte, ne_eq,
          Option.map_eq_none_iff] at spelled
        obtain ⟨flags, behind, rfl, bare, ends⟩ := ih spelled
        refine ⟨c :: flags, behind, rfl, fun flag member => ?_, ends⟩
        rcases List.mem_cons.mp member with rfl | later
        · exact ⟨popt, found, taking⟩
        · exact bare flag later

theorem reach_flags {flags : Text} (bare : ∀ flag ∈ flags, Flag set flag) (letters : Text) :
    reach set (flags ++ letters) = flags.length + reach set letters := by
  induction flags with
  | nil => simp
  | cons c flags ih =>
    obtain ⟨popt, found, taking⟩ := bare c List.mem_cons_self
    have later := ih fun flag member => bare flag (List.mem_cons_of_mem _ member)
    simp [reach, found, taking, later]
    omega

/-- A cluster that does not fit: one of the two kinds. -/
theorem misfit_cases {token : Text} (misfit : ¬ Fits set token) :
    isShort token = true ∧ spellLetters set (token.drop 1) ≠ none ∧
      ((∃ flags more, ThrowsDash set token flags more) ∨
        ∃ flags c popt text, TakesItself set token flags c popt text) := by
  simp only [Fits, not_forall] at misfit
  obtain ⟨short, spelled, far⟩ := misfit
  refine ⟨short, spelled, ?_⟩
  obtain ⟨flags, behind, split, bare, ends⟩ := spellLetters_some spelled
  have tokenIs : token = '-' :: (flags ++ behind) := by
    obtain ⟨first, letters, rfl, _⟩ := isShort_cases short
    rw [← split]
    rfl
  rw [split, reach_flags bare] at far
  rcases Nat.lt_or_ge (flags.length + 1) (2 ^ 32) with few | many
  · rcases ends with rfl | ⟨c, text, popt, rfl, found, takes⟩
    · simp only [reach] at far
      omega
    · refine .inr ⟨flags, c, popt, text, tokenIs, bare, found, takes, ?_⟩
      simp only [reach, found, takes, ↓reduceIte] at far
      cases text with
      | nil =>
        simp only [attached, Nat.sub_self] at far
        omega
      | cons first text =>
        by_cases equals : first = '='
        · subst equals
          simp only [attached, List.length_cons] at far
          exact (Nat.lt_or_ge (flags.length + 2) (2 ^ 32)).elim
            (fun fewer => .inr ⟨by omega, text, rfl⟩) (fun _ => .inl (by omega))
        · have same : attached (first :: text) = first :: text := by simp [attached, equals]
          rw [same, Nat.sub_self] at far
          omega
  · refine .inl ⟨flags.take (2 ^ 32 - 1), flags.drop (2 ^ 32 - 1) ++ behind, ?_, ?_, ?_⟩
    · rw [tokenIs, ← List.append_assoc, List.take_append_drop]
    · exact fun flag member => bare flag (List.mem_of_mem_take member)
    · rw [List.length_take]
      omega

/-- Letters behind others that only activate options. -/
def Cluster.behind (activations : List Activation)
    (scanned : Cluster × Option (Stop OptionError)) : Cluster × Option (Stop OptionError) :=
  ({ scanned.1 with activations := activations ++ scanned.1.activations }, scanned.2)

/-- Flags in front of a list of letters only add their activations. -/
theorem readLetters_flags {flags : Text} (bare : ∀ flag ∈ flags, Flag set flag)
    (rest : List Text) (letters : Text) :
    readLetters set behavior rest (flags ++ letters) =
      Cluster.behind (set.flagged flags) (readLetters set behavior rest letters) := by
  induction flags with
  | nil => rfl
  | cons c flags ih =>
    obtain ⟨popt, found, taking⟩ := bare c List.mem_cons_self
    have later := ih fun flag member => bare flag (List.mem_cons_of_mem _ member)
    simp [readLetters, found, taking, later, OptionSet.flagged, Cluster.behind]

/-- The same for the loop, from an index on to the one behind the flags. -/
theorem scanLetters_flags {token flags : Text} {i j : UInt32}
    (bare : ∀ flag ∈ flags, Flag set flag)
    (there : ∀ place < flags.length, token[i.toNat + place]? = flags[place]?)
    (fits : i.toNat + flags.length ≤ 2 ^ 32) (behind : j.toNat = (i.toNat + flags.length) % 2 ^ 32)
    (rest : List Text) (fuel : Nat) :
    scanLetters set behavior token rest (fuel + flags.length) i =
      Cluster.behind (set.flagged flags) (scanLetters set behavior token rest fuel j) := by
  induction flags generalizing i with
  | nil =>
    obtain rfl : j = i := by
      apply UInt32.toNat_inj.mp
      rw [behind]
      exact Nat.mod_eq_of_lt i.toNat_lt
    rfl
  | cons c flags ih =>
    obtain ⟨popt, found, taking⟩ := bare c List.mem_cons_self
    have letter : token[i.toNat]? = some c := there 0 (by simp)
    rw [List.length_cons] at there fits behind
    have next : (i + 1).toNat = (i.toNat + 1) % 2 ^ 32 := by
      rw [UInt32.toNat_add, UInt32.toNat_one]
    have later := @ih (i + 1) (fun flag member => bare flag (List.mem_cons_of_mem _ member))
      (fun place inside => by
        have := there (place + 1) (by omega)
        rw [next, Nat.mod_eq_of_lt (by omega), Nat.add_assoc, Nat.add_comm 1]
        simpa using this)
      (by omega) (by omega)
    rw [List.length_cons, ← Nat.add_assoc, scanLetters]
    simp [letter, found, taking, later, OptionSet.flagged, Cluster.behind]

/-- The index is behind the flags of a token that begins with them. -/
private theorem flags_there {flags letters : Text} (place : Nat) (inside : place < flags.length) :
    ('-' :: (flags ++ letters))[(1 : UInt32).toNat + place]? = flags[place]? := by
  rw [UInt32.toNat_one, Nat.add_comm, List.getElem?_cons_succ, List.getElem?_append_left inside]

/-- The dash is no name, so that the loop throws there. -/
theorem ThrowsDash.scanned (plain : Plain behavior) (named : Named set) {token flags more : Text}
    (throws : ThrowsDash set token flags more) (short : isShort token = true) (rest : List Text) :
    scanToken set behavior token rest =
      .inr (.halted (set.flagged flags)
        (.thrown (optionError .unknownOption ['-', '-']))) := by
  obtain ⟨split, bare, count⟩ := throws
  have fuel : token.length + 1 = more.length + 1 + 1 + flags.length := by
    rw [split, List.length_cons, List.length_append]
    omega
  have wraps : (0 : UInt32).toNat = ((1 : UInt32).toNat + flags.length) % 2 ^ 32 := by
    rw [UInt32.toNat_one, UInt32.toNat_zero]
    omega
  have dash : token[(0 : UInt32).toNat]? = some '-' := by
    rw [split]
    rfl
  rw [scanToken_short plain short, fuel,
    scanLetters_flags bare (split ▸ flags_there) (by rw [UInt32.toNat_one]; omega) wraps]
  simp only [scanLetters, dash, named.dash, plain.unknown]
  simp [Cluster.behind]

theorem TakesItself.scanned (plain : Plain behavior) {token flags text : Text} {c : Char}
    {popt : Nat} (takes : TakesItself set token flags c popt text) (short : isShort token = true)
    (rest : List Text) :
    scanToken set behavior token rest =
      .inl (.cluster token { activations := set.flagged flags ++ [(popt, some token)] }) := by
  obtain ⟨split, bare, found, taking, count⟩ := takes
  have fuel : token.length + 1 = text.length + 2 + 1 + flags.length := by
    rw [split, List.length_cons, List.length_append, List.length_cons]
    omega
  obtain ⟨i, at_⟩ : ∃ i : UInt32, i.toNat = 1 + flags.length :=
    ⟨UInt32.ofNat (1 + flags.length), by
      rw [UInt32.toNat_ofNat']
      exact Nat.mod_eq_of_lt (by omega)⟩
  have letter : token[i.toNat]? = some c := by
    rw [at_, split, Nat.add_comm, List.getElem?_cons_succ]
    simp
  have whole : (i + 1).toNat < token.length ∧ attachedAt token (i + 1) = token := by
    have next : (i + 1).toNat = (flags.length + 2) % 2 ^ 32 := by
      rw [UInt32.toNat_add, UInt32.toNat_one, at_]
      congr 1
      omega
    have long : flags.length + 2 ≤ token.length := by
      rw [split, List.length_cons, List.length_append, List.length_cons]
      omega
    rcases count with last | ⟨beforeLast, behind, textIs⟩
    · have start : (i + 1).toNat = 0 := by omega
      have dash : token[(i + 1).toNat]? ≠ some '=' := by
        rw [start, split]
        simp
      exact ⟨by omega, by rw [attachedAt, if_neg dash, start, List.drop_zero]⟩
    · have there : (i + 1).toNat = flags.length + 2 := by omega
      have equals : token[(i + 1).toNat]? = some '=' := by
        rw [there, split, List.getElem?_cons_succ, textIs]
        simp
      have start : (i + 1 + 1).toNat = 0 := by
        rw [UInt32.toNat_add, there, UInt32.toNat_one]
        omega
      have inside := (List.getElem?_eq_some_iff.mp equals).1
      exact ⟨inside, by rw [attachedAt, if_pos equals, start, List.drop_zero]⟩
  rw [scanToken_short plain short, fuel,
    scanLetters_flags (j := i) bare (split ▸ flags_there) (by rw [UInt32.toNat_one]; omega)
      (by rw [at_, UInt32.toNat_one]; omega)]
  simp only [scanLetters, letter, found, taking, whole, ↓reduceIte]
  rfl

/-- What a run pushes to the sequence. -/
def Outcome.pushed (set : OptionSet) (outcome : Outcome) : List Opt :=
  outcome.2.map set.pushed

variable (set) in
theorem pushed_outcomeOf (later : List Text → Outcome) (rest : List Text)
    (scanned : Group ⊕ Ending) : ∃ behind,
      (outcomeOf later rest scanned).pushed set =
        (activationsOf scanned).map set.pushed ++ behind := by
  cases scanned with
  | inl group => exact ⟨_, List.map_append⟩
  | inr ending => exact ⟨[], (List.append_nil _).symm⟩

theorem activationsOf_ofLetters (token : Text) (scanned : Cluster × Option (Stop OptionError)) :
    activationsOf (ofLetters token scanned) = scanned.1.activations := by
  obtain ⟨cluster, stop⟩ := scanned
  cases stop <;> rfl

variable (behavior) in
/-- Letters that are spelled out activate an option, or the first of them lacks its argument. -/
theorem readLetters_first {c : Char} {text : Text} (spelled : spellLetters set (c :: text) ≠ none)
    (rest : List Text) :
    (readLetters set behavior rest (c :: text)).1.activations ≠ [] ∨
      ∃ option, readLetters set behavior rest (c :: text) =
        ({}, some (.thrown (optionError .missingArg option))) := by
  rw [readLetters]
  cases found : set.findChar c with
  | none => simp [spellLetters, found] at spelled
  | some popt =>
    cases taking : (set.deref popt).takesArgument with
    | false => exact .inl (by simp [taking])
    | true =>
      cases text with
      | cons first text => exact .inl (by simp [taking])
      | nil =>
        cases rest with
        | nil => exact .inr ⟨['-', (set.deref popt).charName], by simp [taking]⟩
        | cons next others => exact .inl (by simp [taking])

theorem longName_nil {token : Text} (long : isLong token = true) (unnamed : longName token = []) :
    ∃ text, token = '-' :: '-' :: '=' :: text := by
  obtain ⟨name, rfl, nonempty⟩ := isLong_iff.mp long
  by_cases equals : '=' ∈ name
  · obtain ⟨before, text, rfl, first⟩ := List.eq_append_cons_of_mem equals
    obtain ⟨-, is⟩ := longName_equals first text
    obtain rfl : before = [] := by rw [← is]; exact unnamed
    exact ⟨text, rfl⟩
  · obtain ⟨-, is⟩ := longName_plain (show '=' ∉ '-' :: '-' :: name by simpa using equals)
    exact absurd (is.symm.trans unnamed) nonempty

/-- An exception of another type, or about another option, is not the one about `--`. -/
theorem error_other {type : ErrorType} {option : Text}
    (differs : type ≠ .unknownOption ∨ option ≠ ['-', '-']) {prop : Prop}
    (is : optionError type option = optionError .unknownOption ['-', '-']) : prop := by
  have sameType := congrArg OptionError.errtype is
  have sameOption := congrArg OptionError.opt is
  exact (differs.elim (· sameType) (· sameOption)).elim

variable (set) in
/-- Only a long token without a name throws on `--` before anything is activated. -/
theorem scanSpelled_first (plain : Plain behavior) {token : Text}
    (option : isLong token = true ∨ isShort token = true) (rest : List Text) :
    activationsOf (scanSpelled set behavior token rest) ≠ [] ∨
      ∃ error, scanSpelled set behavior token rest = .inr (.halted [] (.thrown error)) ∧
        (error = optionError .unknownOption ['-', '-'] →
          ∃ text, token = '-' :: '-' :: '=' :: text) := by
  rcases option with long | short
  · have notShort : isShort token = false := by
      obtain ⟨name, rfl, _⟩ := isLong_iff.mp long
      simp [isShort]
    rw [scanSpelled, if_neg (by simp [notShort]), scanToken, if_pos long, scanLong]
    cases found : set.findString (longName token) with
    | none =>
      refine .inr ⟨optionError .unknownOption (['-', '-'] ++ longName token), ?_, fun is => ?_⟩
      · simp [plain.unknown]
      · have unnamed : longName token = [] := by
          have := congrArg OptionError.opt is
          simpa [optionError] using this
        exact longName_nil long unnamed
    | some popt =>
      cases equals : token.findIdx? (· == '=') <;>
        cases taking : (set.deref popt).takesArgument
      · exact .inl (by simp [taking, activationsOf, Group.activations])
      · cases rest with
        | nil =>
          exact .inr ⟨optionError .missingArg (['-', '-'] ++ (set.deref popt).strName),
            by simp [taking], error_other (.inl (by simp))⟩
        | cons next others => exact .inl (by simp [taking, activationsOf, Group.activations])
      · exact .inr ⟨optionError .takesNoArg (['-', '-'] ++ (set.deref popt).strName),
          by simp [taking], error_other (.inl (by simp))⟩
      · exact .inl (by simp [taking, activationsOf, Group.activations])
  · obtain ⟨c, letters, rfl, notDash⟩ := isShort_cases short
    rw [scanSpelled, short, Bool.true_and]
    cases spells : spellLetters set (c :: letters) with
    | some spelled =>
      rw [List.drop_succ_cons, List.drop_zero, spells,
        if_pos (show (some spelled).isSome = true from rfl)]
      have spelt : spellLetters set (c :: letters) ≠ none := by simp [spells]
      rcases readLetters_first behavior spelt rest with active | ⟨option, lacks⟩
      · exact .inl (by rwa [activationsOf_ofLetters])
      · exact .inr ⟨_, by rw [lacks]; rfl, error_other (.inl (by simp))⟩
    | none =>
      rw [List.drop_succ_cons, List.drop_zero, spells, if_neg (by simp),
        scanToken_short plain short, scanLetters, UInt32.toNat_one]
      rw [spellLetters] at spells
      cases found : set.findChar c with
      | none =>
        refine .inr ⟨optionError .unknownOption ['-', c], ?_, error_other (.inr ?_)⟩
        · simp [found, plain.unknown]
        · simpa using notDash
      | some popt =>
        cases taking : (set.deref popt).takesArgument with
        | true => simp [found, taking] at spells
        | false =>
          exact .inl (by simp [activationsOf_ofLetters, found, taking, -ofLetters])

/-- A rewritten vector that throws on `--` before anything is activated holds a long token
without a name behind plain arguments. -/
theorem outcomeRewritten_dash (plain : Plain behavior) (named : Named set) {arguments : List Text}
    (throws : (outcomeRewritten set behavior arguments).1 =
      .error (.thrown (optionError .unknownOption ['-', '-'])))
    (silent : (outcomeRewritten set behavior arguments).pushed set = []) :
    ∃ before text behind, arguments = before ++ ('-' :: '-' :: '=' :: text) :: behind ∧
      ∀ argument ∈ before, isLong argument = false ∧ isShort argument = false := by
  induction arguments with
  | nil => exact absurd throws (by simp [outcomeRewritten, canon, outcome, scan, Ending.result])
  | cons token rest ih =>
    rw [outcomeRewritten_step plain named] at throws silent
    by_cases option : isLong token = true ∨ isShort token = true
    · rcases scanSpelled_first set plain option rest with active | ⟨error, is, only⟩
      · obtain ⟨behind, pushed⟩ := pushed_outcomeOf set (outcomeRewritten set behavior) rest
          (scanSpelled set behavior token rest)
        rw [pushed] at silent
        simp [active] at silent
      · rw [is] at throws
        obtain ⟨text, rfl⟩ := only (by simpa [outcomeOf, Ending.result] using throws)
        exact ⟨[], text, rest, rfl, by simp⟩
    · simp only [not_or, Bool.not_eq_true] at option
      have reads : scanSpelled set behavior token rest = .inl (.argument token) := by
        simp [scanSpelled, scanToken, option, plain.argument, plain.doubledash]
      rw [reads] at throws silent
      have throws : (outcomeRewritten set behavior rest).1 =
          .error (.thrown (optionError .unknownOption ['-', '-'])) := by
        simp only [outcomeOf, Group.next, Outcome.after, Option.toList_none, List.length_nil,
          List.drop_zero] at throws
        cases later : (outcomeRewritten set behavior rest).1 with
        | ok out => simp [later, Except.map] at throws
        | error stop => simpa [later, Except.map] using throws
      obtain ⟨before, text, behind, rfl, arguments⟩ := ih throws silent
      refine ⟨token :: before, text, behind, rfl, fun argument member => ?_⟩
      rcases List.mem_cons.mp member with rfl | later
      · exact option
      · exact arguments argument later

theorem outcomeRewritten_short (plain : Plain behavior) (named : Named set) {token : Text}
    (short : isShort token = true) (spelled : spellLetters set (token.drop 1) ≠ none)
    (rest : List Text) :
    outcomeRewritten set behavior (token :: rest) =
      outcomeOf (outcomeRewritten set behavior) rest
        (ofLetters token (readLetters set behavior rest (token.drop 1))) := by
  rw [outcomeRewritten_step plain named, scanSpelled, short, Bool.true_and,
    if_pos (Option.isSome_iff_ne_none.mpr spelled)]

section Sequences
variable {token flags more text : Text} {c : Char} {popt : Nat}

theorem ThrowsDash.letters (throws : ThrowsDash set token flags more) :
    token.drop 1 = flags ++ more := by
  rw [throws.split]
  rfl

theorem TakesItself.letters (takes : TakesItself set token flags c popt text) :
    token.drop 1 = flags ++ c :: text := by
  rw [takes.split]
  rfl

/-- Spelled out, the flags are activated as well. -/
theorem ThrowsDash.rewritten (plain : Plain behavior) (named : Named set)
    (throws : ThrowsDash set token flags more) (short : isShort token = true)
    (spelled : spellLetters set (token.drop 1) ≠ none) (rest : List Text) :
    ∃ later, (outcomeRewritten set behavior (token :: rest)).pushed set =
      (set.flagged flags).map set.pushed ++
        ((readLetters set behavior rest more).1.activations.map set.pushed ++ later) := by
  rw [outcomeRewritten_short plain named short spelled, throws.letters,
    readLetters_flags throws.bare]
  obtain ⟨behind, pushed⟩ := pushed_outcomeOf set (outcomeRewritten set behavior) rest
    (ofLetters token (Cluster.behind (set.flagged flags) (readLetters set behavior rest more)))
  rw [activationsOf_ofLetters, Cluster.behind, List.map_append, List.append_assoc] at pushed
  exact ⟨behind, pushed⟩

/-- Spelled out, the letter is given the text behind it. -/
theorem TakesItself.rewritten_text (plain : Plain behavior) (named : Named set)
    (takes : TakesItself set token flags c popt text) (short : isShort token = true)
    (spelled : spellLetters set (token.drop 1) ≠ none) (held : text ≠ []) (rest : List Text) :
    (outcomeRewritten set behavior (token :: rest)).pushed set =
      (set.flagged flags).map set.pushed ++ set.pushed (popt, some (attached text)) ::
        (outcomeRewritten set behavior rest).pushed set := by
  have read : readLetters set behavior rest (c :: text) =
      ({ activations := [(popt, some (attached text))] }, none) := by
    cases text with
    | nil => exact absurd rfl held
    | cons first text => simp [readLetters, takes.found, takes.takes]
  rw [outcomeRewritten_short plain named short spelled, takes.letters,
    readLetters_flags takes.bare, read]
  simp [Cluster.behind, outcomeOf, Outcome.pushed, Outcome.after, Group.activations, Group.next]

/-- Spelled out, the letter is given the token that follows. -/
theorem TakesItself.rewritten_next (plain : Plain behavior) (named : Named set)
    (takes : TakesItself set token flags c popt []) (short : isShort token = true)
    (spelled : spellLetters set (token.drop 1) ≠ none) (next : Text) (others : List Text) :
    (outcomeRewritten set behavior (token :: next :: others)).pushed set =
      (set.flagged flags).map set.pushed ++ set.pushed (popt, some next) ::
        (outcomeRewritten set behavior others).pushed set := by
  rw [outcomeRewritten_short plain named short spelled, takes.letters,
    readLetters_flags takes.bare]
  simp [readLetters, takes.found, takes.takes, Cluster.behind, outcomeOf, Outcome.pushed,
    Outcome.after, Group.activations, Group.next]

theorem TakesItself.rewritten_last (plain : Plain behavior) (named : Named set)
    (takes : TakesItself set token flags c popt []) (short : isShort token = true)
    (spelled : spellLetters set (token.drop 1) ≠ none) :
    (outcomeRewritten set behavior [token]).pushed set = (set.flagged flags).map set.pushed := by
  rw [outcomeRewritten_short plain named short spelled, takes.letters,
    readLetters_flags takes.bare]
  simp [readLetters, takes.found, takes.takes, Cluster.behind, outcomeOf, Outcome.pushed,
    Ending.activations]

/-- What the loop pushes to the sequence, whatever follows the token. -/
theorem TakesItself.pushed (plain : Plain behavior)
    (takes : TakesItself set token flags c popt text) (short : isShort token = true)
    (rest : List Text) :
    (outcome set behavior (token :: rest)).pushed set =
      (set.flagged flags).map set.pushed ++ set.pushed (popt, some token) ::
        (outcome set behavior rest).pushed set := by
  rw [outcome_step plain, takes.scanned plain short]
  simp [outcomeOf, Outcome.pushed, Outcome.after, Group.activations, Group.next]

theorem ThrowsDash.pushed (plain : Plain behavior) (named : Named set)
    (throws : ThrowsDash set token flags more) (short : isShort token = true) (rest : List Text) :
    (outcome set behavior (token :: rest)).pushed set = (set.flagged flags).map set.pushed := by
  rw [outcome_step plain, throws.scanned plain named short]
  rfl

/-- Flags push options without an argument. -/
theorem flagged_pushed (bare : ∀ flag ∈ flags, Flag set flag) :
    ∀ opt ∈ (set.flagged flags).map set.pushed, opt.takesArgument = false := by
  intro opt member
  simp only [OptionSet.flagged, List.map_map, List.mem_map, Function.comp_apply] at member
  obtain ⟨flag, member, rfl⟩ := member
  obtain ⟨popt, found, bare⟩ := bare flag member
  rw [found]
  exact bare

theorem length_flagged (flags : Text) :
    ((set.flagged flags).map set.pushed).length = flags.length := by
  simp [OptionSet.flagged]

end Sequences

end Ztd.Options
