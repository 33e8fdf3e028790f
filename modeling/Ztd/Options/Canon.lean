import Ztd.Options.Groups

/-! Every spelling of the same options is processed as the detached one. -/

namespace Ztd.Options
open Ztd.Lib

/-- Drop the `=` that may stand between a letter and its argument. -/
def attached : Text → Text
  | '=' :: text => text
  | text => text

section Rewriting
variable (set : OptionSet)

/-- A letter that names an option without an argument. -/
def Flag (c : Char) : Prop :=
  ∃ popt, set.findChar c = some popt ∧ (set.deref popt).takesArgument = false

/-- One token for each letter, the text behind an argument-taking letter as a
token of its own; none when a letter before that is unknown. -/
def spellLetters : Text → Option (List Text)
  | [] => some []
  | c :: letters =>
    match set.findChar c with
    | none => none
    | some popt =>
      if (set.deref popt).takesArgument then
        some (['-', c] :: if letters = [] then [] else [attached letters])
      else (spellLetters letters).map (['-', c] :: ·)

/-- The last letter takes an argument that the token does not hold. -/
def wantsNext : Text → Bool
  | [] => false
  | c :: letters =>
    match set.findChar c with
    | none => false
    | some popt =>
      if (set.deref popt).takesArgument then letters = [] else wantsNext letters

/-- How far behind the dash the index of the letter loop counts: to the end of the
letters, or to the text behind one that takes an argument. -/
def reach : Text → Nat
  | [] => 0
  | c :: letters =>
    match set.findChar c with
    | none => 0
    | some popt =>
      if (set.deref popt).takesArgument then
        letters.length - (attached letters).length + 1
      else reach letters + 1

/-- A cluster of known letters that an index of 32 bits reads without wrapping around. -/
def Fits (token : Text) : Prop :=
  isShort token = true → spellLetters set (token.drop 1) ≠ none →
    1 + reach set (token.drop 1) < 2 ^ 32

/-- The tokens a token is spelled as, and whether the next one is its argument. -/
def canonToken (token : Text) : List Text × Bool :=
  if isLong token then
    match set.findString (longName token) with
    | none => ([token], false)
    | some popt =>
      match token.findIdx? (· == '='), (set.deref popt).takesArgument with
      | _, false => ([token], false)
      | none, true => ([token], true)
      | some eqn, true => ([['-', '-'] ++ longName token, token.drop (eqn + 1)], false)
  else if isShort token then
    match spellLetters set (token.drop 1) with
    | none => ([token], false)
    | some spelled => (spelled, wantsNext set (token.drop 1))
  else ([token], false)

/-- Rewrite a vector left to right, leaving the arguments of options alone. -/
def canon : List Text → List Text
  | [] => []
  | [token] => (canonToken set token).1
  | token :: next :: others =>
    if (canonToken set token).2 then (canonToken set token).1 ++ next :: canon others
    else (canonToken set token).1 ++ canon (next :: others)

theorem canon_alone {token : Text} {spelled : List Text}
    (is : canonToken set token = (spelled, false)) (rest : List Text) :
    canon set (token :: rest) = spelled ++ canon set rest := by
  cases rest <;> simp [canon, is]

theorem canon_taking {token : Text} {spelled : List Text}
    (is : canonToken set token = (spelled, true)) (next : Text) (others : List Text) :
    canon set (token :: next :: others) = spelled ++ next :: canon set others := by
  simp [canon, is]

theorem canon_last {token : Text} {spelled : List Text} {takes : Bool}
    (is : canonToken set token = (spelled, takes)) : canon set [token] = spelled := by
  simp [canon, is]

end Rewriting

/-- The letters of a token read off as a list, without an index. -/
def readLetters (set : OptionSet) (behavior : ProcessArguments) (rest : List Text) :
    Text → Cluster × Option (Stop OptionError)
  | [] => ({}, none)
  | c :: letters =>
    match set.findChar c with
    | none =>
      if !behavior.ignoreUnknown then
        ({}, some (.thrown (optionError .unknownOption ['-', c])))
      else
        let (cluster, stop) := readLetters set behavior rest letters
        ({ cluster with ropt := c :: cluster.ropt }, stop)
    | some popt =>
      if (set.deref popt).takesArgument then
        match letters, rest with
        | [], [] =>
          ({}, some (.thrown (optionError .missingArg ['-', (set.deref popt).charName])))
        | [], argument :: _ =>
          ({ activations := [(popt, some argument)], next := some argument }, none)
        | letters, _ => ({ activations := [(popt, some (attached letters))] }, none)
      else
        let (cluster, stop) := readLetters set behavior rest letters
        ({ cluster with activations := (popt, none) :: cluster.activations }, stop)

/-- What is observed of a run: its result and the options it activated. -/
abbrev Outcome := Except (Stop OptionError) (List Text) × List Activation

def outcome (set : OptionSet) (behavior : ProcessArguments) (arguments : List Text) : Outcome :=
  ((scan set behavior arguments).2.result ((scan set behavior arguments).1.flatMap Group.leftover),
    (scan set behavior arguments).1.flatMap Group.activations ++
      (scan set behavior arguments).2.activations)

/-- An outcome behind a group. -/
def Outcome.after (group : Group) (outcome : Outcome) : Outcome :=
  (outcome.1.map (group.leftover ++ ·), group.activations ++ outcome.2)

/-- A group that puts nothing into the returned vector only adds activations. -/
theorem Outcome.after_silent {group : Group} (silent : group.leftover = []) (outcome : Outcome) :
    outcome.after group = (outcome.1, group.activations ++ outcome.2) := by
  obtain ⟨result, activations⟩ := outcome
  cases result <;> simp [Outcome.after, silent, Except.map]

/-- The flags of a run in which only options and arguments are told apart. -/
structure Plain (behavior : ProcessArguments) : Prop where
  numbers : behavior.ignoreNumbers = false
  argument : behavior.stopOnArgument = false
  unknown : behavior.ignoreUnknown = false
  doubledash : behavior.stopOnDoubledash = false

/-- Names that can be told from the marks around them. -/
structure Named (set : OptionSet) : Prop where
  short : ∀ opt ∈ set.optionVec, opt.shortDef = true → opt.charName ≠ '-'
  long : ∀ opt ∈ set.optionVec, opt.longDef = true → opt.strName ≠ [] ∧ '=' ∉ opt.strName

variable {set : OptionSet} {behavior : ProcessArguments}

theorem process_eq_outcome (arguments : List Text) :
    process set arguments behavior =
      ((outcome set behavior arguments).1,
        set.cleared.activateAll (outcome set behavior arguments).2) :=
  process_eq_scan set arguments behavior

theorem outcome_group (plain : Plain behavior) {token : Text} {rest : List Text} {group : Group}
    (scanned : scanToken set behavior token rest = .inl group) :
    outcome set behavior (token :: rest) =
      (outcome set behavior (rest.drop group.next.toList.length)).after group := by
  obtain ⟨left, _, _, ends⟩ := scan_reads set behavior
    (rest.drop group.next.toList.length)
  simp only [outcome, scan_group set behavior scanned]
  generalize scan set behavior (rest.drop group.next.toList.length) = scanned at *
  obtain ⟨groups, ending⟩ := scanned
  cases ends with
  | stoppedOnArgument stops => simp [plain.argument] at stops
  | doubledash _ stops => simp [plain.doubledash] at stops
  | _ => simp [Outcome.after, Ending.result, Ending.activations, Except.map]

theorem outcome_ending {token : Text} {rest : List Text} {ending : Ending}
    (scanned : scanToken set behavior token rest = .inr ending) :
    outcome set behavior (token :: rest) = (ending.result [], ending.activations) := by
  simp [outcome, scan_ending set behavior scanned]

theorem Named.findChar (named : Named set) {c : Char} {popt : Nat}
    (found : set.findChar c = some popt) : c ≠ '-' := by
  obtain ⟨inside, holds, _⟩ := List.findIdx?_eq_some_iff_getElem.mp found
  simp only [Opt.hasChar, Bool.and_eq_true, beq_iff_eq] at holds
  rw [← holds.2]
  exact named.short _ (List.getElem_mem inside) holds.1

theorem Named.dash (named : Named set) : set.findChar '-' = none := by
  cases found : set.findChar '-' with
  | none => rfl
  | some popt => exact absurd rfl (named.findChar found)

theorem Named.findString (named : Named set) {str : Text} {popt : Nat}
    (found : set.findString str = some popt) : str ≠ [] ∧ '=' ∉ str := by
  obtain ⟨inside, holds, _⟩ := List.findIdx?_eq_some_iff_getElem.mp found
  simp only [Opt.hasString, Bool.and_eq_true, beq_iff_eq] at holds
  rw [← holds.2]
  exact named.long _ (List.getElem_mem inside) holds.1

/-- Behind a letter that takes an argument, the index finds the text as it is. -/
theorem attachedAt_drop {token : Text} {i : UInt32}
    (fits : i.toNat + ((token.drop i.toNat).length - (attached (token.drop i.toNat)).length) <
      2 ^ 32) : attachedAt token i = attached (token.drop i.toNat) := by
  by_cases equals : token[i.toNat]? = some '='
  · obtain ⟨inside, is⟩ := List.getElem?_eq_some_iff.mp equals
    have split : token.drop i.toNat = '=' :: token.drop (i.toNat + 1) := by
      rw [List.drop_eq_getElem_cons inside, is]
    have next : (i + 1).toNat = i.toNat + 1 := by
      simp only [split, attached, List.length_cons] at fits
      rw [UInt32.toNat_add, UInt32.toNat_one]
      exact Nat.mod_eq_of_lt (by omega)
    rw [attachedAt, if_pos equals, next, split, attached]
  · rw [attachedAt, if_neg equals]
    cases letters : token.drop i.toNat with
    | nil => rfl
    | cons c text =>
      have first : token[i.toNat]? = some c := by
        have := congrArg List.head? letters
        simpa using this
      have : c ≠ '=' := fun is => equals (is ▸ first)
      simp [attached, this]

/-- An index that does not wrap around reads the letters off as a list. -/
theorem scanLetters_eq_readLetters {token : Text} (rest : List Text) {fuel : Nat} {i : UInt32}
    (inside : i.toNat ≤ token.length) (enough : token.length - i.toNat < fuel)
    (spelled : spellLetters set (token.drop i.toNat) ≠ none)
    (fits : i.toNat + reach set (token.drop i.toNat) < 2 ^ 32) :
    scanLetters set behavior token rest fuel i =
      readLetters set behavior rest (token.drop i.toNat) := by
  induction fuel generalizing i with
  | zero => omega
  | succ fuel ih =>
    rw [scanLetters]
    cases letter : token[i.toNat]? with
    | none =>
      rw [List.drop_eq_nil_of_le (List.getElem?_eq_none_iff.mp letter), readLetters]
    | some c =>
      obtain ⟨below, is⟩ := List.getElem?_eq_some_iff.mp letter
      rw [List.drop_eq_getElem_cons below, is] at spelled fits ⊢
      rw [spellLetters] at spelled
      rw [reach] at fits
      rw [readLetters]
      cases found : set.findChar c with
      | none => simp [found] at spelled
      | some popt =>
        have next : (i + 1).toNat = i.toNat + 1 := by
          have positive : i.toNat + 1 < 2 ^ 32 := by
            simp only [found] at fits
            split at fits <;> omega
          rw [UInt32.toNat_add, UInt32.toNat_one]
          exact Nat.mod_eq_of_lt positive
        cases taking : (set.deref popt).takesArgument with
        | false =>
          simp only [found, taking, Bool.false_eq_true, ↓reduceIte, ne_eq,
            Option.map_eq_none_iff] at spelled fits
          simp only [found, taking, Bool.false_eq_true, ↓reduceIte]
          rw [← next] at spelled fits ⊢
          rw [ih (by omega) (by omega) spelled (by omega)]
        | true =>
          simp only [found, taking, ↓reduceIte] at fits
          simp only [found, taking, ↓reduceIte]
          rw [← next] at fits ⊢
          by_cases text : (i + 1).toNat < token.length
          · rw [if_pos text, attachedAt_drop (by omega)]
            rw [List.drop_eq_getElem_cons text]
          · rw [if_neg text, List.drop_eq_nil_of_le (Nat.not_lt.mp text)]
            cases rest <;> rfl

theorem scanToken_short (plain : Plain behavior) {token : Text} (short : isShort token = true)
    (rest : List Text) : scanToken set behavior token rest =
      ofLetters token (scanLetters set behavior token rest (token.length + 1) 1) := by
  have notLong : isLong token = false := by
    obtain ⟨first, letters, rfl, notDash⟩ := isShort_cases short
    simp [isLong, notDash]
  simp only [scanToken, notLong, short, scanShort, isNumber, plain.numbers, Bool.false_eq_true,
    ↓reduceIte, Bool.false_and]

/-- A token of one known letter. -/
theorem scanToken_letter (plain : Plain behavior) (named : Named set) {c : Char} {popt : Nat}
    (found : set.findChar c = some popt) (rest : List Text) :
    scanToken set behavior ['-', c] rest =
      ofLetters ['-', c] (readLetters set behavior rest [c]) := by
  have short : isShort ['-', c] = true := by simp [isShort, named.findChar found]
  have letters : scanLetters set behavior ['-', c] rest 3 1 =
      readLetters set behavior rest [c] := by
    apply scanLetters_eq_readLetters rest (by simp) (by simp)
    · cases taking : (set.deref popt).takesArgument <;> simp [spellLetters, found, taking]
    · cases taking : (set.deref popt).takesArgument <;> simp [reach, found, taking, attached]
  rw [scanToken_short plain short]
  exact congrArg _ letters

/-- Letters that are not spelled are flags up to an unknown one. -/
theorem spellLetters_none {letters : Text} (unspelled : spellLetters set letters = none) :
    ∃ before c behind, letters = before ++ c :: behind ∧ set.findChar c = none ∧
      ∀ flag ∈ before, Flag set flag := by
  induction letters with
  | nil => simp [spellLetters] at unspelled
  | cons first letters ih =>
    rw [spellLetters] at unspelled
    cases found : set.findChar first with
    | none => exact ⟨[], first, letters, rfl, found, by simp⟩
    | some popt =>
      cases taking : (set.deref popt).takesArgument with
      | true => simp [found, taking] at unspelled
      | false =>
        simp only [found, taking, Bool.false_eq_true, ↓reduceIte, Option.map_eq_none_iff]
          at unspelled
        obtain ⟨before, c, behind, rfl, unknown, flags⟩ := ih unspelled
        refine ⟨first :: before, c, behind, rfl, unknown, fun flag member => ?_⟩
        rcases List.mem_cons.mp member with rfl | later
        · exact ⟨popt, found, taking⟩
        · exact flags flag later

/-- With an unknown letter behind flags, reading throws whatever follows the token. An index
that wraps around in front of it throws too, at the dash. -/
theorem scanLetters_unspelled (plain : Plain behavior) (named : Named set) {token : Text}
    (short : isShort token = true) (unspelled : spellLetters set (token.drop 1) = none)
    (fuel : Nat) : ∃ cluster stop, ∀ rest,
      scanLetters set behavior token rest fuel 1 = (cluster, some stop) := by
  obtain ⟨before, unknown, behind, split, missing, flags⟩ := spellLetters_none unspelled
  have tokenIs : token = '-' :: (before ++ unknown :: behind) := by
    obtain ⟨first, letters, rfl, _⟩ := isShort_cases short
    rw [← split]
    rfl
  have walk (i : UInt32) (below : i.toNat ≤ before.length + 1) : ∃ cluster stop, ∀ rest,
      scanLetters set behavior token rest fuel i = (cluster, some stop) := by
    induction fuel generalizing i with
    | zero => exact ⟨_, _, fun _ => rfl⟩
    | succ fuel ih =>
      have throws {c : Char} (letter : token[i.toNat]? = some c)
          (missing : set.findChar c = none) : ∃ cluster stop, ∀ rest,
          scanLetters set behavior token rest (fuel + 1) i = (cluster, some stop) :=
        ⟨_, _, fun rest => by simp only [scanLetters, letter, missing, plain.unknown]; rfl⟩
      rcases Nat.eq_zero_or_pos i.toNat with start | positive
      · exact throws (by rw [start, tokenIs]; rfl) named.dash
      · obtain ⟨place, is⟩ : ∃ place, i.toNat = place + 1 := ⟨i.toNat - 1, by omega⟩
        have letter : token[i.toNat]? = (before ++ unknown :: behind)[place]? := by
          rw [is, tokenIs, List.getElem?_cons_succ]
        rcases Nat.lt_or_eq_of_le (show place ≤ before.length by omega) with inside | last
        · rw [List.getElem?_append_left inside, List.getElem?_eq_getElem inside] at letter
          obtain ⟨popt, found, bare⟩ := flags _ (List.getElem_mem inside)
          have later : (i + 1).toNat ≤ before.length + 1 := by
            rw [UInt32.toNat_add, UInt32.toNat_one]
            exact Nat.le_trans (Nat.mod_le _ _) (by omega)
          obtain ⟨cluster, stop, stops⟩ := ih (i + 1) later
          exact ⟨{ cluster with activations := (popt, none) :: cluster.activations }, stop,
            fun rest => by simp [scanLetters, letter, found, bare, stops rest]⟩
        · subst last
          rw [List.getElem?_append_right (Nat.le_refl _), Nat.sub_self] at letter
          exact throws letter missing
  exact walk 1 (by simp)

/-- The detached tokens of a cluster do what its letters do. `tail` is what
follows the tokens, and begins with the token the cluster would take. -/
theorem outcome_spelled (plain : Plain behavior) (named : Named set) {letters : Text}
    {spelled : List Text} (spells : spellLetters set letters = some spelled) (rest tail : List Text)
    (aligned : wantsNext set letters = true → rest.head? = tail.head?) :
    match readLetters set behavior rest letters with
    | (cluster, none) =>
      cluster.ropt = [] ∧ cluster.next.isSome = wantsNext set letters ∧
      outcome set behavior (spelled ++ tail) =
        ((outcome set behavior (tail.drop cluster.next.toList.length)).1,
          cluster.activations ++ (outcome set behavior (tail.drop cluster.next.toList.length)).2)
    | (cluster, some stop) =>
      outcome set behavior (spelled ++ tail) = (.error stop, cluster.activations) := by
  induction letters generalizing spelled with
  | nil =>
    simp only [spellLetters, Option.some.injEq] at spells
    subst spells
    simp [readLetters, wantsNext]
  | cons c letters ih =>
    rw [spellLetters] at spells
    cases found : set.findChar c with
    | none => simp [found] at spells
    | some popt =>
      cases taking : (set.deref popt).takesArgument with
      | false =>
        simp only [found, taking, Bool.false_eq_true, ↓reduceIte, Option.map_eq_some_iff] at spells
        obtain ⟨later, spells, rfl⟩ := spells
        have wants : wantsNext set (c :: letters) = wantsNext set letters := by
          simp [wantsNext, found, taking]
        rw [wants] at aligned ⊢
        have head := scanToken_letter plain named found (later ++ tail)
        simp only [readLetters, found, taking, Bool.false_eq_true, ↓reduceIte] at head
        have inner := ih spells aligned
        rw [List.cons_append, outcome_group plain head, Outcome.after_silent rfl]
        simp only [readLetters, found, taking, Bool.false_eq_true, ↓reduceIte]
        cases scanned : readLetters set behavior rest letters with
        | mk cluster stop =>
          rw [scanned] at inner
          cases stop with
          | none =>
            obtain ⟨noRest, taken, same⟩ := inner
            exact ⟨noRest, taken, by simp [Group.next, Group.activations, same]⟩
          | some stop => simp [Group.next, Group.activations, inner]
      | true =>
        simp only [found, taking, ↓reduceIte, Option.some.injEq] at spells
        subst spells
        cases letters with
        | cons first letters =>
          have head := scanToken_letter plain named found (attached (first :: letters) :: tail)
          simp only [readLetters, found, taking, ↓reduceIte] at head
          simp only [readLetters, found, taking, ↓reduceIte, reduceCtorEq, List.cons_append,
            List.nil_append]
          refine ⟨trivial, by simp [wantsNext, found, taking], ?_⟩
          rw [outcome_group plain head, Outcome.after_silent rfl]
          simp [Group.next, Group.activations]
        | nil =>
          have heads : rest.head? = tail.head? := aligned (by simp [wantsNext, found, taking])
          have head := scanToken_letter plain named found tail
          simp only [readLetters, found, taking, ↓reduceIte] at head
          simp only [readLetters, found, taking, ↓reduceIte, List.cons_append, List.nil_append]
          cases tail with
          | nil =>
            obtain rfl : rest = [] := by simpa using heads
            simpa [Ending.result, Ending.activations] using outcome_ending head
          | cons next tail =>
            obtain ⟨others, rfl⟩ : ∃ others, rest = next :: others := by
              cases rest with
              | nil => simp at heads
              | cons other others => exact ⟨others, by simpa using heads⟩
            refine ⟨rfl, by simp [wantsNext, found, taking], ?_⟩
            rw [outcome_group plain head, Outcome.after_silent rfl]
            simp [Group.next, Group.activations]

theorem reach_le (letters : Text) : reach set letters ≤ letters.length := by
  induction letters with
  | nil => exact Nat.le_refl _
  | cons c letters ih =>
    rw [reach, List.length_cons]
    split
    · exact Nat.zero_le _
    · split
      · exact Nat.succ_le_succ (Nat.sub_le _ _)
      · exact Nat.succ_le_succ ih

theorem fits_of_lt {token : Text} (below : token.length < 2 ^ 32) : Fits set token := by
  intro short _
  obtain ⟨first, letters, rfl, _⟩ := isShort_cases short
  have inside := @reach_le set (first :: letters)
  simp only [List.drop_succ_cons, List.drop_zero]
  simp only [List.length_cons] at below inside
  omega

/-- The outcome by what the first token comes to and what comes of the tokens behind it. -/
def outcomeOf (later : List Text → Outcome) (rest : List Text) : Group ⊕ Ending → Outcome
  | .inl group => (later (rest.drop group.next.toList.length)).after group
  | .inr ending => (ending.result [], ending.activations)

theorem outcome_step (plain : Plain behavior) (token : Text) (rest : List Text) :
    outcome set behavior (token :: rest) =
      outcomeOf (outcome set behavior) rest (scanToken set behavior token rest) := by
  cases scanned : scanToken set behavior token rest with
  | inl group => exact outcome_group plain scanned
  | inr ending => exact outcome_ending scanned

variable (set behavior) in
/-- What a token comes to when it is rewritten: a cluster that is spelled out, to the list
of its letters. -/
def scanSpelled (token : Text) (rest : List Text) : Group ⊕ Ending :=
  if isShort token && (spellLetters set (token.drop 1)).isSome then
    ofLetters token (readLetters set behavior rest (token.drop 1))
  else scanToken set behavior token rest

variable (set behavior) in
def outcomeRewritten (arguments : List Text) : Outcome :=
  outcome set behavior (canon set arguments)

/-- Rewriting a vector that begins with a long option token. -/
theorem outcome_canon_long (plain : Plain behavior) (named : Named set) {token : Text}
    (long : isLong token = true) (rest : List Text) :
    outcomeRewritten set behavior (token :: rest) =
      outcomeOf (outcomeRewritten set behavior) rest (scanToken set behavior token rest) := by
  have scanIs (rest : List Text) : scanToken set behavior token rest =
      scanLong set behavior token rest := by simp [scanToken, long]
  rw [outcomeRewritten]
  cases found : set.findString (longName token) with
  | none =>
    have ends (rest : List Text) : scanToken set behavior token rest = .inr _ :=
      (scanIs rest).trans (by simp only [scanLong, found, plain.unknown]; rfl)
    rw [canon_alone set (show canonToken set token = ([token], false) by
      simp [canonToken, long, found])]
    exact (outcome_ending (ends _)).trans (by rw [ends]; rfl)
  | some popt =>
    cases equals : token.findIdx? (· == '=') with
    | none =>
      cases taking : (set.deref popt).takesArgument with
      | false =>
        have reads (rest : List Text) : scanToken set behavior token rest =
            .inl (.long token popt none) := by simp [scanIs, scanLong, found, equals, taking]
        rw [canon_alone set (show canonToken set token = ([token], false) by
          simp [canonToken, long, found, taking]), reads]
        exact outcome_group plain (reads _)
      | true =>
        have is : canonToken set token = ([token], true) := by
          simp [canonToken, long, found, equals, taking]
        cases rest with
        | nil =>
          have ends : scanToken set behavior token [] = .inr _ :=
            (scanIs []).trans (by simp only [scanLong, found, equals, taking]; rfl)
          rw [canon_last set is, outcome_ending ends, ends]
          rfl
        | cons next others =>
          have reads (others : List Text) : scanToken set behavior token (next :: others) =
              .inl (.longNext token popt next) := by
            simp [scanIs, scanLong, found, equals, taking]
          rw [canon_taking set is, reads]
          exact outcome_group plain (reads _)
    | some eqn =>
      cases taking : (set.deref popt).takesArgument with
      | false =>
        have ends (rest : List Text) : scanToken set behavior token rest = .inr _ :=
          (scanIs rest).trans (by simp only [scanLong, found, equals, taking]; rfl)
        rw [canon_alone set (show canonToken set token = ([token], false) by
          simp [canonToken, long, found, taking])]
        exact (outcome_ending (ends _)).trans (by rw [ends]; rfl)
      | true =>
        have reads : scanToken set behavior token rest =
            .inl (.long token popt (some (token.drop (eqn + 1)))) := by
          simp [scanIs, scanLong, found, equals, taking]
        have is : canonToken set token =
            ([['-', '-'] ++ longName token, token.drop (eqn + 1)], false) := by
          simp [canonToken, long, found, equals, taking]
        obtain ⟨nonempty, noEquals⟩ := named.findString found
        have detached : isLong (['-', '-'] ++ longName token) = true :=
          isLong_iff.mpr ⟨_, rfl, nonempty⟩
        obtain ⟨position, name⟩ := longName_plain
          (show '=' ∉ ['-', '-'] ++ longName token by simpa using noEquals)
        have readsDetached : scanToken set behavior (['-', '-'] ++ longName token)
            (token.drop (eqn + 1) :: canon set rest) =
            .inl (.longNext (['-', '-'] ++ longName token) popt (token.drop (eqn + 1))) := by
          rw [scanToken, if_pos detached, scanLong, name, position]
          simp [found, taking]
        rw [canon_alone set is, reads]
        exact outcome_group plain readsDetached

/-- Rewriting a vector that begins with a cluster of short options. -/
theorem outcome_canon_short (plain : Plain behavior) (named : Named set) {token : Text}
    (short : isShort token = true) (rest : List Text) :
    outcomeRewritten set behavior (token :: rest) =
      outcomeOf (outcomeRewritten set behavior) rest (scanSpelled set behavior token rest) := by
  have notLong : isLong token = false := by
    obtain ⟨first, letters, rfl, notDash⟩ := isShort_cases short
    simp [isLong, notDash]
  rw [outcomeRewritten, scanSpelled, short, Bool.true_and]
  cases spells : spellLetters set (token.drop 1) with
  | none =>
    obtain ⟨cluster, stop, stops⟩ :=
      scanLetters_unspelled plain named short spells (token.length + 1)
    have ends (rest : List Text) : scanToken set behavior token rest =
        .inr (.halted cluster.activations stop) := by
      rw [scanToken_short plain short, stops]
      rfl
    rw [canon_alone set (show canonToken set token = ([token], false) by
      simp only [canonToken, notLong, short, spells, Bool.false_eq_true, ↓reduceIte])]
    exact (outcome_ending (ends _)).trans (by rw [if_neg (by simp), ends]; rfl)
  | some spelled =>
    have is : canonToken set token = (spelled, wantsNext set (token.drop 1)) := by
      simp only [canonToken, notLong, short, spells, Bool.false_eq_true, ↓reduceIte]
    -- `tail` is the rewritten rest, in front of which the cluster is spelled out
    have tail : ∃ tail, canon set (token :: rest) = spelled ++ tail ∧
        (wantsNext set (token.drop 1) = true → rest.head? = tail.head?) ∧
        outcome set behavior (tail.drop (wantsNext set (token.drop 1)).toNat) =
          outcomeRewritten set behavior (rest.drop (wantsNext set (token.drop 1)).toNat) := by
      cases wants : wantsNext set (token.drop 1) with
      | false =>
        rw [wants] at is
        exact ⟨canon set rest, canon_alone set is rest, by simp, rfl⟩
      | true =>
        rw [wants] at is
        cases rest with
        | nil => exact ⟨[], by simp [canon_last set is], by simp, rfl⟩
        | cons next others =>
          exact ⟨next :: canon set others, canon_taking set is next others, by simp, rfl⟩
    obtain ⟨tail, rewritten, aligned, same⟩ := tail
    have spelledOut := outcome_spelled plain named spells rest tail aligned
    rw [rewritten, if_pos (show (some spelled).isSome = true from rfl)]
    cases scanned : readLetters set behavior rest (token.drop 1) with
    | mk cluster stop =>
      rw [scanned] at spelledOut
      cases stop with
      | some stop => exact spelledOut
      | none =>
        obtain ⟨noRest, taken, spelledOut⟩ := spelledOut
        have count : cluster.next.toList.length = (wantsNext set (token.drop 1)).toNat := by
          rw [← taken]
          cases cluster.next <;> rfl
        rw [spelledOut, count, same, ofLetters, outcomeOf,
          Outcome.after_silent (by simp [Group.leftover, noRest])]
        simp only [Group.next, Group.activations, count]

/-- What comes of a rewritten vector, token by token. -/
theorem outcomeRewritten_step (plain : Plain behavior) (named : Named set) (token : Text)
    (rest : List Text) :
    outcomeRewritten set behavior (token :: rest) =
      outcomeOf (outcomeRewritten set behavior) rest (scanSpelled set behavior token rest) := by
  cases short : isShort token with
  | true => exact outcome_canon_short plain named short rest
  | false =>
    rw [scanSpelled, if_neg (by simp [short])]
    cases long : isLong token with
    | true => exact outcome_canon_long plain named long rest
    | false =>
      have reads (rest : List Text) : scanToken set behavior token rest =
          .inl (.argument token) := by
        simp [scanToken, long, short, plain.argument, plain.doubledash]
      rw [outcomeRewritten, canon_alone set (show canonToken set token = ([token], false) by
        simp [canonToken, long, short]), reads]
      exact outcome_group plain (reads _)

/-- A token that fits comes to the same, rewritten or not. -/
theorem scanSpelled_of_fits (plain : Plain behavior) {token : Text} (fits : Fits set token)
    (rest : List Text) :
    scanSpelled set behavior token rest = scanToken set behavior token rest := by
  rw [scanSpelled]
  split
  · rename_i known
    rw [Bool.and_eq_true, Option.isSome_iff_ne_none] at known
    obtain ⟨short, known⟩ := known
    obtain ⟨first, letters, tokenIs, _⟩ := isShort_cases short
    have scanned : scanLetters set behavior token rest (token.length + 1) 1 =
        readLetters set behavior rest (token.drop 1) :=
      scanLetters_eq_readLetters rest (by simp [tokenIs]) (by omega) known (fits short known)
    rw [scanToken_short plain short, scanned]
  · rfl

end Ztd.Options
