import Ztd.Options.Process
import Mathlib.Data.List.Basic

/-! Option processing as a reading of the argument vector. The vector is cut
into groups by the names of the options alone; the options and their sequence
are then the activations of the groups, and the result their leftovers. -/

namespace Ztd.Options
open Ztd.Lib

/-- An option met in the arguments, and the argument taken for it. -/
abbrev Activation := Nat × Option Text

def OptionSet.activateAll (set : OptionSet) (activations : List Activation) : OptionSet :=
  activations.foldl (fun set activation => set.activate activation.1 activation.2) set

/-- What the letters of one token amount to: options, letters put aside, and
the following token if the last letter took it. -/
structure Cluster where
  activations : List Activation := []
  ropt : Text := []
  next : Option Text := none
deriving DecidableEq, Repr

/-- One or two consecutive arguments, by what processing makes of them. -/
inductive Group where
  | argument (token : Text)
  | unknownLong (token : Text)
  | long (token : Text) (popt : Nat) (argument : Option Text)
  | longNext (token : Text) (popt : Nat) (next : Text)
  | cluster (token : Text) (letters : Cluster)
deriving DecidableEq, Repr

namespace Group

/-- The following token, where the group took it as an argument. -/
def next : Group → Option Text
  | .longNext _ _ next => some next
  | .cluster _ letters => letters.next
  | _ => none

def token : Group → Text
  | .argument token | .unknownLong token | .long token _ _ | .longNext token _ _
  | .cluster token _ => token

/-- The stretch of the argument vector the group stands for. -/
def tokens (group : Group) : List Text := group.token :: group.next.toList

/-- What the group puts into the returned vector. -/
def leftover : Group → List Text
  | .argument token | .unknownLong token => [token]
  | .cluster _ letters => if letters.ropt = [] then [] else ['-' :: letters.ropt]
  | _ => []

def activations : Group → List Activation
  | .long _ popt taken => [(popt, taken)]
  | .longNext _ popt next => [(popt, some next)]
  | .cluster _ letters => letters.activations
  | _ => []

end Group

/-- How reading ended: with the vector, by an exception or a loop without an end that
leaves some options of its token activated, or early with what is returned from there on. -/
inductive Ending where
  | finished
  | halted (activations : List Activation) (stop : Stop OptionError)
  | stoppedOnArgument (rest : List Text)
  | doubledash (output : List Text)
deriving DecidableEq, Repr

def Ending.activations : Ending → List Activation
  | .halted activations _ => activations
  | _ => []

def Ending.result (out : List Text) : Ending → Except (Stop OptionError) (List Text)
  | .finished => .ok out
  | .halted _ stop => .error stop
  | .stoppedOnArgument rest => .ok rest
  | .doubledash output => .ok (out ++ output)

section Reading
variable (set : OptionSet) (behavior : ProcessArguments)

/-- What a letter takes of its own token from an index on: an `=` there is passed over.
The index wraps around as that of the loop does. -/
def attachedAt (token : Text) (i : UInt32) : Text :=
  token.drop (if token[i.toNat]? = some '=' then i + 1 else i).toNat

/-- The letters of a token from an index on, at most `fuel` of them. -/
def scanLetters (token : Text) (rest : List Text) :
    Nat → UInt32 → Cluster × Option (Stop OptionError)
  | 0, _ => ({}, some .diverged)
  | fuel + 1, i =>
    match token[i.toNat]? with
    | none => ({}, none)
    | some c =>
      match set.findChar c with
      | none =>
        if !behavior.ignoreUnknown then
          ({}, some (.thrown (optionError .unknownOption ['-', c])))
        else
          let (cluster, stop) := scanLetters token rest fuel (i + 1)
          ({ cluster with ropt := c :: cluster.ropt }, stop)
      | some popt =>
        if (set.deref popt).takesArgument then
          if (i + 1).toNat < token.length then
            ({ activations := [(popt, some (attachedAt token (i + 1)))] }, none)
          else
            match rest with
            | [] =>
              ({}, some (.thrown (optionError .missingArg ['-', (set.deref popt).charName])))
            | argument :: _ =>
              ({ activations := [(popt, some argument)], next := some argument }, none)
        else
          let (cluster, stop) := scanLetters token rest fuel (i + 1)
          ({ cluster with activations := (popt, none) :: cluster.activations }, stop)

def scanLong (token : Text) (rest : List Text) : Group ⊕ Ending :=
  match set.findString (longName token) with
  | none =>
    if !behavior.ignoreUnknown then
      .inr (.halted [] (.thrown (optionError .unknownOption (['-', '-'] ++ longName token))))
    else .inl (.unknownLong token)
  | some popt =>
    match token.findIdx? (· == '='), (set.deref popt).takesArgument with
    | none, false => .inl (.long token popt none)
    | none, true =>
      match rest with
      | [] =>
        .inr (.halted [] (.thrown (optionError .missingArg (['-', '-'] ++ (set.deref popt).strName))))
      | next :: _ => .inl (.longNext token popt next)
    | some _, false =>
      .inr (.halted [] (.thrown (optionError .takesNoArg (['-', '-'] ++ (set.deref popt).strName))))
    | some eqn, true => .inl (.long token popt (some (token.drop (eqn + 1))))

/-- A token that `ignore_numbers` keeps as an argument. -/
def isNumber (token : Text) : Bool :=
  behavior.ignoreNumbers && (token[1]?.any (fun c => '0' ≤ c && c ≤ '9'))

/-- A short token by what its letters came to. -/
@[simp] def ofLetters (token : Text) : Cluster × Option (Stop OptionError) → Group ⊕ Ending
  | (letters, none) => .inl (.cluster token letters)
  | (letters, some stop) => .inr (.halted letters.activations stop)

/-- A short token; an index of 32 bits does not come to the end of a number that is longer. -/
def scanShort (token : Text) (rest : List Text) : Group ⊕ Ending :=
  if isNumber behavior token then
    if 2 ^ 32 ≤ token.length then .inr (.halted [] .diverged)
    else if behavior.stopOnArgument then .inr (.stoppedOnArgument (token :: rest))
    else .inl (.argument token)
  else ofLetters token (scanLetters set behavior token rest (token.length + 1) 1)

def scanToken (token : Text) (rest : List Text) : Group ⊕ Ending :=
  if isLong token then scanLong set behavior token rest
  else if isShort token then scanShort set behavior token rest
  else if behavior.stopOnArgument then .inr (.stoppedOnArgument (token :: rest))
  else if behavior.stopOnDoubledash && token == ['-', '-'] then
    .inr (.doubledash (if behavior.outputDoubledash then rest else []))
  else .inl (.argument token)

/-- Cut the vector into groups, up to its end or to where processing ends. -/
def scan : List Text → List Group × Ending
  | [] => ([], .finished)
  | token :: rest =>
    match scanToken set behavior token rest with
    | .inr ending => ([], ending)
    | .inl group =>
      match rest with
      | [] => ([group], .finished)
      | next :: others =>
        if group.next.isSome then
          let (groups, ending) := scan others
          (group :: groups, ending)
        else
          let (groups, ending) := scan (next :: others)
          (group :: groups, ending)

/-- Behind a group, reading goes on after the token it took. -/
theorem scan_group {token : Text} {rest : List Text} {group : Group}
    (scanned : scanToken set behavior token rest = .inl group) :
    scan set behavior (token :: rest) =
      (group :: (scan set behavior (rest.drop group.next.toList.length)).1,
        (scan set behavior (rest.drop group.next.toList.length)).2) := by
  rw [scan, scanned]
  cases rest with
  | nil => simp [scan]
  | cons next others => cases taken : group.next <;> simp [taken]

theorem scan_ending {token : Text} {rest : List Text} {ending : Ending}
    (scanned : scanToken set behavior token rest = .inr ending) :
    scan set behavior (token :: rest) = ([], ending) := by
  rw [scan, scanned]

/-- Reading goes on from a token to what stands behind its group, or ends there. -/
@[elab_as_elim] theorem scan_induction {motive : List Text → Prop} (nil : motive [])
    (group : ∀ token rest group, scanToken set behavior token rest = .inl group →
      motive (rest.drop group.next.toList.length) → motive (token :: rest))
    (ending : ∀ token rest ending, scanToken set behavior token rest = .inr ending →
      motive (token :: rest)) (arguments : List Text) : motive arguments := by
  induction size : arguments.length using Nat.strongRecOn generalizing arguments with
  | _ count ih =>
    cases arguments with
    | nil => exact nil
    | cons token rest =>
      cases scanned : scanToken set behavior token rest with
      | inr ends => exact ending token rest ends scanned
      | inl read =>
        have shorter : (rest.drop read.next.toList.length).length < count := by
          rw [← size, List.length_drop, List.length_cons]
          omega
        exact group token rest read scanned (ih _ shorter _ rfl)

end Reading

end Ztd.Options
