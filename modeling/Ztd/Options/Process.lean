import Ztd.Options.Basic

/-! `option_set::process`, loop by loop. An iterator into the argument vector is
the part of the vector it has ahead of it; reading or moving one that has
nothing ahead is an access outside of the vector. -/

namespace Ztd.Options
open Ztd.Lib

abbrev Proc (α : Type) := Act OptionSet OptionError α

/-- `*it` -/
def readIterator : List Text → Proc Text
  | [] => Act.fault
  | token :: _ => pure token

/-- `++it` -/
def advance : List Text → Proc (List Text)
  | [] => Act.fault
  | _ :: rest => pure rest

def throwOption (type : ErrorType) (option : Text) : Proc α :=
  Act.raise (optionError type option)

def activate (popt : Nat) (argument : Option Text) : Proc PUnit :=
  modify (fun set => set.activate popt argument)

/-- The loop over a number, which only moves `i`. The index has 32 bits, the size of
a token more, so that the loop of a long token does not end. -/
def numberLoop : Nat → List Text → UInt32 → Proc UInt32
  | 0, _, _ => Act.diverged
  | fuel + 1, it, i => do
    if it = [] then return i
    let token ← readIterator it
    if token.length ≤ i.toNat then return i
    numberLoop fuel it (i + 1)

/-- The loop over the characters of a short option token, with the same index.
Returns the iterator and the letters that were ignored. -/
def letterLoop (behavior : ProcessArguments) :
    Nat → List Text → UInt32 → Text → Proc (List Text × Text)
  | 0, _, _, _ => Act.diverged
  | fuel + 1, it, i, ropt => do
    if it = [] then return (it, ropt)
    let token ← readIterator it
    if token.length ≤ i.toNat then return (it, ropt)
    let c ← Act.lift (charAt token i.toNat)
    let set ← get
    match set.findChar c with
    | none =>
      if !behavior.ignoreUnknown then throwOption .unknownOption ['-', c]
      else letterLoop behavior fuel it (i + 1) (ropt ++ [c])
    | some popt =>
      if (set.deref popt).takesArgument then
        let i := i + 1
        if token.length ≤ i.toNat then
          let it ← advance it
          if it = [] then throwOption .missingArg ['-', (set.deref popt).charName]
          else
            let argument ← readIterator it
            activate popt (some argument)
            return (it, ropt)
        else
          let next ← Act.lift (charAt token i.toNat)
          let i := if next = '=' then i + 1 else i
          activate popt (some (token.drop i.toNat))
          return (it, ropt)
      else
        activate popt none
        letterLoop behavior fuel it (i + 1) ropt

/-- How one round of the token loop goes on. -/
inductive Flow where
  | next (it : List Text) (out : List Text)
  | finish (out : List Text)

/-- A token of more than two characters that starts with `--`. -/
def isLong (token : Text) : Bool := token.length > 2 && token.take 2 == ['-', '-']

/-- A token of more than one character that starts with one `-`. -/
def isShort (token : Text) : Bool :=
  token.length > 1 && token[0]? == some '-' && token[1]? != some '-'

/-- `substr(2, eqn-2)`: the name in a long option token. -/
def longName (token : Text) : Text :=
  match token.findIdx? (· == '=') with
  | none => token.drop 2
  | some eqn => (token.drop 2).take (eqn - 2)

def processLong (behavior : ProcessArguments) (it out : List Text) : Proc Flow := do
  let token ← readIterator it
  let set ← get
  match token.findIdx? (· == '=') with
  | none =>
    match set.findString (longName token) with
    | none =>
      if !behavior.ignoreUnknown then throwOption .unknownOption (['-', '-'] ++ longName token)
      else return .next it (out ++ [token])
    | some popt =>
      if (set.deref popt).takesArgument then
        let it ← advance it
        if it = [] then throwOption .missingArg (['-', '-'] ++ (set.deref popt).strName)
        else
          let argument ← readIterator it
          activate popt (some argument)
          return .next it out
      else
        activate popt none
        return .next it out
  | some eqn =>
    match set.findString (longName token) with
    | none =>
      if !behavior.ignoreUnknown then throwOption .unknownOption (['-', '-'] ++ longName token)
      else return .next it (out ++ [token])
    | some popt =>
      if !(set.deref popt).takesArgument then
        throwOption .takesNoArg (['-', '-'] ++ (set.deref popt).strName)
      else
        activate popt (some (token.drop (eqn + 1)))
        return .next it out

def processShort (behavior : ProcessArguments) (it out : List Text) : Proc Flow := do
  let token ← readIterator it
  let first ← Act.lift (charAt token 1)
  if behavior.ignoreNumbers && '0' ≤ first && first ≤ '9' then
    let _ ← numberLoop (token.length + 1) it 1
    if behavior.stopOnArgument then return .finish it
    return .next it (out ++ [token])
  else
    let (it, ropt) ← letterLoop behavior (token.length + 1) it 1 []
    return .next it (if ropt = [] then out else out ++ ['-' :: ropt])

def processArgument (behavior : ProcessArguments) (it out : List Text) : Proc Flow := do
  if behavior.stopOnArgument then return .finish it
  let token ← readIterator it
  if behavior.stopOnDoubledash && token == ['-', '-'] then
    if behavior.outputDoubledash then
      let it ← advance it
      return .finish (out ++ it)
    return .finish out
  return .next it (out ++ [token])

def processToken (behavior : ProcessArguments) (it out : List Text) : Proc Flow := do
  let token ← readIterator it
  if isLong token then processLong behavior it out
  else if isShort token then processShort behavior it out
  else processArgument behavior it out

def processLoop (behavior : ProcessArguments) : Nat → List Text → List Text → Proc (List Text)
  | 0, _, _ => Act.diverged
  | fuel + 1, it, out => do
    if it = [] then return out
    match ← processToken behavior it out with
    | .finish ret => return ret
    | .next it out =>
      if it = [] then return out
      let it ← advance it
      processLoop behavior fuel it out

/-- `process(arguments, behavior)`: the returned vector or what ended it, and
the set with its options and its sequence afterwards. -/
def process (set : OptionSet) (arguments : List Text) (behavior : ProcessArguments) :
    Except (Stop OptionError) (List Text) × OptionSet :=
  (processLoop behavior (arguments.length + 1) arguments []).exec { set with optionSequence := [] }

end Ztd.Options
