import Ztd.Lib.Text

/-! Options, option sets and the behavior flags of option processing. -/

namespace Ztd.Options
open Ztd.Lib

/-- `process_arguments`, with its defaults. -/
structure ProcessArguments where
  ignoreNumbers : Bool := false
  stopOnArgument : Bool := false
  ignoreUnknown : Bool := false
  stopOnDoubledash : Bool := true
  outputDoubledash : Bool := false
deriving DecidableEq, Repr

inductive ErrorType where
  | unknownOption | takesNoArg | missingArg
deriving DecidableEq, Repr

structure OptionError where
  errtype : ErrorType
  opt : Text
  msg : Text
deriving DecidableEq, Repr

def optionError (type : ErrorType) (option : Text) : OptionError where
  errtype := type
  opt := option
  msg := match type with
    | .unknownOption => "Unknown option: ".toList ++ option
    | .takesNoArg => "Option ".toList ++ option ++ " doesn't take an argument".toList
    | .missingArg => "Option ".toList ++ option ++ " needs an argument".toList

/-- `option`, without its help texts. The defaults are those of `option()`. -/
structure Opt where
  shortDef : Bool := false
  charName : Char := nul
  longDef : Bool := false
  strName : Text := []
  takesArgument : Bool := false
  activated : Bool := false
  argument : Text := []
deriving DecidableEq, Repr, Inhabited

structure OptionSet where
  optionVec : List Opt
  optionSequence : List Opt := []
deriving DecidableEq, Repr

def Opt.hasChar (opt : Opt) (c : Char) : Bool := opt.shortDef && opt.charName == c

def Opt.hasString (opt : Opt) (str : Text) : Bool := opt.longDef && opt.strName == str

/-- Mark an option as met, with the argument taken for it if there is one. -/
def Opt.activate (argument : Option Text) (opt : Opt) : Opt :=
  { opt with activated := true, argument := argument.getD opt.argument }

namespace OptionSet

/-- `find(const char)`; a pointer into the vector is an index of it. -/
def findChar (set : OptionSet) (c : Char) : Option Nat :=
  set.optionVec.findIdx? (fun it => it.hasChar c)

/-- `find(const std::string&)` -/
def findString (set : OptionSet) (str : Text) : Option Nat :=
  set.optionVec.findIdx? (fun it => it.hasString str)

/-- `*popt` -/
def deref (set : OptionSet) (popt : Nat) : Opt := set.optionVec.getD popt {}

/-- Activate `*popt` and push a copy of it to the sequence. -/
def activate (set : OptionSet) (popt : Nat) (argument : Option Text) : OptionSet where
  optionVec := set.optionVec.modify popt (Opt.activate argument)
  optionSequence := set.optionSequence ++ [(set.deref popt).activate argument]

end OptionSet

end Ztd.Options
