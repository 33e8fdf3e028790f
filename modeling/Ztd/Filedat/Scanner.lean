import Ztd.Filedat.Chunk

/-! The character loops of the parser: `_skip` and `_getstrval`. Every index
into the text is checked, and every loop has fuel for one pass over it. -/

namespace Ztd.Filedat
open Ztd.Lib

def isRead (c : Char) : Bool := 33 ≤ c.toNat && c.toNat ≤ 126

def message (text : String) : Text := text.toList

/-- `erase(begin())`, only defined on a string that is not empty. -/
def eraseBegin {ε : Type} : Text → Run ε Text
  | [] => Run.fault
  | _ :: rest => .ok rest

/-- `pop_back()`, only defined on a string that is not empty. -/
def popBack {ε : Type} : Text → Run ε Text
  | [] => Run.fault
  | c :: rest => .ok ((c :: rest).dropLast)

def skipLoop (str : Text) : Nat → Nat → Run FormatError Nat
  | 0, _ => Run.diverged
  | fuel + 1, i =>
    if i < str.length then do
      let c ← charAt str i
      if isRead c then pure i else skipLoop str fuel (i + 1)
    else pure i

/-- `_skip`: the text from its first readable character on, and where that is. -/
def skip (str : Text) : Run FormatError (Text × Nat) := do
  let i ← skipLoop str (str.length + 1) 0
  if i < str.length then pure (str.drop i, i) else pure ([], str.length)

/-- The two kinds of quotes. -/
structure QuoteKind where
  mark : Char
  /-- The message of the loops that also know the value outside of brackets. -/
  open_ : Text
  /-- The message of the loops inside of brackets. -/
  openInside : Text

def doubleQuote : QuoteKind where
  mark := '"'
  open_ := message "Double quote doesn't close"
  openInside := message "Double quote does not close"

def singleQuote : QuoteKind where
  mark := '\''
  open_ := message "Single quote doesn't close"
  openInside := message "Single quote does not close"

@[simp] theorem doubleQuote_mark : doubleQuote.mark = '"' := rfl

@[simp] theorem singleQuote_mark : singleQuote.mark = '\'' := rfl

/-- Up to the closing quote, or to the end. The backslash in front of a quote is
taken over into the value only inside of brackets. -/
def quoteLoop (mark : Char) (keep : Bool) (str : Text) :
    Nat → Nat → Text → Run FormatError (Nat × Text)
  | 0, _, _ => Run.diverged
  | fuel + 1, i, val =>
    if i < str.length then do
      let c ← charAt str i
      if c == mark then pure (i, val)
      else
        let escaped ← if i + 1 < str.length && c == '\\'
          then (do let d ← charAt str (i + 1); pure (d == mark)) else pure false
        let val := if escaped && keep then val ++ [c] else val
        let i := if escaped then i + 1 else i
        let c ← charAt str i
        quoteLoop mark keep str fuel (i + 1) (val ++ [c])
    else pure (i, val)

/-- A quote outside of brackets adds what it quotes; `i` ends up behind it. -/
def valueQuote (quote : QuoteKind) (str : Text) (i : Nat) (val : Text) :
    Run FormatError (Nat × Text) := do
  let j := i
  let (i, val) ← quoteLoop quote.mark false str (str.length + 1) (i + 1) val
  if i ≥ str.length then Run.raise (formatError quote.open_ [] str j)
  else pure (i + 1, val)

/-- A quote inside of brackets is copied; `i` ends up on the closing quote. -/
def groupQuote (quote : QuoteKind) (str : Text) (i : Nat) (val : Text) :
    Run FormatError (Nat × Text) := do
  let k := i
  let c ← charAt str i
  let (i, val) ← quoteLoop quote.mark true str (str.length + 1) (i + 1) (val ++ [c])
  if i ≥ str.length then Run.raise (formatError quote.openInside [] str k)
  else pure (i, val)

/-- The two kinds of brackets, with the ones that count down and up. -/
structure GroupKind where
  opening : Char
  closing : Char
  down : Char
  up : Char

def brace : GroupKind := { opening := '{', closing := '}', down := '}', up := '{' }

def bracket : GroupKind := { opening := '[', closing := ']', down := '[', up := ']' }

/-- Up to the bracket that closes the group, or to the end. -/
def groupLoop (group : GroupKind) (str : Text) :
    Nat → Nat → UInt32 → Text → Run FormatError (Nat × Text)
  | 0, _, _, _ => Run.diverged
  | fuel + 1, i, counter, val =>
    if i < str.length then do
      let c ← charAt str i
      if counter == 0 && c == group.closing then pure (i, val)
      else
        let (counter, i, val) ←
          if c == group.down then pure (counter - 1, i, val)
          else if c == group.up then pure (counter + 1, i, val)
          else if c == '"' then do
            let (i, val) ← groupQuote doubleQuote str i val
            pure (counter, i, val)
          else if c == '\'' then do
            let (i, val) ← groupQuote singleQuote str i val
            pure (counter, i, val)
          else pure (counter, i, val)
        let c ← charAt str i
        groupLoop group str fuel (i + 1) counter (val ++ [c])
    else pure (i, val)

/-- A group is copied with its brackets; `i` ends up behind it. -/
def copyGroup (group : GroupKind) (str : Text) (i : Nat) (val : Text) :
    Run FormatError (Nat × Text) := do
  let j := i
  let c ← charAt str i
  let (i, val) ← groupLoop group str (str.length + 1) (i + 1) 0 (val ++ [c])
  if i ≥ str.length then Run.raise (formatError (message "Brace does not close") [] str j)
  else do
    let c ← charAt str i
    pure (i + 1, val ++ [c])

/-- How the loop over blanks in front of a delimiter reads: `unchecked` is the
code, which does not compare the index with the size; `checked` stops at the
end of the string. -/
inductive BlankRun where
  | unchecked | checked
deriving DecidableEq, Repr

/-- `c == delim || c == altdelim` -/
def isDelim (delim altdelim c : Char) : Bool := c == delim || c == altdelim

/-- A blank that is not a delimiter. -/
def isGap (delim altdelim c : Char) : Bool := !isRead c && !isDelim delim altdelim c

/-- Blanks up to something readable or a delimiter. -/
def blankLoop (blanks : BlankRun) (delim altdelim : Char) (str : Text) :
    Nat → Nat → Text → Run FormatError (Nat × Text)
  | 0, _, _ => Run.diverged
  | fuel + 1, i, tval =>
    if blanks = .checked ∧ str.length ≤ i then pure (i, tval)
    else do
      let c ← charAt str i
      if isGap delim altdelim c then blankLoop blanks delim altdelim str fuel (i + 1) (tval ++ [c])
      else pure (i, tval)

/-- What one round of `_getstrval` does: go on, or leave the loop. -/
inductive Step where
  | next (i : Nat) (val : Text)
  | leave (i : Nat) (val : Text)

/-- A round on something that is not readable. -/
def blankStep (blanks : BlankRun) (delim altdelim : Char) (str : Text) (i : Nat) (val : Text) :
    Run FormatError Step :=
  if delim == nul then pure (.leave i val)
  else do
    let (i, tval) ← blankLoop blanks delim altdelim str (str.length + 2) i []
    let c ← charAt str i
    if isDelim delim altdelim c then pure (.leave (i + 1) val)
    else pure (.next i (val ++ tval))

/-- The part of a round behind a quote. -/
def behindStep (blanks : BlankRun) (delim altdelim : Char) (str : Text) (i : Nat) (val : Text) :
    Run FormatError Step := do
  let c ← charAt str i
  if c == '{' then do
    let (i, val) ← copyGroup brace str i val
    pure (.next i val)
  else if c == '[' then do
    let (i, val) ← copyGroup bracket str i val
    pure (.next i val)
  else if !isRead c then blankStep blanks delim altdelim str i val
  else if isDelim delim altdelim c then pure (.leave (i + 1) val)
  else pure (.next (i + 1) (val ++ [c]))

def scanStep (blanks : BlankRun) (delim altdelim : Char) (str : Text) (i : Nat) (val : Text) :
    Run FormatError Step := do
  let c ← charAt str i
  if c == '"' then do
    let (i, val) ← valueQuote doubleQuote str i val
    behindStep blanks delim altdelim str i val
  else if c == '\'' then do
    let (i, val) ← valueQuote singleQuote str i val
    behindStep blanks delim altdelim str i val
  else behindStep blanks delim altdelim str i val

def scanLoop (blanks : BlankRun) (delim altdelim : Char) (str : Text) :
    Nat → Nat → Text → Run FormatError (Nat × Text)
  | 0, _, _ => Run.diverged
  | fuel + 1, i, val =>
    if i < str.length then do
      match ← scanStep blanks delim altdelim str i val with
      | .next i val => scanLoop blanks delim altdelim str fuel i val
      | .leave i val => pure (i, val)
    else pure (i, val)

/-- Take what is not readable off the end. -/
def trimLoop : Nat → Text → Run FormatError Text
  | 0, _ => Run.diverged
  | fuel + 1, val =>
    if val.length > 0 then do
      let c ← charAt val (val.length - 1)
      if !isRead c then do
        let val ← popBack val
        trimLoop fuel val
      else pure val
    else pure val

/-- The five results of `_getstrval`. -/
structure StrVal where
  value : Text
  rest : Text
  restStart : Int
  valueStart : Int
  delimFound : Bool
deriving DecidableEq, Repr

def getstrval (blanks : BlankRun) (str : Text) (delim altdelim : Char) :
    Run FormatError StrVal := do
  let (_, i) ← skip str
  let st := i
  if i ≥ str.length then
    pure { value := [], rest := [], restStart := 0, valueStart := 0, delimFound := false }
  else
    let (i, val) ← scanLoop blanks delim altdelim str (str.length + 1) i []
    if i < str.length then
      pure { value := val
             rest := str.drop i
             restStart := toInt i
             valueStart := toInt st
             delimFound := true }
    else
      let val ← trimLoop (val.length + 1) val
      pure { value := val
             rest := []
             restStart := toInt str.length
             valueStart := toInt st
             delimFound := false }

end Ztd.Filedat
