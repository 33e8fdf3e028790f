import Ztd.Filedat.Scanner

/-! `filedat::removeComments`, whose index is a `uint32_t`. -/

namespace Ztd.Filedat
open Ztd.Lib

def commentQuoteLoop (mark : Char) (str : Text) : Nat → UInt32 → Run FormatError UInt32
  | 0, _ => Run.diverged
  | fuel + 1, i =>
    if i.toNat < str.length then do
      let c ← charAt str i.toNat
      if c == mark then pure i
      else
        let escaped ← if (i + 1).toNat < str.length && c == '\\'
          then (do let d ← charAt str (i + 1).toNat; pure (d == mark)) else pure false
        let i := if escaped then i + 1 else i
        commentQuoteLoop mark str fuel (i + 1)
    else pure i

/-- Every value the index can have, and one more. -/
def indexFuel : Nat := 2 ^ 32 + 1

def commentQuote (quote : QuoteKind) (str : Text) (i : UInt32) : Run FormatError UInt32 := do
  let j := i
  let i ← commentQuoteLoop quote.mark str indexFuel (i + 1)
  if i.toNat ≥ str.length then Run.raise (formatError quote.open_ [] str j.toNat)
  else pure (i + 1)

/-- `str.find('\n', pos)`, with `npos` where there is none. -/
def findNewline (str : Text) (pos : Nat) : Nat :=
  match (str.drop pos).findIdx? (· == '\n') with
  | some count => pos + count
  | none => 2 ^ 64 - 1

/-- `str.erase(pos, count)` -/
def erase (str : Text) (pos count : Nat) : Text := str.take pos ++ str.drop (pos + count)

def commentLoop : Nat → Text → UInt32 → Run FormatError Text
  | 0, _, _ => Run.diverged
  | fuel + 1, str, i =>
    if i.toNat < str.length then do
      let c ← charAt str i.toNat
      if c == '\\' then commentLoop fuel str (i + 1 + 1)
      else if c == '"' then do
        let i ← commentQuote doubleQuote str i
        commentLoop fuel str (i + 1)
      else if c == '\'' then do
        let i ← commentQuote singleQuote str i
        commentLoop fuel str (i + 1)
      else if c == '#' ||
          ((i + 1).toNat < str.length && (str.drop i.toNat).take 2 == ['/', '/']) then
        let j := i
        let i := UInt32.ofNat (findNewline str i.toNat)
        commentLoop fuel (erase str j.toNat (i - j).toNat) (j + 1)
      else commentLoop fuel str (i + 1)
    else pure str

/-- The fuel lets the index take every value once for every length the text can
shrink to, so that a loop that ends does so within it. -/
def removeComments (str : Text) : Run FormatError Text :=
  commentLoop (2 ^ (33 + str.length)) str 0

end Ztd.Filedat
