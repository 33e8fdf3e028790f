import Ztd.Filedat.Culprit
import Ztd.Filedat.Alike
import Ztd.Lib.Places

/-! Where every value of a text stands in the data, and where an opening mark stands
that nothing closes. The text is parsed with the places its characters have in the
data, so that nothing has to be counted. -/

namespace Ztd.Filedat
open Ztd.Lib

/-- Where the text of a value starts. It is straight if what is counted to get
there misses no character of the data. -/
structure Spot where
  place : Nat
  straight : Bool
deriving DecidableEq, Repr

/-- Why a text is rejected: for an unclosed mark, with its place, or otherwise. -/
inductive Trouble where
  | unclosed (mark : Spot)
  | other
deriving DecidableEq, Repr

/-- Chunks with the spots of their texts; a value may have no text. -/
abbrev Located := Chunk (Option Spot)

/-- The spot at a place of a text: from the start of the value it is in up to the
place no character of the data is missing in the text. -/
def Spot.ahead (start : Spot) (whole : Placed) (place : Nat) : Spot :=
  ⟨place, start.straight && decide (Fills start.place place whole.places)⟩

/-- A spot that is counted to without the key in front of it. -/
def Spot.missed (place : Nat) : Spot := ⟨place, false⟩

namespace Placed

/-- The spot of the value a text begins with, if there is text up to a delimiter. -/
def spot (delim altdelim : Char) (at_ : Nat → Spot) (placed : Placed) : Option Spot :=
  match placed.dropUnread with
  | [] => none
  | (c, place) :: _ => if isDelim delim altdelim c then none else some (at_ place)

/-- The place at which an end of the text begins. -/
def start (placed : Placed) (rest : Text) : Nat := ((behind placed rest).head?.map Prod.snd).getD 0

def blame (at_ : Nat → Spot) (placed : Placed) (unclosed : Unclosed) : Trouble :=
  .unclosed (at_ (placed.start unclosed.text))

end Placed

section Locating
variable (blanks : BlankRun)

/-- How the chunk of a value is made of its spot and its text. -/
abbrev Locate := Option Spot → Placed → Run Trouble Located

/-- A round of the list loop. -/
def locateElement (construct : Locate) (start : Spot) (whole rest : Placed) :
    Run Trouble (Located × Placed) := do
  let at_ := start.ahead whole
  let found ← (rest.read blanks ',' ';').mapError (rest.blame at_)
  let chunk ← construct (rest.spot ',' ';' at_) found.1
  pure (chunk, found.2)

def locateElements (construct : Locate) (start : Spot) (whole : Placed) :
    Nat → Placed → List Located → Run Trouble (List Located)
  | 0, _, _ => Run.diverged
  | fuel + 1, rest, elements => do
    let found ← locateElement blanks construct start whole rest
    let elements := elements ++ [found.1]
    if found.2 = [] then pure elements
    else locateElements construct start whole fuel found.2 elements

/-- A key, its value with its spot, the text that has been counted and the rest. -/
structure LocatedPair where
  key : Text
  value : Placed
  spot : Option Spot
  front : Placed
  rest : Placed

/-- A pair behind the text that has been counted. A key that begins with a semicolon
is put in front of the rest, without its equal sign. -/
def locatePair (start : Spot) (front rest : Placed) : Run Trouble LocatedPair := do
  let found ← (rest.read blanks '=' nul).mapError (rest.blame (start.ahead (front ++ rest)))
  let key := found.1
  let rstr := found.2
  if key.text.head? = some ';' then
    pure ⟨[], [], none, front ++ rest.blank ++ key.take 1, key.drop 1 ++ rstr⟩
  else if key = [] ∧ rstr.dropUnread ≠ [] then Run.raise .other
  else if key ≠ [] ∧ rstr = [] then Run.raise .other
  else do
    let found ← (rstr.read blanks ';' '\n').mapError (rstr.blame Spot.missed)
    pure ⟨key.text, found.1, rstr.spot ';' '\n' Spot.missed,
      front ++ rest.take (rest.length - found.2.length), found.2⟩

/-- A round of the map loop. -/
def locateEntry (construct : Locate) (start : Spot) (front rest : Placed)
    (values : List (Text × Located)) :
    Run Trouble (List (Text × Located) × Placed × Placed) :=
  if rest.dropUnread.text.head? = some '=' then Run.raise .other
  else do
    let pair ← locatePair blanks start front rest
    if pair.key = [] then pure (values, pair.front, pair.rest)
    else do
      let values ← (do
        let chunk ← construct pair.spot pair.value
        match OrderedMap.find? pair.key values with
        | none => pure (OrderedMap.insert pair.key chunk values)
        | some _ => Run.raise .other : Run Trouble (List (Text × Located)))
      pure (values, pair.front, pair.rest)

def locateEntries (construct : Locate) (start : Spot) :
    Nat → Placed → Placed → List (Text × Located) → Run Trouble (List (Text × Located))
  | 0, _, _, _ => Run.diverged
  | fuel + 1, front, rest, values => do
    let found ← locateEntry blanks construct start front rest values
    if found.2.2 = [] then pure found.1
    else locateEntries construct start fuel found.2.1 found.2.2 found.1

/-- The chunk of what is between brackets, behind the text that has been counted. -/
def locateInside (construct : Locate) (start : Spot) (opening : Char)
    (front inside : Placed) : Run Trouble Located :=
  if opening = '{' then
    if inside.dropUnread = [] then .ok (.map (some start) [])
    else (locateEntries blanks construct start (inside.length + 1) front inside []).map
      (.map (some start))
  else
    if inside.dropUnread = [] then .ok (.list (some start) [])
    else (locateElements blanks construct start (front ++ inside) (inside.length + 1) inside []).map
      (.list (some start))

/-- The chunk of a text with its spots; a value without text is an empty string. -/
def locate : Nat → Locate
  | 0, _, _ => Run.diverged
  | _ + 1, none, _ => pure (.string none [])
  | fuel + 1, some start, placed => do
    let found ← (placed.read blanks nul nul).mapError (placed.blame (start.ahead placed))
    match found.1 with
    | [] => pure (.string (some start) [])
    | mark :: inner =>
      if mark.1 = '{' ∨ mark.1 = '[' then
        if found.2.dropUnread ≠ [] then Run.raise .other
        else if inner = [] then Run.fault
        else locateInside blanks (locate fuel) start mark.1 (placed.blank ++ [mark]) inner.dropLast
      else pure (.string (some start) placed.text)

/-- The chunk of a document, whose text is all of the data. -/
def locateData (data : Text) : Run Trouble Located :=
  locate blanks (data.length + 1) (some ⟨0, true⟩) (.ofData data)

end Locating

end Ztd.Filedat
