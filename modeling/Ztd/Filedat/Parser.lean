import Ztd.Filedat.Comments

/-! `_getkeyval`, `chunkdat::set` on a string, and the imports of `filedat`. -/

namespace Ztd.Filedat
open Ztd.Lib

/-- `str.find(c)` as an `int`; the character is an `int` cut down to a `char`. -/
def findChar (str : Text) (c : Int) : Int :=
  match str.findIdx? (fun d => (d.toNat : Int) == c % 256) with
  | some index => toInt index
  | none => -1

/-- The six results of `_getkeyval`. -/
structure KeyVal where
  key : Text
  value : Text
  rest : Text
  restStart : Int
  valueStart : Int
  keyStart : Int
deriving DecidableEq, Repr

section Parsing
variable (blanks : BlankRun)

/-- `_getkeyval`; its handlers build an exception, drop it and rethrow the one
they caught. -/
def getkeyval (input : Text) : Run FormatError KeyVal := do
  let tup ← getstrval blanks input '=' nul
  let key := tup.value
  let rstr := tup.rest
  let dpos := tup.restStart
  let keystart := tup.valueStart
  if key.length > 0 && (← charAt key 0) == ';' then do
    let key ← eraseBegin key
    pure { key := []
           value := []
           rest := key ++ rstr
           restStart := keystart + 1
           valueStart := -1
           keyStart := -1 }
  else if key == [] && (← skip rstr).1 != [] then
    Run.raise (formatError (message "Value has no Key") [] input (findChar input dpos))
  else if key != [] && !tup.delimFound then
    Run.raise (formatError (message "Key '" ++ key ++ message "' has no value") [] input
      (keystart + key.length))
  else do
    let tup ← getstrval blanks rstr ';' '\n'
    let rpos := tup.restStart
    let rr := if rpos ≥ 0 then dpos + rpos else toInt input.length
    pure { key := key
           value := tup.value
           rest := tup.rest
           restStart := rr
           valueStart := tup.valueStart
           keyStart := keystart }

/-- The constructor `chunkdat(value, offset, parent)`: a chunk or an exception. -/
abbrev Construct := Text → Int → Run FormatError Chunkdat

/-- One round of the map loop: the values, the rest and where it starts. -/
def mapEntry (construct : Construct) (input : Text) (offset : Int) (str : Text) (i : Int)
    (values : List (Text × Chunkdat)) :
    Run FormatError (List (Text × Chunkdat) × Text × Int) := do
  let p ← skip str
  let first ← charAt p.1 0
  if first == '=' then
    Run.raise (formatError (message "Value has no key") [] input (i + p.2))
  else do
    let tup ← (getkeyval blanks str).catchError fun e =>
      Run.raise (formatError e.what e.origin input (i + e.index))
    let valstart := i + tup.valueStart
    let keystart := i + tup.keyStart
    let i := i + tup.restStart
    if tup.key != [] then do
      let values ← Run.catchError (do
          let chk ← construct tup.value (offset + valstart)
          match OrderedMap.find? tup.key values with
          | none => pure (OrderedMap.insert tup.key chk values)
          | some _ =>
            Run.raise (formatError (message "Key '" ++ tup.key ++ message "' already present")
              [] input keystart))
        fun e => Run.raise (formatError e.what [] input (e.index + valstart))
      pure (values, tup.rest, i)
    else pure (values, tup.rest, i)

/-- The values a map has when its loop ends, and what ended it early. -/
def mapLoop (construct : Construct) (input : Text) (offset : Int) :
    Nat → Text → Int → List (Text × Chunkdat) → List (Text × Chunkdat) × Option (Stop FormatError)
  | 0, _, _, values => (values, some .diverged)
  | fuel + 1, str, i, values =>
    match mapEntry blanks construct input offset str i values with
    | .error stop => (values, some stop)
    | .ok (values, str, i) =>
      if str != [] then mapLoop construct input offset fuel str i values else (values, none)

/-- One round of the list loop: the new element, the rest and where it starts. -/
def listElement (construct : Construct) (input : Text) (offset : Int) (str : Text) (i : Int) :
    Run FormatError (Chunkdat × Text × Int) := do
  let tup ← (getstrval blanks str ',' ';').catchError fun e =>
    Run.raise (formatError e.what e.origin input (e.index + i))
  let valstart := i + tup.valueStart
  let i := i + tup.restStart
  let chk ← (construct tup.value (offset + valstart)).catchError fun e =>
    Run.raise (formatError e.what e.origin input (e.index + valstart))
  pure (chk, tup.rest, i)

def listLoop (construct : Construct) (input : Text) (offset : Int) :
    Nat → Text → Int → List Chunkdat → List Chunkdat × Option (Stop FormatError)
  | 0, _, _, elements => (elements, some .diverged)
  | fuel + 1, str, i, elements =>
    match listElement blanks construct input offset str i with
    | .error stop => (elements, some stop)
    | .ok (element, str, i) =>
      if str != [] then listLoop construct input offset fuel str i (elements ++ [element])
      else (elements ++ [element], none)

/-- The text between the brackets of an isolated map or list, and its start. -/
def insideBrackets (input : Text) (tup : StrVal) : Run FormatError (Text × Int) := do
  let p ← skip tup.rest
  if p.1 != [] then
    Run.raise (formatError (message "Unexpected char") [] input (tup.restStart + p.2))
  else do
    let str ← eraseBegin tup.value
    let str ← popBack str
    pure (str, tup.valueStart + 1)

/-- The chunk a call leaves behind, and what ended the call early. -/
abbrev Setting := Chunkdat × Option (Stop FormatError)

/-- The constructor keeps the chunk only if `set` returns. -/
def Setting.construct : Setting → Run FormatError Chunkdat
  | (chunk, none) => .ok chunk
  | (_, some stop) => .error stop

def setMap (construct : Construct) (input : Text) (offset : Int) (tup : StrVal) : Setting :=
  match insideBrackets input tup with
  | .error stop => (.none offset, some stop)
  | .ok (str, i) =>
    match skip str with
    | .error stop => (.map offset [], some stop)
    | .ok p =>
      if p.1 == [] then (.map offset [], none)
      else
        let (values, stop) := mapLoop blanks construct input offset (str.length + 1) str i []
        (.map offset values, stop)

def setList (construct : Construct) (input : Text) (offset : Int) (tup : StrVal) : Setting :=
  match insideBrackets input tup with
  | .error stop => (.none offset, some stop)
  | .ok (str, i) =>
    match skip str with
    | .error stop => (.list offset [], some stop)
    | .ok p =>
      if p.1 == [] then (.list offset [], none)
      else
        let (elements, stop) := listLoop blanks construct input offset (str.length + 1) str i []
        (.list offset elements, stop)

/-- `chunkdat::set`, which constructs the chunks below; the fuel bounds its depth. -/
def setFuel : Nat → Text → Int → Setting
  | 0, _, offset => (.none offset, some .diverged)
  | fuel + 1, input, offset =>
    let construct : Construct := fun value offset => (setFuel fuel value offset).construct
    match getstrval blanks input nul nul with
    | .error stop => (.none offset, some stop)
    | .ok tup =>
      match tup.value with
      | [] => (.string offset [], none)
      | '{' :: _ => setMap blanks construct input offset tup
      | '[' :: _ => setList blanks construct input offset tup
      | _ => (.string offset input, none)

def set (input : Text) (offset : Int) : Setting := setFuel blanks (input.length + 1) input offset

end Parsing

end Ztd.Filedat

namespace Ztd
open Ztd.Lib Ztd.Filedat

/-- A `filedat`; its chunk may have been deleted without a new one. -/
structure Filedat where
  data : Text := []
  filePath : Text := []
  dataChunk : Option Chunkdat := some (.none 0)
deriving Repr

namespace Filedat

def clear (file : Filedat) : Filedat :=
  { file with data := [], dataChunk := file.dataChunk.map (fun _ => .none 0) }

/-- What the handler of `generateChunk` leaves behind and throws. -/
def failed (file : Filedat) : Stop FormatError → Filedat × Option (Stop FormatError)
  | .thrown e =>
    ({ file with dataChunk := none },
      some (.thrown (formatError e.what file.filePath file.data e.index)))
  | stop => (file, some stop)

/-- `filedat::generateChunk`, and the exception it ends in. -/
def generateChunk (blanks : BlankRun) (file : Filedat) : Filedat × Option (Stop FormatError) :=
  match removeComments file.data with
  | .error stop => file.failed stop
  | .ok data =>
    match (set blanks data 0).construct with
    | .error stop => { file with data := data }.failed stop
    | .ok chunk => ({ file with data := data, dataChunk := some chunk }, none)

def importString (blanks : BlankRun) (data : Text) (file : Filedat) :
    Filedat × Option (Stop FormatError) :=
  generateChunk blanks { file.clear with data := data, filePath := [] }

end Filedat

end Ztd
