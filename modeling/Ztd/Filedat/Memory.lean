import Ztd.Lib.Heap
import Ztd.Filedat.Assign
import Ztd.Filedat.History

/-! `chunkdat` over pointers: what each function allocates, reads, writes and
deletes. A `chunkdat` is known by its address; the functions that descend into
sub-chunks take the fuel to do so from the size of the memory. -/

namespace Ztd.Filedat
open Ztd.Lib

/-- An object: a `chunkdat` by `m_offset` and `m_achunk`, or one of the classes
derived from `chunk_abstract`. -/
inductive Cell where
  | chunkdat (offset : Int) (achunk : Option Nat)
  | string (val : Text)
  | map (values : List (Text × Nat))
  | list (list : List Nat)
deriving DecidableEq, Repr

/-- Code over a memory of such objects. -/
abbrev Code (α : Type) := Act (Heap Cell) FormatError α

namespace Memory

/-- `m_offset` and `m_achunk` -/
def members (this : Nat) : Code (Int × Option Nat) := do
  match ← Heap.load this with
  | .chunkdat offset achunk => pure (offset, achunk)
  | _ => Act.fault

/-- `m_achunk` with what it points to, if it is not null. -/
def held (this : Nat) : Code (Option (Nat × Cell)) := do
  match ← members this with
  | (_, some achunk) => do
    let cell ← Heap.load achunk
    pure (some (achunk, cell))
  | (_, none) => pure none

/-- `m_achunk = achunk` -/
def setHeld (this achunk : Nat) : Code Unit := do
  let (offset, _) ← members this
  Heap.store this (.chunkdat offset (some achunk))

/-- `values.insert(std::make_pair(name, chk)).second` -/
def insertKey (map : Nat) (name : Text) (chk : Nat) : Code Bool := do
  match ← Heap.load map with
  | .map values =>
    match OrderedMap.find? name values with
    | some _ => pure false
    | none => do
      Heap.store map (.map (OrderedMap.insert name chk values))
      pure true
  | _ => Act.fault

/-- `list.push_back(chk)` -/
def pushBack (list chk : Nat) : Code Unit := do
  match ← Heap.load list with
  | .list elements => Heap.store list (.list (elements ++ [chk]))
  | _ => Act.fault

/-- What the destructors of the classes derived from `chunk_abstract` delete. -/
def owned : Cell → List Nat
  | .map values => values.map Prod.snd
  | .list list => list
  | _ => []

/-- `if(m_achunk!=nullptr) delete m_achunk` -/
def deleteHeld (delete : Nat → Code Unit) : Option Nat → Code Unit
  | some achunk => do
    let cell ← Heap.load achunk
    (owned cell).forM delete
    Heap.free achunk
  | none => pure ()

/-- `clear()`, by how chunks are deleted. -/
def clearWith (delete : Nat → Code Unit) (this : Nat) : Code Unit := do
  let (offset, achunk) ← members this
  deleteHeld delete achunk
  Heap.store this (.chunkdat offset none)

def deleteFuel : Nat → Nat → Code Unit
  | 0, _ => Act.diverged
  | fuel + 1, this => do
    clearWith (deleteFuel fuel) this
    Heap.free this

/-- `delete` of a `chunkdat*`: its destructor clears it. -/
def delete (this : Nat) : Code Unit := Heap.sized fun fuel => deleteFuel fuel this

def clear (this : Nat) : Code Unit := clearWith delete this

section Printing

def type (this : Nat) : Code ChunkType := do
  match ← held this with
  | some (_, .map _) => pure .map
  | some (_, .list _) => pure .list
  | some (_, .string _) => pure .string
  | _ => pure .none

/-- One printed sub-chunk. -/
def itemWith (strval : Nat → Code Text) (this : Nat) : Code Text := do
  let printed ← strval this
  if (← type this) = .string then pure ('"' :: escape '"' printed ++ ['"']) else pure printed

def strvalValues (strval : Nat → Code Text) (indent : Text) : List (Text × Nat) → Code Text
  | [] => pure []
  | (key, value) :: rest => do
    let printed ← itemWith strval value
    let later ← strvalValues strval indent rest
    pure (indent ++ key ++ [' ', '=', ' '] ++ printed ++ ['\n'] ++ later)

def strvalElements (strval : Nat → Code Text) (indent : Text) : List Nat → Code Text
  | [] => pure []
  | element :: rest => do
    let printed ← itemWith strval element
    let later ← strvalElements strval indent rest
    pure (indent ++ printed ++ [',', '\n'] ++ later)

def strvalFuel (aligner : Text) : Nat → UInt32 → Nat → Code Text
  | 0, _, _ => Act.diverged
  | fuel + 1, alignment, this => do
    let indent := repeatString aligner (alignment + 1).toNat
    match ← held this with
    | some (_, .string val) => pure val
    | some (_, .map []) => pure ['{', '}']
    | some (_, .map values) => do
      let printed ← strvalValues (strvalFuel aligner fuel (alignment + 1)) indent values
      pure (['{', '\n'] ++ printed ++ repeatString aligner alignment.toNat ++ ['}'])
    | some (_, .list []) => pure ['[', ']']
    | some (_, .list list) => do
      let printed ← strvalElements (strvalFuel aligner fuel (alignment + 1)) indent list
      let ret := ['[', '\n'] ++ printed
      pure (ret.eraseIdx (ret.length - 2) ++ repeatString aligner alignment.toNat ++ [']'])
    | _ => pure []

def strval (this : Nat) (alignment : UInt32) (aligner : Text) : Code Text :=
  Heap.sized fun fuel => strvalFuel aligner fuel alignment this

/-- `strval()` with its default arguments. -/
def str (this : Nat) : Code Text := strval this 0 ['\t']

end Printing

section Reading

/-- `subChunkRef`, of a chunk without a parent. -/
def subChunkRef (this : Nat) : Access → Code Nat
  | .key name => do
    match ← held this with
    | some (_, .map values) =>
      match OrderedMap.find? name values with
      | some found => pure found
      | none => do
        let data ← str this
        Act.raise (formatError (message "Map doesn't have '" ++ name ++ message "' flag") [] data (-1))
    | _ => do
      let data ← str this
      Act.raise (formatError (message "chunkdat isn't a map") [] data (-1))
  | .index position => do
    match ← held this with
    | some (_, .list list) =>
      match list[position]? with
      | some found => pure found
      | none => do
        let data ← str this
        Act.raise (formatError (message "List size is below " ++ (toString position).toList) []
          data (-1))
    | _ => do
      let data ← str this
      Act.raise (formatError (message "chunkdat isn't a list") [] data (-1))

/-- `this[first][second]...` -/
def refer : List Access → Nat → Code Nat
  | [], this => pure this
  | access :: path, this => do
    let child ← subChunkRef this access
    refer path child

end Reading

section Writing
variable (allocator : Allocator Cell)

/-- The cases of `set(chunkdat const&)`, by what the operand holds. -/
def copyHeld (pcopy : Nat → Code Nat) (this : Nat) : Option (Nat × Cell) → Code Unit
  | some (_, .map values) => do
    let tch ← Heap.alloc allocator (.map [])
    values.forM fun (name, value) => do
      let chk ← pcopy value
      let _ ← insertKey tch name chk
    setHeld this tch
  | some (_, .list list) => do
    let tch ← Heap.alloc allocator (.list [])
    list.forM fun value => do
      let chk ← pcopy value
      pushBack tch chk
    setHeld this tch
  | some (_, .string val) => do
    let tch ← Heap.alloc allocator (.string val)
    setHeld this tch
  | _ => pure ()

/-- `set(chunkdat const&)`, by how sub-chunks are copied. -/
def setWith (pcopy : Nat → Code Nat) (this input : Nat) : Code Unit := do
  clear this
  let (offset, _) ← members input
  Heap.store this (.chunkdat offset none)
  let found ← held input
  copyHeld allocator pcopy this found

def pcopyFuel : Nat → Nat → Code Nat
  | 0, _ => Act.diverged
  | fuel + 1, input => do
    let this ← Heap.alloc allocator (.chunkdat 0 none)
    setWith allocator (pcopyFuel fuel) this input
    pure this

/-- `new chunkdat(*input)` -/
def pcopy (input : Nat) : Code Nat := Heap.sized fun fuel => pcopyFuel allocator fuel input

/-- `set(chunkdat const&)` -/
def setChunk (this input : Nat) : Code Unit := setWith allocator (pcopy allocator) this input

def addToMap (this : Nat) (name : Text) (val : Nat) : Code Unit := do
  match ← held this with
  | some (cp, .map _) => do
    let chk ← pcopy allocator val
    if ← insertKey cp name chk then pure ()
    else do
      delete chk
      let data ← str this
      Act.raise (formatError ("Key '".toList ++ name ++ "' already present".toList) [] data (-1))
  | none => do
    let cp ← Heap.alloc allocator (.map [])
    setHeld this cp
    let chk ← pcopy allocator val
    let _ ← insertKey cp name chk
  | _ => do
    let data ← str this
    Act.raise (formatError "Cannot add keys to non-map chunks".toList [] data (-1))

def addToList (this val : Nat) : Code Unit := do
  match ← held this with
  | some (lp, .list _) => do
    let chk ← pcopy allocator val
    pushBack lp chk
  | none => do
    let lp ← Heap.alloc allocator (.list [])
    setHeld this lp
    let chk ← pcopy allocator val
    pushBack lp chk
  | _ => do
    let data ← str this
    Act.raise (formatError "Cannot add elements to non-list chunks".toList [] data (-1))

def concatenate (this chk : Nat) : Code Unit := do
  match ← held this, ← held chk with
  | none, _ => setChunk allocator this chk
  | some (_, .map _), some (_, .map values) =>
    values.forM fun (name, value) => addToMap allocator this name value
  | some (_, .list _), some (_, .list list) => list.forM fun value => addToList allocator this value
  | some (cc, .string val), some (_, .string other) => Heap.store cc (.string (val ++ other))
  | _, _ => Act.raise (formatError
      "Cannot concatenate chunks of different types".toList [] [] (-1))

/-- One round of the loop of `merge` over the keys: `cc` is what this chunk holds. -/
def mergeValue (merge : Nat → Nat → Code Unit) (this cc : Nat) (entry : Text × Nat) :
    Code Unit := do
  match ← Heap.load cc with
  | .map values =>
    match OrderedMap.find? entry.1 values with
    | none => addToMap allocator this entry.1 entry.2
    | some found => merge found entry.2
  | _ => Act.fault

def mergeFuel (overwrite : Bool) : Nat → Nat → Nat → Code Unit
  | 0, _, _ => Act.diverged
  | fuel + 1, this, chk => do
    match ← held this, ← held chk with
    | none, _ => setChunk allocator this chk
    | some (cc, .map _), some (_, .map values) =>
      values.forM (mergeValue allocator (mergeFuel overwrite fuel) this cc)
    | some (_, .list _), some (_, .list list) =>
      list.forM fun value => addToList allocator this value
    | some (cc, .string _), some (_, .string _) =>
      if overwrite then do
        let val ← str chk
        Heap.store cc (.string val)
      else Act.raise (formatError "Cannot merge string chunks".toList [] [] (-1))
    | _, _ =>
      if overwrite then setChunk allocator this chk
      else Act.raise (formatError "Cannot merge chunks of different types".toList [] [] (-1))

def merge (this chk : Nat) (overwrite : Bool) : Code Unit :=
  Heap.sized fun fuel => mergeFuel allocator overwrite fuel this chk

end Writing

section Erasing

/-- `erase(key)` -/
def eraseKey (this : Nat) (key : Text) : Code Unit := do
  match ← held this with
  | some (cp, .map values) =>
    match OrderedMap.find? key values with
    | some second => do
      delete second
      Heap.store cp (.map (values.filter fun entry => entry.1 != key))
    | none => do
      let data ← str this
      Act.raise (formatError ("Key '".toList ++ key ++ "' not present".toList) [] data (-1))
  | _ => do
    let data ← str this
    Act.raise (formatError "Cannot erase element from non-map chunk".toList [] data (-1))

/-- `listSize()` -/
def listSize (this : Nat) : Code Int32 := do
  match ← held this with
  | some (_, .list list) => pure (Int32.ofNat list.length)
  | _ => pure (-1)

/-- `erase(index)` -/
def eraseIndex (this : Nat) (index : UInt32) : Code Unit := do
  match ← held this with
  | some (lp, .list list) => do
    let size ← listSize this
    if index < size.toUInt32 then
      match list[index.toNat]? with
      | some element => do
        delete element
        Heap.store lp (.list (list.eraseIdx index.toNat))
      | none => Act.fault
    else do
      let data ← str this
      Act.raise (formatError ("Cannot erase out of bonds: ".toList ++ (toString index).toList ++
        " in size ".toList ++ (toString size).toList) [] data (-1))
  | _ => do
    let data ← str this
    Act.raise (formatError "Cannot erase element from non-list chunk".toList [] data (-1))

end Erasing

section Expressions
variable (allocator : Allocator Cell)

/-- `chunkdat ret(a)`, changed and returned; an exception destroys it. -/
def edited (change : Nat → Code Unit) (a : Nat) : Code Nat := do
  let ret ← pcopy allocator a
  Act.onThrow (change ret) (delete ret)
  pure ret

end Expressions

end Memory

end Ztd.Filedat
