import Ztd.Filedat.Printer

/-! The editing operations of `chunkdat`. Each takes the chunk it is called on
and returns the chunk it leaves there, with the exception if it throws. -/

namespace Ztd.Filedat
open Ztd.Lib

variable {ι : Type}

/-- The state an operation leaves behind and the exception that ended it. -/
abbrev Edited (ι : Type) := Chunk ι × Option FormatError

namespace Chunk

mutual
/-- The deep copy made by `set(chunkdat const&)`. -/
def copy : Chunk ι → Chunk ι
  | .none offset => .none offset
  | .string offset val => .string offset val
  | .map offset values => .map offset (copyValues values)
  | .list offset elements => .list offset (copyElements elements)
def copyValues : List (Text × Chunk ι) → List (Text × Chunk ι)
  | [] => []
  | (key, value) :: rest => (key, copy value) :: copyValues rest
def copyElements : List (Chunk ι) → List (Chunk ι)
  | [] => []
  | element :: rest => copy element :: copyElements rest
end

/-- `set(chunkdat const&)`, with an operand outside of the chunk. -/
def setChunk (_this input : Chunk ι) : Chunk ι := input.copy

/-- `addToMap(name, val)` -/
def addToMap (this : Chunk ι) (name : Text) (val : Chunk ι) : Edited ι :=
  match this with
  | .map offset values =>
    match OrderedMap.find? name values with
    | some _ => (this, some (formatError
        ("Key '".toList ++ name ++ "' already present".toList) [] this.str (-1)))
    | .none => (.map offset (OrderedMap.insert name val.copy values), .none)
  | .none offset => (.map offset [(name, val.copy)], .none)
  | _ => (this, some (formatError "Cannot add keys to non-map chunks".toList [] this.str (-1)))

/-- `addToList(val)` -/
def addToList (this val : Chunk ι) : Edited ι :=
  match this with
  | .list offset elements => (.list offset (elements ++ [val.copy]), .none)
  | .none offset => (.list offset [val.copy], .none)
  | _ => (this, some (formatError "Cannot add elements to non-list chunks".toList [] this.str (-1)))

/-- The vector overload of `addToMap`: stops at the first exception. -/
def addAllToMap (this : Chunk ι) : List (Text × Chunk ι) → Edited ι
  | [] => (this, .none)
  | (name, val) :: rest =>
    match this.addToMap name val with
    | (next, .none) => next.addAllToMap rest
    | (next, some error) => (next, some error)

/-- The vector overload of `addToList`. -/
def addAllToList (this : Chunk ι) : List (Chunk ι) → Edited ι
  | [] => (this, .none)
  | val :: rest =>
    match this.addToList val with
    | (next, .none) => next.addAllToList rest
    | (next, some error) => (next, some error)

def concatenate (this chk : Chunk ι) : Edited ι :=
  match this, chk with
  | .none _, _ => (this.setChunk chk, .none)
  | .map _ _, .map _ values => this.addAllToMap values
  | .list _ _, .list _ elements => this.addAllToList elements
  | .string offset val, .string _ other => (.string offset (val ++ other), .none)
  | _, _ => (this, some (formatError
      "Cannot concatenate chunks of different types".toList [] [] (-1)))

/-- The last branch of `merge`: chunks of different types. -/
def mergeConflict (overwrite : Bool) (this chk : Chunk ι) : Edited ι :=
  if overwrite then (this.setChunk chk, .none)
  else (this, some (formatError "Cannot merge chunks of different types".toList [] [] (-1)))

mutual
/-- `merge(chk, overwrite)` -/
def merge (overwrite : Bool) (this : Chunk ι) : Chunk ι → Edited ι
  | .none offset =>
    match this with
    | .none _ => (this.setChunk (.none offset), .none)
    | _ => mergeConflict overwrite this (.none offset)
  | .map offset values =>
    match this with
    | .none _ => (this.setChunk (.map offset values), .none)
    | .map thisOffset thisValues =>
      match mergeValues overwrite thisValues values with
      | (merged, stop) => (.map thisOffset merged, stop)
    | _ => mergeConflict overwrite this (.map offset values)
  | .list offset elements =>
    match this with
    | .none _ => (this.setChunk (.list offset elements), .none)
    | .list _ _ => this.addAllToList elements
    | _ => mergeConflict overwrite this (.list offset elements)
  | .string offset val =>
    match this with
    | .none _ => (this.setChunk (.string offset val), .none)
    | .string thisOffset _ =>
      if overwrite then (.string thisOffset val, .none)
      else (this, some (formatError "Cannot merge string chunks".toList [] [] (-1)))
    | _ => mergeConflict overwrite this (.string offset val)
/-- The loop over the keys of the merged map. A new key is added with a copy,
a present one has its value merged in place. -/
def mergeValues (overwrite : Bool) (values : List (Text × Chunk ι)) :
    List (Text × Chunk ι) → List (Text × Chunk ι) × Option FormatError
  | [] => (values, .none)
  | (key, value) :: rest =>
    match OrderedMap.find? key values with
    | .none => mergeValues overwrite (OrderedMap.insert key value.copy values) rest
    | some found =>
      match merge overwrite found value with
      | (merged, .none) => mergeValues overwrite (OrderedMap.insert key merged values) rest
      | (merged, some error) => (OrderedMap.insert key merged values, some error)
end

/-- `erase(key)` -/
def eraseKey (this : Chunk ι) (key : Text) : Edited ι :=
  match this with
  | .map offset values =>
    match OrderedMap.find? key values with
    | some _ => (.map offset (values.filter (fun entry => entry.1 != key)), .none)
    | .none => (this, some (formatError
        ("Key '".toList ++ key ++ "' not present".toList) [] this.str (-1)))
  | _ => (this, some (formatError
      "Cannot erase element from non-map chunk".toList [] this.str (-1)))

/-- `listSize()`: the size of the list as an `int`. -/
def listSize (this : Chunk ι) : Int32 :=
  match this with
  | .list _ elements => Int32.ofNat elements.length
  | _ => -1

/-- `erase(index)` -/
def eraseIndex (this : Chunk ι) (index : UInt32) : Edited ι :=
  match this with
  | .list offset elements =>
    if index < this.listSize.toUInt32 then (.list offset (elements.eraseIdx index.toNat), .none)
    else (this, some (formatError
      ("Cannot erase out of bonds: ".toList ++ (toString index).toList ++ " in size ".toList ++
        (toString this.listSize).toList) [] this.str (-1)))
  | _ => (this, some (formatError
      "Cannot erase element from non-list chunk".toList [] this.str (-1)))

@[simp] theorem copy_eq (chunk : Chunk ι) : chunk.copy = chunk := by
  induction chunk using induct with
  | none offset => rfl
  | string offset val => rfl
  | map offset values ih =>
    have same : copyValues values = values := by
      induction values with
      | nil => rfl
      | cons entry rest rest_ih =>
        obtain ⟨key, value⟩ := entry
        rw [copyValues, ih (key, value) (List.mem_cons_self ..),
          rest_ih (fun other member => ih other (List.mem_cons_of_mem _ member))]
    rw [copy, same]
  | list offset elements ih =>
    have same : copyElements elements = elements := by
      induction elements with
      | nil => rfl
      | cons element rest rest_ih =>
        rw [copyElements, ih element (List.mem_cons_self ..),
          rest_ih (fun other member => ih other (List.mem_cons_of_mem _ member))]
    rw [copy, same]

@[simp] theorem setChunk_eq (this input : Chunk ι) : this.setChunk input = input :=
  copy_eq input

@[simp] theorem addAllToList_list (offset : ι) (elements added : List (Chunk ι)) :
    (Chunk.list offset elements).addAllToList added = (.list offset (elements ++ added), .none) := by
  induction added generalizing elements with
  | nil => simp [addAllToList]
  | cons element rest ih => simp [addAllToList, addToList, ih]

section MergeRounds
variable {overwrite : Bool} {key : Text} {value found : Chunk ι} {values : List (Text × Chunk ι)}

theorem mergeValues_new (missing : OrderedMap.find? key values = .none)
    (rest : List (Text × Chunk ι)) :
    mergeValues overwrite values ((key, value) :: rest) =
      mergeValues overwrite (OrderedMap.insert key value values) rest := by
  rw [mergeValues, missing, copy_eq]

theorem mergeValues_shared (present : OrderedMap.find? key values = some found)
    (returns : (found.merge overwrite value).2 = .none) (rest : List (Text × Chunk ι)) :
    mergeValues overwrite values ((key, value) :: rest) =
      mergeValues overwrite (OrderedMap.insert key (found.merge overwrite value).1 values) rest := by
  rw [mergeValues, present]
  cases merged : found.merge overwrite value with
  | mk chunk stop =>
    rw [merged] at returns
    subst returns
    simp only [merged]

theorem mergeValues_stop {error : FormatError}
    (present : OrderedMap.find? key values = some found)
    (throws : (found.merge overwrite value).2 = some error) (rest : List (Text × Chunk ι)) :
    mergeValues overwrite values ((key, value) :: rest) =
      (OrderedMap.insert key (found.merge overwrite value).1 values, some error) := by
  rw [mergeValues, present]
  cases merged : found.merge overwrite value with
  | mk chunk stop =>
    rw [merged] at throws
    subst throws
    simp only [merged]

end MergeRounds

end Chunk

end Ztd.Filedat
