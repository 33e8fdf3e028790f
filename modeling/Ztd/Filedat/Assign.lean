import Ztd.Filedat.Operations

/-! Assignment when the operand may be a part of the chunk assigned to. The chunk
owns its sub-chunks, so a path from it says where one is; clearing the chunk
removes all of them, and reading a removed one is an access outside of it. -/

namespace Ztd.Filedat
open Ztd.Lib

/-- How a sub-chunk is reached: `subChunkRef` by key or by index. -/
inductive Access where
  | key (name : Text)
  | index (position : Nat)
deriving DecidableEq, Repr

/-- Where the operand of an assignment is: below the chunk assigned to, which
the empty path is, or in another tree. -/
inductive Operand (ι : Type) where
  | inside (path : List Access)
  | outside (chunk : Chunk ι)

variable {ι : Type}

namespace Chunk

def child? : Access → Chunk ι → Option (Chunk ι)
  | .key name, .map _ values => OrderedMap.find? name values
  | .index position, .list _ elements => elements[position]?
  | _, _ => .none

/-- The sub-chunk at a path. -/
def at? : List Access → Chunk ι → Option (Chunk ι)
  | [], chunk => some chunk
  | access :: path, chunk => (chunk.child? access).bind (at? path)

/-- `clear()` -/
def clear (this : Chunk ι) : Chunk ι := .none this.offset

/-- Read the operand as memory is now. -/
def read (this : Chunk ι) : Operand ι → Run FormatError (Chunk ι)
  | .outside chunk => .ok chunk
  | .inside path =>
    match this.at? path with
    | some chunk => .ok chunk
    | .none => Run.fault

/-- `operator=`: `set(chunkdat const&)`, read by read. -/
def assign (this : Chunk ι) (input : Operand ι) : Run FormatError (Chunk ι) := do
  let this := this.clear
  let offset := (← this.read input).offset
  let this := Chunk.none offset
  match ← this.read input with
  | .map _ values => return .map offset (copyValues values)
  | .list _ elements => return .list offset (copyElements elements)
  | .string _ val => return .string offset val
  | .none _ => return this

@[simp] theorem at?_clear (this : Chunk ι) (access : Access) (path : List Access) :
    this.clear.at? (access :: path) = .none := by
  cases access <;> rfl

/-- Assigning a chunk to itself empties it. -/
theorem assign_self (this : Chunk ι) : this.assign (.inside []) = .ok this.clear := rfl

/-- A sub-chunk is gone when assignment reads it. -/
theorem assign_below (this : Chunk ι) (access : Access) (path : List Access) :
    this.assign (.inside (access :: path)) = Run.fault := by
  simp only [assign, read, at?_clear]
  rfl

/-- Assigning a part of a chunk to the chunk gives the value the part had only
where an empty chunk is assigned to itself. -/
theorem assign_inside_iff (this operand : Chunk ι) (path : List Access)
    (node : this.at? path = some operand) :
    this.assign (.inside path) = .ok operand ↔ path = [] ∧ this.type = .none := by
  cases path with
  | nil =>
    obtain rfl : this = operand := Option.some.inj node
    rw [assign_self]
    cases this <;> simp [clear, offset, type]
  | cons access path => simp [assign_below, Run.fault]

theorem assign_inside_iff_nodes :
    ((Chunk.none 0).assign (.inside []) = .ok (Chunk.none 0) ↔
      ([] : List Access) = [] ∧ (Chunk.none 0).type = .none) ∧
    ((Chunk.map 0 [(['k'], .list 0 [.string 0 ['a'], .string 0 ['b']])] : Chunkdat).assign
        (.inside [.key ['k'], .index 1]) = .ok (.string 0 ['b']) ↔
      [Access.key ['k'], .index 1] = [] ∧
        (Chunk.map 0 [(['k'], .list 0 [.string 0 ['a'], .string 0 ['b']])] : Chunkdat).type =
          .none) :=
  ⟨assign_inside_iff (Chunk.none 0) (Chunk.none 0) [] rfl,
    assign_inside_iff (.map 0 [(['k'], .list 0 [.string 0 ['a'], .string 0 ['b']])])
      (.string 0 ['b']) [.key ['k'], .index 1] rfl⟩

/-- A string assigned to itself is lost. -/
theorem assign_self_loses :
    ¬ ∀ (this operand : Chunkdat) (path : List Access), this.at? path = some operand →
      this.assign (.inside path) = .ok operand := by
  intro keeps
  have kept := keeps (.string 0 ['a']) (.string 0 ['a']) [] rfl
  simp [assign_self, clear, offset] at kept

end Chunk

end Ztd.Filedat
