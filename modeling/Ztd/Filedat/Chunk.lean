import Ztd.Lib.OrderedMap
import Ztd.Lib.Text
import Mathlib.Data.Char
import Mathlib.Data.List.Lex

/-! Chunks of ZFD data and the operations of `chunkdat` that work on values:
deep copy, insertion, concatenation, merge, erasure and printing. An operation
that can throw returns the state it leaves behind next to the exception. -/

namespace Ztd.Filedat
open Ztd.Lib

/-- `format_error`, by its private members. -/
structure FormatError where
  desc : Text
  filename : Text
  sdat : Text
  index : Int
deriving DecidableEq, Repr

def FormatError.what (error : FormatError) : Text := cstr error.desc
def FormatError.origin (error : FormatError) : Text := cstr error.filename
def FormatError.data (error : FormatError) : Text := cstr error.sdat

/-- Conversion of a size or an unsigned number to a 32-bit `int`. -/
def toInt (value : Int) : Int := Int.bmod value (2 ^ 32)

def formatError (what origin data : Text) (index : Int) : FormatError :=
  { desc := what, filename := origin, sdat := data, index := toInt index }

inductive ChunkType where
  | none | string | map | list
deriving DecidableEq, Repr

/-- A `chunkdat` and all below it. `values` is the `std::map`, in key order;
the offset is debugging data of any type, so that `Unit` gives the bare tree. -/
inductive Chunk (ι : Type) where
  | none (offset : ι)
  | string (offset : ι) (val : Text)
  | map (offset : ι) (values : List (Text × Chunk ι))
  | list (offset : ι) (list : List (Chunk ι))
deriving Repr

/-- Chunks as the code has them, with the `int` offset of their text. -/
abbrev Chunkdat := Chunk Int

/-- Chunks without debugging data. -/
abbrev Tree := Chunk Unit

variable {ι κ : Type}

namespace Chunk

def type : Chunk ι → ChunkType
  | .none _ => .none
  | .string _ _ => .string
  | .map _ _ => .map
  | .list _ _ => .list

def offset : Chunk ι → ι
  | .none offset | .string offset _ | .map offset _ | .list offset _ => offset

/-- Induction over chunks: hypotheses for every value of a map and every
element of a list. -/
theorem induct {motive : Chunk ι → Prop}
    (none : ∀ offset, motive (.none offset))
    (string : ∀ offset val, motive (.string offset val))
    (map : ∀ offset values, (∀ entry ∈ values, motive entry.2) → motive (.map offset values))
    (list : ∀ offset elements, (∀ element ∈ elements, motive element) →
      motive (.list offset elements)) : ∀ chunk, motive chunk
  | .none offset => none offset
  | .string offset val => string offset val
  | .map offset values => map offset values (fun entry member =>
      have smaller : sizeOf entry.2 < sizeOf values := by
        have inside := List.sizeOf_lt_of_mem member
        obtain ⟨key, value⟩ := entry
        simp only [Prod.mk.sizeOf_spec] at inside ⊢
        omega
      induct none string map list entry.2)
  | .list offset elements => list offset elements (fun element member =>
      have smaller := List.sizeOf_lt_of_mem member
      induct none string map list element)
termination_by chunk => sizeOf chunk
decreasing_by
  · simp only [Chunk.map.sizeOf_spec]; omega
  · simp only [Chunk.list.sizeOf_spec]; omega

mutual
/-- Every map of the chunk is a `std::map`: keys ascend and occur once. -/
def Ordered : Chunk ι → Prop
  | .none _ | .string _ _ => True
  | .map _ values => OrderedMap.Sorted values ∧ OrderedValues values
  | .list _ elements => OrderedElements elements
def OrderedValues : List (Text × Chunk ι) → Prop
  | [] => True
  | (_, value) :: rest => Ordered value ∧ OrderedValues rest
def OrderedElements : List (Chunk ι) → Prop
  | [] => True
  | element :: rest => Ordered element ∧ OrderedElements rest
end

mutual
def mapOffset (f : ι → κ) : Chunk ι → Chunk κ
  | .none offset => .none (f offset)
  | .string offset val => .string (f offset) val
  | .map offset values => .map (f offset) (mapOffsetValues f values)
  | .list offset elements => .list (f offset) (mapOffsetElements f elements)
def mapOffsetValues (f : ι → κ) : List (Text × Chunk ι) → List (Text × Chunk κ)
  | [] => []
  | (key, value) :: rest => (key, mapOffset f value) :: mapOffsetValues f rest
def mapOffsetElements (f : ι → κ) : List (Chunk ι) → List (Chunk κ)
  | [] => []
  | element :: rest => mapOffset f element :: mapOffsetElements f rest
end

/-- Forget the offsets. -/
def tree (chunk : Chunk ι) : Tree := chunk.mapOffset (fun _ => ())

theorem orderedValues_iff (values : List (Text × Chunk ι)) :
    OrderedValues values ↔ ∀ entry ∈ values, entry.2.Ordered := by
  induction values with
  | nil => simp [OrderedValues]
  | cons entry rest ih =>
    obtain ⟨key, value⟩ := entry
    simp only [OrderedValues, ih, List.forall_mem_cons]

theorem orderedElements_iff (elements : List (Chunk ι)) :
    OrderedElements elements ↔ ∀ element ∈ elements, element.Ordered := by
  induction elements with
  | nil => simp [OrderedElements]
  | cons element rest ih => simp only [OrderedElements, ih, List.forall_mem_cons]

@[simp] theorem ordered_map_iff (offset : ι) (values : List (Text × Chunk ι)) :
    (Chunk.map offset values).Ordered ↔
      OrderedMap.Sorted values ∧ ∀ entry ∈ values, entry.2.Ordered := by
  simp only [Ordered, orderedValues_iff]

@[simp] theorem ordered_list_iff (offset : ι) (elements : List (Chunk ι)) :
    (Chunk.list offset elements).Ordered ↔ ∀ element ∈ elements, element.Ordered := by
  simp only [Ordered, orderedElements_iff]

theorem mapOffsetValues_eq (f : ι → κ) (values : List (Text × Chunk ι)) :
    mapOffsetValues f values = values.map (fun entry => (entry.1, entry.2.mapOffset f)) := by
  induction values with
  | nil => rfl
  | cons entry rest ih =>
    obtain ⟨key, value⟩ := entry
    simp [mapOffsetValues, ih]

theorem mapOffsetElements_eq (f : ι → κ) (elements : List (Chunk ι)) :
    mapOffsetElements f elements = elements.map (mapOffset f) := by
  induction elements with
  | nil => rfl
  | cons element rest ih => simp [mapOffsetElements, ih]

@[simp] theorem tree_none (offset : ι) : (Chunk.none offset).tree = .none () := rfl

@[simp] theorem tree_string (offset : ι) (val : Text) :
    (Chunk.string offset val).tree = .string () val := rfl

@[simp] theorem tree_map (offset : ι) (values : List (Text × Chunk ι)) :
    (Chunk.map offset values).tree =
      .map () (values.map (fun entry => (entry.1, entry.2.tree))) := by
  simp only [tree, mapOffset, mapOffsetValues_eq]

@[simp] theorem tree_list (offset : ι) (elements : List (Chunk ι)) :
    (Chunk.list offset elements).tree = .list () (elements.map tree) := by
  simp only [tree, mapOffset, mapOffsetElements_eq]
  rfl

@[simp] theorem tree_type (chunk : Chunk ι) : chunk.tree.type = chunk.type := by
  cases chunk <;> rfl

end Chunk

end Ztd.Filedat
