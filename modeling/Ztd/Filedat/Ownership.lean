import Ztd.Lib.Triple
import Ztd.Filedat.Memory

/-! What it means that a part of the memory is a chunk. A chunk is allocated when
each of its nodes has an address; it owns the objects of its nodes, each in one
place, and nothing else. -/

namespace Ztd.Filedat
open Ztd.Lib Ztd.Lib.Assertion

/-- The offset of a `chunkdat`, where it is, and where what it holds is unless it
is empty. -/
structure Slot where
  offset : Int
  address : Nat
  achunk : Nat
deriving DecidableEq, Repr

/-- A chunk with the addresses of its objects. -/
abbrev Allocated := Chunk Slot

/-- The entries of a map without addresses. -/
def plainValues (values : List (Text × Allocated)) : List (Text × Chunkdat) :=
  values.map fun entry => (entry.1, entry.2.mapOffset Slot.offset)

namespace Chunk

/-- The chunk without addresses. -/
def plain (chunk : Allocated) : Chunkdat := chunk.mapOffset Slot.offset

def address (chunk : Allocated) : Nat := chunk.offset.address

/-- The `values` of a `chunk_map`. -/
def pointers (values : List (Text × Allocated)) : List (Text × Nat) :=
  values.map fun entry => (entry.1, entry.2.address)

/-- What `m_achunk` points to, if it is not null. -/
def cell? : Allocated → Option Cell
  | .none _ => .none
  | .string _ val => some (.string val)
  | .map _ values => some (.map (pointers values))
  | .list _ elements => some (.list (elements.map address))

def children {ι : Type} : Chunk ι → List (Chunk ι)
  | .map _ values => values.map Prod.snd
  | .list _ elements => elements
  | _ => []

/-- The keys of a map ascend. -/
def KeysAscend {ι : Type} : Chunk ι → Prop
  | .map _ values => OrderedMap.Sorted values
  | _ => True

section Counting
variable {ι : Type}

mutual
/-- How many nodes a chunk has. -/
def count : Chunk ι → Nat
  | .none _ | .string _ _ => 1
  | .map _ values => 1 + countValues values
  | .list _ elements => 1 + countElements elements
def countValues : List (Text × Chunk ι) → Nat
  | [] => 0
  | (_, value) :: rest => count value + countValues rest
def countElements : List (Chunk ι) → Nat
  | [] => 0
  | element :: rest => count element + countElements rest
end

theorem countValues_eq (values : List (Text × Chunk ι)) :
    countValues values = ((values.map Prod.snd).map count).sum := by
  induction values with
  | nil => rfl
  | cons entry rest ih => simp [countValues, ih]

theorem countElements_eq (elements : List (Chunk ι)) :
    countElements elements = (elements.map count).sum := by
  induction elements with
  | nil => rfl
  | cons element rest ih => simp [countElements, ih]

theorem count_eq (chunk : Chunk ι) : chunk.count = 1 + (chunk.children.map count).sum := by
  cases chunk <;> simp [count, children, countValues_eq, countElements_eq]

theorem count_pos (chunk : Chunk ι) : 0 < chunk.count := by
  rw [count_eq]
  omega

theorem count_child {chunk child : Chunk ι} (member : child ∈ chunk.children) :
    child.count < chunk.count := by
  have least := List.le_sum_of_mem (List.mem_map_of_mem (f := count) member)
  rw [count_eq chunk]
  omega

/-- Induction from the children of a chunk to it. -/
theorem descend {motive : Chunk ι → Prop}
    (step : ∀ chunk, (∀ child ∈ chunk.children, motive child) → motive chunk) (chunk : Chunk ι) :
    motive chunk := by
  induction chunk using induct with
  | none offset => exact step _ (by simp [children])
  | string offset val => exact step _ (by simp [children])
  | map offset values ih =>
    refine step _ fun child member => ?_
    obtain ⟨entry, inside, rfl⟩ := List.mem_map.mp member
    exact ih entry inside
  | list offset elements ih => exact step _ ih

end Counting

@[simp] theorem plainValues_nil : plainValues [] = [] := rfl

theorem plainValues_cons (name : Text) (value : Allocated) (rest : List (Text × Allocated)) :
    plainValues ((name, value) :: rest) = (name, value.plain) :: plainValues rest := rfl

@[simp] theorem plain_none (slot : Slot) : plain (.none slot) = .none slot.offset := rfl

@[simp] theorem plain_string (slot : Slot) (val : Text) :
    plain (.string slot val) = .string slot.offset val := rfl

@[simp] theorem plain_map (slot : Slot) (values : List (Text × Allocated)) :
    plain (.map slot values) = .map slot.offset (plainValues values) := by
  simp only [plain, mapOffset, mapOffsetValues_eq, plainValues]

@[simp] theorem plain_list (slot : Slot) (elements : List Allocated) :
    plain (.list slot elements) = .list slot.offset (elements.map plain) := by
  simp only [plain, mapOffset, mapOffsetElements_eq]
  rfl

@[simp] theorem plain_offset (chunk : Allocated) : chunk.plain.offset = chunk.offset.offset := by
  cases chunk <;> simp [offset]

@[simp] theorem plain_type (chunk : Allocated) : chunk.plain.type = chunk.type := by
  cases chunk <;> simp [type]

section Entries
variable {name : Text} (values : List (Text × Allocated))

theorem find?_pointers :
    OrderedMap.find? name (pointers values) = (OrderedMap.find? name values).map address :=
  OrderedMap.find?_map ..

theorem find?_plainValues :
    OrderedMap.find? name (plainValues values) = (OrderedMap.find? name values).map plain :=
  OrderedMap.find?_map ..

theorem insert_pointers (chunk : Allocated) :
    pointers (OrderedMap.insert name chunk values) =
      OrderedMap.insert name chunk.address (pointers values) :=
  OrderedMap.insert_map ..

theorem insert_plainValues (chunk : Allocated) :
    plainValues (OrderedMap.insert name chunk values) =
      OrderedMap.insert name chunk.plain (plainValues values) :=
  OrderedMap.insert_map ..

theorem sorted_plainValues :
    OrderedMap.Sorted (plainValues values) ↔ OrderedMap.Sorted values := by
  simp [OrderedMap.Sorted, plainValues, List.pairwise_map]

end Entries

mutual
/-- The memory is the chunk. -/
def Owns : Allocated → Assertion Cell
  | .none slot => pointsTo slot.address (.chunkdat slot.offset .none)
  | .string slot val => pointsTo slot.address (.chunkdat slot.offset (some slot.achunk)) *
      pointsTo slot.achunk (.string val)
  | .map slot values => ⨆ _ : OrderedMap.Sorted values,
      pointsTo slot.address (.chunkdat slot.offset (some slot.achunk)) *
        (pointsTo slot.achunk (.map (pointers values)) * OwnsValues values)
  | .list slot elements => pointsTo slot.address (.chunkdat slot.offset (some slot.achunk)) *
      (pointsTo slot.achunk (.list (elements.map address)) * OwnsElements elements)
def OwnsValues : List (Text × Allocated) → Assertion Cell
  | [] => 1
  | (_, value) :: rest => Owns value * OwnsValues rest
def OwnsElements : List Allocated → Assertion Cell
  | [] => 1
  | element :: rest => Owns element * OwnsElements rest
end

/-- Chunks in separate parts of the memory. -/
def OwnsAll (chunks : List Allocated) : Assertion Cell := (chunks.map Owns).prod

/-- A `chunkdat` that holds an object with sub-chunks below it. -/
def Body (slot : Slot) (cell : Cell) (below : List Allocated) : Assertion Cell :=
  pointsTo slot.address (.chunkdat slot.offset (some slot.achunk)) *
    (pointsTo slot.achunk cell * OwnsAll below)

/-- A `chunk_map` with its values. -/
def MapAt (achunk : Nat) (values : List (Text × Allocated)) : Assertion Cell :=
  pointsTo achunk (.map (pointers values)) * OwnsAll (values.map Prod.snd)

/-- A `chunk_list` with its elements. -/
def ListAt (achunk : Nat) (elements : List Allocated) : Assertion Cell :=
  pointsTo achunk (.list (elements.map address)) * OwnsAll elements

@[simp] theorem ownsAll_nil : OwnsAll [] = 1 := rfl

@[simp] theorem ownsAll_cons (chunk : Allocated) (rest : List Allocated) :
    OwnsAll (chunk :: rest) = Owns chunk * OwnsAll rest := by
  simp [OwnsAll]

theorem ownsAll_append (first rest : List Allocated) :
    OwnsAll (first ++ rest) = OwnsAll first * OwnsAll rest := by
  simp [OwnsAll]

theorem ownsAll_perm {chunks others : List Allocated} (perm : chunks.Perm others) :
    OwnsAll chunks = OwnsAll others := (perm.map Owns).prod_eq

theorem mapAt_insert {name : Text} {values : List (Text × Allocated)} (achunk : Nat)
    (chunk : Allocated) (missing : OrderedMap.find? name values = .none) :
    pointsTo achunk (.map (pointers (OrderedMap.insert name chunk values))) *
        (Owns chunk * OwnsAll (values.map Prod.snd)) =
      MapAt achunk (OrderedMap.insert name chunk values) := by
  have perm := (OrderedMap.insert_perm chunk missing).map Prod.snd
  rw [MapAt, ownsAll_perm perm, List.map_cons, ownsAll_cons]

theorem ownsValues_eq (values : List (Text × Allocated)) :
    OwnsValues values = OwnsAll (values.map Prod.snd) := by
  induction values with
  | nil => rfl
  | cons entry rest ih => simp [OwnsValues, ih]

theorem ownsElements_eq (elements : List Allocated) :
    OwnsElements elements = OwnsAll elements := by
  induction elements with
  | nil => rfl
  | cons element rest ih => simp [OwnsElements, ih]

@[simp] theorem owns_none (slot : Slot) :
    Owns (.none slot) = pointsTo slot.address (.chunkdat slot.offset .none) := by
  rw [Owns]

theorem owns_string (slot : Slot) (val : Text) :
    Owns (.string slot val) = Body slot (.string val) [] := by
  simp [Owns, Body]

theorem owns_map (slot : Slot) (values : List (Text × Allocated)) :
    Owns (.map slot values) = ⨆ _ : OrderedMap.Sorted values,
      Body slot (.map (pointers values)) (values.map Prod.snd) := by
  simp only [Owns, Body, ownsValues_eq]

theorem owns_list (slot : Slot) (elements : List Allocated) :
    Owns (.list slot elements) = Body slot (.list (elements.map address)) elements := by
  simp only [Owns, Body, ownsElements_eq]

/-- A chunk that is not empty, whatever it holds. -/
theorem owns_some {chunk : Allocated} {cell : Cell} (is : chunk.cell? = some cell) :
    Owns chunk = ⨆ _ : chunk.KeysAscend, Body chunk.offset cell chunk.children := by
  cases chunk with
  | none slot => cases is
  | string slot val =>
    obtain rfl := Option.some.inj is
    simp [owns_string, KeysAscend, children, offset]
  | map slot values =>
    obtain rfl := Option.some.inj is
    simp [owns_map, KeysAscend, children, offset]
  | list slot elements =>
    obtain rfl := Option.some.inj is
    simp [owns_list, KeysAscend, children, offset]

theorem body_le (chunk : Allocated) {cell : Cell} (is : chunk.cell? = some cell)
    (ascend : chunk.KeysAscend) : Body chunk.offset cell chunk.children ≤ Owns chunk := by
  rw [owns_some is]
  exact le_iSup_of_le ascend le_rfl

theorem owned_cell {chunk : Allocated} {cell : Cell} (is : chunk.cell? = some cell) :
    Memory.owned cell = chunk.children.map address := by
  cases chunk <;> cases is <;> simp [Memory.owned, children, pointers]

theorem occupies_ownsAll {chunks : List Allocated}
    (each : ∀ chunk ∈ chunks, Occupies chunk.count (Owns chunk)) :
    Occupies (chunks.map count).sum (OwnsAll chunks) := by
  induction chunks with
  | nil => exact occupies_zero _
  | cons chunk rest ih =>
    rw [ownsAll_cons, List.map_cons, List.sum_cons]
    exact (each chunk List.mem_cons_self).mul
      (ih fun other member => each other (List.mem_cons_of_mem _ member))

/-- A chunk has a cell for each of its nodes. -/
theorem occupies_owns (chunk : Allocated) : Occupies chunk.count (Owns chunk) := by
  induction chunk using descend with
  | step chunk below =>
    rw [count_eq]
    cases is : chunk.cell? with
    | none =>
      cases chunk with
      | none slot =>
        rw [owns_none]
        exact occupies_pointsTo _ _
      | string | map | list => cases is
    | some cell =>
      rw [owns_some is]
      refine .iSup fun _ => (occupies_pointsTo _ _).mul ?_
      rw [← Nat.zero_add (List.sum _)]
      exact (occupies_zero _).mul (occupies_ownsAll below)

/-- Whatever could be reached in the chunk still can, and is where it was. -/
def Stays (before after : Allocated) : Prop := ∀ path found, before.at? path = some found →
  ∃ now, after.at? path = some now ∧ now.address = found.address

section Stays
variable {before after later : Allocated} {slot : Slot}

theorem Stays.refl (chunk : Allocated) : chunk.Stays chunk := fun _ found is => ⟨found, is, rfl⟩

theorem Stays.trans (first : before.Stays after) (second : after.Stays later) :
    before.Stays later := by
  intro path found is
  obtain ⟨now, there, same⟩ := first path found is
  obtain ⟨last, is, still⟩ := second path now there
  exact ⟨last, is, still.trans same⟩

theorem Stays.address_eq (stays : before.Stays after) : after.address = before.address := by
  obtain ⟨now, is, same⟩ := stays [] before rfl
  rwa [Option.some.inj is]

/-- The chunk is where it was, and its children stay. -/
theorem stays_of_children (root : after.address = before.address)
    (each : ∀ access child, before.child? access = some child →
      ∃ now, after.child? access = some now ∧ child.Stays now) : before.Stays after := by
  intro path found is
  cases path with
  | nil =>
    obtain rfl := Option.some.inj is
    exact ⟨after, rfl, root⟩
  | cons access path =>
    obtain ⟨child, here, below⟩ := Option.bind_eq_some_iff.mp is
    obtain ⟨now, there, stays⟩ := each access child here
    obtain ⟨last, is, same⟩ := stays path found below
    exact ⟨last, Option.bind_eq_some_iff.mpr ⟨now, there, is⟩, same⟩

theorem stays_map {values others : List (Text × Allocated)}
    (each : ∀ name found, OrderedMap.find? name values = some found →
      ∃ now, OrderedMap.find? name others = some now ∧ found.Stays now) :
    (Chunk.map slot values).Stays (.map slot others) :=
  stays_of_children rfl fun access child is => by
    cases access with
    | key name => exact each name child is
    | index position => cases is

theorem stays_list {elements others : List Allocated}
    (each : ∀ (index : Nat) (found : Allocated), elements[index]? = some found →
      ∃ now, others[index]? = some now ∧ found.Stays now) :
    (Chunk.list slot elements).Stays (.list slot others) :=
  stays_of_children rfl fun access child is => by
    cases access with
    | key name => cases is
    | index position => exact each position child is

theorem stays_append (elements added : List Allocated) :
    (Chunk.list slot elements).Stays (.list slot (elements ++ added)) :=
  stays_list fun index child inside => by
    have bound := (List.getElem?_eq_some_iff.mp inside).1
    exact ⟨child, by rw [List.getElem?_append_left bound, inside], .refl child⟩

theorem stays_leaf (isLeaf : before.children = []) (root : after.address = before.address) :
    before.Stays after :=
  stays_of_children root fun access child is => by
    cases before with
    | none slot => cases access <;> cases is
    | string slot val => cases access <;> cases is
    | map slot values =>
      obtain rfl : values = [] := List.map_eq_nil_iff.mp isLeaf
      cases access <;> cases is
    | list slot elements =>
      obtain rfl : elements = [] := isLeaf
      cases access <;> simp [child?] at is

end Stays

end Chunk

end Ztd.Filedat
