import Ztd.Filedat.Ownership

/-! Reading, deleting and copying chunks in memory. -/

namespace Ztd.Filedat.Memory
open Ztd.Lib Ztd.Lib.Assertion Chunk

section Reading
variable {slot : Slot} {cell : Cell} {below : List Allocated}

theorem members_none (slot : Slot) :
    Triple (Owns (.none slot)) (members slot.address)
      (endsIn (.ok (slot.offset, none)) (Owns (.none slot))) := by
  rw [owns_none]
  exact .step .load 1 (mul_one _).symm (.pure (le_endsIn (mul_one _).le))

theorem members_body :
    Triple (Body slot cell below) (members slot.address)
      (endsIn (.ok (slot.offset, some slot.achunk)) (Body slot cell below)) :=
  .step .load _ rfl (.pure (le_endsIn le_rfl))

theorem held_none (slot : Slot) :
    Triple (Owns (.none slot)) (held slot.address)
      (endsIn (.ok none) (Owns (.none slot))) :=
  .step (members_none slot) 1 (mul_one _).symm (.pure (le_endsIn (mul_one _).le))

theorem held_body :
    Triple (Body slot cell below) (held slot.address)
      (endsIn (.ok (some (slot.achunk, cell))) (Body slot cell below)) := by
  refine .step members_body 1 (mul_one _).symm ?_
  refine .step .load (pointsTo slot.address (.chunkdat slot.offset (some slot.achunk)) *
    OwnsAll below) ?_ (.pure (le_endsIn ?_))
  · rw [mul_one, Body, mul_left_comm]
  · rw [Body, mul_left_comm]

section Steps
variable {α : Type} {R : Assertion Cell} {next : Option (Nat × Cell) → Code α}
  {post : Except (Stop FormatError) α → Assertion Cell} (this : Allocated)

theorem step_none (slot : Slot) (later : Triple (Owns (.none slot) * R) (next .none) post) :
    Triple (Owns (.none slot) * R) (held slot.address >>= next) post :=
  .step (held_none slot) R rfl later

theorem step_body (is : this.cell? = some cell)
    (later : this.KeysAscend → Triple (Body this.offset cell this.children * R)
      (next (some (this.offset.achunk, cell))) post) :
    Triple (Owns this * R) (held this.address >>= next) post := by
  rw [owns_some is]
  simp only [iSup_mul]
  exact .exists_pre fun ascend => .step held_body R rfl (later ascend)

theorem step_held (is : this.cell? = some cell)
    (later : Triple (Owns this * R) (next (some (this.offset.achunk, cell))) post) :
    Triple (Owns this * R) (held this.address >>= next) post :=
  step_body this is fun ascend =>
    later.consequence (mul_le_mul_left (body_le this is ascend) R) fun _ => le_rfl

end Steps

end Reading

section Deleting

/-- Deleting chunks one by one frees all they own. -/
theorem forM_delete {delete : Nat → Code Unit} (chunks : List Allocated)
    (each : ∀ chunk ∈ chunks,
      Triple (Owns chunk) (delete chunk.address) (endsIn (.ok ()) 1)) :
    Triple (OwnsAll chunks) ((chunks.map address).forM delete) (endsIn (.ok ()) 1) := by
  induction chunks with
  | nil => exact .pure (le_endsIn le_rfl)
  | cons chunk rest ih =>
    rw [ownsAll_cons]
    refine .step (each chunk List.mem_cons_self) _ rfl ?_
    rw [one_mul]
    exact ih fun other member => each other (List.mem_cons_of_mem _ member)

theorem clearWith_spec (delete : Nat → Code Unit) (chunk : Allocated)
    (each : ∀ child ∈ chunk.children,
      Triple (Owns child) (delete child.address) (endsIn (.ok ()) 1)) :
    Triple (Owns chunk) (clearWith delete chunk.address)
      (endsIn (.ok ()) (Owns (.none chunk.offset))) := by
  cases is : chunk.cell? with
  | none =>
    cases chunk with
    | none slot =>
      refine .step (members_none slot) 1 (mul_one _).symm ?_
      refine .step (.pure (le_endsIn le_rfl)) 1 rfl ?_
      rw [mul_one, owns_none]
      exact .store _
    | string | map | list => cases is
  | some cell =>
    rw [owns_some is]
    refine .exists_pre fun _ => ?_
    refine .step members_body 1 (mul_one _).symm ?_
    rw [mul_one, owns_none]
    have deletes : Triple (pointsTo chunk.offset.achunk cell * OwnsAll chunk.children)
        (deleteHeld delete (some chunk.offset.achunk)) (endsIn (.ok ()) 1) := by
      refine .step .load _ rfl ?_
      rw [owned_cell is]
      refine .step (forM_delete chunk.children each) _ (mul_comm _ _) ?_
      rw [one_mul]
      exact .free
    refine .step deletes _ (mul_comm _ _) ?_
    rw [one_mul]
    exact .store _

theorem deleteFuel_spec {fuel : Nat} {chunk : Allocated} (enough : chunk.count ≤ fuel) :
    Triple (Owns chunk) (deleteFuel fuel chunk.address) (endsIn (.ok ()) 1) := by
  induction fuel generalizing chunk with
  | zero => exact absurd chunk.count_pos (by omega)
  | succ fuel ih =>
    have clears := clearWith_spec (deleteFuel fuel) chunk fun child member =>
      ih (by have less := count_child member; omega)
    refine .step clears 1 (mul_one _).symm ?_
    rw [mul_one, owns_none]
    exact .free

/-- Deleting a chunk frees what it owns, once. -/
theorem delete_spec (chunk : Allocated) :
    Triple (Owns chunk) (delete chunk.address) (endsIn (.ok ()) 1) :=
  .sized (occupies_owns chunk) fun _ enough => deleteFuel_spec enough

theorem clear_spec (chunk : Allocated) :
    Triple (Owns chunk) (clear chunk.address) (endsIn (.ok ()) (Owns (.none chunk.offset))) :=
  clearWith_spec delete chunk fun child _ => delete_spec child

end Deleting

section Copying
variable {allocator : Allocator Cell}

theorem setHeld_spec (slot : Slot) (achunk : Nat) (cell : Cell) (below : List Allocated) :
    Triple (Owns (.none slot) * (pointsTo achunk cell * OwnsAll below))
      (setHeld slot.address achunk)
      (endsIn (.ok ()) (Body { slot with achunk } cell below)) := by
  refine .step (members_none slot) _ rfl ?_
  rw [owns_none]
  exact .consequence (.frame_endsIn (.store _) _) le_rfl fun _ => le_rfl

/-- A chunk with a value, at an address. -/
def ValueAt (address : Nat) (chunk : Chunkdat) : Assertion Cell :=
  ⨆ copy : Allocated, ⨆ _ : copy.plain = chunk ∧ copy.address = address, Owns copy

theorem owns_le_valueAt {chunk : Chunkdat} {copy : Allocated} (same : copy.plain = chunk) :
    Owns copy ≤ ValueAt copy.address chunk := le_iSup₂_of_le copy ⟨same, rfl⟩ le_rfl

/-- The code makes a copy of the chunk. -/
def Copies (pcopy : Nat → Code Nat) (chunk : Allocated) : Prop :=
  Triple (Owns chunk) (pcopy chunk.address)
    (returns fun address => ValueAt address chunk.plain * Owns chunk)

theorem insertKey_new (tch : Nat) (name : Text) (values : List (Text × Allocated))
    (chunk : Allocated) (missing : OrderedMap.find? name values = .none) :
    Triple (pointsTo tch (.map (pointers values))) (insertKey tch name chunk.address)
      (endsIn (.ok true) (pointsTo tch (.map (pointers (OrderedMap.insert name chunk values))))) := by
  refine .step .load 1 (mul_one _).symm ?_
  simp only [find?_pointers, missing, Option.map_none, insert_pointers]
  exact .step (.store _) 1 rfl (.pure (le_endsIn (mul_one _).le))

/-- A value is copied and put into a map under a new key. -/
theorem insertCopy {pcopy : Nat → Code Nat} (tch : Nat) {name : Text} {value : Allocated}
    (values : List (Text × Allocated)) (copies : Copies pcopy value)
    (missing : OrderedMap.find? name values = .none) :
    Triple (MapAt tch values * Owns value)
      (do
        let chk ← pcopy value.address
        let _ ← insertKey tch name chk)
      (endsIn (.ok ()) (⨆ copy : Allocated, ⨆ _ : copy.plain = value.plain,
        MapAt tch (OrderedMap.insert name copy values) * Owns value)) := by
  refine .step_returns copies _ (mul_comm _ _) fun chk => ?_
  simp only [ValueAt, iSup_mul]
  refine .exists_pre fun copy => .exists_pre fun copied => ?_
  obtain ⟨same, rfl⟩ := copied
  refine .step (insertKey_new tch name values copy missing)
    (Owns copy * OwnsAll (values.map Prod.snd) * Owns value) (by rw [MapAt]; ac_rfl) ?_
  rw [← mul_assoc, mapAt_insert tch copy missing]
  exact .pure (le_endsIn (le_iSup₂_of_le copy same le_rfl))

/-- The loop that copies the values of a map. -/
theorem copyValues_spec {pcopy : Nat → Code Nat} (tch : Nat)
    (rest copied : List (Text × Allocated)) (copies : ∀ entry ∈ rest, Copies pcopy entry.2)
    (sorted : OrderedMap.Sorted (plainValues copied ++ plainValues rest)) :
    Triple (MapAt tch copied * OwnsAll (rest.map Prod.snd))
      ((pointers rest).forM fun (name, value) => do
        let chk ← pcopy value
        let _ ← insertKey tch name chk)
      (endsIn (.ok ()) (⨆ values, ⨆ _ : plainValues values = plainValues copied ++ plainValues rest,
        MapAt tch values * OwnsAll (rest.map Prod.snd))) := by
  induction rest generalizing copied with
  | nil =>
    refine .pure (le_endsIn (le_iSup₂_of_le copied ?_ le_rfl))
    simp [plainValues]
  | cons entry rest ih =>
    obtain ⟨name, value⟩ := entry
    have above : ∀ earlier ∈ copied, earlier.1 < name := fun earlier member =>
      (List.pairwise_append.mp sorted).2.2 (earlier.1, earlier.2.plain)
        (List.mem_map_of_mem (f := fun entry => (entry.1, plain entry.2)) member)
        (name, value.plain) List.mem_cons_self
    have missing : OrderedMap.find? name copied = .none := by
      refine OrderedMap.find?_eq_none_iff.mpr fun member => ?_
      obtain ⟨earlier, inside, rfl⟩ := List.mem_map.mp member
      exact lt_irrefl _ (above earlier inside)
    have last (copy : Allocated) :
        OrderedMap.insert name copy copied = copied ++ [(name, copy)] := OrderedMap.insert_last above
    refine .step (insertCopy tch copied (copies _ List.mem_cons_self) missing)
      (OwnsAll (rest.map Prod.snd)) (by simp only [List.map_cons, ownsAll_cons]; ac_rfl) ?_
    simp only [iSup_mul]
    refine .exists_pre fun copy => .exists_pre fun same => ?_
    have ordered : plainValues (copied ++ [(name, copy)]) ++ plainValues rest =
        plainValues copied ++ plainValues ((name, value) :: rest) := by
      simp only [plainValues, List.map_append, List.map_cons, List.map_nil, List.append_assoc,
        List.cons_append, List.nil_append]
      rw [← plain, ← plain, same]
    have later := ih (copied ++ [(name, copy)])
      (fun entry member => copies entry (List.mem_cons_of_mem _ member)) (ordered ▸ sorted)
    rw [last]
    refine .last later (Owns value) (by ac_rfl) ?_
    simp only [iSup_mul, ordered, List.map_cons, ownsAll_cons]
    exact iSup₂_mono fun values _ => le_of_eq (by ac_rfl)

/-- An element is copied and put behind a list. -/
theorem pushCopy {pcopy : Nat → Code Nat} (tch : Nat) {value : Allocated}
    (elements : List Allocated) (copies : Copies pcopy value) :
    Triple (ListAt tch elements * Owns value)
      (do
        let chk ← pcopy value.address
        pushBack tch chk)
      (endsIn (.ok ()) (⨆ copy : Allocated, ⨆ _ : copy.plain = value.plain,
        ListAt tch (elements ++ [copy]) * Owns value)) := by
  refine .step_returns copies _ (mul_comm _ _) fun chk => ?_
  simp only [ValueAt, iSup_mul]
  refine .exists_pre fun copy => .exists_pre fun copied => ?_
  obtain ⟨same, rfl⟩ := copied
  refine .step .load (Owns copy * OwnsAll elements * Owns value) (by rw [ListAt]; ac_rfl) ?_
  refine .last (.store _) _ rfl (le_iSup₂_of_le copy same (le_of_eq ?_))
  simp only [ListAt, List.map_append, List.map_cons, List.map_nil, ownsAll_append, ownsAll_cons,
    ownsAll_nil, mul_one]
  ac_rfl

/-- The loop that copies the elements of a list. -/
theorem copyElements_spec {pcopy : Nat → Code Nat} (tch : Nat) (rest copied : List Allocated)
    (copies : ∀ element ∈ rest, Copies pcopy element) :
    Triple (ListAt tch copied * OwnsAll rest)
      ((rest.map address).forM fun value => do
        let chk ← pcopy value
        pushBack tch chk)
      (endsIn (.ok ()) (⨆ elements, ⨆ _ : elements.map plain = copied.map plain ++ rest.map plain,
        ListAt tch elements * OwnsAll rest)) := by
  induction rest generalizing copied with
  | nil => exact .pure (le_endsIn (le_iSup₂_of_le copied (by simp) le_rfl))
  | cons value rest ih =>
    refine .step (pushCopy tch copied (copies value List.mem_cons_self)) (OwnsAll rest)
      (by rw [ownsAll_cons]; ac_rfl) ?_
    simp only [iSup_mul]
    refine .exists_pre fun copy => .exists_pre fun same => ?_
    have later := ih (copied ++ [copy]) fun element member =>
      copies element (List.mem_cons_of_mem _ member)
    have ordered : (copied ++ [copy]).map plain ++ rest.map plain =
        copied.map plain ++ (value :: rest).map plain := by simp [same]
    refine .last later (Owns value) (by ac_rfl) ?_
    simp only [iSup_mul, ordered, ownsAll_cons]
    exact iSup₂_mono fun elements _ => le_of_eq (by ac_rfl)

/-- What copying the cases leaves of a chunk that was cleared. -/
theorem copyHeld_spec (allocator : Allocator Cell) {pcopy : Nat → Code Nat} {chunk : Allocated}
    {cell : Cell} (is : chunk.cell? = some cell) (achunk : Nat) (ascend : chunk.KeysAscend)
    (copies : ∀ child ∈ chunk.children, Copies pcopy child) (address : Nat) :
    Triple (Owns (.none ⟨chunk.offset.offset, address, 0⟩) * OwnsAll chunk.children)
      (copyHeld allocator pcopy address (some (achunk, cell)))
      (endsIn (.ok ()) (ValueAt address chunk.plain * OwnsAll chunk.children)) := by
  cases chunk with
  | none slot => cases is
  | string slot val =>
    obtain rfl := Option.some.inj is
    refine .step_returns (.alloc allocator _) _ (one_mul _).symm fun tch => ?_
    refine .last (setHeld_spec ⟨slot.offset, address, 0⟩ tch (.string val) []) 1
      (by simp only [children, ownsAll_nil, mul_one, offset]; ac_rfl) ?_
    simp only [children, ownsAll_nil, mul_one]
    exact (body_le (.string ⟨slot.offset, address, tch⟩ val) rfl trivial).trans
      (owns_le_valueAt (by simp))
  | map slot values =>
    obtain rfl := Option.some.inj is
    refine .step_returns (.alloc allocator _) _ (one_mul _).symm fun tch => ?_
    refine .step (copyValues_spec tch values [] ?_ ?_) (Owns (.none ⟨slot.offset, address, 0⟩)) ?_ ?_
    · exact fun entry member => copies _ (List.mem_map_of_mem member)
    · exact (sorted_plainValues values).mpr ascend
    · simp only [MapAt, children, List.map_nil, ownsAll_nil, mul_one, offset]
      ac_rfl
    · simp only [iSup_mul]
      refine .exists_pre fun copied => .exists_pre fun same => ?_
      have sorted : OrderedMap.Sorted copied := (sorted_plainValues copied).mp
        (same ▸ (sorted_plainValues values).mpr ascend)
      refine .last (setHeld_spec ⟨slot.offset, address, 0⟩ tch (.map (pointers copied))
        (copied.map Prod.snd)) (OwnsAll (values.map Prod.snd)) (by rw [MapAt]; ac_rfl) ?_
      refine mul_le_mul_left ((body_le (.map ⟨slot.offset, address, tch⟩ copied) rfl
        sorted).trans (owns_le_valueAt ?_)) _
      simpa using same
  | list slot elements =>
    obtain rfl := Option.some.inj is
    refine .step_returns (.alloc allocator _) _ (one_mul _).symm fun tch => ?_
    refine .step (copyElements_spec tch elements [] copies) (Owns (.none ⟨slot.offset, address, 0⟩)) ?_ ?_
    · simp only [ListAt, children, List.map_nil, ownsAll_nil, mul_one, offset]
      ac_rfl
    · simp only [iSup_mul]
      refine .exists_pre fun copied => .exists_pre fun same => ?_
      refine .last (setHeld_spec ⟨slot.offset, address, 0⟩ tch
        (.list (copied.map Chunk.address)) copied) (OwnsAll elements) (by rw [ListAt]; ac_rfl) ?_
      refine mul_le_mul_left ((body_le (.list ⟨slot.offset, address, tch⟩ copied) rfl
        trivial).trans (owns_le_valueAt ?_)) _
      simpa using same

theorem setWith_spec (allocator : Allocator Cell) {pcopy : Nat → Code Nat} (this input : Allocated)
    (copies : ∀ child ∈ input.children, Copies pcopy child) :
    Triple (Owns this * Owns input) (setWith allocator pcopy this.address input.address)
      (endsIn (.ok ()) (ValueAt this.address input.plain * Owns input)) := by
  refine .step (clear_spec this) _ rfl ?_
  cases is : input.cell? with
  | none =>
    cases input with
    | none slot =>
      refine .step (members_none slot) _ (mul_comm _ _) ?_
      rw [owns_none this.offset]
      refine .step (.store _) _ (mul_comm _ _) ?_
      refine .step (held_none slot) _ (mul_comm _ _) ?_
      refine .pure (le_endsIn ?_)
      rw [mul_comm]
      refine mul_le_mul_left ?_ _
      have empty : (Chunk.none ⟨slot.offset, this.address, 0⟩).plain = plain (.none slot) := by simp
      have copy := owns_le_valueAt empty
      rwa [owns_none] at copy
    | string | map | list => cases is
  | some cell =>
    rw [owns_some is]
    simp only [mul_iSup]
    refine .exists_pre fun ascend => ?_
    refine .step members_body _ (mul_comm _ _) ?_
    rw [owns_none]
    refine .step (.store _) _ (mul_comm _ _) ?_
    refine .step held_body _ (mul_comm _ _) ?_
    have copied := copyHeld_spec allocator is input.offset.achunk ascend copies this.address
    rw [owns_none] at copied
    refine .last copied (pointsTo input.address (.chunkdat input.offset.offset
      (some input.offset.achunk)) * pointsTo input.offset.achunk cell) (by simp only [Body, Chunk.address]; ac_rfl) ?_
    refine le_iSup_of_le ascend (le_of_eq ?_)
    simp only [Body, Chunk.address]
    ac_rfl

theorem pcopyFuel_spec {fuel : Nat} {chunk : Allocated} (enough : chunk.count ≤ fuel) :
    Copies (pcopyFuel allocator fuel) chunk := by
  induction fuel generalizing chunk with
  | zero => exact absurd chunk.count_pos (by omega)
  | succ fuel ih =>
    refine .step_returns (.alloc allocator _) _ (one_mul _).symm fun this => ?_
    have sets := setWith_spec allocator (.none ⟨0, this, 0⟩) chunk fun child member =>
      ih (by have less := count_child member; omega)
    rw [owns_none] at sets
    exact .step sets 1 (mul_one _).symm (.pure (mul_one _).le)

/-- A deep copy: a chunk of its own with the same value. -/
theorem pcopy_spec (chunk : Allocated) : Copies (pcopy allocator) chunk :=
  .sized (occupies_owns chunk) fun _ enough => pcopyFuel_spec enough

theorem setChunk_spec (allocator : Allocator Cell) (this input : Allocated) :
    Triple (Owns this * Owns input) (setChunk allocator this.address input.address)
      (endsIn (.ok ()) (ValueAt this.address input.plain * Owns input)) :=
  setWith_spec allocator this input fun child _ => pcopy_spec child

end Copying

end Ztd.Filedat.Memory
