import Ztd.Filedat.Copying

/-! The editing functions in memory do what they do on values: the chunk they are
called on becomes the edited one, with the same exception, its operand stays as
it is, and nothing else is left allocated. -/

namespace Ztd.Filedat.Memory
open Ztd.Lib Ztd.Lib.Assertion Chunk

section Printing
variable {alignment : UInt32} {aligner : Text} {strval : Nat → Code Text}

theorem type_spec (chunk : Allocated) :
    Triple (Owns chunk) (type chunk.address) (endsIn (.ok chunk.type) (Owns chunk)) := by
  cases is : chunk.cell? with
  | none =>
    cases chunk with
    | none slot => exact .step (held_none slot) 1 (mul_one _).symm (.pure (le_endsIn (mul_one _).le))
    | string | map | list => cases is
  | some cell =>
    rw [owns_some is]
    refine .exists_pre fun ascend => ?_
    refine .step held_body 1 (mul_one _).symm ?_
    rw [mul_one]
    cases chunk <;> cases is <;> exact .pure (le_endsIn (le_iSup_of_le ascend le_rfl))

/-- The code prints the chunk. -/
def Prints (strval : Nat → Code Text) (chunk : Allocated) (printed : Text) : Prop :=
  Triple (Owns chunk) (strval chunk.address) (endsIn (.ok printed) (Owns chunk))

theorem itemWith_spec {chunk : Allocated} {printed : Text} (prints : Prints strval chunk printed) :
    Prints (itemWith strval) chunk (item chunk.plain printed) := by
  refine .step prints 1 (mul_one _).symm ?_
  refine .step (type_spec chunk) 1 rfl ?_
  rw [mul_one, item, plain_type]
  split
  · exact .pure (le_endsIn le_rfl)
  · exact .pure (le_endsIn le_rfl)

theorem strvalValues_spec (values : List (Text × Allocated))
    (each : ∀ entry ∈ values,
      Prints strval entry.2 (entry.2.plain.strval (alignment + 1) aligner)) :
    Triple (OwnsAll (values.map Prod.snd))
      (strvalValues strval (repeatString aligner (alignment + 1).toNat) (pointers values))
      (endsIn (.ok (Chunk.strvalValues alignment aligner (plainValues values)))
        (OwnsAll (values.map Prod.snd))) := by
  induction values with
  | nil => exact .pure (le_endsIn le_rfl)
  | cons entry rest ih =>
    obtain ⟨key, value⟩ := entry
    rw [List.map_cons, ownsAll_cons]
    refine .step (itemWith_spec (each _ List.mem_cons_self)) _ rfl ?_
    refine .step (ih fun other member => each other (List.mem_cons_of_mem _ member)) _
      (mul_comm _ _) (.pure ?_)
    rw [mul_comm]
    exact le_endsIn le_rfl

theorem strvalElements_spec (elements : List Allocated)
    (each : ∀ element ∈ elements,
      Prints strval element (element.plain.strval (alignment + 1) aligner)) :
    Triple (OwnsAll elements)
      (strvalElements strval (repeatString aligner (alignment + 1).toNat) (elements.map address))
      (endsIn (.ok (Chunk.strvalElements alignment aligner (elements.map plain)))
        (OwnsAll elements)) := by
  induction elements with
  | nil => exact .pure (le_endsIn le_rfl)
  | cons element rest ih =>
    rw [ownsAll_cons]
    refine .step (itemWith_spec (each _ List.mem_cons_self)) _ rfl ?_
    refine .step (ih fun other member => each other (List.mem_cons_of_mem _ member)) _
      (mul_comm _ _) (.pure ?_)
    rw [mul_comm]
    exact le_endsIn le_rfl

theorem strvalFuel_spec {fuel : Nat} {chunk : Allocated} (enough : chunk.count ≤ fuel) :
    Prints (strvalFuel aligner fuel alignment) chunk (chunk.plain.strval alignment aligner) := by
  induction fuel generalizing chunk alignment with
  | zero => exact absurd chunk.count_pos (by omega)
  | succ fuel ih =>
    have below {child : Allocated} (member : child ∈ chunk.children) :
        Prints (strvalFuel aligner fuel (alignment + 1)) child
          (child.plain.strval (alignment + 1) aligner) :=
      ih (by have less := count_child member; omega)
    cases is : chunk.cell? with
    | none =>
      cases chunk with
      | none slot => exact .step (held_none slot) 1 (mul_one _).symm (.pure (le_endsIn (mul_one _).le))
      | string | map | list => cases is
    | some cell =>
      rw [Prints, owns_some is]
      refine .exists_pre fun ascend => ?_
      refine .step held_body 1 (mul_one _).symm ?_
      rw [mul_one]
      have body := le_iSup_of_le (f := fun _ : chunk.KeysAscend =>
        Body chunk.offset cell chunk.children) ascend le_rfl
      cases chunk with
      | none slot => cases is
      | string slot val =>
        cases is
        exact .pure (le_endsIn body)
      | map slot values =>
        cases is
        cases values with
        | nil => exact .pure (le_endsIn body)
        | cons entry rest =>
          have printed := strvalValues_spec (entry :: rest) fun entry member =>
            below (List.mem_map_of_mem (f := Prod.snd) member)
          refine .step printed (pointsTo slot.address (.chunkdat slot.offset (some slot.achunk)) *
            pointsTo slot.achunk (.map (pointers (entry :: rest)))) (by rw [Body]; ac_rfl) (.pure ?_)
          rw [plain_map]
          refine le_endsIn (le_trans (le_of_eq ?_) body)
          rw [Body]
          ac_rfl
      | list slot elements =>
        cases is
        cases elements with
        | nil => exact .pure (le_endsIn body)
        | cons element rest =>
          have printed := strvalElements_spec (element :: rest) fun element => below
          refine .step printed (pointsTo slot.address (.chunkdat slot.offset (some slot.achunk)) *
            pointsTo slot.achunk (.list ((element :: rest).map address))) (by rw [Body]; ac_rfl) (.pure ?_)
          rw [plain_list]
          refine le_endsIn (le_trans (le_of_eq ?_) body)
          rw [Body]
          ac_rfl

theorem strval_spec (chunk : Allocated) :
    Prints (fun this => Memory.strval this alignment aligner) chunk
      (chunk.plain.strval alignment aligner) :=
  .sized (occupies_owns chunk) fun _ enough => strvalFuel_spec enough

theorem str_spec (chunk : Allocated) : Prints str chunk chunk.plain.str := strval_spec chunk

end Printing

/-- How a function ends, by what it throws. -/
def ended : Option FormatError → Except (Stop FormatError) Unit
  | .none => .ok ()
  | some error => .error (.thrown error)

/-- The chunk after it was edited; its sub-chunks are where they were. -/
def EditedAt (before : Allocated) (chunk : Chunkdat) : Assertion Cell :=
  ⨆ after : Allocated, ⨆ _ : after.plain = chunk ∧ before.Stays after, Owns after

/-- The chunk that takes the place of another one; where this keeps references,
its sub-chunks are where they were. -/
def LeftAt (keeps : Prop) (before : Allocated) (chunk : Chunkdat) : Assertion Cell :=
  ⨆ after : Allocated, ⨆ _ : after.plain = chunk ∧ after.address = before.address ∧
    (keeps → before.Stays after), Owns after

/-- The function edits the chunk as its value is edited, and throws the same. -/
def Edits (before : Allocated) (edit : Edited Int) (rest : Assertion Cell) :
    Except (Stop FormatError) Unit → Assertion Cell :=
  endsIn (ended edit.2) (EditedAt before edit.1 * rest)

theorem owns_le_editedAt (before : Allocated) {after : Allocated} {chunk : Chunkdat}
    (same : after.plain = chunk) (stays : before.Stays after) :
    Owns after ≤ EditedAt before chunk := le_iSup₂_of_le after ⟨same, stays⟩ le_rfl

theorem owns_le_unedited (chunk : Allocated) : Owns chunk ≤ EditedAt chunk chunk.plain :=
  owns_le_editedAt chunk rfl (.refl chunk)

theorem valueAt_le_editedAt (before : Allocated) (leaf : before.children = []) (chunk : Chunkdat) :
    ValueAt before.address chunk ≤ EditedAt before chunk :=
  iSup₂_le fun _ copied => owns_le_editedAt before copied.1 (stays_leaf leaf copied.2)

theorem editedAt_le_leftAt (keeps : Prop) (before : Allocated) (chunk : Chunkdat) :
    EditedAt before chunk ≤ LeftAt keeps before chunk :=
  iSup₂_mono' fun after edited =>
    ⟨after, ⟨edited.1, edited.2.address_eq, fun _ => edited.2⟩, le_rfl⟩

theorem valueAt_le_leftAt {keeps : Prop} (loses : ¬ keeps) (before : Allocated)
    (chunk : Chunkdat) : ValueAt before.address chunk ≤ LeftAt keeps before chunk :=
  iSup₂_mono' fun after copied =>
    ⟨after, ⟨copied.1, copied.2, fun kept => absurd kept loses⟩, le_rfl⟩

theorem leftAt_le_valueAt (keeps : Prop) (before : Allocated) (chunk : Chunkdat) :
    LeftAt keeps before chunk ≤ ValueAt before.address chunk :=
  iSup₂_mono' fun after left => ⟨after, ⟨left.1, left.2.1⟩, le_rfl⟩

section Adding
variable {allocator : Allocator Cell} {slot : Slot} {val : Nat}
  {chunk : Chunkdat} {R : Assertion Cell}

/-- An exception whose text is printed from the chunk. -/
theorem raise_str (this : Allocated) (error : Text → FormatError) {Q : Assertion Cell}
    (left : Owns this * R ≤ Q) :
    Triple (Owns this * R)
      (do
        let data ← str this.address
        Act.raise (error data))
      (endsIn (ended (some (error this.plain.str))) Q : Except _ Unit → _) :=
  .step (str_spec this) _ rfl (.raise (le_endsIn left))

theorem insertKey_present {tch : Nat} {name : Text} {values : List (Text × Allocated)}
    {found : Allocated} (chk : Nat) (present : OrderedMap.find? name values = some found) :
    Triple (pointsTo tch (.map (pointers values))) (insertKey tch name chk)
      (endsIn (.ok false) (pointsTo tch (.map (pointers values)))) := by
  refine .step .load 1 (mul_one _).symm ?_
  simp only [find?_pointers, present, Option.map_some]
  exact .pure (le_endsIn (mul_one _).le)

section Keys
variable {values : List (Text × Allocated)}

theorem stays_insert_new {name : Text} (copy : Allocated)
    (missing : OrderedMap.find? name values = .none) :
    (Chunk.map slot values).Stays (.map slot (OrderedMap.insert name copy values)) :=
  stays_map fun other found there => by
    refine ⟨found, ?_, .refl found⟩
    have different : other ≠ name := by
      rintro rfl
      rw [missing] at there
      cases there
    rw [OrderedMap.find?_insert_ne different, there]

/-- `addToMap` of a key that a map does not have, with a value that may be a part
of it. -/
theorem addToMap_new {name : Text} (missing : OrderedMap.find? name values = .none)
    (copies : Triple (Body slot (.map (pointers values)) (values.map Prod.snd) * R)
      (pcopy allocator val) (returns fun copied => ValueAt copied chunk *
        (Body slot (.map (pointers values)) (values.map Prod.snd) * R))) :
    Triple (Body slot (.map (pointers values)) (values.map Prod.snd) * R)
      (addToMap allocator slot.address name val)
      (endsIn (.ok ()) (⨆ copy : Allocated, ⨆ _ : copy.plain = chunk,
        Body slot (.map (pointers (OrderedMap.insert name copy values)))
          ((OrderedMap.insert name copy values).map Prod.snd) * R)) := by
  refine .step held_body _ rfl ?_
  refine .step_returns copies 1 (mul_one _).symm fun chk => ?_
  simp only [ValueAt, iSup_mul]
  refine .exists_pre fun copy => .exists_pre fun copied => ?_
  obtain ⟨same, rfl⟩ := copied
  refine .step (insertKey_new slot.achunk name values copy missing)
    (pointsTo slot.address (.chunkdat slot.offset (some slot.achunk)) *
      (Owns copy * OwnsAll (values.map Prod.snd)) * R) (by simp only [Body]; ac_rfl)
    (.pure (le_endsIn ?_))
  refine le_iSup₂_of_le copy same (le_of_eq ?_)
  have whole := mapAt_insert slot.achunk copy missing
  rw [MapAt] at whole
  rw [Body, ← whole]
  ac_rfl

/-- `addToMap` of a key that a map has. -/
theorem addToMap_present {name : Text} {found : Allocated} (ascend : OrderedMap.Sorted values)
    (present : OrderedMap.find? name values = some found)
    (copies : Triple (Body slot (.map (pointers values)) (values.map Prod.snd) * R)
      (pcopy allocator val) (returns fun copied => ValueAt copied chunk *
        (Body slot (.map (pointers values)) (values.map Prod.snd) * R))) :
    Triple (Body slot (.map (pointers values)) (values.map Prod.snd) * R)
      (addToMap allocator slot.address name val)
      (endsIn (ended (some (formatError ("Key '".toList ++ name ++ "' already present".toList) []
        (plain (.map slot values)).str (-1)))) (Owns (.map slot values) * R)) := by
  refine .step held_body _ rfl ?_
  refine .step_returns copies 1 (mul_one _).symm fun chk => ?_
  simp only [ValueAt, iSup_mul]
  refine .exists_pre fun copy => .exists_pre fun copied => ?_
  obtain ⟨same, rfl⟩ := copied
  refine .step (insertKey_present copy.address present)
    (pointsTo slot.address (.chunkdat slot.offset (some slot.achunk)) *
      (Owns copy * OwnsAll (values.map Prod.snd)) * R) (by simp only [Body]; ac_rfl) ?_
  refine .step (delete_spec copy) (Body slot (.map (pointers values)) (values.map Prod.snd) *
    R) (by rw [Body]; ac_rfl) ?_
  rw [one_mul]
  exact .consequence (raise_str (.map slot values) (R := R) (formatError
    ("Key '".toList ++ name ++ "' already present".toList) [] · (-1)) le_rfl)
      (mul_le_mul_left (body_le (.map slot values) rfl ascend) R) fun _ => le_rfl

/-- `addToMap` on a map, with a value that may be a part of it. -/
theorem addToMap_map (ascend : OrderedMap.Sorted values) (name : Text)
    (copies : Triple (Body slot (.map (pointers values)) (values.map Prod.snd) * R)
      (pcopy allocator val) (returns fun copied => ValueAt copied chunk *
        (Body slot (.map (pointers values)) (values.map Prod.snd) * R))) :
    Triple (Body slot (.map (pointers values)) (values.map Prod.snd) * R)
      (addToMap allocator slot.address name val)
      (Edits (.map slot values) ((plain (.map slot values)).addToMap name chunk) R) := by
  rw [plain_map, Chunk.addToMap, find?_plainValues, ← plain_map, copy_eq]
  cases is : OrderedMap.find? name values with
  | none =>
    refine .last (addToMap_new is copies) 1 (mul_one _).symm ?_
    rw [mul_one]
    refine iSup₂_le fun copy same => mul_le_mul_left ?_ R
    have plain_ : plain (.map slot (OrderedMap.insert name copy values)) =
        .map slot.offset (OrderedMap.insert name chunk (plainValues values)) := by
      rw [plain_map, insert_plainValues, same]
    exact (body_le (.map slot (OrderedMap.insert name copy values)) rfl
      (ascend.insert name copy)).trans (owns_le_editedAt _ plain_ (stays_insert_new copy is))
  | some found =>
    exact .last (addToMap_present ascend is copies) 1 (mul_one _).symm
      ((mul_one _).le.trans (mul_le_mul_left (owns_le_unedited _) R))

end Keys

/-- `addToList` on a list, with an element that may be a part of it. -/
theorem addToList_list {elements : List Allocated}
    (copies : Triple (Body slot (.list (elements.map address)) elements * R)
      (pcopy allocator val) (returns fun copied => ValueAt copied chunk *
        (Body slot (.list (elements.map address)) elements * R))) :
    Triple (Body slot (.list (elements.map address)) elements * R)
      (addToList allocator slot.address val)
      (Edits (.list slot elements) ((plain (.list slot elements)).addToList chunk) R) := by
  rw [plain_list, Chunk.addToList, copy_eq]
  refine .step held_body _ rfl ?_
  refine .step_returns copies 1 (mul_one _).symm fun chk => ?_
  simp only [ValueAt, iSup_mul]
  refine .exists_pre fun copy => .exists_pre fun copied => ?_
  obtain ⟨same, rfl⟩ := copied
  refine .step .load (pointsTo slot.address (.chunkdat slot.offset (some slot.achunk)) *
    (Owns copy * OwnsAll elements) * R) (by simp only [Body]; ac_rfl) ?_
  refine .last (.store _) _ rfl ?_
  have plain_ : plain (.list slot (elements ++ [copy])) =
      .list slot.offset (elements.map plain ++ [chunk]) := by simp [same]
  have added := (body_le (.list slot (elements ++ [copy])) rfl trivial).trans
    (owns_le_editedAt _ plain_ (stays_append elements [copy]))
  refine le_trans (le_of_eq ?_) (mul_le_mul_left added R)
  simp only [Body, children, offset, ownsAll_append, ownsAll_cons, ownsAll_nil, mul_one,
    List.map_append, List.map_cons, List.map_nil]
  ac_rfl

section Operand

/-- A chunk that is anywhere in the memory can be copied. -/
theorem copies_within {P G : Assertion Cell} {val : Allocated} (within : P = Owns val * G) :
    Triple P (pcopy allocator val.address)
      (returns fun copied => ValueAt copied val.plain * P) := by
  subst within
  have copies : Copies (pcopy allocator) val := pcopy_spec val
  refine .consequence (copies.frame_returns G) le_rfl fun outcome => ?_
  cases outcome with
  | ok copied => exact (mul_assoc ..).le
  | error stop => exact le_rfl

section Filled
variable {this val : Allocated} {G : Assertion Cell}

/-- `addToMap` on a chunk that is not empty, with a value that is anywhere. -/
theorem addToMap_filled (filled : this.type ≠ .none) (within : Owns this * R = Owns val * G)
    (name : Text) : Triple (Owns this * R) (addToMap allocator this.address name val.address)
      (Edits this (this.plain.addToMap name val.plain) R) := by
  have refused (error : Text → FormatError) := raise_str this (R := R) error
    (mul_le_mul_left (owns_le_unedited this) _)
  cases this with
  | none slot => exact absurd rfl filled
  | string slot text => exact step_held _ rfl (.consequence (refused _) le_rfl fun _ => le_rfl)
  | map slot values =>
    rw [owns_map, iSup_mul] at *
    refine .exists_pre fun ascend => ?_
    rw [iSup_pos ascend] at within
    exact addToMap_map ascend name (copies_within within)
  | list slot elements => exact step_held _ rfl (.consequence (refused _) le_rfl fun _ => le_rfl)

/-- `addToList` on a chunk that is not empty, with an element that is anywhere. -/
theorem addToList_filled (filled : this.type ≠ .none)
    (within : Owns this * R = Owns val * G) :
    Triple (Owns this * R) (addToList allocator this.address val.address)
      (Edits this (this.plain.addToList val.plain) R) := by
  have refused (error : Text → FormatError) := raise_str this (R := R) error
    (mul_le_mul_left (owns_le_unedited this) _)
  cases this with
  | none slot => exact absurd rfl filled
  | string slot text => exact step_held _ rfl (.consequence (refused _) le_rfl fun _ => le_rfl)
  | map slot values => exact step_held _ rfl (.consequence (refused _) le_rfl fun _ => le_rfl)
  | list slot elements =>
    rw [owns_list] at *
    exact addToList_list (copies_within within)

end Filled

variable (val : Allocated)

theorem addToMap_spec (this : Allocated) (name : Text) :
    Triple (Owns this * Owns val) (addToMap allocator this.address name val.address)
      (Edits this (this.plain.addToMap name val.plain) (Owns val)) := by
  by_cases filled : this.type ≠ .none
  · exact addToMap_filled filled (mul_comm _ _) name
  · cases this with
    | string | map | list => exact absurd (by simp [Chunk.type]) filled
    | none slot =>
      rw [plain_none, Chunk.addToMap, copy_eq]
      refine step_none slot ?_
      refine .step_returns (.alloc allocator _) _ (one_mul _).symm fun cp => ?_
      refine .step (setHeld_spec slot cp (.map []) []) (Owns val)
        (by simp only [ownsAll_nil, mul_one]; ac_rfl) ?_
      have copies : Copies (pcopy allocator) val := pcopy_spec val
      refine .last (insertCopy cp [] copies rfl)
        (pointsTo slot.address (.chunkdat slot.offset (some cp)))
        (by simp only [MapAt, Body, List.map_nil]; ac_rfl) ?_
      simp only [iSup_mul]
      refine iSup₂_le fun copy same => ?_
      have plain_ : plain (.map { slot with achunk := cp } [(name, copy)]) =
          .map slot.offset [(name, val.plain)] := by
        rw [plain_map, ← same]
        rfl
      have single : OrderedMap.Sorted [(name, copy)] := List.pairwise_singleton ..
      have added := (body_le (.map { slot with achunk := cp } [(name, copy)]) rfl single).trans
        (owns_le_editedAt (.none slot) plain_ (stays_leaf rfl rfl))
      refine le_trans (le_of_eq ?_) (mul_le_mul_left added _)
      simp only [MapAt, Body, OrderedMap.insert, children, offset]
      ac_rfl

theorem addToList_spec (this : Allocated) :
    Triple (Owns this * Owns val) (addToList allocator this.address val.address)
      (Edits this (this.plain.addToList val.plain) (Owns val)) := by
  by_cases filled : this.type ≠ .none
  · exact addToList_filled filled (mul_comm _ _)
  · cases this with
    | string | map | list => exact absurd (by simp [Chunk.type]) filled
    | none slot =>
      rw [plain_none, Chunk.addToList, copy_eq]
      refine step_none slot ?_
      refine .step_returns (.alloc allocator _) _ (one_mul _).symm fun lp => ?_
      refine .step (setHeld_spec slot lp (.list []) []) (Owns val)
        (by simp only [ownsAll_nil, mul_one]; ac_rfl) ?_
      have copies : Copies (pcopy allocator) val := pcopy_spec val
      refine .last (pushCopy lp [] copies)
        (pointsTo slot.address (.chunkdat slot.offset (some lp)))
        (by simp only [ListAt, Body, List.map_nil]; ac_rfl) ?_
      simp only [iSup_mul]
      refine iSup₂_le fun copy same => ?_
      have plain_ : plain (.list { slot with achunk := lp } [copy]) =
          .list slot.offset [val.plain] := by
        rw [plain_list, ← same]
        rfl
      have added := (body_le (.list { slot with achunk := lp } [copy]) rfl trivial).trans
        (owns_le_editedAt (.none slot) plain_ (stays_leaf rfl rfl))
      refine le_trans (le_of_eq ?_) (mul_le_mul_left added _)
      simp only [ListAt, Body, List.nil_append, children, offset]
      ac_rfl

end Operand

end Adding

end Ztd.Filedat.Memory
