import Ztd.Filedat.Editing
import Ztd.Filedat.MergeAlgebra

/-! `concatenate`, `merge` and `erase` in memory, against their values. -/

namespace Ztd.Filedat
open Ztd.Lib Ztd.Lib.Assertion

/-- The chunk an edit leaves is edited further, unless it threw. -/
def Edited.andThen {ι : Type} (edit : Edited ι) (next : Chunk ι → Edited ι) : Edited ι :=
  match edit with
  | (chunk, none) => next chunk
  | (chunk, some error) => (chunk, some error)

namespace Chunk
variable {ι : Type} (this : Chunk ι)

theorem addAllToMap_cons (name : Text) (val : Chunk ι) (rest : List (Text × Chunk ι)) :
    this.addAllToMap ((name, val) :: rest) =
      (this.addToMap name val).andThen fun chunk => chunk.addAllToMap rest := by
  rw [Chunk.addAllToMap]
  cases this.addToMap name val with
  | mk chunk stop => cases stop <;> rfl

theorem addAllToList_cons (val : Chunk ι) (rest : List (Chunk ι)) :
    this.addAllToList (val :: rest) =
      (this.addToList val).andThen fun chunk => chunk.addAllToList rest := by
  rw [Chunk.addAllToList]
  cases this.addToList val with
  | mk chunk stop => cases stop <;> rfl

theorem mergeValues_cons (overwrite : Bool) (values rest : List (Text × Chunk ι))
    (entry : Text × Chunk ι) :
    mergeValues overwrite values (entry :: rest) =
      match mergeValues overwrite values [entry] with
      | (merged, .none) => mergeValues overwrite merged rest
      | (merged, some error) => (merged, some error) := by
  obtain ⟨key, value⟩ := entry
  cases present : OrderedMap.find? key values with
  | none => rw [mergeValues_new present, mergeValues_new present, mergeValues]
  | some found =>
    cases stop : (found.merge overwrite value).2 with
    | none => rw [mergeValues_shared present stop, mergeValues_shared present stop, mergeValues]
    | some error => rw [mergeValues_stop present stop, mergeValues_stop present stop]

theorem mergeValues_single {overwrite : Bool} {key : Text} {value found : Chunk ι}
    {values : List (Text × Chunk ι)} (present : OrderedMap.find? key values = some found) :
    mergeValues overwrite values [(key, value)] =
      (OrderedMap.insert key (found.merge overwrite value).1 values,
        (found.merge overwrite value).2) := by
  cases stop : (found.merge overwrite value).2 with
  | none => rw [mergeValues_shared present stop, mergeValues]
  | some error => rw [mergeValues_stop present stop]

theorem merge_conflict {overwrite : Bool} {a b : Chunk ι} (different : a.type ≠ b.type)
    (filled : a.type ≠ .none) : a.merge overwrite b = mergeConflict overwrite a b := by
  cases b <;> cases a <;> simp_all [merge, type]

end Chunk

namespace Memory
open Chunk

variable {allocator : Allocator Cell}

theorem editedAt_trans {before after : Allocated} (stays : before.Stays after) (chunk : Chunkdat) :
    EditedAt after chunk ≤ EditedAt before chunk :=
  iSup₂_le fun _ edited => owns_le_editedAt before edited.1 (stays.trans edited.2)

/-- An edit and what comes behind it. -/
theorem step_edit {act : Code Unit} {next : Unit → Code Unit} {this : Allocated}
    {P R : Assertion Cell} {edit : Edited Int} {final : Chunkdat → Edited Int}
    (first : Triple (Owns this * P) act (Edits this edit P))
    (later : ∀ after : Allocated, after.address = this.address →
      Triple (Owns after * (P * R)) (next ()) (Edits after (final after.plain) (P * R))) :
    Triple (Owns this * (P * R)) (act >>= next) (Edits this (edit.andThen final) (P * R)) := by
  obtain ⟨chunk, stop⟩ := edit
  cases stop with
  | none =>
    refine .step first R (mul_assoc ..).symm ?_
    simp only [EditedAt, iSup_mul]
    refine .exists_pre fun after => .exists_pre fun edited => ?_
    obtain ⟨rfl, stays⟩ := edited
    refine .last (later after stays.address_eq) 1 (by rw [mul_one, mul_assoc]) ?_
    rw [mul_one]
    exact mul_le_mul_left (editedAt_trans stays _) _
  | some error => exact .stop first R (mul_assoc ..).symm (le_endsIn (mul_assoc ..).le)

/-- The loop of `concatenate` over the values of a map. -/
theorem addAllToMap_spec (this : Allocated) (values : List (Text × Allocated)) :
    Triple (Owns this * OwnsAll (values.map Prod.snd))
      ((pointers values).forM fun (name, value) => addToMap allocator this.address name value)
      (Edits this (this.plain.addAllToMap (plainValues values)) (OwnsAll (values.map Prod.snd))) := by
  induction values generalizing this with
  | nil => exact .pure (le_endsIn (mul_le_mul_left (owns_le_unedited this) _))
  | cons entry rest ih =>
    obtain ⟨name, value⟩ := entry
    simp only [List.map_cons, ownsAll_cons, plainValues_cons, addAllToMap_cons]
    refine step_edit (addToMap_spec value this name) fun after at_ => ?_
    exact .last (at_ ▸ ih after) (Owns value) (by ac_rfl) (le_of_eq (by ac_rfl))

/-- The loop of `concatenate` over the elements of a list. -/
theorem addAllToList_spec (this : Allocated) (elements : List Allocated) :
    Triple (Owns this * OwnsAll elements)
      ((elements.map address).forM fun value => addToList allocator this.address value)
      (Edits this (this.plain.addAllToList (elements.map plain)) (OwnsAll elements)) := by
  induction elements generalizing this with
  | nil => exact .pure (le_endsIn (mul_le_mul_left (owns_le_unedited this) _))
  | cons value rest ih =>
    simp only [ownsAll_cons, List.map_cons, addAllToList_cons]
    refine step_edit (addToList_spec value this) fun after at_ => ?_
    exact .last (at_ ▸ ih after) (Owns value) (by ac_rfl) (le_of_eq (by ac_rfl))

section Concatenate
variable {α : Type} {R : Assertion Cell} {next : Option (Nat × Cell) → Code α}
  {post : Except (Stop FormatError) α → Assertion Cell}

/-- What the other chunk holds is read as well. -/
theorem step_other (chk : Allocated) (later : ∀ found, found.map Prod.snd = chk.cell? →
      Triple (R * Owns chk) (next found) post) :
    Triple (R * Owns chk) (held chk.address >>= next) post := by
  rw [mul_comm]
  cases is : chk.cell? with
  | none =>
    cases chk with
    | none slot => exact step_none slot (mul_comm R _ ▸ later .none rfl)
    | string | map | list => cases is
  | some cell => exact step_held _ is (mul_comm R _ ▸ later (some (_, cell)) is.symm)

theorem step_otherBody (chk : Allocated) {cell : Cell} (is : chk.cell? = some cell)
    (later : chk.KeysAscend → Triple (R * Body chk.offset cell chk.children)
      (next (some (chk.offset.achunk, cell))) post) :
    Triple (R * Owns chk) (held chk.address >>= next) post := by
  rw [mul_comm]
  exact step_body _ is fun ascend => mul_comm R _ ▸ later ascend

theorem raise_spec (this : Allocated) (error : FormatError) (R : Assertion Cell) :
    Triple (Owns this * R) (Act.raise error) (Edits this (this.plain, some error) R) :=
  .raise (le_endsIn (mul_le_mul_left (owns_le_unedited this) R))

theorem concatenate_spec (this chk : Allocated) :
    Triple (Owns this * Owns chk) (concatenate allocator this.address chk.address)
      (Edits this (this.plain.concatenate chk.plain) (Owns chk)) := by
  cases this with
  | none slot =>
    refine step_none slot (step_other chk fun found is => ?_)
    refine .last (setChunk_spec allocator (.none slot) chk) 1 (mul_one _).symm ?_
    rw [mul_one, plain_none, Chunk.concatenate, setChunk_eq]
    exact mul_le_mul_left (valueAt_le_editedAt (.none slot) rfl _) _
  | string slot val =>
    cases chk with
    | string other text =>
      refine step_body _ rfl fun _ => step_otherBody _ rfl fun _ => ?_
      refine .last (.store (.string val)) (pointsTo slot.address (.chunkdat slot.offset (some slot.achunk)) *
        Body other (.string text) [])
        (by simp only [Body, children, ownsAll_nil, mul_one, offset]; ac_rfl) ?_
      have joined := (body_le (.string slot (val ++ text)) rfl trivial).trans
        (owns_le_editedAt (.string slot val) (plain_string ..) (stays_leaf rfl rfl))
      have kept := body_le (.string other text) rfl trivial
      refine le_trans (le_of_eq ?_) (mul_le_mul' joined kept)
      simp only [Body, children, ownsAll_nil, mul_one, offset]
      ac_rfl
    | none | map | list =>
      refine step_held _ rfl (step_other _ fun found is => ?_)
      rcases found with _ | ⟨_, _⟩ <;> cases is
      exact raise_spec _ _ _
  | map slot values =>
    cases chk with
    | map other entries =>
      have values_ : (plain (.map slot values)).concatenate (plain (.map other entries)) =
          (plain (.map slot values)).addAllToMap (plainValues entries) := by
        simp only [plain_map, Chunk.concatenate]
      rw [values_]
      refine step_held _ rfl (step_otherBody _ rfl fun ascend => ?_)
      refine .last (addAllToMap_spec (.map slot values) entries)
        (pointsTo other.address (.chunkdat other.offset (some other.achunk)) *
          pointsTo other.achunk (.map (pointers entries)))
        (by simp only [Body, children, offset]; ac_rfl) ?_
      have kept := body_le (.map other entries) rfl ascend
      refine le_trans (le_of_eq ?_) (mul_le_mul_right kept _)
      simp only [Body, children, offset]
      ac_rfl
    | none | string | list =>
      refine step_held _ rfl (step_other _ fun found is => ?_)
      rcases found with _ | ⟨_, _⟩ <;> cases is
      exact raise_spec _ _ _
  | list slot elements =>
    cases chk with
    | list other others =>
      have elements_ : (plain (.list slot elements)).concatenate (plain (.list other others)) =
          (plain (.list slot elements)).addAllToList (others.map plain) := by
        simp only [plain_list, Chunk.concatenate]
      rw [elements_]
      refine step_held _ rfl (step_otherBody _ rfl fun ascend => ?_)
      refine .last (addAllToList_spec (.list slot elements) others)
        (pointsTo other.address (.chunkdat other.offset (some other.achunk)) *
          pointsTo other.achunk (.list (others.map address)))
        (by simp only [Body, children, offset]; ac_rfl) ?_
      have kept := body_le (.list other others) rfl ascend
      refine le_trans (le_of_eq ?_) (mul_le_mul_right kept _)
      simp only [Body, children, offset]
      ac_rfl
    | none | string | map =>
      refine step_held _ rfl (step_other _ fun found is => ?_)
      rcases found with _ | ⟨_, _⟩ <;> cases is
      exact raise_spec _ _ _

end Concatenate

section Merge
variable {overwrite : Bool}

/-- The chunk becomes the merged one, with the same exception; where nothing is
overwritten, references into it stay. -/
def Merges (overwrite : Bool) (before : Allocated) (edit : Edited Int) (rest : Assertion Cell) :
    Except (Stop FormatError) Unit → Assertion Cell :=
  endsIn (ended edit.2) (LeftAt (overwrite = false) before edit.1 * rest)

/-- The map that a `chunkdat` holds, at some time of a merge. -/
def MapMerged (overwrite : Bool) (slot : Slot) (before : List (Text × Allocated))
    (values : List (Text × Chunkdat)) : Assertion Cell :=
  ⨆ merged : List (Text × Allocated), ⨆ _ : plainValues merged = values ∧ OrderedMap.Sorted merged ∧
    (overwrite = false → (Chunk.map slot before).Stays (.map slot merged)),
    Body slot (.map (pointers merged)) (merged.map Prod.snd)

section Round
variable {slot : Slot} {present : List (Text × Allocated)} {name : Text}
  {value found : Allocated}

theorem stays_insert {after : Allocated} (is : OrderedMap.find? name present = some found)
    (stays : found.Stays after) :
    (Chunk.map slot present).Stays (.map slot (OrderedMap.insert name after present)) :=
  stays_map fun other child there => by
    rw [OrderedMap.find?_insert]
    split
    · rename_i same
      subst same
      obtain rfl := Option.some.inj (is.symm.trans there)
      exact ⟨after, rfl, stays⟩
    · exact ⟨child, there, .refl child⟩

/-- Putting a chunk where one was: the pointers are the same. -/
theorem body_insert (slot : Slot) {after : Allocated} (ascend : OrderedMap.Sorted present)
    (is : OrderedMap.find? name present = some found) (at_ : after.address = found.address) :
    Body slot (.map (pointers (OrderedMap.insert name after present)))
        ((OrderedMap.insert name after present).map Prod.snd) =
      pointsTo slot.address (.chunkdat slot.offset (some slot.achunk)) *
        (pointsTo slot.achunk (.map (pointers present)) * (Owns after *
          OwnsAll ((present.filter fun entry => entry.1 != name).map Prod.snd))) := by
  have pointed : pointers (OrderedMap.insert name after present) = pointers present := by
    rw [insert_pointers, at_]
    refine OrderedMap.Sorted.insert_found (ascend.map address) ?_
    rw [find?_pointers, is, Option.map_some]
  have perm := ((ascend.insert name after).find_perm
    (OrderedMap.find?_insert_self name after present)).map Prod.snd
  rw [OrderedMap.filter_insert] at perm
  simp only [Body, pointed, ownsAll_perm perm, List.map_cons, ownsAll_cons]

theorem mergeValue_spec (allocator : Allocator Cell) (slot : Slot) (name : Text)
    {merge : Nat → Nat → Code Unit} (ascend : OrderedMap.Sorted present)
    (merges : ∀ this : Allocated, Triple (Owns this * Owns value)
      (merge this.address value.address)
      (Merges overwrite this (this.plain.merge overwrite value.plain) (Owns value))) :
    Triple (Body slot (.map (pointers present)) (present.map Prod.snd) * Owns value)
      (mergeValue allocator merge slot.address slot.achunk (name, value.address))
      (endsIn (ended (mergeValues overwrite (plainValues present) [(name, value.plain)]).2)
        (MapMerged overwrite slot present
          (mergeValues overwrite (plainValues present) [(name, value.plain)]).1 * Owns value)) := by
  refine .step .load (pointsTo slot.address (.chunkdat slot.offset (some slot.achunk)) *
    OwnsAll (present.map Prod.snd) * Owns value) (by rw [Body]; ac_rfl) ?_
  cases is : OrderedMap.find? name present with
  | none =>
    have missing : OrderedMap.find? name (plainValues present) = .none := by
      rw [find?_plainValues, is, Option.map_none]
    rw [mergeValues_new missing, mergeValues]
    simp only [find?_pointers, is, Option.map_none]
    refine .last (addToMap_new is (copies_within (mul_comm _ _))) 1 (by simp only [Body, mul_one]; ac_rfl) ?_
    rw [mul_one]
    refine iSup₂_le fun copy same => mul_le_mul_left ?_ _
    refine le_iSup₂_of_le (OrderedMap.insert name copy present) ⟨?_, ascend.insert name copy,
      fun _ => stays_insert_new copy is⟩ le_rfl
    rw [insert_plainValues, same]
  | some found =>
    have shared : OrderedMap.find? name (plainValues present) = some found.plain := by
      rw [find?_plainValues, is, Option.map_some]
    have parts := ownsAll_perm ((ascend.find_perm is).map Prod.snd)
    simp only [List.map_cons, ownsAll_cons] at parts
    simp only [find?_pointers, is, Option.map_some, mergeValues_single shared]
    refine .last (merges found) (pointsTo slot.address (.chunkdat slot.offset (some slot.achunk)) *
      (pointsTo slot.achunk (.map (pointers present)) *
        OwnsAll ((present.filter fun entry => entry.1 != name).map Prod.snd)))
      (by rw [parts]; ac_rfl) ?_
    simp only [LeftAt, iSup_mul]
    refine iSup₂_le fun after merged => ?_
    obtain ⟨same, at_, stays⟩ := merged
    have whole := body_insert slot ascend is at_
    refine le_trans (le_of_eq ?_) (mul_le_mul_left (le_iSup₂_of_le
      (f := fun merged _ => Body slot (.map (pointers merged)) (merged.map Prod.snd))
      (OrderedMap.insert name after present) ⟨?_, ascend.insert name after,
        fun off => stays_insert is (stays off)⟩ le_rfl) (Owns value))
    · rw [whole]
      ac_rfl
    · rw [insert_plainValues, same]

end Round

theorem mapMerged_trans {slot : Slot} {before after : List (Text × Allocated)}
    (stays : overwrite = false → (Chunk.map slot before).Stays (.map slot after))
    (values : List (Text × Chunkdat)) :
    MapMerged overwrite slot after values ≤ MapMerged overwrite slot before values :=
  iSup₂_mono' fun merged holds =>
    ⟨merged, ⟨holds.1, holds.2.1, fun off => (stays off).trans (holds.2.2 off)⟩, le_rfl⟩

theorem mapMerged_le (slot : Slot) (before : List (Text × Allocated))
    (values : List (Text × Chunkdat)) : MapMerged overwrite slot before values ≤
      LeftAt (overwrite = false) (.map slot before) (.map slot.offset values) :=
  iSup₂_le fun merged holds => by
    have plain_ : plain (.map slot merged) = .map slot.offset values := by
      rw [plain_map, holds.1]
    exact (body_le (.map slot merged) rfl holds.2.1).trans
      (le_iSup₂_of_le (.map slot merged) ⟨plain_, rfl, holds.2.2⟩ le_rfl)

theorem mapMerged_pre {slot : Slot} {before : List (Text × Allocated)}
    {values : List (Text × Chunkdat)} {R : Assertion Cell} {act : Code Unit}
    {post : Except (Stop FormatError) Unit → Assertion Cell}
    (later : ∀ merged, plainValues merged = values → OrderedMap.Sorted merged →
      (overwrite = false → (Chunk.map slot before).Stays (.map slot merged)) →
      Triple (Body slot (.map (pointers merged)) (merged.map Prod.snd) * R) act post) :
    Triple (MapMerged overwrite slot before values * R) act post := by
  simp only [MapMerged, iSup_mul]
  exact .exists_pre fun merged => .exists_pre fun holds => later merged holds.1 holds.2.1 holds.2.2

/-- The loop of `merge` over the keys of a map. -/
theorem mergeValues_spec {merge : Nat → Nat → Code Unit} {slot : Slot}
    {values present : List (Text × Allocated)} (ascend : OrderedMap.Sorted present)
    (merges : ∀ entry ∈ values, ∀ this : Allocated, Triple (Owns this * Owns entry.2)
      (merge this.address entry.2.address)
      (Merges overwrite this (this.plain.merge overwrite entry.2.plain) (Owns entry.2))) :
    Triple (Body slot (.map (pointers present)) (present.map Prod.snd) *
        OwnsAll (values.map Prod.snd))
      ((pointers values).forM (mergeValue allocator merge slot.address slot.achunk))
      (endsIn (ended (mergeValues overwrite (plainValues present) (plainValues values)).2)
        (MapMerged overwrite slot present
          (mergeValues overwrite (plainValues present) (plainValues values)).1 *
            OwnsAll (values.map Prod.snd))) := by
  induction values generalizing present with
  | nil =>
    rw [plainValues_nil, mergeValues]
    exact .pure (le_endsIn (mul_le_mul_left (le_iSup₂_of_le
      (f := fun merged _ => Body slot (.map (pointers merged)) (merged.map Prod.snd))
      present ⟨rfl, ascend, fun _ => .refl _⟩ le_rfl) _))
  | cons entry rest ih =>
    obtain ⟨name, value⟩ := entry
    have round := mergeValue_spec allocator slot name ascend
      (merges _ List.mem_cons_self)
    rw [plainValues_cons, mergeValues_cons]
    simp only [List.map_cons, ownsAll_cons]
    cases first : mergeValues overwrite (plainValues present) [(name, value.plain)] with
    | mk left stop =>
      rw [first] at round
      cases stop with
      | some error =>
        exact .stop round _ (mul_assoc ..).symm (le_endsIn (mul_assoc ..).le)
      | none =>
        refine .step round _ (mul_assoc ..).symm ?_
        rw [mul_assoc]
        refine mapMerged_pre fun merged same sorted stays => ?_
        subst same
        refine .last (ih sorted fun entry member => merges entry (List.mem_cons_of_mem _ member))
          (Owns value) (by ac_rfl) ?_
        refine le_trans (le_of_eq ?_) (mul_le_mul_left (mapMerged_trans stays _) _)
        ac_rfl

section Kinds
variable (fuel : Nat) (slot other : Slot)

theorem mergeFuel_strings (val text : Text) :
    Triple (Owns (.string slot val) * Owns (.string other text))
      (mergeFuel allocator overwrite (fuel + 1) slot.address other.address)
      (Merges overwrite (.string slot val)
        ((plain (.string slot val)).merge overwrite (plain (.string other text)))
        (Owns (.string other text))) := by
  simp only [plain_string, Chunk.merge]
  cases overwrite with
  | false =>
    refine step_held _ rfl (step_other (.string other text) fun found is => ?_)
    rcases found with _ | ⟨_, _⟩ <;> cases is
    exact .raise (le_endsIn (mul_le_mul_left ((owns_le_unedited (.string slot val)).trans
      (editedAt_le_leftAt _ _ _)) _))
  | true =>
    refine step_body _ rfl fun _ => step_other (.string other text) fun found is => ?_
    rcases found with _ | ⟨_, _⟩ <;> cases is
    refine .step (str_spec (.string other text)) _ (mul_comm _ _) ?_
    refine .last (.store (.string val)) (pointsTo slot.address (.chunkdat slot.offset (some slot.achunk)) *
      Owns (.string other text)) ?_ ?_
    · simp only [Body, children, ownsAll_nil, mul_one, offset]
      ac_rfl
    · have written : plain (.string slot text) = .string slot.offset text := plain_string ..
      have merged := (body_le (.string slot text) rfl trivial).trans
        ((owns_le_editedAt (.string slot val) written (stays_leaf rfl rfl)).trans
          (editedAt_le_leftAt (true = false) _ _))
      refine le_trans (le_of_eq ?_) (mul_le_mul_left merged _)
      simp only [Body, children, ownsAll_nil, mul_one, offset, plain_string, Chunk.str,
        Chunk.strval]
      ac_rfl

theorem mergeFuel_lists (elements others : List Allocated) :
    Triple (Owns (.list slot elements) * Owns (.list other others))
      (mergeFuel allocator overwrite (fuel + 1) slot.address other.address)
      (Merges overwrite (.list slot elements)
        ((plain (.list slot elements)).merge overwrite (plain (.list other others)))
        (Owns (.list other others))) := by
  have elements_ : (plain (.list slot elements)).merge overwrite (plain (.list other others)) =
      (plain (.list slot elements)).addAllToList (others.map plain) := by
    simp only [plain_list, Chunk.merge]
  rw [elements_]
  refine step_held _ rfl (step_otherBody (.list other others) rfl fun ascend => ?_)
  refine .last (addAllToList_spec (.list slot elements) others)
    (pointsTo other.address (.chunkdat other.offset (some other.achunk)) *
      pointsTo other.achunk (.list (others.map address))) ?_ ?_
  · simp only [Body, children, offset]
    ac_rfl
  · have kept := body_le (.list other others) rfl ascend
    refine le_trans (le_of_eq ?_) (mul_le_mul' (editedAt_le_leftAt _ _ _) kept)
    simp only [Body, children, offset]
    ac_rfl

theorem mergeFuel_maps {entries : List (Text × Allocated)} (values : List (Text × Allocated))
    (merges : ∀ entry ∈ entries, ∀ this : Allocated, Triple (Owns this * Owns entry.2)
      (mergeFuel allocator overwrite fuel this.address entry.2.address)
      (Merges overwrite this (this.plain.merge overwrite entry.2.plain) (Owns entry.2))) :
    Triple (Owns (.map slot values) * Owns (.map other entries))
      (mergeFuel allocator overwrite (fuel + 1) slot.address other.address)
      (Merges overwrite (.map slot values)
        ((plain (.map slot values)).merge overwrite (plain (.map other entries)))
        (Owns (.map other entries))) := by
  have values_ : (plain (.map slot values)).merge overwrite (plain (.map other entries)) =
      (.map slot.offset (mergeValues overwrite (plainValues values) (plainValues entries)).1,
        (mergeValues overwrite (plainValues values) (plainValues entries)).2) := by
    simp only [plain_map, Chunk.merge]
  rw [values_]
  refine step_body (.map slot values) rfl fun sorted =>
    step_otherBody (.map other entries) rfl fun ascend => ?_
  refine .last (mergeValues_spec sorted merges)
    (pointsTo other.address (.chunkdat other.offset (some other.achunk)) *
      pointsTo other.achunk (.map (pointers entries))) ?_ ?_
  · simp only [Body, children, offset]
    ac_rfl
  · have kept := body_le (.map other entries) rfl ascend
    refine le_trans (le_of_eq ?_) (mul_le_mul' (mapMerged_le slot values _) kept)
    simp only [Body, children, offset]
    ac_rfl

end Kinds

/-- The last branch of `merge`. -/
theorem conflict_spec (this chk : Allocated) :
    Triple (Owns this * Owns chk)
      (if overwrite then setChunk allocator this.address chk.address
        else Act.raise (formatError "Cannot merge chunks of different types".toList [] [] (-1)))
      (Merges overwrite this (mergeConflict overwrite this.plain chk.plain) (Owns chk)) := by
  cases overwrite with
  | false =>
    exact .raise (le_endsIn (mul_le_mul_left ((owns_le_unedited this).trans
      (editedAt_le_leftAt _ this _)) _))
  | true =>
    refine .last (setChunk_spec _ this chk) 1 (mul_one _).symm ((mul_one _).le.trans ?_)
    rw [mergeConflict, if_pos rfl, setChunk_eq]
    exact mul_le_mul_left (valueAt_le_leftAt (fun off => Bool.noConfusion off) this _) _

theorem mergeFuel_spec {fuel : Nat} {chk : Allocated} (enough : chk.count ≤ fuel)
    (this : Allocated) :
    Triple (Owns this * Owns chk) (mergeFuel allocator overwrite fuel this.address chk.address)
      (Merges overwrite this (this.plain.merge overwrite chk.plain) (Owns chk)) := by
  induction fuel generalizing this chk with
  | zero => exact absurd chk.count_pos (by omega)
  | succ fuel ih =>
    cases this with
    | none slot =>
      rw [plain_none, merge_into_none]
      refine step_none slot (step_other chk fun found is => ?_)
      refine .last (setChunk_spec allocator (.none slot) chk) 1 (mul_one _).symm ?_
      rw [mul_one]
      exact mul_le_mul_left ((valueAt_le_editedAt (.none slot) rfl _).trans
        (editedAt_le_leftAt _ _ _)) _
    | string slot val =>
      cases chk with
      | string other text => exact mergeFuel_strings fuel slot other val text
      | none | map | list =>
        rw [merge_conflict (by simp [Chunk.type]) (by simp [Chunk.type])]
        refine step_held _ rfl (step_other _ fun found is => ?_)
        rcases found with _ | ⟨_, _⟩ <;> cases is
        exact conflict_spec _ _
    | map slot values =>
      cases chk with
      | map other entries =>
        refine mergeFuel_maps fuel slot other values fun entry member this => ih ?_ this
        have inside : entry.2 ∈ (Chunk.map other entries).children := List.mem_map_of_mem member
        have less := count_child inside
        omega
      | none | string | list =>
        rw [merge_conflict (by simp [Chunk.type]) (by simp [Chunk.type])]
        refine step_held _ rfl (step_other _ fun found is => ?_)
        rcases found with _ | ⟨_, _⟩ <;> cases is
        exact conflict_spec _ _
    | list slot elements =>
      cases chk with
      | list other others => exact mergeFuel_lists fuel slot other elements others
      | none | string | map =>
        rw [merge_conflict (by simp [Chunk.type]) (by simp [Chunk.type])]
        refine step_held _ rfl (step_other _ fun found is => ?_)
        rcases found with _ | ⟨_, _⟩ <;> cases is
        exact conflict_spec _ _

theorem merge_spec (this chk : Allocated) :
    Triple (Owns this * Owns chk) (Memory.merge allocator this.address chk.address overwrite)
      (Merges overwrite this (this.plain.merge overwrite chk.plain) (Owns chk)) :=
  .sized (((occupies_owns this).mul (occupies_owns chk)).anti (Nat.le_add_left ..))
    fun _ enough => mergeFuel_spec enough this

end Merge

section Erase
variable {R : Assertion Cell}

theorem raise_value (this : Allocated) (error : Text → FormatError) :
    Triple (Owns this * R)
      (do
        let data ← str this.address
        Act.raise (error data))
      (endsIn (ended (some (error this.plain.str))) (ValueAt this.address this.plain * R) :
        Except _ Unit → _) :=
  raise_str this error (mul_le_mul_left (owns_le_valueAt rfl) R)

theorem eraseKey_spec (this : Allocated) (key : Text) :
    Triple (Owns this * R) (Memory.eraseKey this.address key)
      (endsIn (ended (this.plain.eraseKey key).2)
        (ValueAt this.address (this.plain.eraseKey key).1 * R)) := by
  cases this with
  | none slot => exact step_none slot (raise_value (.none slot) _)
  | string slot val => exact step_held _ rfl (raise_value (.string slot val) _)
  | list slot elements =>
    rw [plain_list]
    refine step_held _ rfl ?_
    have refused := raise_value (R := R) (.list slot elements) (formatError
      "Cannot erase element from non-map chunk".toList [] · (-1))
    rwa [plain_list] at refused
  | map slot values =>
    rw [plain_map, Chunk.eraseKey, find?_plainValues, ← plain_map]
    cases is : OrderedMap.find? key values with
    | none =>
      refine step_held _ rfl ?_
      simp only [find?_pointers, is, Option.map_none]
      exact raise_value _ _
    | some found =>
      refine step_body _ rfl fun ascend => ?_
      have parts := ownsAll_perm ((ascend.find_perm is).map Prod.snd)
      simp only [List.map_cons, ownsAll_cons] at parts
      simp only [find?_pointers, is, Option.map_some]
      refine .step (delete_spec found) (pointsTo slot.address (.chunkdat slot.offset
        (some slot.achunk)) * (pointsTo slot.achunk (.map (pointers values)) *
        OwnsAll ((values.filter fun entry => entry.1 != key).map Prod.snd)) * R) ?_ ?_
      · simp only [Body, children, offset, parts]
        ac_rfl
      · rw [one_mul]
        refine .last (.store _) (pointsTo slot.address (.chunkdat slot.offset
          (some slot.achunk)) *
          OwnsAll ((values.filter fun entry => entry.1 != key).map Prod.snd) * R) (by ac_rfl) ?_
        have pointed : (pointers values).filter (fun entry => entry.1 != key) =
            pointers (values.filter fun entry => entry.1 != key) := by
          simp only [pointers, List.filter_map]
          rfl
        have plain_ : plain (.map slot (values.filter fun entry => entry.1 != key)) =
            .map slot.offset ((plainValues values).filter fun entry => entry.1 != key) := by
          simp only [plain_map, plainValues, List.filter_map]
          rfl
        have left := (body_le (.map slot (values.filter fun entry => entry.1 != key)) rfl
          (ascend.filter _)).trans (owns_le_valueAt plain_)
        refine le_trans (le_of_eq ?_) (mul_le_mul_left left R)
        simp only [Body, children, offset, pointed]
        ac_rfl

theorem listSize_spec (slot : Slot) (elements : List Allocated) :
    Triple (Owns (.list slot elements)) (Memory.listSize slot.address)
      (endsIn (.ok (Int32.ofNat elements.length)) (Owns (.list slot elements))) := by
  rw [← mul_one (Owns _)]
  refine step_held (.list slot elements) rfl ?_
  simp only [List.length_map]
  exact .pure (le_endsIn le_rfl)

/-- An index below the size as it is truncated to 32 bits is below the size. -/
theorem lt_length_of_lt_listSize {index : UInt32} {size : Nat}
    (below : index < (Int32.ofNat size).toUInt32) : index.toNat < size := by
  have truncated : (Int32.ofNat size).toUInt32.toNat = size % 2 ^ 32 := UInt32.toNat_ofNat'
  rw [UInt32.lt_iff_toNat_lt, truncated] at below
  exact Nat.lt_of_lt_of_le below (Nat.mod_le _ _)

theorem eraseIndex_spec (this : Allocated) (index : UInt32) :
    Triple (Owns this * R) (Memory.eraseIndex this.address index)
      (endsIn (ended (this.plain.eraseIndex index).2)
        (ValueAt this.address (this.plain.eraseIndex index).1 * R)) := by
  cases this with
  | none slot => exact step_none slot (raise_value (.none slot) _)
  | string slot val => exact step_held _ rfl (raise_value (.string slot val) _)
  | map slot values =>
    rw [plain_map]
    refine step_held _ rfl ?_
    have refused := raise_value (R := R) (.map slot values) (formatError
      "Cannot erase element from non-list chunk".toList [] · (-1))
    rwa [plain_map] at refused
  | list slot elements =>
    have size : (plain (.list slot elements)).listSize = Int32.ofNat elements.length := by
      rw [plain_list, Chunk.listSize, List.length_map]
    rw [plain_list, Chunk.eraseIndex, ← plain_list, size]
    refine step_held _ rfl (.step (listSize_spec slot elements) R rfl ?_)
    by_cases below : index < (Int32.ofNat elements.length).toUInt32
    · rw [if_pos below, if_pos below]
      have inside := lt_length_of_lt_listSize below
      have found : (elements.map address)[index.toNat]? = some (elements[index.toNat]).address := by
        rw [List.getElem?_map, List.getElem?_eq_getElem inside]
        rfl
      have parts := ownsAll_perm (List.getElem_cons_eraseIdx_perm inside)
      rw [ownsAll_cons] at parts
      rw [owns_some (show cell? (.list slot elements) = some _ from rfl)]
      simp only [iSup_mul, found]
      refine .exists_pre fun _ => ?_
      refine .step (delete_spec elements[index.toNat]) (pointsTo slot.address (.chunkdat
        slot.offset (some slot.achunk)) * (pointsTo slot.achunk (.list (elements.map address)) *
        OwnsAll (elements.eraseIdx index.toNat)) * R) ?_ ?_
      · simp only [Body, children, offset, ← parts]
        ac_rfl
      · rw [one_mul]
        refine .last (.store _) (pointsTo slot.address (.chunkdat slot.offset
          (some slot.achunk)) * OwnsAll (elements.eraseIdx index.toNat) * R) (by ac_rfl) ?_
        have plain_ : plain (.list slot (elements.eraseIdx index.toNat)) =
            .list slot.offset ((elements.map plain).eraseIdx index.toNat) := by
          rw [plain_list, List.eraseIdx_map]
        have left := (body_le (.list slot (elements.eraseIdx index.toNat)) rfl trivial).trans
          (owns_le_valueAt plain_)
        refine le_trans (le_of_eq ?_) (mul_le_mul_left left R)
        simp only [Body, children, offset, List.eraseIdx_map]
        ac_rfl
    · rw [if_neg below, if_neg below]
      exact raise_value _ _

end Erase

end Memory

end Ztd.Filedat
