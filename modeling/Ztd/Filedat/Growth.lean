import Ztd.Filedat.MergeAlgebra

/-! Merging without overwriting and concatenating only add data, also where they
throw. -/

namespace Ztd.Filedat
open Ztd.Lib

variable {ι : Type}

namespace Chunk

/-- The second tree holds all the data of the first: nothing, the same string, a
list with elements appended, or a map with more keys and larger values. -/
inductive Grows : Chunk ι → Chunk ι → Prop where
  | none (offset : ι) (grown : Chunk ι) : Grows (.none offset) grown
  | string (offset : ι) (val : Text) : Grows (.string offset val) (.string offset val)
  | list (offset : ι) (elements added : List (Chunk ι)) :
    Grows (.list offset elements) (.list offset (elements ++ added))
  | map (offset : ι) {xs ys : List (Text × Chunk ι)}
    (kept : ∀ key x, OrderedMap.find? key xs = some x → (OrderedMap.find? key ys).isSome)
    (larger : ∀ key x y, OrderedMap.find? key xs = some x → OrderedMap.find? key ys = some y →
      Grows x y) : Grows (.map offset xs) (.map offset ys)

theorem Grows.refl (chunk : Chunk ι) : Grows chunk chunk := by
  induction chunk using induct with
  | none offset => exact .none offset _
  | string offset val => exact .string offset val
  | list offset elements _ => simpa using Grows.list offset elements []
  | map offset values ih =>
    refine .map offset (fun key x found => by simp [found]) fun key x y held found => ?_
    obtain rfl := Option.some.inj (held.symm.trans found)
    exact ih _ (OrderedMap.mem_of_find? held)

theorem Grows.trans {a b c : Chunk ι} (first : Grows a b) (second : Grows b c) : Grows a c := by
  induction first generalizing c with
  | none offset grown => exact .none offset c
  | string offset val => exact second
  | list offset elements added =>
    cases second with
    | list _ _ more => simpa using Grows.list offset elements (added ++ more)
  | map offset kept larger ih =>
    cases second with
    | map _ keptNext largerNext =>
      refine .map offset (fun key x found => ?_) fun key x z found last => ?_
      · obtain ⟨y, held⟩ := Option.isSome_iff_exists.mp (kept key x found)
        exact keptNext key y held
      · obtain ⟨y, held⟩ := Option.isSome_iff_exists.mp (kept key x found)
        exact ih key x y found held (largerNext key y z held last)

section Values
variable {key : Text} {xs ys : List (Text × Chunk ι)}

theorem grows_insert_new (offset : ι) (missing : OrderedMap.find? key xs = .none)
    (value : Chunk ι) : Grows (.map offset xs) (.map offset (OrderedMap.insert key value xs)) := by
  have same (other : Text) (x : Chunk ι) (found : OrderedMap.find? other xs = some x) :
      OrderedMap.find? other (OrderedMap.insert key value xs) = some x := by
    rw [OrderedMap.find?_insert_ne _ value, found]
    rintro rfl
    simp [missing] at found
  refine .map offset (fun other x found => by simp [same other x found]) fun other x y found held => ?_
  obtain rfl := Option.some.inj ((same other x found).symm.trans held)
  exact .refl x

theorem grows_insert_held (offset : ι) {old value : Chunk ι}
    (held : OrderedMap.find? key xs = some old) (larger : Grows old value) :
    Grows (.map offset xs) (.map offset (OrderedMap.insert key value xs)) := by
  refine .map offset (fun other x found => ?_) fun other x y found after => ?_
  · rw [OrderedMap.find?_insert]
    split <;> simp [found]
  · rw [OrderedMap.find?_insert] at after
    split at after
    · rename_i same
      subst same
      obtain rfl := Option.some.inj (held.symm.trans found)
      obtain rfl := Option.some.inj after
      exact larger
    · obtain rfl := Option.some.inj (found.symm.trans after)
      exact .refl x

/-- The key loop only adds, wherever it stops. -/
theorem grows_mergeValues (offset : ι) (xs : List (Text × Chunk ι))
    (grows : ∀ entry ∈ ys, ∀ x : Chunk ι, Grows x (x.merge false entry.2).1) :
    Grows (.map offset xs) (.map offset (mergeValues false xs ys).1) := by
  induction ys generalizing xs with
  | nil => exact .refl _
  | cons entry rest ih =>
    obtain ⟨head, y⟩ := entry
    obtain ⟨first, later⟩ := List.forall_mem_cons.mp grows
    cases found : OrderedMap.find? head xs with
    | none =>
      rw [mergeValues_new found]
      exact (grows_insert_new offset found y).trans (ih _ later)
    | some x =>
      have round := grows_insert_held offset found (first x)
      cases stop : (x.merge false y).2 with
      | none =>
        rw [mergeValues_shared found stop]
        exact round.trans (ih _ later)
      | some error =>
        rw [mergeValues_stop found stop]
        exact round

end Values

theorem merge_grows (b : Chunk ι) : ∀ a : Chunk ι, Grows a (a.merge false b).1 := by
  induction b using induct with
  | none offset =>
    intro a
    cases a <;> first | exact .none _ _ | exact .refl _
  | string offset val =>
    intro a
    cases a <;> first | exact .none _ _ | exact .refl _
  | list offset elements _ =>
    intro a
    cases a with
    | none other => exact .none _ _
    | list other held =>
      simp only [merge, addAllToList_list]
      exact .list other held elements
    | _ => exact .refl _
  | map offset ys ih =>
    intro a
    cases a with
    | none other => exact .none _ _
    | map other xs => exact grows_mergeValues other xs ih
    | _ => exact .refl _

/-- The first key of the second map that the first one has. -/
structure FirstShared (xs ys : List (Text × Chunk ι)) (key : Text) : Prop where
  held : (OrderedMap.find? key xs).isSome
  added : (OrderedMap.find? key ys).isSome
  first : ∀ other < key, (OrderedMap.find? other ys).isSome → OrderedMap.find? other xs = .none

/-- What concatenating two maps leaves: the old keys as they were, and the new
ones up to the first key that both have. -/
structure Concatenated (xs ys values : List (Text × Chunk ι)) (stop : Option FormatError) :
    Prop where
  kept : ∀ key x, OrderedMap.find? key xs = some x → OrderedMap.find? key values = some x
  returns : stop = .none → ∀ key, OrderedMap.find? key xs = .none →
    OrderedMap.find? key values = OrderedMap.find? key ys
  throws : stop ≠ .none → ∃ shared, FirstShared xs ys shared ∧
    ∀ key, OrderedMap.find? key xs = .none →
      OrderedMap.find? key values = if key < shared then OrderedMap.find? key ys else .none

theorem addAllToMap_map (offset : ι) {ys : List (Text × Chunk ι)} (sorted : OrderedMap.Sorted ys)
    (xs : List (Text × Chunk ι)) :
    ∃ values, ((Chunk.map offset xs).addAllToMap ys).1 = .map offset values ∧
      Concatenated xs ys values ((Chunk.map offset xs).addAllToMap ys).2 := by
  induction ys generalizing xs with
  | nil =>
    exact ⟨xs, rfl, fun _ _ found => found, fun _ _ missing => missing,
      fun stop => absurd rfl stop⟩
  | cons entry rest ih =>
    obtain ⟨head, y⟩ := entry
    have once := sorted.find?_head_lt (le_refl head)
    cases found : OrderedMap.find? head xs with
    | some x =>
      have stops : (Chunk.map offset xs).addAllToMap ((head, y) :: rest) =
          (.map offset xs, ((Chunk.map offset xs).addToMap head y).2) := by
        simp [addAllToMap, addToMap, found]
      have stop : ((Chunk.map offset xs).addToMap head y).2 ≠ .none := by simp [addToMap, found]
      rw [stops]
      refine ⟨xs, rfl, fun _ _ held => held, fun none => absurd none stop, fun _ => ?_⟩
      have before (other : Text) (below : other < head) :
          OrderedMap.find? other ((head, y) :: rest) = .none := by
        rw [OrderedMap.find?_cons, if_neg below.ne', sorted.find?_head_lt below.le]
      refine ⟨head, ⟨by simp [found], by simp, fun other below added => ?_⟩, fun key missing => ?_⟩
      · simp [before other below] at added
      · rw [missing]
        split
        · rename_i below
          rw [before key below]
        · rfl
    | none =>
      have goesOn : (Chunk.map offset xs).addAllToMap ((head, y) :: rest) =
          (Chunk.map offset (OrderedMap.insert head y xs)).addAllToMap rest := by
        simp [addAllToMap, addToMap, found]
      obtain ⟨values, is, kept, returns, throws⟩ := ih sorted.tail (OrderedMap.insert head y xs)
      have headHolds : OrderedMap.find? head values = some y := kept head y (by simp)
      have missingAfter {key : Text} (other : key ≠ head)
          (missing : OrderedMap.find? key xs = .none) :
          OrderedMap.find? key (OrderedMap.insert head y xs) = .none := by
        rw [OrderedMap.find?_insert_ne other, missing]
      rw [goesOn]
      refine ⟨values, is, fun key x held => ?_, fun stop key missing => ?_, fun stop => ?_⟩
      · have other : key ≠ head := by
          rintro rfl
          simp [found] at held
        exact kept key x (by rw [OrderedMap.find?_insert_ne other, held])
      · by_cases here : key = head
        · subst here
          rw [headHolds, OrderedMap.find?_cons_self]
        · rw [returns stop key (missingAfter here missing), OrderedMap.find?_cons,
            if_neg (Ne.symm here)]
      · obtain ⟨shared, ⟨held, added, first⟩, lookups⟩ := throws stop
        have other : shared ≠ head := by
          rintro rfl
          simp [once] at added
        have above : head < shared := by
          obtain ⟨z, added⟩ := Option.isSome_iff_exists.mp added
          exact sorted.head_lt _ (OrderedMap.mem_of_find? added)
        refine ⟨shared, ⟨?_, ?_, fun key below added => ?_⟩, fun key missing => ?_⟩
        · rwa [OrderedMap.find?_insert_ne other] at held
        · rwa [OrderedMap.find?_cons, if_neg (Ne.symm other)]
        · by_cases here : key = head
          · rw [here, found]
          · rw [OrderedMap.find?_cons, if_neg (Ne.symm here)] at added
            have missing := first key below added
            rwa [OrderedMap.find?_insert_ne here] at missing
        · by_cases here : key = head
          · subst here
            rw [headHolds, if_pos above, OrderedMap.find?_cons_self]
          · rw [lookups key (missingAfter here missing), OrderedMap.find?_cons,
              if_neg (Ne.symm here)]

/-- What concatenation leaves of two maps or two lists. -/
def ConcatenationKeeps (a b : Chunk ι) (result : Edited ι) : Prop :=
  match a, b with
  | .map offset xs, .map _ ys =>
    ∃ values, result.1 = .map offset values ∧ Concatenated xs ys values result.2
  | .list offset xs, .list _ ys => result = (.list offset (xs ++ ys), .none)
  | _, _ => True

theorem concatenate_keeps (a b : Chunk ι) (ordered : b.Ordered) :
    ConcatenationKeeps a b (a.concatenate b) := by
  cases a with
  | map offset xs =>
    cases b with
    | map other ys => exact addAllToMap_map offset ordered.sorted xs
    | _ => trivial
  | list offset xs =>
    cases b with
    | list other ys => exact addAllToList_list offset xs ys
    | _ => trivial
  | _ => trivial

end Chunk

/-- Merging without overwriting and concatenating keep all data, whether they
return or throw. -/
theorem editing_keeps (a b : OrderedChunk ι) :
    Chunk.Grows a.1 (a.1.merge false b.1).1 ∧
    Chunk.ConcatenationKeeps a.1 b.1 (a.1.concatenate b.1) :=
  ⟨Chunk.merge_grows b.1 a.1, Chunk.concatenate_keeps a.1 b.1 b.2⟩

end Ztd.Filedat
