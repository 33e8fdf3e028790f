import Ztd.Filedat.Operations

/-! Merging two chunk trees is the documented union, with or without overwriting. -/

namespace Ztd.Filedat
open Ztd.Lib

variable {ι : Type}

mutual
/-- The documented union of two trees: key-wise on maps, concatenation on
lists, and otherwise the second tree. -/
def Tree.union (x : Tree) : Tree → Tree
  | .map _ ys =>
    match x with
    | .map _ xs => .map () (OrderedMap.override xs (Tree.unionValues xs ys))
    | _ => .map () ys
  | .list _ ys =>
    match x with
    | .list _ xs => .list () (xs ++ ys)
    | _ => .list () ys
  | .none _ => .none ()
  | .string _ val => .string () val
/-- Each value of the second map, joined with the first map's value for its key. -/
def Tree.unionValues (xs : List (Text × Tree)) : List (Text × Tree) → List (Text × Tree)
  | [] => []
  | (key, y) :: rest =>
    match OrderedMap.find? key xs with
    | some x => (key, Tree.union x y) :: Tree.unionValues xs rest
    | none => (key, y) :: Tree.unionValues xs rest
end

theorem Tree.unionValues_eq (xs ys : List (Text × Tree)) :
    Tree.unionValues xs ys = ys.map (fun entry =>
      (entry.1, ((OrderedMap.find? entry.1 xs).map (fun x => x.union entry.2)).getD entry.2)) := by
  induction ys with
  | nil => rfl
  | cons entry rest ih =>
    obtain ⟨key, y⟩ := entry
    cases found : OrderedMap.find? key xs <;> simp [Tree.unionValues, found, ih]

theorem Tree.find?_unionValues (xs ys : List (Text × Tree)) (key : Text) :
    OrderedMap.find? key (Tree.unionValues xs ys) = (OrderedMap.find? key ys).map (fun y =>
      ((OrderedMap.find? key xs).map (fun x => x.union y)).getD y) := by
  rw [Tree.unionValues_eq]
  exact OrderedMap.find?_mapWithKey (fun key y =>
    ((OrderedMap.find? key xs).map (fun x => x.union y)).getD y) key ys

/-- What the union of two maps holds under a key. -/
theorem Tree.find?_union {ys : List (Text × Tree)} (sorted : OrderedMap.Sorted ys)
    (xs : List (Text × Tree)) (key : Text) :
    OrderedMap.find? key (OrderedMap.override xs (Tree.unionValues xs ys)) =
      match OrderedMap.find? key xs, OrderedMap.find? key ys with
      | some x, some y => some (x.union y)
      | none, some y => some y
      | held, none => held := by
  have joined : OrderedMap.Sorted (Tree.unionValues xs ys) := by
    rw [Tree.unionValues_eq]
    exact sorted.mapWithKey (fun key y =>
      ((OrderedMap.find? key xs).map (fun x => x.union y)).getD y)
  rw [joined.find?_override, Tree.find?_unionValues]
  cases OrderedMap.find? key xs <;> cases OrderedMap.find? key ys <;> rfl

namespace Chunk

/-- The chunk reached by following keys through maps. -/
def follow : List Text → Chunk ι → Option (Chunk ι)
  | [], chunk => some chunk
  | key :: path, .map _ values => (OrderedMap.find? key values).bind (follow path)
  | _ :: _, _ => Option.none

/-- Two strings, or chunks of different types of which the first is not none. -/
def Conflict (x y : Chunk ι) : Prop :=
  (x.type = .string ∧ y.type = .string) ∨ (x.type ≠ y.type ∧ x.type ≠ .none)

/-- Some path of shared keys leads to a conflict. -/
def Clash (a b : Chunk ι) : Prop :=
  ∃ path x y, a.follow path = some x ∧ b.follow path = some y ∧ Conflict x y

theorem clash_of_conflict {a b : Chunk ι} (conflict : Conflict a b) : Clash a b :=
  ⟨[], a, b, rfl, rfl, conflict⟩

theorem clash_iff_conflict {a b : Chunk ι} (notMaps : a.type ≠ .map ∨ b.type ≠ .map) :
    Clash a b ↔ Conflict a b := by
  constructor
  · rintro ⟨path, x, y, first, second, conflict⟩
    cases path with
    | nil =>
      cases first
      cases second
      exact conflict
    | cons key path => cases a <;> cases b <;> simp [follow, type] at first second notMaps
  · exact clash_of_conflict

theorem clash_map_iff (left right : ι) (xs ys : List (Text × Chunk ι)) :
    Clash (.map left xs) (.map right ys) ↔
      ∃ key x y, OrderedMap.find? key xs = some x ∧ OrderedMap.find? key ys = some y ∧
        Clash x y := by
  constructor
  · rintro ⟨path, u, v, first, second, conflict⟩
    cases path with
    | nil =>
      cases first
      cases second
      simp [Conflict, type] at conflict
    | cons key path =>
      obtain ⟨x, foundX, first⟩ := Option.bind_eq_some_iff.mp first
      obtain ⟨y, foundY, second⟩ := Option.bind_eq_some_iff.mp second
      exact ⟨key, x, y, foundX, foundY, path, u, v, first, second, conflict⟩
  · rintro ⟨key, x, y, foundX, foundY, path, u, v, first, second, conflict⟩
    exact ⟨key :: path, u, v, by simp [follow, foundX, first], by simp [follow, foundY, second],
      conflict⟩

/-- What a successful merge leaves in place of `a`. -/
structure MergedTo (a b : Chunk ι) (result : Edited ι) : Prop where
  returns : result.2 = .none
  union : result.1.tree = Tree.union a.tree b.tree
  ordered : result.1.Ordered

/-- What the key loop leaves when it overwrites: each key of the merged map
joined with the value already there. -/
structure JoinedTo (xs ys : List (Text × Chunk ι))
    (result : List (Text × Chunk ι) × Option FormatError) : Prop where
  returns : result.2 = .none
  sorted : OrderedMap.Sorted result.1
  ordered : ∀ entry ∈ result.1, entry.2.Ordered
  lookups : ∀ key, (OrderedMap.find? key result.1).map tree =
    match (OrderedMap.find? key xs).map tree, (OrderedMap.find? key ys).map tree with
    | some x, some y => some (x.union y)
    | .none, some y => some y
    | held, .none => held

/-- One round puts the joined value under its key; the later rounds leave it. -/
theorem JoinedTo.round {head : Text} {y joined : Chunk ι} {xs rest : List (Text × Chunk ι)}
    {result : List (Text × Chunk ι) × Option FormatError}
    (later : JoinedTo (OrderedMap.insert head joined xs) rest result)
    (sorted : OrderedMap.Sorted ((head, y) :: rest))
    (holds : some joined.tree = match (OrderedMap.find? head xs).map tree with
      | some x => some (x.union y.tree)
      | .none => some y.tree) :
    JoinedTo xs ((head, y) :: rest) result := by
  refine ⟨later.returns, later.sorted, later.ordered, ?_⟩
  intro key
  rw [later.lookups key]
  by_cases same : head = key
  · subst head
    rw [sorted.find?_head_lt le_rfl, OrderedMap.find?_insert_self, OrderedMap.find?_cons_self]
    simp only [Option.map_some, Option.map_none, holds]
    cases (OrderedMap.find? key xs).map tree <;> rfl
  · rw [OrderedMap.find?_insert_ne (Ne.symm same), OrderedMap.find?_cons, if_neg same]

theorem ordered_insert {key : Text} {value : Chunk ι} {values : List (Text × Chunk ι)}
    (ordered : ∀ entry ∈ values, entry.2.Ordered) (valueOrdered : value.Ordered) :
    ∀ entry ∈ OrderedMap.insert key value values, entry.2.Ordered := by
  intro entry member
  rcases OrderedMap.mem_insert member with same | old
  · simpa [same] using valueOrdered
  · exact ordered entry old

theorem mergeValues_overwrite {xs ys : List (Text × Chunk ι)}
    (sortedX : OrderedMap.Sorted xs) (sortedY : OrderedMap.Sorted ys)
    (orderedX : ∀ entry ∈ xs, entry.2.Ordered) (orderedY : ∀ entry ∈ ys, entry.2.Ordered)
    (merged : ∀ entry ∈ ys, ∀ x : Chunk ι, x.Ordered → MergedTo x entry.2 (x.merge true entry.2)) :
    JoinedTo xs ys (mergeValues true xs ys) := by
  induction ys generalizing xs with
  | nil => exact ⟨rfl, sortedX, orderedX, fun key => by simp [mergeValues]⟩
  | cons entry rest ih =>
    obtain ⟨head, y⟩ := entry
    obtain ⟨yOrdered, restOrdered⟩ := List.forall_mem_cons.mp orderedY
    obtain ⟨yMerged, restMerged⟩ := List.forall_mem_cons.mp merged
    cases found : OrderedMap.find? head xs with
    | none =>
      have later := ih (sortedX.insert head y) sortedY.tail (ordered_insert orderedX yOrdered)
        restOrdered restMerged
      rw [mergeValues_new found]
      exact later.round sortedY (by simp [found])
    | some x =>
      obtain ⟨returns, union, ordered⟩ :=
        yMerged x (orderedX _ (OrderedMap.mem_of_find? found))
      have later := ih (sortedX.insert head (x.merge true y).1) sortedY.tail
        (ordered_insert orderedX ordered) restOrdered restMerged
      rw [mergeValues_shared found returns]
      exact later.round sortedY (by simp [found, union])

theorem merge_overwrite (b : Chunk ι) (orderedB : b.Ordered) :
    ∀ a : Chunk ι, a.Ordered → MergedTo a b (a.merge true b) := by
  induction b using induct with
  | none offset =>
    intro a _
    cases a <;> exact ⟨rfl, rfl, trivial⟩
  | string offset val =>
    intro a _
    cases a <;> exact ⟨rfl, rfl, trivial⟩
  | list offset elements _ =>
    intro a orderedA
    cases a with
    | list other held =>
      refine ⟨by simp [merge], by simp [merge, Tree.union], ?_⟩
      simp only [merge, addAllToList_list, ordered_list_iff, List.mem_append] at *
      rintro element (old | new)
      · exact orderedA element old
      · exact orderedB element new
    | _ =>
      exact ⟨rfl, by simp [merge, mergeConflict, Tree.union],
        by simpa [merge, mergeConflict] using orderedB⟩
  | map offset ys ih =>
    intro a orderedA
    cases a with
    | map other xs =>
      rw [ordered_map_iff] at orderedA orderedB
      have joined := mergeValues_overwrite orderedA.1 orderedB.1 orderedA.2 orderedB.2
        (fun entry member => ih entry member (orderedB.2 entry member))
      refine ⟨joined.returns, ?_, (ordered_map_iff ..).mpr ⟨joined.sorted, joined.ordered⟩⟩
      simp only [merge, tree_map, Tree.union]
      congr 1
      apply OrderedMap.Sorted.ext (joined.sorted.map tree) ((orderedA.1.map tree).override _)
      intro key
      rw [Tree.find?_union (orderedB.1.map tree), OrderedMap.find?_map, OrderedMap.find?_map,
        OrderedMap.find?_map, joined.lookups key]
    | _ =>
      exact ⟨rfl, by simp [merge, mergeConflict, Tree.union],
        by simpa [merge, mergeConflict] using orderedB⟩

/-- Without overwriting the key loop stops exactly at a shared key whose values
clash, and otherwise does what the overwriting loop does. -/
theorem mergeValues_keep (xs : List (Text × Chunk ι)) {ys : List (Text × Chunk ι)}
    (sorted : OrderedMap.Sorted ys)
    (kept : ∀ entry ∈ ys, ∀ x : Chunk ι, ((x.merge false entry.2).2 ≠ .none ↔ Clash x entry.2) ∧
      ((x.merge false entry.2).2 = .none → x.merge false entry.2 = x.merge true entry.2)) :
    ((mergeValues false xs ys).2 ≠ .none ↔
      ∃ key x y, OrderedMap.find? key xs = some x ∧ OrderedMap.find? key ys = some y ∧
        Clash x y) ∧
    ((mergeValues false xs ys).2 = .none → mergeValues false xs ys = mergeValues true xs ys) := by
  induction ys generalizing xs with
  | nil => simp [mergeValues]
  | cons entry rest ih =>
    obtain ⟨head, y⟩ := entry
    obtain ⟨yKept, restKept⟩ := List.forall_mem_cons.mp kept
    have headOnce := sorted.find?_head_lt le_rfl
    -- a key other than `head` is looked up as before the round
    have others (joined : Chunk ι) :
        (∃ key u v, OrderedMap.find? key (OrderedMap.insert head joined xs) = some u ∧
          OrderedMap.find? key rest = some v ∧ Clash u v) ↔
        ∃ key u v, key ≠ head ∧ OrderedMap.find? key xs = some u ∧
          OrderedMap.find? key ((head, y) :: rest) = some v ∧ Clash u v := by
      constructor
      · rintro ⟨key, u, v, first, second, clash⟩
        have different : key ≠ head := by
          rintro rfl
          simp [headOnce] at second
        rw [OrderedMap.find?_insert_ne different] at first
        exact ⟨key, u, v, different, first,
          by rwa [OrderedMap.find?_cons, if_neg (Ne.symm different)], clash⟩
      · rintro ⟨key, u, v, different, first, second, clash⟩
        rw [OrderedMap.find?_cons, if_neg (Ne.symm different)] at second
        exact ⟨key, u, v, by rwa [OrderedMap.find?_insert_ne different], second, clash⟩
    cases found : OrderedMap.find? head xs with
    | none =>
      obtain ⟨throws, agrees⟩ := ih (OrderedMap.insert head y xs) sorted.tail restKept
      rw [mergeValues_new found, mergeValues_new found]
      refine ⟨?_, agrees⟩
      rw [throws, others y]
      constructor
      · rintro ⟨key, u, v, _, rest⟩
        exact ⟨key, u, v, rest⟩
      · rintro ⟨key, u, v, first, rest⟩
        refine ⟨key, u, v, ?_, first, rest⟩
        rintro rfl
        simp [found] at first
    | some x =>
      obtain ⟨clashes, same⟩ := yKept x
      cases stop : (x.merge false y).2 with
      | some error =>
        rw [mergeValues_stop found stop]
        refine ⟨?_, by simp⟩
        have clash : Clash x y := clashes.mp (by simp [stop])
        simp only [ne_eq, reduceCtorEq, not_false_eq_true, true_iff]
        exact ⟨head, x, y, found, by simp, clash⟩
      | none =>
        obtain ⟨throws, agrees⟩ :=
          ih (OrderedMap.insert head (x.merge false y).1 xs) sorted.tail restKept
        have overwrites : (x.merge true y).2 = .none := by rw [← same stop, stop]
        rw [mergeValues_shared found stop, mergeValues_shared found overwrites, ← same stop]
        refine ⟨?_, agrees⟩
        rw [throws, others]
        constructor
        · rintro ⟨key, u, v, _, rest⟩
          exact ⟨key, u, v, rest⟩
        · rintro ⟨key, u, v, first, second, clash⟩
          refine ⟨key, u, v, ?_, first, second, clash⟩
          rintro rfl
          rw [found] at first
          rw [OrderedMap.find?_cons_self] at second
          cases first
          cases second
          exact absurd stop (clashes.mpr clash)

theorem merge_keep (b : Chunk ι) (orderedB : b.Ordered) :
    ∀ a : Chunk ι, ((a.merge false b).2 ≠ .none ↔ Clash a b) ∧
      ((a.merge false b).2 = .none → a.merge false b = a.merge true b) := by
  induction b using induct with
  | none offset =>
    intro a
    rw [clash_iff_conflict (.inr (by simp [type]))]
    cases a <;> simp [merge, mergeConflict, Conflict, type]
  | string offset val =>
    intro a
    rw [clash_iff_conflict (.inr (by simp [type]))]
    cases a <;> simp [merge, mergeConflict, Conflict, type]
  | list offset elements _ =>
    intro a
    rw [clash_iff_conflict (.inr (by simp [type]))]
    cases a <;> simp [merge, mergeConflict, Conflict, type]
  | map offset ys ih =>
    intro a
    cases a with
    | map other xs =>
      rw [ordered_map_iff] at orderedB
      obtain ⟨throws, agrees⟩ := mergeValues_keep xs orderedB.1
        (fun entry member => ih entry member (orderedB.2 entry member))
      rw [clash_map_iff]
      exact ⟨throws, fun stop => by simp only [merge, agrees stop]⟩
    | _ =>
      rw [clash_iff_conflict (.inl (by simp [type]))]
      simp [merge, mergeConflict, Conflict, type]

end Chunk

/-- A chunk tree whose maps are `std::map`s. -/
def OrderedChunk (ι : Type) := { chunk : Chunk ι // chunk.Ordered }

/-- Merging computes the documented union. It throws, when not overwriting, on
exactly the shared key paths that conflict, and never disagrees with the
overwriting mode otherwise. -/
theorem merge_is_documented_union (a b : OrderedChunk ι) :
    (a.1.merge true b.1).2 = none ∧
    (a.1.merge true b.1).1.tree = Tree.union a.1.tree b.1.tree ∧
    ((a.1.merge false b.1).2 ≠ none ↔
      ∃ path x y, a.1.follow path = some x ∧ b.1.follow path = some y ∧ Chunk.Conflict x y) ∧
    ((a.1.merge false b.1).2 = none → a.1.merge false b.1 = a.1.merge true b.1) := by
  have merged := Chunk.merge_overwrite b.1 b.2 a.1 a.2
  obtain ⟨throws, agrees⟩ := Chunk.merge_keep b.1 b.2 a.1
  exact ⟨merged.returns, merged.union, throws, agrees⟩

end Ztd.Filedat
