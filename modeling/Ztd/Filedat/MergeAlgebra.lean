import Ztd.Filedat.Merge

/-! The laws of merging: grouping does not matter, order does not matter without
lists, and an overriding layer without lists is absorbed. -/

namespace Ztd.Filedat
open Ztd.Lib

variable {ι : Type}

/-- `merge(a, b, overwrite)`: a merged copy, or an exception. -/
def merge (a b : Chunk ι) (overwrite : Bool) : Except FormatError (Chunk ι) :=
  match a.copy.merge overwrite b with
  | (merged, none) => .ok merged
  | (_, some error) => .error error

/-- Both throw, or both give the same tree. -/
def SameTree : Except FormatError (Chunk ι) → Except FormatError (Chunk ι) → Prop
  | .ok x, .ok y => x.tree = y.tree
  | .error _, .error _ => True
  | _, _ => False

namespace Chunk

mutual
/-- Every chunk of the tree has an allowed type. -/
def Every (allowed : ChunkType → Prop) : Chunk ι → Prop
  | .none _ => allowed .none
  | .string _ _ => allowed .string
  | .map _ values => allowed .map ∧ EveryValue allowed values
  | .list _ elements => allowed .list ∧ EveryElement allowed elements
def EveryValue (allowed : ChunkType → Prop) : List (Text × Chunk ι) → Prop
  | [] => True
  | (_, value) :: rest => Every allowed value ∧ EveryValue allowed rest
def EveryElement (allowed : ChunkType → Prop) : List (Chunk ι) → Prop
  | [] => True
  | element :: rest => Every allowed element ∧ EveryElement allowed rest
end

def NoNone (chunk : Chunk ι) : Prop := chunk.Every (· ≠ .none)

def NoList (chunk : Chunk ι) : Prop := chunk.Every (· ≠ .list)

section Every
variable {allowed : ChunkType → Prop}

theorem every_map_iff (offset : ι) (values : List (Text × Chunk ι)) :
    (Chunk.map offset values).Every allowed ↔
      allowed .map ∧ ∀ entry ∈ values, entry.2.Every allowed := by
  have inside : EveryValue allowed values ↔ ∀ entry ∈ values, entry.2.Every allowed := by
    induction values with
    | nil => simp [EveryValue]
    | cons entry rest ih =>
      obtain ⟨key, value⟩ := entry
      simp only [EveryValue, ih, List.forall_mem_cons]
  rw [Every, inside]

theorem every_list_iff (offset : ι) (elements : List (Chunk ι)) :
    (Chunk.list offset elements).Every allowed ↔
      allowed .list ∧ ∀ element ∈ elements, element.Every allowed := by
  have inside : EveryElement allowed elements ↔ ∀ element ∈ elements, element.Every allowed := by
    induction elements with
    | nil => simp [EveryElement]
    | cons element rest ih => simp only [EveryElement, ih, List.forall_mem_cons]
  rw [Every, inside]

theorem Every.type {chunk : Chunk ι} (every : chunk.Every allowed) : allowed chunk.type := by
  cases chunk with
  | none => exact every
  | string => exact every
  | map => exact every.1
  | list => exact every.1

theorem every_tree (chunk : Chunk ι) : chunk.tree.Every allowed ↔ chunk.Every allowed := by
  induction chunk using induct with
  | none offset => rfl
  | string offset val => rfl
  | map offset values ih =>
    rw [tree_map, every_map_iff, every_map_iff]
    refine and_congr_right fun _ => ?_
    rw [List.forall_mem_map]
    exact forall₂_congr fun entry member => ih entry member
  | list offset elements ih =>
    rw [tree_list, every_list_iff, every_list_iff]
    refine and_congr_right fun _ => ?_
    rw [List.forall_mem_map]
    exact forall₂_congr fun element member => ih element member

/-- What is under a key of an allowed map is allowed. -/
theorem Every.find {offset : ι} {values : List (Text × Chunk ι)} {key : Text} {value : Chunk ι}
    (every : (Chunk.map offset values).Every allowed)
    (found : OrderedMap.find? key values = some value) : value.Every allowed :=
  ((every_map_iff offset values).mp every).2 _ (OrderedMap.mem_of_find? found)

end Every

theorem Ordered.find {offset : ι} {values : List (Text × Chunk ι)} {key : Text} {value : Chunk ι}
    (ordered : (Chunk.map offset values).Ordered)
    (found : OrderedMap.find? key values = some value) : value.Ordered :=
  ((ordered_map_iff offset values).mp ordered).2 _ (OrderedMap.mem_of_find? found)

theorem Ordered.sorted {offset : ι} {values : List (Text × Chunk ι)}
    (ordered : (Chunk.map offset values).Ordered) : OrderedMap.Sorted values :=
  ((ordered_map_iff offset values).mp ordered).1

theorem ordered_tree (chunk : Chunk ι) : chunk.tree.Ordered ↔ chunk.Ordered := by
  induction chunk using induct with
  | none offset => rfl
  | string offset val => rfl
  | map offset values ih =>
    have sorted : OrderedMap.Sorted (values.map fun entry => (entry.1, entry.2.tree)) ↔
        OrderedMap.Sorted values := by
      simp [OrderedMap.Sorted, List.pairwise_map]
    rw [tree_map, ordered_map_iff, ordered_map_iff, sorted, List.forall_mem_map]
    exact and_congr_right fun _ => forall₂_congr fun entry member => ih entry member
  | list offset elements ih =>
    rw [tree_list, ordered_list_iff, ordered_list_iff, List.forall_mem_map]
    exact forall₂_congr fun element member => ih element member

theorem tree_tree (tree : Tree) : tree.tree = tree := by
  induction tree using induct with
  | none offset => rfl
  | string offset val => rfl
  | map offset values ih =>
    have same : values.map (fun entry => (entry.1, entry.2.tree)) = values.map id :=
      List.map_congr_left fun entry member => by rw [ih entry member]; rfl
    rw [tree_map, same, List.map_id]
  | list offset elements ih =>
    have same : elements.map tree = elements.map id :=
      List.map_congr_left fun element member => ih element member
    rw [tree_list, same, List.map_id]

theorem follow_tree (path : List Text) (chunk : Chunk ι) :
    chunk.tree.follow path = (chunk.follow path).map tree := by
  induction path generalizing chunk with
  | nil => rfl
  | cons key path ih =>
    cases chunk with
    | map offset values =>
      rw [tree_map, follow, follow, OrderedMap.find?_map]
      cases OrderedMap.find? key values with
      | none => rfl
      | some value => exact ih value
    | _ => rfl

theorem clash_tree (a b : Chunk ι) : Clash a.tree b.tree ↔ Clash a b := by
  constructor
  · rintro ⟨path, x, y, first, second, conflict⟩
    rw [follow_tree, Option.map_eq_some_iff] at first second
    obtain ⟨x, first, rfl⟩ := first
    obtain ⟨y, second, rfl⟩ := second
    exact ⟨path, x, y, first, second, by simpa [Conflict] using conflict⟩
  · rintro ⟨path, x, y, first, second, conflict⟩
    exact ⟨path, x.tree, y.tree, by rw [follow_tree, first]; rfl,
      by rw [follow_tree, second]; rfl, by simpa [Conflict] using conflict⟩

theorem conflict_comm {a b : Chunk ι} (noneA : a.type ≠ .none) (noneB : b.type ≠ .none) :
    Conflict a b ↔ Conflict b a := by
  simp only [Conflict, noneA, noneB, ne_eq, not_false_eq_true, and_comm, ne_comm]

theorem Every.follow {allowed : ChunkType → Prop} {path : List Text} {chunk found : Chunk ι}
    (every : chunk.Every allowed) (leads : chunk.follow path = some found) :
    found.Every allowed := by
  induction path generalizing chunk with
  | nil =>
    obtain rfl := Option.some.inj leads
    exact every
  | cons key path ih =>
    cases chunk with
    | map offset values =>
      obtain ⟨value, held, leads⟩ := Option.bind_eq_some_iff.mp leads
      exact ih (every.find held) leads
    | _ => simp [Chunk.follow] at leads

theorem clash_comm {a b : Chunk ι} (noneA : a.NoNone) (noneB : b.NoNone) :
    Clash a b ↔ Clash b a := by
  have turn {a b : Chunk ι} (noneA : a.NoNone) (noneB : b.NoNone) (clash : Clash a b) :
      Clash b a := by
    obtain ⟨path, x, y, first, second, conflict⟩ := clash
    exact ⟨path, y, x, second, first,
      (conflict_comm (noneA.follow first).type (noneB.follow second).type).mp conflict⟩
  exact ⟨turn noneA noneB, turn noneB noneA⟩

section NoClash
variable {a : Chunk ι} (noNone : a.type ≠ .none)
include noNone

theorem clash_none (offset : ι) : Clash a (.none offset) :=
  clash_of_conflict (.inr ⟨noNone, noNone⟩)

theorem clash_string (offset : ι) (val : Text) : Clash a (.string offset val) := by
  apply clash_of_conflict
  by_cases string : a.type = .string
  · exact .inl ⟨string, rfl⟩
  · exact .inr ⟨string, noNone⟩

theorem map_of_not_clash {offset : ι} {ys : List (Text × Chunk ι)}
    (agree : ¬ Clash a (.map offset ys)) : ∃ other xs, a = .map other xs := by
  cases a with
  | map other xs => exact ⟨other, xs, rfl⟩
  | _ => exact absurd (clash_of_conflict (.inr ⟨by simp [type], noNone⟩)) agree

theorem list_of_not_clash {offset : ι} {ys : List (Chunk ι)}
    (agree : ¬ Clash a (.list offset ys)) : ∃ other xs, a = .list other xs := by
  cases a with
  | list other xs => exact ⟨other, xs, rfl⟩
  | _ => exact absurd (clash_of_conflict (.inr ⟨by simp [type], noNone⟩)) agree

end NoClash

end Chunk

open Chunk (tree_tree merge_overwrite every_map_iff every_list_iff Conflict Clash clash_map_iff
  clash_iff_conflict clash_none clash_string map_of_not_clash list_of_not_clash)

section Laws

theorem Tree.union_ordered {a b : Tree} (orderedA : a.Ordered) (orderedB : b.Ordered) :
    (a.union b).Ordered := by
  obtain ⟨_, union, ordered⟩ := merge_overwrite b orderedB a orderedA
  rw [tree_tree, tree_tree, tree_tree] at union
  exact union ▸ ordered

/-- What is under a key of a union of maps. -/
theorem Tree.find?_union_cases {xs ys : List (Text × Tree)} (sorted : OrderedMap.Sorted ys)
    {key : Text} {joined : Tree}
    (found : OrderedMap.find? key (OrderedMap.override xs (Tree.unionValues xs ys)) =
      some joined) :
    (∃ x y, OrderedMap.find? key xs = some x ∧ OrderedMap.find? key ys = some y ∧
        joined = x.union y) ∨
      (OrderedMap.find? key xs = some joined ∧ OrderedMap.find? key ys = none) ∨
      OrderedMap.find? key xs = none ∧ OrderedMap.find? key ys = some joined := by
  rw [Tree.find?_union sorted] at found
  cases held : OrderedMap.find? key xs with
  | none =>
    cases upper : OrderedMap.find? key ys with
    | none => simp [held, upper] at found
    | some y => simp_all
  | some x =>
    cases upper : OrderedMap.find? key ys with
    | none => simp_all
    | some y => exact .inl ⟨x, y, rfl, rfl, by simpa [held, upper, eq_comm] using found⟩

theorem Tree.union_every {allowed : ChunkType → Prop} {a b : Tree} (everyA : a.Every allowed)
    (everyB : b.Every allowed) (orderedA : a.Ordered) (orderedB : b.Ordered) :
    (a.union b).Every allowed := by
  induction b using Chunk.induct generalizing a with
  | none offset => exact everyB
  | string offset val => exact everyB
  | list offset ys ih =>
    cases a with
    | list other xs =>
      rw [Tree.union, every_list_iff]
      rw [every_list_iff] at everyA everyB
      refine ⟨everyA.1, fun element member => ?_⟩
      rcases List.mem_append.mp member with old | new
      · exact everyA.2 element old
      · exact everyB.2 element new
    | _ => simpa [Tree.union] using everyB
  | map offset ys ih =>
    cases a with
    | map other xs =>
      rw [Tree.union, every_map_iff]
      refine ⟨everyA.1, fun entry member => ?_⟩
      obtain ⟨key, value⟩ := entry
      have found := (orderedA.sorted.override _).find?_of_mem member
      rcases Tree.find?_union_cases orderedB.sorted found with
        ⟨x, y, held, upper, joined⟩ | ⟨held, _⟩ | ⟨_, upper⟩
      · rw [joined]
        exact ih _ (OrderedMap.mem_of_find? upper) (everyA.find held) (everyB.find upper)
          (orderedA.find held) (orderedB.find upper)
      · exact everyA.find held
      · exact everyB.find upper
    | _ => simpa [Tree.union] using everyB

theorem not_clash_find {left right : Unit} {xs ys : List (Text × Tree)}
    (agree : ¬ Clash (.map left xs) (.map right ys)) {key : Text} {x y : Tree}
    (held : OrderedMap.find? key xs = some x) (upper : OrderedMap.find? key ys = some y) :
    ¬ Clash x y := fun clash =>
  agree ((clash_map_iff left right xs ys).mpr ⟨key, x, y, held, upper, clash⟩)

/-- A union clashes with a tree where one of its two parts does. -/
theorem clash_union {a b : Tree} (noneA : a.NoNone) (orderedB : b.Ordered) (agree : ¬ Clash a b)
    (c : Tree) : Clash (a.union b) c ↔ Clash a c ∨ Clash b c := by
  induction b using Chunk.induct generalizing a c with
  | none offset => exact absurd (clash_none noneA.type offset) agree
  | string offset val => exact absurd (clash_string noneA.type offset val) agree
  | list offset ys _ =>
    obtain ⟨_, xs, rfl⟩ := list_of_not_clash noneA.type agree
    have list (offset : Unit) (elements : List Tree) :
        Clash (.list offset elements) c ↔ c.type ≠ .list := by
      rw [clash_iff_conflict (.inl (by simp [Chunk.type]))]
      simp [Conflict, Chunk.type, eq_comm]
    rw [Tree.union, list, list, list, or_self]
  | map offset ys ih =>
    obtain ⟨_, xs, rfl⟩ := map_of_not_clash noneA.type agree
    rw [Tree.union]
    cases c with
    | map other zs =>
      have sorted := orderedB.sorted
      rw [clash_map_iff, clash_map_iff, clash_map_iff]
      constructor
      · rintro ⟨key, joined, z, found, third, clash⟩
        rcases Tree.find?_union_cases sorted found with
          ⟨x, y, held, upper, rfl⟩ | ⟨held, _⟩ | ⟨_, upper⟩
        · have inside := ih _ (OrderedMap.mem_of_find? upper) (noneA.find held)
            (orderedB.find upper) (not_clash_find agree held upper) z
          rcases inside.mp clash with first | second
          · exact .inl ⟨key, x, z, held, third, first⟩
          · exact .inr ⟨key, y, z, upper, third, second⟩
        · exact .inl ⟨key, joined, z, held, third, clash⟩
        · exact .inr ⟨key, joined, z, upper, third, clash⟩
      · rintro (⟨key, x, z, held, third, clash⟩ | ⟨key, y, z, upper, third, clash⟩)
        · cases upper : OrderedMap.find? key ys with
          | none => exact ⟨key, x, z, by rw [Tree.find?_union sorted, held, upper], third, clash⟩
          | some y =>
            have inside := ih _ (OrderedMap.mem_of_find? upper) (noneA.find held)
              (orderedB.find upper) (not_clash_find agree held upper) z
            exact ⟨key, Tree.union x y, z, by rw [Tree.find?_union sorted, held, upper], third,
              inside.mpr (.inl clash)⟩
        · cases held : OrderedMap.find? key xs with
          | none => exact ⟨key, y, z, by rw [Tree.find?_union sorted, held, upper], third, clash⟩
          | some x =>
            have inside := ih _ (OrderedMap.mem_of_find? upper) (noneA.find held)
              (orderedB.find upper) (not_clash_find agree held upper) z
            exact ⟨key, Tree.union x y, z, by rw [Tree.find?_union sorted, held, upper], third,
              inside.mpr (.inr clash)⟩
    | _ =>
      rw [clash_iff_conflict (.inr (by simp [Chunk.type])),
        clash_iff_conflict (.inr (by simp [Chunk.type])),
        clash_iff_conflict (.inr (by simp [Chunk.type]))]
      simp [Conflict, Chunk.type]

/-- Trees that do not clash may be joined in any grouping. -/
theorem Tree.union_assoc {a b c : Tree} (noneA : a.NoNone) (noneB : b.NoNone)
    (orderedA : a.Ordered) (orderedB : b.Ordered) (orderedC : c.Ordered)
    (first : ¬ Clash a b) (second : ¬ Clash b c) :
    (a.union b).union c = a.union (b.union c) := by
  induction c using Chunk.induct generalizing a b with
  | none offset => exact absurd (clash_none noneB.type offset) second
  | string offset val => exact absurd (clash_string noneB.type offset val) second
  | list offset zs _ =>
    obtain ⟨_, ys, rfl⟩ := list_of_not_clash noneB.type second
    obtain ⟨_, xs, rfl⟩ := list_of_not_clash noneA.type first
    simp only [Tree.union, List.append_assoc]
  | map offset zs ih =>
    obtain ⟨_, ys, rfl⟩ := map_of_not_clash noneB.type second
    obtain ⟨_, xs, rfl⟩ := map_of_not_clash noneA.type first
    have sortedJoined := (Tree.union_ordered orderedB orderedC)
    have sorted := orderedC.sorted
    simp only [Tree.union] at sortedJoined ⊢
    congr 1
    apply OrderedMap.Sorted.ext ((orderedA.sorted.override _).override _)
      (orderedA.sorted.override _)
    intro key
    rw [Tree.find?_union sorted, Tree.find?_union sortedJoined.sorted,
      Tree.find?_union orderedB.sorted, Tree.find?_union sorted]
    cases held : OrderedMap.find? key xs with
    | none => 
      cases upper : OrderedMap.find? key ys <;> cases OrderedMap.find? key zs <;> rfl
    | some x =>
      cases upper : OrderedMap.find? key ys with
      | none => cases OrderedMap.find? key zs <;> rfl
      | some y =>
        cases third : OrderedMap.find? key zs with
        | none => rfl
        | some z =>
          exact congrArg some (ih _ (OrderedMap.mem_of_find? third) (noneA.find held)
            (noneB.find upper) (orderedA.find held) (orderedB.find upper) (orderedC.find third)
            (not_clash_find first held upper) (not_clash_find second upper third))

/-- Trees without lists that do not clash may be joined in any order. -/
theorem Tree.union_comm {a b : Tree} (noneA : a.NoNone) (noList : a.NoList)
    (orderedA : a.Ordered) (orderedB : b.Ordered) (agree : ¬ Clash a b) :
    a.union b = b.union a := by
  induction b using Chunk.induct generalizing a with
  | none offset => exact absurd (clash_none noneA.type offset) agree
  | string offset val => exact absurd (clash_string noneA.type offset val) agree
  | list offset ys _ =>
    obtain ⟨_, xs, rfl⟩ := list_of_not_clash noneA.type agree
    exact absurd rfl noList.type
  | map offset ys ih =>
    obtain ⟨_, xs, rfl⟩ := map_of_not_clash noneA.type agree
    simp only [Tree.union]
    congr 1
    apply OrderedMap.Sorted.ext (orderedA.sorted.override _) (orderedB.sorted.override _)
    intro key
    rw [Tree.find?_union orderedB.sorted, Tree.find?_union orderedA.sorted]
    cases held : OrderedMap.find? key xs with
    | none => cases OrderedMap.find? key ys <;> rfl
    | some x =>
      cases upper : OrderedMap.find? key ys with
      | none => rfl
      | some y =>
        exact congrArg some (ih _ (OrderedMap.mem_of_find? upper) (noneA.find held)
          (noList.find held) (orderedA.find held) (orderedB.find upper)
          (not_clash_find agree held upper))

end Laws

/-- Without overwriting, merging throws on a clash and otherwise joins the trees. -/
theorem merge_cases {a b : Chunk ι} (orderedA : a.Ordered) (orderedB : b.Ordered) :
    (Clash a b ∧ ∃ error, merge a b false = .error error) ∨
      ¬ Clash a b ∧ ∃ joined, merge a b false = .ok joined ∧ joined.Ordered ∧
        joined.tree = Tree.union a.tree b.tree := by
  obtain ⟨throws, agrees⟩ := Chunk.merge_keep b orderedB a
  obtain ⟨_, union, ordered⟩ := merge_overwrite b orderedB a orderedA
  rw [merge, Chunk.copy_eq]
  cases result : a.merge false b with
  | mk joined stop =>
    rw [result] at throws agrees
    cases stop with
    | some error => exact .inl ⟨throws.mp (by simp), error, rfl⟩
    | none =>
      have same := agrees rfl
      refine .inr ⟨fun clash => throws.mpr clash rfl, joined, rfl, ?_⟩
      rw [← same] at union ordered
      exact ⟨ordered, union⟩

/-- A tree of `std::map`s without none chunks. -/
structure Filled (ι : Type) where
  chunk : Chunk ι
  ordered : chunk.Ordered
  noNone : chunk.NoNone

/-- A tree of `std::map`s without none chunks and without lists. -/
structure FilledMaps (ι : Type) extends Filled ι where
  noList : chunk.NoList

section Filled
variable {joined : Chunk ι}

theorem clash_joined_left (a b c : Filled ι) (agree : ¬ Clash a.chunk b.chunk)
    (union : joined.tree = Tree.union a.chunk.tree b.chunk.tree) :
    Clash joined c.chunk ↔ Clash a.chunk c.chunk ∨ Clash b.chunk c.chunk := by
  rw [← Chunk.clash_tree] at agree
  rw [← Chunk.clash_tree, union, clash_union ((Chunk.every_tree _).mpr a.noNone)
    ((Chunk.ordered_tree _).mpr b.ordered) agree, Chunk.clash_tree, Chunk.clash_tree]

theorem clash_joined_right (a b c : Filled ι) (agree : ¬ Clash b.chunk c.chunk)
    (union : joined.tree = Tree.union b.chunk.tree c.chunk.tree) :
    Clash a.chunk joined ↔ Clash a.chunk b.chunk ∨ Clash a.chunk c.chunk := by
  have noNone : joined.NoNone := by
    rw [Chunk.NoNone, ← Chunk.every_tree, union]
    exact Tree.union_every ((Chunk.every_tree _).mpr b.noNone) ((Chunk.every_tree _).mpr c.noNone)
      ((Chunk.ordered_tree _).mpr b.ordered) ((Chunk.ordered_tree _).mpr c.ordered)
  rw [Chunk.clash_comm a.noNone noNone, clash_joined_left b c a agree union,
    Chunk.clash_comm b.noNone a.noNone, Chunk.clash_comm c.noNone a.noNone]

theorem union_grouping (a b c : Filled ι) (first : ¬ Clash a.chunk b.chunk)
    (second : ¬ Clash b.chunk c.chunk) :
    (Tree.union a.chunk.tree b.chunk.tree).union c.chunk.tree =
      a.chunk.tree.union (Tree.union b.chunk.tree c.chunk.tree) := by
  rw [← Chunk.clash_tree] at first second
  exact Tree.union_assoc ((Chunk.every_tree _).mpr a.noNone) ((Chunk.every_tree _).mpr b.noNone)
    ((Chunk.ordered_tree _).mpr a.ordered) ((Chunk.ordered_tree _).mpr b.ordered)
    ((Chunk.ordered_tree _).mpr c.ordered) first second

theorem merge_grouping (a b c : Filled ι) :
    SameTree (do let joined ← merge a.chunk b.chunk false; merge joined c.chunk false)
      (do let joined ← merge b.chunk c.chunk false; merge a.chunk joined false) := by
  rcases merge_cases b.ordered c.ordered with
    ⟨clashBC, errorBC, throwsBC⟩ | ⟨agreeBC, bc, returnsBC, orderedBC, unionBC⟩
  · -- b and c clash: so do c and what merging b into a gives
    rw [throwsBC]
    rcases merge_cases a.ordered b.ordered with
      ⟨_, errorAB, throwsAB⟩ | ⟨agreeAB, ab, returnsAB, orderedAB, unionAB⟩
    · rw [throwsAB]
      trivial
    · have clash := (clash_joined_left a b c agreeAB unionAB).mpr (.inr clashBC)
      rcases merge_cases orderedAB c.ordered with ⟨_, error, throws⟩ | ⟨agree, _⟩
      · simp only [returnsAB, bind, Except.bind, throws]
        trivial
      · exact absurd clash agree
  · have right := clash_joined_right a b c agreeBC unionBC
    rcases merge_cases a.ordered b.ordered with
      ⟨clashAB, errorAB, throwsAB⟩ | ⟨agreeAB, ab, returnsAB, orderedAB, unionAB⟩
    · rw [throwsAB]
      rcases merge_cases a.ordered orderedBC with ⟨_, error, throws⟩ | ⟨agree, _⟩
      · simp only [returnsBC, bind, Except.bind, throws]
        trivial
      · exact absurd (right.mpr (.inl clashAB)) agree
    · have left := clash_joined_left a b c agreeAB unionAB
      have same : Clash ab c.chunk ↔ Clash a.chunk bc := by
        rw [left, right]
        simp only [agreeAB, agreeBC, or_false, false_or]
      rcases merge_cases orderedAB c.ordered with
        ⟨clash, error, throws⟩ | ⟨agree, first, returns, _, union⟩
      · rcases merge_cases a.ordered orderedBC with ⟨_, other, fails⟩ | ⟨agree, _⟩
        · simp only [returnsAB, returnsBC, bind, Except.bind, throws, fails]
          trivial
        · exact absurd (same.mp clash) agree
      · rcases merge_cases a.ordered orderedBC with
          ⟨clash, _⟩ | ⟨_, second, succeeds, _, unionRight⟩
        · exact absurd (same.mpr clash) agree
        · simp only [returnsAB, returnsBC, bind, Except.bind, returns, succeeds]
          change first.tree = second.tree
          rw [union, unionRight, unionAB, unionBC, union_grouping a b c agreeAB agreeBC]

theorem merge_order (a b : FilledMaps ι) :
    SameTree (merge a.chunk b.chunk false) (merge b.chunk a.chunk false) := by
  have turns := Chunk.clash_comm a.noNone b.noNone
  rcases merge_cases a.ordered b.ordered with
    ⟨clash, error, throws⟩ | ⟨agree, first, returns, _, union⟩
  · rcases merge_cases b.ordered a.ordered with ⟨_, other, fails⟩ | ⟨agree, _⟩
    · rw [throws, fails]
      trivial
    · exact absurd (turns.mp clash) agree
  · rcases merge_cases b.ordered a.ordered with
      ⟨clash, _⟩ | ⟨_, second, succeeds, _, unionRight⟩
    · exact absurd (turns.mpr clash) agree
    · rw [returns, succeeds]
      change first.tree = second.tree
      rw [union, unionRight]
      rw [← Chunk.clash_tree] at agree
      exact Tree.union_comm ((Chunk.every_tree _).mpr a.noNone) ((Chunk.every_tree _).mpr a.noList)
        ((Chunk.ordered_tree _).mpr a.ordered) ((Chunk.ordered_tree _).mpr b.ordered) agree

/-- Merging without overwriting does not depend on the grouping, nor on the order
where no list is involved. -/
theorem merge_independent :
    (∀ a b c : Filled ι,
      SameTree (do let joined ← merge a.chunk b.chunk false; merge joined c.chunk false)
        (do let joined ← merge b.chunk c.chunk false; merge a.chunk joined false)) ∧
    ∀ a b : FilledMaps ι,
      SameTree (merge a.chunk b.chunk false) (merge b.chunk a.chunk false) :=
  ⟨merge_grouping, merge_order⟩

end Filled

namespace Chunk

theorem merge_returns (b : Chunk ι) : ∀ a : Chunk ι, (a.merge true b).2 = .none := by
  induction b using induct with
  | none offset => intro a; cases a <;> rfl
  | string offset val => intro a; cases a <;> rfl
  | list offset elements _ => intro a; cases a <;> simp [merge, mergeConflict]
  | map offset ys ih =>
    intro a
    have returns (xs : List (Text × Chunk ι)) : (mergeValues true xs ys).2 = .none := by
      induction ys generalizing xs with
      | nil => rfl
      | cons entry rest rest_ih =>
        obtain ⟨key, y⟩ := entry
        have later := rest_ih (fun other member => ih other (List.mem_cons_of_mem _ member))
        cases found : OrderedMap.find? key xs with
        | none => rw [mergeValues_new found, later]
        | some x => rw [mergeValues_shared found (ih (key, y) (List.mem_cons_self ..) x), later]
    cases a <;> simp [merge, mergeConflict, returns]

/-- What is under a key after overwriting with a map. -/
theorem find?_mergeValues {ys : List (Text × Chunk ι)} (sorted : OrderedMap.Sorted ys)
    (xs : List (Text × Chunk ι)) (key : Text) :
    OrderedMap.find? key (mergeValues true xs ys).1 =
      (OrderedMap.find? key ys).elim (OrderedMap.find? key xs) fun y =>
        some ((OrderedMap.find? key xs).elim y fun x => (x.merge true y).1) := by
  induction ys generalizing xs with
  | nil => cases found : OrderedMap.find? key xs <;> simp [mergeValues, found]
  | cons entry rest ih =>
    obtain ⟨head, y⟩ := entry
    have round (joined : Chunk ι) (same : mergeValues true xs ((head, y) :: rest) =
        mergeValues true (OrderedMap.insert head joined xs) rest)
        (holds : joined = (OrderedMap.find? head xs).elim y fun x => (x.merge true y).1) :
        OrderedMap.find? key (mergeValues true xs ((head, y) :: rest)).1 =
          (OrderedMap.find? key ((head, y) :: rest)).elim (OrderedMap.find? key xs) fun y =>
            some ((OrderedMap.find? key xs).elim y fun x => (x.merge true y).1) := by
      rw [same, ih sorted.tail]
      by_cases here : head = key
      · subst head
        rw [sorted.find?_head_lt le_rfl, OrderedMap.find?_insert_self,
          OrderedMap.find?_cons_self, holds]
        rfl
      · rw [OrderedMap.find?_insert_ne (Ne.symm here), OrderedMap.find?_cons, if_neg here]
    cases found : OrderedMap.find? head xs with
    | none => exact round y (mergeValues_new found rest) (by rw [found]; rfl)
    | some x =>
      exact round _ (mergeValues_shared found (merge_returns y x) rest) (by rw [found]; rfl)

/-- Overwriting with values that are absorbed changes nothing. -/
theorem mergeValues_absorbed {held ys : List (Text × Chunk ι)} (sorted : OrderedMap.Sorted held)
    (absorbed : ∀ entry ∈ ys, ∃ x, OrderedMap.find? entry.1 held = some x ∧
      x.merge true entry.2 = (x, .none)) :
    mergeValues true held ys = (held, .none) := by
  induction ys with
  | nil => rfl
  | cons entry rest ih =>
    obtain ⟨key, y⟩ := entry
    obtain ⟨⟨x, found, same⟩, later⟩ := List.forall_mem_cons.mp absorbed
    rw [mergeValues_shared found (by rw [same]), same, sorted.insert_found found, ih later]

theorem merge_into_none (overwrite : Bool) (offset : ι) (b : Chunk ι) :
    (Chunk.none offset).merge overwrite b = (b, .none) := by
  cases b <;> simp [merge]

/-- A layer without lists is absorbed by what it was merged into. -/
theorem merge_absorbed (b : Chunk ι) (orderedB : b.Ordered) (noList : b.NoList) :
    ∀ a : Chunk ι, a.Ordered → (a.merge true b).1.merge true b = ((a.merge true b).1, .none) := by
  induction b using induct with
  | none offset => intro a _; cases a <;> simp [merge, mergeConflict]
  | string offset val => intro a _; cases a <;> simp [merge, mergeConflict]
  | list offset elements _ => exact absurd rfl noList.type
  | map offset ys ih =>
    intro a orderedA
    have absorbed (entry : Text × Chunk ι) (member : entry ∈ ys) :=
      ih entry member (((ordered_map_iff ..).mp orderedB).2 entry member)
        (((every_map_iff ..).mp noList).2 entry member)
    have self (entry : Text × Chunk ι) (member : entry ∈ ys) :
        entry.2.merge true entry.2 = (entry.2, .none) := by
      have same := absorbed entry member (.none offset) trivial
      rwa [merge_into_none] at same
    cases a with
    | map other xs =>
      have sorted := (merge_overwrite _ orderedB _ orderedA).ordered
      simp only [merge] at sorted ⊢
      have same : mergeValues true (mergeValues true xs ys).1 ys =
          ((mergeValues true xs ys).1, .none) := by
        refine mergeValues_absorbed sorted.sorted fun entry member => ?_
        have found : OrderedMap.find? entry.1 ys = some entry.2 :=
          orderedB.sorted.find?_of_mem member
        rw [find?_mergeValues orderedB.sorted, found, Option.elim_some]
        cases held : OrderedMap.find? entry.1 xs with
        | none => exact ⟨_, rfl, self entry member⟩
        | some x => exact ⟨_, rfl, absorbed entry member x (orderedA.find held)⟩
      simp only [same]
    | _ =>
      have same : mergeValues true ys ys = (ys, .none) :=
        mergeValues_absorbed orderedB.sorted fun entry member =>
          ⟨_, orderedB.sorted.find?_of_mem member, self entry member⟩
      simp [merge, mergeConflict, same]

end Chunk

/-- A tree of `std::map`s without lists. -/
structure ListFree (ι : Type) where
  chunk : Chunk ι
  ordered : chunk.Ordered
  noList : chunk.NoList

/-- Applying an overriding layer without lists twice is applying it once. -/
theorem merge_twice (a : OrderedChunk ι) (b : ListFree ι) :
    (a.1.merge true b.chunk).2 = none ∧
    (a.1.merge true b.chunk).1.merge true b.chunk = ((a.1.merge true b.chunk).1, none) :=
  ⟨Chunk.merge_returns b.chunk a.1, Chunk.merge_absorbed b.chunk b.ordered b.noList a.1 a.2⟩

end Ztd.Filedat
