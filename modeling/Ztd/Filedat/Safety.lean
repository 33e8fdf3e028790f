import Ztd.Filedat.Execution

/-! What programs over chunks may rely on: they end and leave nothing behind, a
reference stays where it was while chunks only grow, no two chunks share an
address, and only a text that is refused behind its first bracket is lost. -/

namespace Ztd.Filedat
open Ztd.Lib Ztd.Lib.Assertion Chunk

theorem own_nil {heap : Heap Cell} : Roots.Own [] heap ↔ heap = ∅ := one_holds

section Ends
variable (allocator : Allocator Cell) {blanks : BlankRun} {commands : List Command}
  {objects : Objects} {outcomes : List Outcome}

/-- A program ends, its commands return and throw what they do on values, and the
memory is its chunks with their values, each object in a place of its own. -/
theorem execute_refines (plays : play blanks commands [] = some (objects, outcomes)) :
    ∃ (roots : Roots) (heap : Heap Cell),
      (execute allocator blanks commands []).exec ∅ = (.ok (roots.pointers, outcomes), heap) ∧
      roots.values = objects ∧ roots.Own heap := by
  obtain ⟨after, final, ran, owns, becomes⟩ :=
    execute_from allocator [] .nil (own_nil.mpr rfl) plays
  exact ⟨after, final, ran, becomes.values, owns⟩

/-- A program that destroys its chunks leaves no object behind. -/
theorem execute_frees (plays : play blanks commands [] = some ([], outcomes)) :
    (execute allocator blanks commands []).exec ∅ = (.ok ([], outcomes), ∅) := by
  obtain ⟨after, final, ran, owns, becomes⟩ :=
    execute_from allocator [] .nil (own_nil.mpr rfl) plays
  obtain rfl : after = [] := List.map_eq_nil_iff.mp becomes.values
  obtain rfl := own_nil.mp owns
  exact ran

end Ends

/-- A program that puts a copy of a string, and then a copy of all it has, into a map. -/
def sampleCommands : List Command :=
  [.construct 0 ['a'] 0, .declare 1, .perform (.addToMap ['k']) ⟨1, []⟩ ⟨0, []⟩,
    .perform (.addToMap ['l']) ⟨1, []⟩ ⟨1, []⟩, .destroy 0]

def sampleObjects : Objects :=
  [(1, .map 0 [(['k'], .string 0 ['a']), (['l'], .map 0 [(['k'], .string 0 ['a'])])])]

theorem execute_refines_sample : ∃ (roots : Roots) (heap : Heap Cell),
    (execute (.above Cell) .unchecked sampleCommands []).exec ∅ =
      (.ok (roots.pointers, List.replicate 5 (.ok [])), heap) ∧
    roots.values = sampleObjects ∧ roots.Own heap :=
  execute_refines (.above Cell) rfl

theorem execute_frees_sample :
    (execute (.above Cell) .unchecked (sampleCommands ++ [.destroy 1]) []).exec ∅ =
      (.ok ([], List.replicate 6 (.ok [])), ∅) := execute_frees (.above Cell) rfl

section References
variable {roots : Roots} {heap : Heap Cell} {place other : Place} {at_ : Nat}

/-- What a place of a program is in memory. -/
theorem locate_iff (sorted : OrderedMap.Sorted roots) (owns : roots.Own heap) :
    ((roots.pointers.locate place).exec heap).1 = .ok at_ ↔
      ∃ root target, OrderedMap.find? place.variable_ roots = some root ∧
        root.at? place.path = some target ∧ target.address = at_ := by
  rw [Pointers.locate, Roots.find?_pointers]
  cases is : OrderedMap.find? place.variable_ roots with
  | none => simp [Act.exec_fault]
  | some root =>
    rw [own_focus sorted is] at owns
    simp only [Option.map_some, Option.some.injEq]
    cases refers : root.plain.refer place.path with
    | error error =>
      have throws := ((Memory.refer_missing refers).frame_endsIn _).whole owns
      obtain ⟨ended, _⟩ := iSup_holds.mp throws
      rw [ended]
      constructor
      · intro returned
        cases returned
      · rintro ⟨_, target, rfl, reached, _⟩
        have found := refer_eq_ok.mpr (plain_at? reached)
        rw [refers] at found
        cases found
    | ok chunk =>
      obtain ⟨target, reached, rfl⟩ := at?_of_plain (refer_eq_ok.mp refers)
      have finds := ((Memory.refer_found reached).frame_endsIn _).whole owns
      obtain ⟨ended, _⟩ := iSup_holds.mp finds
      rw [ended]
      constructor
      · intro same
        exact ⟨root, target, rfl, reached, Except.ok.inj same⟩
      · rintro ⟨_, other, rfl, there, rfl⟩
        rw [Option.some.inj (reached.symm.trans there)]

theorem covers_owns (chunk : Allocated) : Covers chunk.address (Owns chunk) := by
  cases is : chunk.cell? with
  | none =>
    cases chunk with
    | none slot =>
      rw [owns_none]
      exact covers_pointsTo _ _
    | string | map | list => cases is
  | some cell =>
    rw [owns_some is]
    intro heap holds
    obtain ⟨_, body⟩ := iSup_holds.mp holds
    exact (covers_pointsTo _ _).mul _ heap body

/-- A chunk is not where a chunk below it is. -/
theorem below_apart {chunk below : Allocated} {access : Access} {path : List Access}
    (reached : chunk.at? (access :: path) = some below) (holds : Owns chunk heap) :
    below.address ≠ chunk.address := by
  intro same
  obtain ⟨child, is, rest⟩ := Option.bind_eq_some_iff.mp reached
  have filled : chunk.type ≠ .none := by
    cases chunk with
    | none slot => cases access <;> cases is
    | string | map | list => simp [Chunk.type]
  have member : child ∈ chunk.children := by
    cases access with
    | key name =>
      cases chunk with
      | map slot values => exact List.mem_map_of_mem (f := Prod.snd) (OrderedMap.mem_of_find? is)
      | none | string | list => cases is
    | index position =>
      cases chunk with
      | list slot elements => exact List.mem_of_getElem? is
      | none | string | map => cases is
  obtain ⟨inner, owns, _⟩ := focus rest
  obtain ⟨before, after, parts⟩ := List.append_of_mem member
  have inside : Covers below.address (Memory.Detached chunk) := by
    intro part detached
    obtain ⟨cell, detached⟩ := iSup_holds.mp detached
    obtain ⟨_, detached⟩ := iSup_holds.mp detached
    rw [parts, ownsAll_append, ownsAll_cons, owns] at detached
    have regrouped : pointsTo chunk.offset.achunk cell * (OwnsAll before *
        (Owns below * inner * OwnsAll after)) = Owns below *
          (pointsTo chunk.offset.achunk cell * OwnsAll before * inner * OwnsAll after) := by ac_rfl
    rw [regrouped] at detached
    exact (covers_owns below).mul _ part detached
  rw [same] at inside
  exact Covers.apart (covers_pointsTo _ _) inside (Memory.owns_le_detached filled heap holds)

theorem at?_append (first later : List Access) (chunk : Allocated) :
    chunk.at? (first ++ later) = (chunk.at? first).bind fun found => found.at? later := by
  induction first generalizing chunk with
  | nil => rfl
  | cons access first ih =>
    rw [List.cons_append, at?, at?, Option.bind_assoc]
    exact Option.bind_congr fun child _ => ih child

/-- Chunks below one another are not at the same address. -/
theorem prefix_distinct {name : Nat} {root target operand : Allocated}
    {first later : List Access} (sorted : OrderedMap.Sorted roots) (owns : roots.Own heap)
    (is : OrderedMap.find? name roots = some root)
    (reached : root.at? first = some target) (further : root.at? (first ++ later) = some operand)
    (same : operand.address = target.address) : later = [] := by
  rw [at?_append, reached, Option.bind_some] at further
  cases later with
  | nil => rfl
  | cons access path =>
    obtain ⟨rest, splits, _⟩ := focus reached
    rw [own_focus sorted is, splits, mul_assoc] at owns
    obtain ⟨part, _, _, _, holds, _⟩ := owns
    exact absurd same (below_apart further holds)

theorem places_distinct {root root' target operand : Allocated} (sorted : OrderedMap.Sorted roots)
    (owns : roots.Own heap) (is : OrderedMap.find? place.variable_ roots = some root)
    (reached : root.at? place.path = some target)
    (is' : OrderedMap.find? other.variable_ roots = some root')
    (reached' : root'.at? other.path = some operand)
    (same : operand.address = target.address) : place = other := by
  by_cases apart : place.apart other = true
  · obtain ⟨rest, splits, _⟩ := places_apart True sorted is reached is' reached' apart
    rw [splits] at owns
    have second := (covers_owns operand).mul rest
    rw [same] at second
    exact absurd owns (Covers.apart (covers_owns target) second)
  · have beside : place.variable_ = other.variable_ ∧
        (place.path <+: other.path ∨ other.path <+: place.path) := by
      simp only [Place.apart, Bool.or_eq_true, bne_iff_ne, Bool.not_eq_true', Bool.or_eq_false_iff,
        not_or, not_and_or, not_not, Bool.not_eq_false] at apart
      exact ⟨apart.1, apart.2.imp List.isPrefixOf_iff_prefix.mp List.isPrefixOf_iff_prefix.mp⟩
    obtain ⟨name, path⟩ := place
    obtain ⟨name', path'⟩ := other
    simp only at is reached is' reached' beside
    obtain ⟨rfl, below⟩ := beside
    obtain rfl := Option.some.inj (is.symm.trans is')
    rcases below with ⟨later, rfl⟩ | ⟨later, rfl⟩
    · rw [prefix_distinct sorted owns is reached reached' same, List.append_nil]
    · rw [prefix_distinct sorted owns is reached' reached same.symm, List.append_nil]

end References

section Kept
variable (allocator : Allocator Cell) {blanks : BlankRun} {commands later : List Command}
  {objects final : Objects} {outcomes log : List Outcome}

/-- Two references into the chunks of a program are to one object only if they are the
same names and keys. -/
theorem execute_apart (plays : play blanks commands [] = some (objects, outcomes)) :
    ∃ (pointers : Pointers) (heap : Heap Cell),
      (execute allocator blanks commands []).exec ∅ = (.ok (pointers, outcomes), heap) ∧
      ∀ place other at_, ((pointers.locate place).exec heap).1 = .ok at_ →
        ((pointers.locate other).exec heap).1 = .ok at_ → place = other := by
  obtain ⟨after, heap, ran, owns, becomes⟩ :=
    execute_from allocator [] .nil (own_nil.mpr rfl) plays
  refine ⟨after.pointers, heap, ran, fun place other at_ first second => ?_⟩
  obtain ⟨root, target, found, reached, rfl⟩ := (locate_iff becomes.sorted owns).mp first
  obtain ⟨root', operand, found', reached', same⟩ := (locate_iff becomes.sorted owns).mp second
  exact places_distinct becomes.sorted owns found reached found' reached' same

/-- While a program only declares, prints, adds, concatenates and merges without
overwriting, every reference into its chunks stays where it is. -/
theorem execute_keeps (plays : play blanks commands [] = some (objects, outcomes))
    (further : play blanks later objects = some (final, log))
    (keeps : ∀ command ∈ later, command.Keeps) :
    ∃ (pointers pointers' : Pointers) (heap heap' : Heap Cell),
      (execute allocator blanks commands []).exec ∅ = (.ok (pointers, outcomes), heap) ∧
      (execute allocator blanks later pointers).exec heap = (.ok (pointers', log), heap') ∧
      ∀ place at_, ((pointers.locate place).exec heap).1 = .ok at_ →
        ((pointers'.locate place).exec heap').1 = .ok at_ := by
  obtain ⟨after, heap, ran, owns, becomes⟩ :=
    execute_from allocator [] .nil (own_nil.mpr rfl) plays
  obtain rfl := becomes.values
  obtain ⟨last, heap', ranOn, owns', becomes'⟩ :=
    execute_from allocator after becomes.sorted owns further
  refine ⟨after.pointers, last.pointers, heap, heap', ran, ranOn, fun place at_ located => ?_⟩
  obtain ⟨root, target, found, reached, rfl⟩ := (locate_iff becomes.sorted owns).mp located
  obtain ⟨now, there, stays⟩ := becomes'.stay keeps place.variable_ root found
  obtain ⟨still, reached', same⟩ := stays place.path target reached
  exact (locate_iff becomes'.sorted owns').mpr ⟨now, still, there, reached', same⟩

theorem execute_apart_sample : ∃ (pointers : Pointers) (heap : Heap Cell),
    (execute (.above Cell) .unchecked sampleCommands []).exec ∅ =
      (.ok (pointers, List.replicate 5 (.ok [])), heap) ∧
    ∀ place other at_, ((pointers.locate place).exec heap).1 = .ok at_ →
      ((pointers.locate other).exec heap).1 = .ok at_ → place = other :=
  execute_apart (.above Cell) (rfl : play .unchecked sampleCommands [] = some (sampleObjects, _))

/-- Adding to a part of the map what contains it, and copying that part. -/
def sampleAdding : List Command :=
  [.perform (.addToMap ['m']) ⟨1, [.key ['l']]⟩ ⟨1, []⟩, .copy 0 ⟨1, [.key ['l']]⟩]

theorem execute_keeps_sample : ∃ (pointers pointers' : Pointers) (heap heap' : Heap Cell),
    (execute (.above Cell) .unchecked sampleCommands []).exec ∅ =
      (.ok (pointers, List.replicate 5 (.ok [])), heap) ∧
    (execute (.above Cell) .unchecked sampleAdding pointers).exec heap =
      (.ok (pointers', [.ok [], .ok []]), heap') ∧
    ∀ place at_, ((pointers.locate place).exec heap).1 = .ok at_ →
      ((pointers'.locate place).exec heap').1 = .ok at_ :=
  execute_keeps (.above Cell) (rfl : play .unchecked sampleCommands [] = some (sampleObjects, _))
    (rfl : play .unchecked sampleAdding sampleObjects = some (_, [.ok [], .ok []]))
    (by simp [sampleAdding, Command.Keeps, Operation.Grows])

end Kept

section Losing
variable (allocator : Allocator Cell) (blanks : BlankRun) (text : Text) (offset : Int)

/-- Constructing a chunk from a text makes the chunk and nothing else; where it throws,
it leaves nothing behind if and only if the text was refused before it was seen to be a
map or a list. -/
theorem construct_loses {chunk : Chunkdat} {error : FormatError} (heap : Heap Cell)
    (throws : set blanks text offset = (chunk, some (.thrown error))) :
    ∃ lost : Heap Cell, lost.Disjoint heap ∧
      (Memory.construct allocator blanks text offset).exec heap =
        (.error (.thrown error), lost ∪ heap) ∧
      (lost = ∅ ↔ chunk.type = .none) := by
  have constructs := Memory.construct_spec allocator blanks text offset
  rw [throws] at constructs
  obtain ⟨lost, apart, left, ends⟩ := constructs.beside (one_holds.mpr rfl) (Finmap.disjoint_empty heap)
  rw [Finmap.empty_union] at left ends
  obtain ⟨ended, lost_⟩ := iSup_holds.mp ends
  refine ⟨lost, apart, Prod.ext ended left, ?_⟩
  by_cases empty : chunk.type = .none
  · rw [if_pos empty] at lost_
    exact iff_of_true (one_holds.mp lost_) empty
  · rw [if_neg empty] at lost_
    refine iff_of_false ?_ empty
    rintro rfl
    obtain ⟨copy, lost_⟩ := iSup_holds.mp lost_
    obtain ⟨_, left, right, _, split, detached, _⟩ := iSup_holds.mp lost_
    obtain ⟨cell, detached⟩ := iSup_holds.mp detached
    obtain ⟨_, detached⟩ := iSup_holds.mp detached
    have used := (covers_pointsTo _ _).mul _ left detached
    have inside : copy.offset.achunk ∈ left ∪ right := Finmap.mem_union.mpr (.inl used)
    rw [← split] at inside
    exact Finmap.notMem_empty inside

/-- A map with a key that occurs twice is lost. -/
theorem construct_loses_map : ∃ (error : FormatError) (lost : Heap Cell),
    (Memory.construct (.above Cell) .unchecked ['{', 'a', '=', ';', 'a', '=', '}'] 0).exec ∅ =
      (.error (.thrown error), lost ∪ ∅) ∧ lost ≠ ∅ := by
  obtain ⟨lost, _, ran, kept⟩ := construct_loses (.above Cell) .unchecked
    ['{', 'a', '=', ';', 'a', '=', '}'] 0 ∅ rfl
  exact ⟨_, lost, ran, fun empty => nomatch kept.mp empty⟩

end Losing

end Ztd.Filedat
