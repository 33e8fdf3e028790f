import Ztd.Filedat.Denote
import Ztd.Filedat.MergeAlgebra

/-! What holds of every tree a text is parsed as. -/

namespace Ztd.Filedat
open Ztd.Lib

variable {blanks : BlankRun} {keeps : Tree → Prop}

theorem mapRound_entered {construct : Text → Run Unit Tree} {str rest : Text}
    {values after : List (Text × Tree)}
    (round : mapRound blanks construct str values = .ok (after, rest)) :
    after = values ∨ ∃ key value tree, value.length ≤ str.length ∧ construct value = .ok tree ∧
      after = OrderedMap.insert key tree values := by
  obtain ⟨⟨entry, behind⟩, found, adds⟩ := Run.bind_eq_ok.mp round
  obtain ⟨last, added, same⟩ := Run.map_eq_ok.mp adds
  cases same
  cases entry with
  | none => exact .inl (Except.ok.inj added).symm
  | some pair =>
    obtain ⟨tree, built, _, rfl⟩ := enter_ok.mp added
    exact .inr ⟨pair.1, pair.2, tree, (entryOf_length found).1 pair rfl, built, rfl⟩

/-- Every map the loop makes is sorted and holds trees of texts. -/
theorem entriesOf_rule {construct : Text → Run Unit Tree} {str : Text} {size : Nat}
    (constructs : ∀ text tree, text.length ≤ size → construct text = .ok tree → keeps tree)
    (inside : str.length ≤ size) {values after : List (Text × Tree)}
    (sorted : OrderedMap.Sorted values) (kept : ∀ entry ∈ values, keeps entry.2)
    (entered : entriesOf blanks construct str values = .ok after) :
    OrderedMap.Sorted after ∧ ∀ entry ∈ after, keeps entry.2 := by
  have step {str rest : Text} {values middle : List (Text × Tree)} (inside : str.length ≤ size)
      (sorted : OrderedMap.Sorted values) (kept : ∀ entry ∈ values, keeps entry.2)
      (round : mapRound blanks construct str values = .ok (middle, rest)) :
      OrderedMap.Sorted middle ∧ ∀ entry ∈ middle, keeps entry.2 := by
    rcases mapRound_entered round with rfl | ⟨key, value, tree, shorter, built, rfl⟩
    · exact ⟨sorted, kept⟩
    · refine ⟨sorted.insert key tree, fun entry member => ?_⟩
      rcases OrderedMap.mem_insert member with rfl | old
      · exact constructs value tree (shorter.trans inside) built
      · exact kept entry old
  induction str, values using entriesOf.induct blanks construct with
  | case1 str values stop round =>
    rw [entriesOf_error round] at entered
    cases entered
  | case2 str values middle round =>
    rw [entriesOf_ok round, if_pos rfl] at entered
    obtain rfl := Except.ok.inj entered
    exact step inside sorted kept round
  | case3 str values middle rest round more ih =>
    rw [entriesOf_ok round, if_neg more] at entered
    obtain ⟨sorted, kept⟩ := step inside sorted kept round
    exact ih ((mapRound_length round more).le.trans inside) sorted kept entered

theorem elementsOf_rule {construct : Text → Run Unit Tree} {str : Text} {size : Nat}
    (constructs : ∀ text tree, text.length ≤ size → construct text = .ok tree → keeps tree)
    (inside : str.length ≤ size) {elements : List Tree}
    (made : elementsOf blanks construct str = .ok elements) : ∀ element ∈ elements, keeps element := by
  have step {str rest : Text} {tree : Tree} (inside : str.length ≤ size)
      (round : listRound blanks construct str = .ok (tree, rest)) : keeps tree := by
    obtain ⟨⟨value, behind⟩, found, builds⟩ := Run.bind_eq_ok.mp round
    obtain ⟨made, built, same⟩ := Run.map_eq_ok.mp builds
    cases same
    have shorter := (read_length ((Run.forget_eq_ok _).mp found)).1
    exact constructs value tree (by omega) built
  induction str using elementsOf.induct blanks construct generalizing elements with
  | case1 str stop round =>
    rw [elementsOf_error round] at made
    cases made
  | case2 str tree round =>
    rw [elementsOf_ok round, if_pos rfl] at made
    obtain rfl := Except.ok.inj made
    simpa using step inside round
  | case3 str tree rest round more ih =>
    rw [elementsOf_ok round, if_neg more] at made
    obtain ⟨others, later, rfl⟩ := Run.map_eq_ok.mp made
    refine List.forall_mem_cons.mpr ⟨step inside round, ?_⟩
    exact ih ((listRound_length round more).le.trans inside) later

/-- What holds of the strings, and of maps and lists of what it holds of, holds of
every tree a text is parsed as. -/
theorem treeOf_rule (string : ∀ text, keeps (.string () text))
    (map : ∀ values, OrderedMap.Sorted values → (∀ entry ∈ values, keeps entry.2) →
      keeps (.map () values))
    (list : ∀ elements, (∀ element ∈ elements, keeps element) → keeps (.list () elements))
    {text : Text} {tree : Tree} (parsed : treeOf blanks text = .ok tree) : keeps tree := by
  induction size : text.length using Nat.strongRecOn generalizing text tree with
  | _ count ih =>
    subst size
    rw [treeOf_eq] at parsed
    obtain ⟨⟨value, rest⟩, reads, builds⟩ := Run.bind_eq_ok.mp parsed
    have size := (read_length ((Run.forget_eq_ok _).mp reads)).1
    have shorter {c : Char} {inner str : Text} (is : value = c :: inner)
        (inside : insideOf inner rest = .ok str) : str.length < text.length := by
      rw [is, List.length_cons] at size
      rw [insideOf] at inside
      split at inside
      · split at inside
        · cases inside
        · obtain rfl := Except.ok.inj inside
          rw [List.length_dropLast]
          omega
      · cases inside
    simp only at builds
    split at builds
    · cases builds
      exact string []
    · rename_i inner
      obtain ⟨str, inside, builds⟩ := Run.bind_eq_ok.mp builds
      have less := shorter rfl inside
      split at builds
      · cases builds
        exact map [] .nil (List.forall_mem_nil _)
      · obtain ⟨values, entered, rfl⟩ := Run.map_eq_ok.mp builds
        obtain ⟨sorted, kept⟩ := entriesOf_rule
          (fun inner tree room built => ih _ (room.trans_lt less) built rfl) le_rfl .nil
          (List.forall_mem_nil _) entered
        exact map values sorted kept
    · rename_i inner
      obtain ⟨str, inside, builds⟩ := Run.bind_eq_ok.mp builds
      have less := shorter rfl inside
      split at builds
      · cases builds
        exact list [] (List.forall_mem_nil _)
      · obtain ⟨elements, made, rfl⟩ := Run.map_eq_ok.mp builds
        exact list elements (elementsOf_rule
          (fun inner tree room built => ih _ (room.trans_lt less) built rfl) le_rfl made)
    · cases builds
      exact string text

/-- The maps of a parsed tree are sorted, and nothing in it is without a type. -/
theorem treeOf_valid {text : Text} {tree : Tree} (parsed : treeOf blanks text = .ok tree) :
    tree.Ordered ∧ tree.NoNone := by
  refine @treeOf_rule blanks (fun tree => tree.Ordered ∧ tree.NoNone) ?_ ?_ ?_ text tree parsed
  · exact fun text => ⟨trivial, by simp [Chunk.NoNone, Chunk.Every]⟩
  · intro values sorted kept
    exact ⟨(Chunk.ordered_map_iff () values).mpr ⟨sorted, fun entry member => (kept entry member).1⟩,
      (Chunk.every_map_iff () values).mpr ⟨by decide, fun entry member => (kept entry member).2⟩⟩
  · intro elements kept
    exact ⟨(Chunk.ordered_list_iff () elements).mpr fun element member => (kept element member).1,
      (Chunk.every_list_iff () elements).mpr ⟨by decide, fun element member => (kept element member).2⟩⟩

end Ztd.Filedat
