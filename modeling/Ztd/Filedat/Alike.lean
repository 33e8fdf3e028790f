import Ztd.Filedat.Assign
import Mathlib.Data.List.Forall2

/-! Chunks of the same data whose offsets are related: at every path stand
sub-chunks of both. -/

namespace Ztd.Filedat
open Ztd.Lib

variable {ι κ : Type}

namespace Chunk

mutual
/-- The same data, with related offsets. -/
def Alike (related : ι → κ → Prop) : Chunk ι → Chunk κ → Prop
  | .none offset, .none other => related offset other
  | .string offset val, .string other text => related offset other ∧ val = text
  | .map offset values, .map other others => related offset other ∧ AlikeValues related values others
  | .list offset elements, .list other others =>
    related offset other ∧ AlikeElements related elements others
  | _, _ => False
def AlikeValues (related : ι → κ → Prop) : List (Text × Chunk ι) → List (Text × Chunk κ) → Prop
  | [], [] => True
  | (key, value) :: rest, (name, other) :: others =>
    (key = name ∧ Alike related value other) ∧ AlikeValues related rest others
  | _, _ => False
def AlikeElements (related : ι → κ → Prop) : List (Chunk ι) → List (Chunk κ) → Prop
  | [], [] => True
  | element :: rest, other :: others => Alike related element other ∧ AlikeElements related rest others
  | _, _ => False
end

variable {related : ι → κ → Prop}

theorem alikeValues_iff (values : List (Text × Chunk ι)) (others : List (Text × Chunk κ)) :
    AlikeValues related values others ↔ OrderedMap.Related (Alike related) values others := by
  induction values generalizing others with
  | nil => cases others <;> simp [AlikeValues, OrderedMap.Related]
  | cons entry rest ih =>
    obtain ⟨key, value⟩ := entry
    cases others with
    | nil => simp [AlikeValues, OrderedMap.Related]
    | cons other others =>
      obtain ⟨name, other⟩ := other
      rw [AlikeValues, ih, OrderedMap.Related, List.forall₂_cons]

theorem alikeElements_iff (elements : List (Chunk ι)) (others : List (Chunk κ)) :
    AlikeElements related elements others ↔ List.Forall₂ (Alike related) elements others := by
  induction elements generalizing others with
  | nil => cases others <;> simp [AlikeElements]
  | cons element rest ih =>
    cases others with
    | nil => simp [AlikeElements]
    | cons other others => rw [AlikeElements, ih, List.forall₂_cons]

theorem alike_map {offset : ι} {other : κ} {values : List (Text × Chunk ι)}
    {others : List (Text × Chunk κ)} (here : related offset other)
    (below : OrderedMap.Related (Alike related) values others) :
    Alike related (.map offset values) (.map other others) :=
  ⟨here, (alikeValues_iff values others).mpr below⟩

theorem alike_list {offset : ι} {other : κ} {elements : List (Chunk ι)} {others : List (Chunk κ)}
    (here : related offset other) (below : List.Forall₂ (Alike related) elements others) :
    Alike related (.list offset elements) (.list other others) :=
  ⟨here, (alikeElements_iff elements others).mpr below⟩

theorem Alike.offset {chunk : Chunk ι} {other : Chunk κ} (alike : Alike related chunk other) :
    related chunk.offset other.offset := by
  cases chunk <;> cases other <;> first | exact alike | exact alike.1 | exact alike.elim

theorem Alike.child? {chunk : Chunk ι} {other : Chunk κ} (alike : Alike related chunk other)
    (access : Access) :
    Option.Rel (Alike related) (chunk.child? access) (other.child? access) := by
  cases chunk <;> cases other <;> try exact alike.elim
  case none.none | string.string => cases access <;> exact .none
  case map.map offset values other others =>
    cases access with
    | key name => exact ((alikeValues_iff values others).mp alike.2).find? name
    | index => exact .none
  case list.list offset elements other others =>
    cases access with
    | key => exact .none
    | index position =>
      have below := (alikeElements_iff elements others).mp alike.2
      clear alike
      change Option.Rel (Alike related) elements[position]? others[position]?
      induction below generalizing position with
      | nil => exact .none
      | cons first _ ih =>
        cases position with
        | zero => exact .some first
        | succ position => exact ih position

/-- At every path stand sub-chunks of both, or of neither. -/
theorem Alike.at? {chunk : Chunk ι} {other : Chunk κ} (alike : Alike related chunk other)
    (path : List Access) : Option.Rel (Alike related) (chunk.at? path) (other.at? path) := by
  induction path generalizing chunk other with
  | nil => exact .some alike
  | cons access path ih =>
    have child := alike.child? access
    rw [Chunk.at?, Chunk.at?]
    generalize chunk.child? access = found at child ⊢
    generalize other.child? access = other at child ⊢
    cases child with
    | none => exact .none
    | some below => exact ih below

/-- The data is the same. -/
theorem Alike.tree {chunk : Chunk ι} {other : Chunk κ} (alike : Alike related chunk other) :
    chunk.tree = other.tree := by
  induction chunk using Chunk.induct generalizing other with
  | none => cases other <;> first | rfl | exact alike.elim
  | string =>
    cases other with
    | string => rw [tree_string, tree_string, alike.2]
    | _ => exact alike.elim
  | map offset values ih =>
    cases other with
    | map other others =>
      have below := (alikeValues_iff values others).mp alike.2
      rw [tree_map, tree_map]
      congr 1
      clear alike
      induction below with
      | nil => rfl
      | @cons entry _ _ _ first _ later =>
        have same := ih entry List.mem_cons_self first.2
        rw [List.map_cons, List.map_cons, first.1, same,
          later fun entry member => ih entry (List.mem_cons_of_mem _ member)]
    | _ => exact alike.elim
  | list offset elements ih =>
    cases other with
    | list other others =>
      have below := (alikeElements_iff elements others).mp alike.2
      rw [tree_list, tree_list]
      congr 1
      clear alike
      induction below with
      | nil => rfl
      | @cons element _ _ _ first _ later =>
        rw [List.map_cons, List.map_cons, ih element List.mem_cons_self first,
          later fun element member => ih element (List.mem_cons_of_mem _ member)]
    | _ => exact alike.elim

end Chunk

end Ztd.Filedat
