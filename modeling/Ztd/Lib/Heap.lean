import Ztd.Lib.Run
import Mathlib

/-! Memory that code allocates, reads, writes and frees, and assertions about a
part of it. Assertions are a commutative quantale: `P * Q` owns two disjoint
parts, `1` owns nothing, `⨆` says that there is one and `≤` is entailment. -/

namespace Ztd.Lib
universe u

/-- What is allocated: a cell at each of finitely many addresses. -/
abbrev Heap (γ : Type) := Finmap (fun _ : Nat => γ)

/-- Where `new` puts a cell: at some address that is not in use. -/
structure Allocator (γ : Type) where
  place : Heap γ → Nat
  fresh : ∀ heap, place heap ∉ heap

/-- An allocator that uses the address above all others. -/
def Allocator.above (γ : Type) : Allocator γ where
  place heap := heap.keys.sup id + 1
  fresh heap used := by
    have bound := Finset.le_sup (f := id) (Finmap.mem_keys.mpr used)
    simp only [id] at bound
    omega

variable {γ ε α β : Type}

namespace Heap

def alloc (allocator : Allocator γ) (cell : γ) : Act (Heap γ) ε Nat := do
  let heap ← get
  modify (Finmap.insert (allocator.place heap) cell)
  pure (allocator.place heap)

def load (address : Nat) : Act (Heap γ) ε γ := do
  match (← get).lookup address with
  | some cell => pure cell
  | none => Act.fault

def store (address : Nat) (cell : γ) : Act (Heap γ) ε Unit := do
  let _ ← load address
  modify (Finmap.insert address cell)

def free (address : Nat) : Act (Heap γ) ε Unit := do
  let _ ← load address
  modify (Finmap.erase address)

/-- Recursion through pointers, at most as deep as there are cells. -/
def sized (act : Nat → Act (Heap γ) ε α) : Act (Heap γ) ε α := do
  act (← get).keys.card

section Exec
variable (heap : Heap γ) (address : Nat) (cell : γ)

theorem exec_alloc (allocator : Allocator γ) :
    Act.exec (alloc allocator cell : Act (Heap γ) ε Nat) heap =
      (.ok (allocator.place heap), heap.insert (allocator.place heap) cell) := rfl

variable {heap address}

theorem exec_load {found : γ} (used : heap.lookup address = some found) :
    Act.exec (load address : Act (Heap γ) ε γ) heap = (.ok found, heap) := by
  simp only [load, Act.exec_bind, Act.exec_get, used, Act.exec_pure]

theorem exec_store {found : γ} (used : heap.lookup address = some found) :
    Act.exec (store address cell : Act (Heap γ) ε Unit) heap =
      (.ok (), heap.insert address cell) := by
  simp only [store, Act.exec_bind, exec_load used, Act.exec_modify]

theorem exec_free {found : γ} (used : heap.lookup address = some found) :
    Act.exec (free address : Act (Heap γ) ε Unit) heap = (.ok (), heap.erase address) := by
  simp only [free, Act.exec_bind, exec_load used, Act.exec_modify]

theorem exec_sized (act : Nat → Act (Heap γ) ε α) :
    (sized act).exec heap = (act heap.keys.card).exec heap := by
  simp only [sized, Act.exec_bind, Act.exec_get]

end Exec

end Heap

/-- What a part of the memory is like. -/
def Assertion (γ : Type) := Heap γ → Prop

namespace Assertion

instance : CompleteLattice (Assertion γ) := inferInstanceAs (CompleteLattice (Heap γ → Prop))

/-- The part consists of two disjoint ones. -/
instance : Mul (Assertion γ) where
  mul P Q heap := ∃ left right, left.Disjoint right ∧ heap = left ∪ right ∧ P left ∧ Q right

/-- The part is empty. -/
instance : One (Assertion γ) where
  one heap := heap = ∅

/-- One cell. -/
def pointsTo (address : Nat) (cell : γ) : Assertion γ :=
  fun heap => heap = Finmap.singleton address cell

section Meaning
variable {P Q : Assertion γ} {heap : Heap γ}

theorem mul_holds : (P * Q) heap ↔
    ∃ left right : Heap γ, left.Disjoint right ∧ heap = left ∪ right ∧ P left ∧ Q right := Iff.rfl

theorem one_holds : (1 : Assertion γ) heap ↔ heap = ∅ := Iff.rfl

theorem sSup_holds {parts : Set (Assertion γ)} : sSup parts heap ↔ ∃ P ∈ parts, P heap := by
  have same : sSup parts heap = ⨆ P : parts, (P : Assertion γ) heap :=
    sSup_apply (s := (parts : Set (Heap γ → Prop)))
  rw [same, iSup_Prop_eq, Subtype.exists]
  simp only [exists_prop]

theorem iSup_holds {ι : Sort u} {R : ι → Assertion γ} :
    (⨆ index, R index) heap ↔ ∃ index, R index heap := by
  rw [iSup, sSup_holds, Set.exists_range_iff]

theorem ext (same : ∀ heap, P heap ↔ Q heap) : P = Q := funext fun heap => propext (same heap)

end Meaning

private theorem mul_swap (P Q : Assertion γ) : P * Q ≤ Q * P := by
  rintro heap ⟨left, right, apart, rfl, first, second⟩
  exact ⟨right, left, apart.symm, Finmap.union_comm_of_disjoint apart, second, first⟩

instance : CommMonoid (Assertion γ) where
  mul_assoc P Q R := by
    apply ext
    intro heap
    constructor
    · rintro ⟨_, right, apart, rfl, ⟨left, middle, inner, rfl, first, second⟩, third⟩
      obtain ⟨outer, rest⟩ := (Finmap.disjoint_union_left ..).mp apart
      exact ⟨left, middle ∪ right, (Finmap.disjoint_union_right ..).mpr ⟨inner, outer⟩,
        Finmap.union_assoc, first, middle, right, rest, rfl, second, third⟩
    · rintro ⟨left, _, apart, rfl, first, middle, right, inner, rfl, second, third⟩
      obtain ⟨outer, rest⟩ := (Finmap.disjoint_union_right ..).mp apart
      exact ⟨left ∪ middle, right, (Finmap.disjoint_union_left ..).mpr ⟨rest, inner⟩,
        Finmap.union_assoc.symm, ⟨left, middle, outer, rfl, first, second⟩, third⟩
  one_mul P := by
    apply ext
    intro heap
    constructor
    · rintro ⟨_, right, _, rfl, rfl, holds⟩
      rwa [Finmap.empty_union]
    · intro holds
      exact ⟨∅, heap, Finmap.disjoint_empty heap, Finmap.empty_union.symm, rfl, holds⟩
  mul_one P := by
    apply ext
    intro heap
    constructor
    · rintro ⟨left, _, _, rfl, holds, rfl⟩
      rwa [Finmap.union_empty]
    · intro holds
      exact ⟨heap, ∅, (Finmap.disjoint_empty heap).symm, Finmap.union_empty.symm, holds, rfl⟩
  mul_comm P Q := le_antisymm (mul_swap P Q) (mul_swap Q P)

private theorem mul_sSup (P : Assertion γ) (parts : Set (Assertion γ)) :
    P * sSup parts = ⨆ Q ∈ parts, P * Q := by
  apply ext
  intro heap
  simp only [iSup_holds, mul_holds, sSup_holds]
  constructor
  · rintro ⟨left, right, apart, split, first, Q, member, second⟩
    exact ⟨Q, member, left, right, apart, split, first, second⟩
  · rintro ⟨Q, member, left, right, apart, split, first, second⟩
    exact ⟨left, right, apart, split, first, Q, member, second⟩

instance : IsQuantale (Assertion γ) where
  mul_sSup_distrib := mul_sSup
  sSup_mul_distrib parts Q := by simp only [mul_comm _ Q, mul_sSup]

/-- The part has at least so many cells. -/
def Occupies (count : Nat) (P : Assertion γ) : Prop := ∀ heap, P heap → count ≤ heap.keys.card

section Occupies
variable {P Q : Assertion γ} {count more : Nat}

theorem occupies_zero (P : Assertion γ) : Occupies 0 P := fun _ _ => Nat.zero_le _

theorem occupies_pointsTo (address : Nat) (cell : γ) : Occupies 1 (pointsTo address cell) := by
  rintro heap rfl
  rw [Finmap.keys_singleton, Finset.card_singleton]

theorem Occupies.mul (first : Occupies count P) (second : Occupies more Q) :
    Occupies (count + more) (P * Q) := by
  rintro heap ⟨left, right, apart, rfl, holds, rest⟩
  have separate : Disjoint left.keys right.keys := by
    rw [Finset.disjoint_left]
    intro address here there
    exact apart address (Finmap.mem_keys.mp here) (Finmap.mem_keys.mp there)
  rw [Finmap.keys_union, Finset.card_union_of_disjoint separate]
  exact Nat.add_le_add (first left holds) (second right rest)

theorem Occupies.iSup {ι : Sort u} {R : ι → Assertion γ}
    (each : ∀ index, Occupies count (R index)) : Occupies count (⨆ index, R index) := by
  intro heap holds
  obtain ⟨index, holds⟩ := iSup_holds.mp holds
  exact each index heap holds

theorem Occupies.anti {fewer : Nat} (occupies : Occupies count P) (less : fewer ≤ count) :
    Occupies fewer P := fun heap holds => less.trans (occupies heap holds)

end Occupies

/-- The part has a cell at the address. -/
def Covers (address : Nat) (P : Assertion γ) : Prop := ∀ heap, P heap → address ∈ heap

section Covers
variable {P Q : Assertion γ} {address : Nat}

theorem covers_pointsTo (address : Nat) (cell : γ) : Covers address (pointsTo address cell) := by
  rintro heap rfl
  exact (Finmap.mem_singleton ..).mpr rfl

theorem Covers.mono (covers : Covers address P) (less : Q ≤ P) : Covers address Q :=
  fun heap holds => covers heap (less heap holds)

theorem Covers.mul (covers : Covers address P) (Q : Assertion γ) : Covers address (P * Q) := by
  rintro heap ⟨left, right, _, rfl, holds, _⟩
  exact Finmap.mem_union.mpr (.inl (covers left holds))

/-- Separate parts have no address in common. -/
theorem Covers.apart {heap : Heap γ} (first : Covers address P) (second : Covers address Q) :
    ¬ (P * Q) heap := by
  rintro ⟨left, right, apart, rfl, holds, rest⟩
  exact apart address (first left holds) (second right rest)

end Covers

end Assertion

end Ztd.Lib
