import Ztd.Lib.Heap

/-! Total correctness of code over a memory: a triple says how the code ends and
what becomes of the part of the memory it was given. Whatever else is allocated
stays as it is, so that triples hold of a part wherever it is. -/

namespace Ztd.Lib
universe u
variable {γ ε α β : Type}

open Assertion

theorem Assertion.mul_iSup {ι : Sort u} (P : Assertion γ) (R : ι → Assertion γ) :
    P * (⨆ index, R index) = ⨆ index, P * R index := by
  apply Assertion.ext
  intro heap
  simp only [iSup_holds, mul_holds]
  constructor
  · rintro ⟨left, right, apart, split, first, index, second⟩
    exact ⟨index, left, right, apart, split, first, second⟩
  · rintro ⟨index, left, right, apart, split, first, second⟩
    exact ⟨left, right, apart, split, first, index, second⟩

theorem Assertion.iSup_mul {ι : Sort u} (R : ι → Assertion γ) (P : Assertion γ) :
    (⨆ index, R index) * P = ⨆ index, R index * P := by
  simp only [mul_comm _ P, mul_iSup]

theorem Assertion.bot_mul (P : Assertion γ) : ⊥ * P = ⊥ :=
  le_bot_iff.mp fun _ ⟨_, _, _, _, holds, _⟩ => holds

/-- The code returns a value that satisfies this. -/
def returns (Q : α → Assertion γ) : Except (Stop ε) α → Assertion γ
  | .ok value => Q value
  | .error _ => ⊥

/-- The code ends in this way. -/
def endsIn (result : Except (Stop ε) α) (Q : Assertion γ) (outcome : Except (Stop ε) α) :
    Assertion γ := ⨆ _ : outcome = result, Q

theorem le_endsIn {result : Except (Stop ε) α} {P Q : Assertion γ} (holds : P ≤ Q) :
    P ≤ endsIn result Q result :=
  le_iSup_of_le (f := fun _ : result = result => Q) rfl holds

/-- From a memory with a part that satisfies the first assertion the code leaves
one where the part satisfies what the second says of its outcome. -/
def Triple (pre : Assertion γ) (act : Act (Heap γ) ε α)
    (post : Except (Stop ε) α → Assertion γ) : Prop :=
  ∀ (frame : Assertion γ) (heap : Heap γ), (pre * frame) heap →
    (post (act.exec heap).1 * frame) (act.exec heap).2

namespace Triple
variable {pre pre' P M F : Assertion γ} {act : Act (Heap γ) ε α}
  {post post' : Except (Stop ε) α → Assertion γ}

theorem consequence (triple : Triple pre act post) (stronger : pre' ≤ pre)
    (weaker : ∀ outcome, post outcome ≤ post' outcome) : Triple pre' act post' :=
  fun frame heap holds =>
    mul_le_mul_left (weaker _) frame _ (triple frame heap (mul_le_mul_left stronger frame _ holds))

theorem frame (triple : Triple pre act post) (F : Assertion γ) :
    Triple (pre * F) act (fun outcome => post outcome * F) := by
  intro frame heap holds
  rw [mul_assoc] at holds ⊢
  exact triple (F * frame) heap holds

theorem frame_endsIn {result : Except (Stop ε) α} (triple : Triple P act (endsIn result M))
    (F : Assertion γ) : Triple (P * F) act (endsIn result (M * F)) :=
  (triple.frame F).consequence le_rfl fun _ => (iSup_mul _ F).le

theorem frame_returns {Q : α → Assertion γ} (triple : Triple P act (returns Q))
    (F : Assertion γ) : Triple (P * F) act (returns fun value => Q value * F) :=
  (triple.frame F).consequence le_rfl fun outcome => by
    cases outcome with
    | ok value => exact le_rfl
    | error stop => exact (bot_mul F).le

/-- Code in a part of what is owned, with nothing behind it. -/
theorem last {result : Except (Stop ε) α} {Q : Assertion γ} (triple : Triple P act (endsIn result M))
    (F : Assertion γ) (split : pre = P * F) (after : M * F ≤ Q) :
    Triple pre act (endsIn result Q) := by
  subst split
  exact (triple.frame_endsIn F).consequence le_rfl fun _ => iSup_mono fun _ => after

theorem exists_pre {ι : Sort u} {R : ι → Assertion γ}
    (each : ∀ index, Triple (R index) act post) : Triple (⨆ index, R index) act post := by
  intro frame heap holds
  rw [iSup_mul] at holds
  obtain ⟨index, holds⟩ := iSup_holds.mp holds
  exact each index frame heap holds

theorem pure {value : α} (holds : pre ≤ post (.ok value)) :
    Triple pre (Pure.pure value : Act (Heap γ) ε α) post :=
  fun frame heap part => mul_le_mul_left holds frame heap part

theorem raise {error : ε} (holds : pre ≤ post (.error (.thrown error))) :
    Triple pre (Act.raise error : Act (Heap γ) ε α) post :=
  fun frame heap part => mul_le_mul_left holds frame heap part

theorem bind {middle : Except (Stop ε) α → Assertion γ} {next : α → Act (Heap γ) ε β}
    {post : Except (Stop ε) β → Assertion γ} (first : Triple pre act middle)
    (returned : ∀ value, Triple (middle (.ok value)) (next value) post)
    (stopped : ∀ stop, middle (.error stop) ≤ post (.error stop)) :
    Triple pre (act >>= next) post := by
  intro frame heap holds
  have after := first frame heap holds
  rw [Act.exec_bind]
  cases ended : act.exec heap with
  | mk outcome later =>
    rw [ended] at after
    cases outcome with
    | ok value => exact returned value frame later after
    | error stop => exact mul_le_mul_left (stopped stop) frame later after

/-- A part of the code that has no state. -/
theorem lift_bind {run : Run ε α} {next : α → Act (Heap γ) ε β}
    {post : Except (Stop ε) β → Assertion γ}
    (returned : ∀ value, run = .ok value → Triple pre (next value) post)
    (stopped : ∀ stop, run = .error stop → pre ≤ post (.error stop)) :
    Triple pre (Act.lift run >>= next) post := by
  intro frame heap holds
  rw [Act.exec_bind, Act.exec_lift]
  cases run with
  | ok value => exact returned value rfl frame heap holds
  | error stop => exact mul_le_mul_left (stopped stop rfl) frame heap holds

/-- A handler takes over where an exception left the memory. -/
theorem catchError {M : Except (Stop ε) α → Assertion γ} {handler : ε → Act (Heap γ) ε α}
    (first : Triple pre act M) (returned : ∀ value, M (.ok value) ≤ post (.ok value))
    (thrown : ∀ error, Triple (M (.error (.thrown error))) (handler error) post)
    (fault : M (.error .fault) ≤ post (.error .fault))
    (diverged : M (.error .diverged) ≤ post (.error .diverged)) :
    Triple pre (act.catchError handler) post := by
  intro frame heap holds
  have after := first frame heap holds
  rw [Act.exec_catchError]
  cases ended : act.exec heap with
  | mk outcome later =>
    rw [ended] at after
    rcases outcome with (error | _ | _) | value
    · exact thrown error frame later after
    · exact mul_le_mul_left fault frame later after
    · exact mul_le_mul_left diverged frame later after
    · exact mul_le_mul_left (returned value) frame later after

section Unwinding
variable {cleanup : Act (Heap γ) ε Unit} {Q : Assertion γ}

/-- Nothing is unwound where no exception is thrown. -/
theorem onThrow {result : Except (Stop ε) α} (first : Triple pre act (endsIn result M))
    (quiet : ∀ error, result ≠ .error (.thrown error)) :
    Triple pre (act.onThrow cleanup) (endsIn result M) :=
  .catchError first (fun _ => le_rfl)
    (fun error => .exists_pre fun same => absurd same.symm (quiet error)) le_rfl le_rfl

theorem onThrow_thrown {error : ε} (first : Triple pre act (endsIn (.error (.thrown error)) M))
    (cleans : Triple M cleanup (endsIn (.ok ()) Q)) :
    Triple pre (act.onThrow cleanup) (endsIn (.error (.thrown error)) Q) := by
  refine .catchError first (fun _ => iSup_le fun same => nomatch same) (fun thrown => ?_)
    (iSup_le fun same => nomatch same) (iSup_le fun same => nomatch same)
  refine .exists_pre fun same => ?_
  cases same
  refine .bind cleans (fun _ => ?_) fun stop => iSup_le fun same => nomatch same
  exact .exists_pre fun _ => .raise (le_endsIn le_rfl)

end Unwinding

section Steps
variable {next : α → Act (Heap γ) ε β} {post : Except (Stop ε) β → Assertion γ}

/-- Code that returns a known value, in a part of what is owned. -/
theorem step {value : α} (first : Triple P act (endsIn (.ok value) M)) (F : Assertion γ)
    (split : pre = P * F) (later : Triple (M * F) (next value) post) :
    Triple pre (act >>= next) post := by
  subst split
  apply (first.frame_endsIn F).bind
  · intro found
    exact exists_pre fun same => by cases same; exact later
  · exact fun stop => iSup_le fun same => by cases same

/-- Code that returns some value. -/
theorem step_returns {Q : α → Assertion γ} (first : Triple P act (returns Q)) (F : Assertion γ)
    (split : pre = P * F) (later : ∀ value, Triple (Q value * F) (next value) post) :
    Triple pre (act >>= next) post := by
  subst split
  exact (first.frame_returns F).bind later fun _ => bot_le

/-- Code that does not return. -/
theorem stop {reason : Stop ε} (first : Triple P act (endsIn (.error reason) M)) (F : Assertion γ)
    (split : pre = P * F) (left : M * F ≤ post (.error reason)) :
    Triple pre (act >>= next) post := by
  subst split
  apply (first.frame_endsIn F).bind
  · intro found
    exact exists_pre fun same => nomatch same
  · exact fun stop => iSup_le fun same => by cases same; exact left

end Steps

section Memory
variable (allocator : Allocator γ) {address : Nat} {cell other : γ}

theorem alloc (cell : γ) : Triple 1 (Heap.alloc allocator cell : Act (Heap γ) ε Nat)
    (returns fun address => pointsTo address cell) := by
  rintro frame heap ⟨_, rest, _, rfl, rfl, holds⟩
  rw [Finmap.empty_union, Heap.exec_alloc]
  have unused := allocator.fresh rest
  refine ⟨_, rest, ?_, ?_, rfl, holds⟩
  · intro used here
    rwa [(Finmap.mem_singleton _ _ _).mp here]
  · apply Finmap.ext_lookup
    intro used
    by_cases same : used = allocator.place rest
    · subst same
      rw [Finmap.lookup_insert, Finmap.lookup_union_left (by simp), Finmap.lookup_singleton_eq]
    · rw [Finmap.lookup_insert_of_ne _ same, Finmap.lookup_union_right (by simpa using same)]

private theorem lookup_pointsTo {rest : Heap γ} :
    (Finmap.singleton address cell ∪ rest).lookup address = some cell := by
  rw [Finmap.lookup_union_left (by simp), Finmap.lookup_singleton_eq]

theorem load : Triple (pointsTo address cell) (Heap.load address : Act (Heap γ) ε γ)
    (endsIn (.ok cell) (pointsTo address cell)) := by
  rintro frame heap ⟨_, rest, apart, rfl, rfl, holds⟩
  rw [Heap.exec_load lookup_pointsTo]
  exact ⟨_, rest, apart, rfl, iSup_holds.mpr ⟨rfl, rfl⟩, holds⟩

theorem store (cell : γ) : Triple (pointsTo address cell) (Heap.store address other : Act (Heap γ) ε Unit)
    (endsIn (.ok ()) (pointsTo address other)) := by
  rintro frame heap ⟨_, rest, apart, rfl, rfl, holds⟩
  rw [Heap.exec_store other lookup_pointsTo]
  refine ⟨Finmap.singleton address other, rest, ?_, ?_, iSup_holds.mpr ⟨rfl, rfl⟩, holds⟩
  · intro used here
    exact apart used ((Finmap.mem_singleton ..).mpr ((Finmap.mem_singleton ..).mp here))
  · rw [Finmap.insert_union, Finmap.insert_singleton_eq]

theorem free : Triple (pointsTo address cell) (Heap.free address : Act (Heap γ) ε Unit)
    (endsIn (.ok ()) 1) := by
  rintro frame heap ⟨_, rest, apart, rfl, rfl, holds⟩
  rw [Heap.exec_free lookup_pointsTo]
  refine ⟨∅, rest, Finmap.disjoint_empty rest, ?_, iSup_holds.mpr ⟨rfl, rfl⟩, holds⟩
  have outside : address ∉ rest := apart address (by simp)
  rw [Finmap.empty_union]
  apply Finmap.ext_lookup
  intro used
  by_cases same : used = address
  · subst same
    rw [Finmap.lookup_erase, Finmap.lookup_eq_none.mpr outside]
  · rw [Finmap.lookup_erase_ne same, Finmap.lookup_union_right (by simpa using same)]

/-- Recursion through the memory is as deep as it has to be. -/
theorem sized {act : Nat → Act (Heap γ) ε α} {count : Nat} (occupies : Occupies count pre)
    (enough : ∀ fuel, count ≤ fuel → Triple pre (act fuel) post) :
    Triple pre (Heap.sized act) post := by
  intro frame heap holds
  have room := (occupies.mul (occupies_zero frame)) heap holds
  rw [Heap.exec_sized]
  exact enough _ room frame heap holds

end Memory

/-- What a triple says of a memory that is all owned. -/
theorem whole (triple : Triple pre act post) {heap : Heap γ} (holds : pre heap) :
    post (act.exec heap).1 (act.exec heap).2 := by
  have after := triple 1 heap (by rwa [mul_one])
  rwa [mul_one] at after

/-- Beside a part that is owned, the memory is as it was. -/
theorem beside (triple : Triple pre act post) {part rest : Heap γ} (holds : pre part)
    (apart : part.Disjoint rest) : ∃ now : Heap γ, now.Disjoint rest ∧
      (act.exec (part ∪ rest)).2 = now ∪ rest ∧ post (act.exec (part ∪ rest)).1 now := by
  obtain ⟨now, _, separate, split, after, rfl⟩ :=
    triple (fun heap => heap = rest) (part ∪ rest) ⟨part, rest, apart, rfl, holds, rfl⟩
  exact ⟨now, separate, split, after⟩

end Triple

end Ztd.Lib
