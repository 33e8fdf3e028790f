import Mathlib.Logic.Relation

/-! Systems that take labelled steps, and what holds along their runs. -/

namespace Ztd.Lib
universe u v

variable {σ : Type u} {ε : Type v} {step : σ → ε → σ → Prop}

/-- The events that lead from one state to another. -/
inductive Trace (step : σ → ε → σ → Prop) : σ → List ε → σ → Prop where
  | done (state : σ) : Trace step state [] state
  | next {start middle final : σ} {event : ε} {events : List ε} (first : step start event middle)
      (rest : Trace step middle events final) : Trace step start (event :: events) final

namespace Trace

/-- What the first state satisfies and every step keeps, the last state satisfies. -/
theorem invariant {holds : σ → Prop}
    (keeps : ∀ {start event final}, holds start → step start event final → holds final)
    {start final : σ} {events : List ε} (run : Trace step start events final)
    (initial : holds start) : holds final := by
  induction run with
  | done => exact initial
  | next first _ ih => exact ih (keeps initial first)

/-- A run of a system is one of a system that takes these steps as well. -/
theorem mono {other : σ → ε → σ → Prop}
    (steps : ∀ {start event final}, step start event final → other start event final)
    {start final : σ} {events : List ε} (run : Trace step start events final) :
    Trace other start events final := by
  induction run with
  | done state => exact .done state
  | next first _ ih => exact .next (steps first) ih

/-- A log that every step extends by what its event says is the log of the events. -/
theorem log {β : Type u} (log : σ → List β) (entries : ε → List β)
    (extends_ : ∀ {start event final}, step start event final →
      log final = log start ++ entries event)
    {start final : σ} {events : List ε} (run : Trace step start events final) :
    log final = log start ++ events.flatMap entries := by
  induction run with
  | done => simp
  | next first _ ih => simp [ih, extends_ first]

theorem append {start middle final : σ} {events later : List ε}
    (first : Trace step start events middle) (rest : Trace step middle later final) :
    Trace step start (events ++ later) final := by
  induction first with
  | done => exact rest
  | next stepped _ ih => exact .next stepped (ih rest)

/-- What the steps of the allowed events keep, a run of such events keeps. -/
theorem invariant_of {allowed : ε → Prop} {holds : σ → Prop}
    (keeps : ∀ {start event final}, allowed event → holds start → step start event final →
      holds final)
    {start final : σ} {events : List ε} (run : Trace step start events final)
    (all : ∀ event ∈ events, allowed event) (initial : holds start) : holds final := by
  induction run with
  | done => exact initial
  | next first _ ih =>
    exact ih (fun event member => all event (List.mem_cons_of_mem _ member))
      (keeps (all _ List.mem_cons_self) initial first)

/-- A goal is reached where every state that is none has a step that brings it nearer. -/
theorem reaches {allowed : ε → Prop} {holds goal : σ → Prop} (rank : σ → Nat)
    (nearer : ∀ state, holds state → goal state ∨ ∃ event next,
      allowed event ∧ step state event next ∧ holds next ∧ rank next < rank state)
    {state : σ} (initial : holds state) : ∃ events final,
      Trace step state events final ∧ (∀ event ∈ events, allowed event) ∧ goal final := by
  induction size : rank state using Nat.strongRecOn generalizing state with
  | _ count ih =>
    subst size
    rcases nearer state initial with here | ⟨event, next, able, stepped, kept, less⟩
    · exact ⟨[], state, .done state, List.forall_mem_nil _, here⟩
    · obtain ⟨events, final, run, all, there⟩ := ih _ less kept rfl
      exact ⟨event :: events, final, .next stepped run, List.forall_mem_cons.mpr ⟨able, all⟩, there⟩

end Trace

/-- Where steps come to an end, what holds because it does at once or behind a
step holds if and only if a state that can be reached is the reason. -/
theorem reaches_iff {next : σ → σ → Prop} (ends : WellFounded fun later earlier => next earlier later)
    {holds reason : σ → Prop} (step : ∀ state, holds state ↔
      reason state ∨ ∃ later, next state later ∧ holds later) (state : σ) :
    holds state ↔ ∃ reached, Relation.ReflTransGen next state reached ∧ reason reached := by
  constructor
  · intro held
    induction state using ends.induction with
    | _ state ih =>
      rcases (step state).mp held with here | ⟨later, stepped, held⟩
      · exact ⟨state, .refl, here⟩
      · obtain ⟨reached, run, here⟩ := ih later stepped held
        exact ⟨reached, .head stepped run, here⟩
  · rintro ⟨reached, run, here⟩
    induction run using Relation.ReflTransGen.head_induction_on with
    | refl => exact (step reached).mpr (.inl here)
    | head stepped _ ih => exact (step _).mpr (.inr ⟨_, stepped, ih⟩)

end Ztd.Lib
