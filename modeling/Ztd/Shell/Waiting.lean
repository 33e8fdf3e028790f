import Ztd.Shell.Interleaving

/-! Which waits of `shc` come to an end. -/

namespace Ztd.Shc
open Ztd.Lib

/-- The thread still notifies the pool of a caller that sleeps there. -/
def Process.wakes : Pool → Process → Bool
  | .start true, process => process.early || process == .notifyStart
  | .start false, _ => false
  | .output, process => (process.runs && process != .notifyStart) || process == .notifyOutput
  | .finish, process =>
    (process.runs && process != .notifyStart) || process == .notifyOutput ||
      process == .notifyFinish

/-- How many steps the thread has left, at the most. -/
def Process.left (command : Command) : Process → Nat
  | .unborn | .ended => 0
  | .test => command.written.length * 3 + 12
  | .setRunning => command.written.length * 3 + 11
  | .notifyStart => command.written.length * 3 + 10
  | .popen => command.written.length * 3 + 9
  | .setPid => command.written.length * 3 + 8
  | .read stream => stream.length * 3 + 6
  | .push _ stream => stream.length * 3 + 8
  | .notifyLine stream => stream.length * 3 + 7
  | .pclose => 5
  | .setReturn => 4
  | .clearRunning => 3
  | .notifyOutput => 2
  | .notifyFinish => 1

/-- It has read in `wait_finish` that the command runs. -/
def State.waiting (command : Command) : State :=
  { State.started command with caller := .wait .finish }

theorem waiting_reached (command : Command) :
    Trace (Steps command) (.started command) [.call .waitFinish, .caller] (.waiting command) :=
  .next rfl <| .next rfl <| .done _

theorem asleep_reached (command : Command) : Trace (Steps command) (.waiting command) [.caller]
    { State.waiting command with caller := .asleep .finish } :=
  .next rfl <| .done _

section Waking
variable {command : Command} {state next : State}

/-- Every step of the thread but the last brings it nearer to its end. -/
theorem processStep_left (stepped : state.processStep command = some next)
    (sound : next.fault = none) : next.process.left command < state.process.left command := by
  unfold State.processStep at stepped
  cases is : state.process <;> rw [is] at stepped
  case unborn | ended => cases stepped
  case test =>
    cases stepped
    simp only
    split <;> simp [Process.left]
  case notifyStart =>
    cases stepped
    split at sound
    · rename_i creates
      rw [if_pos creates]
      simp [Process.left]
    · cases sound
  case read stream =>
    cases stepped
    simp only
    split
    · simp [Process.left]
    · rename_i more
      have size := getline_length stream
      have some_ := List.length_pos_iff.mpr more
      simp only [Process.left]
      omega
  all_goals
    cases stepped
    simp [Process.left]

theorem processStep_of_left (more : 0 < state.process.left command) :
    ∃ next, state.processStep command = some next := by
  unfold State.processStep
  cases is : state.process
  case unborn | ended =>
    rw [is] at more
    exact absurd more (Nat.lt_irrefl 0)
  all_goals exact ⟨_, rfl⟩

theorem Process.left_of_wakes {pool : Pool} {process : Process}
    (wakes : process.wakes pool = true) : 0 < process.left command := by
  cases process
  case unborn | ended =>
    cases pool with
    | start mine => cases mine <;> cases wakes
    | output | finish => cases wakes
  all_goals exact Nat.succ_pos _

theorem notifyAll_caller {pool : Pool} (sleeps : state.caller = .asleep pool) (notified : Pool) :
    (state.notifyAll notified).caller = if pool = notified then pool.resume else .asleep pool := by
  unfold State.notifyAll
  rw [sleeps]
  split
  · rename_i same
    cases same
    rw [if_pos rfl]
  · rename_i other
    rw [if_neg fun same => other (congrArg Caller.asleep same), sleeps]

/-- A caller that sleeps is woken by a step of the thread, or the thread will wake it as
before. -/
theorem Invariant.asleep (holds : Invariant command state) {pool : Pool}
    (sleeps : state.caller = .asleep pool) (stepped : state.processStep command = some next) :
    (state.process.wakes pool = true ∧ next.caller = pool.resume) ∨
      (next.caller = .asleep pool ∧ next.process.wakes pool = state.process.wakes pool) := by
  have running := holds.running
  unfold State.processStep at stepped
  cases is : state.process <;> rw [is] at stepped
  case unborn | ended => cases stepped
  case test =>
    rw [is, Process.runs] at running
    rw [running] at stepped
    cases stepped
    exact .inr ⟨sleeps, by rcases pool with (_ | _) | _ | _ <;> rfl⟩
  case notifyStart =>
    cases stepped
    split
    · rename_i creates
      -- a caller that sleeps while the pool of `run` is there sleeps at it
      rw [sleeps] at creates
      rcases pool with mine | _ | _
      · cases mine with
        | false => cases creates
        | true => exact .inl ⟨rfl, (notifyAll_caller sleeps _).trans (if_pos rfl)⟩
      · cases creates
      · cases creates
    · exact .inr ⟨sleeps, rfl⟩
  case read stream =>
    cases stepped
    refine .inr ⟨sleeps, ?_⟩
    simp only
    split <;> rcases pool with (_ | _) | _ | _ <;> rfl
  case notifyLine | notifyOutput | notifyFinish =>
    cases stepped
    rcases pool with (_ | _) | _ | _ <;>
      first
        | exact .inl ⟨rfl, (notifyAll_caller sleeps _).trans (if_pos rfl)⟩
        | exact .inr ⟨(notifyAll_caller sleeps _).trans (if_neg (by simp)), rfl⟩
  all_goals
    cases stepped
    exact .inr ⟨sleeps, by rcases pool with (_ | _) | _ | _ <;> rfl⟩

/-- The thread does not fail before it wakes a caller that sleeps. -/
theorem processStep_sound {pool : Pool} (sleeps : state.caller = .asleep pool)
    (wakes : state.process.wakes pool = true) (sound : state.fault = none)
    (stepped : state.processStep command = some next) : next.fault = none := by
  unfold State.processStep at stepped
  cases is : state.process <;> rw [is] at stepped
  case unborn | ended => cases stepped
  case notifyStart =>
    cases stepped
    split
    · exact (notifyAll_fault _ _).trans sound
    · rename_i none_
      rw [sleeps] at none_
      rw [is] at wakes
      rcases pool with (_ | _) | _ | _
      · cases wakes
      · exact absurd rfl none_
      · cases wakes
      · cases wakes
  case notifyLine | notifyOutput | notifyFinish =>
    cases stepped
    exact (notifyAll_fault _ _).trans sound
  all_goals
    cases stepped
    exact sound

theorem Invariant.asleep_step {event : Event} (holds : Invariant command state) {pool : Pool}
    (sleeps : state.caller = .asleep pool) (never : state.process.wakes pool = false)
    (calm : event ≠ .spurious) (stepped : Steps command state event next) :
    next.caller = .asleep pool ∧ next.process.wakes pool = false := by
  rcases steps_cases stepped with ⟨_, _, idle, _⟩ | ⟨_, stepped⟩ | ⟨_, stepped⟩ | ⟨spurious, _⟩
  · rw [sleeps] at idle
    cases idle
  · rw [State.callerStep, sleeps] at stepped
    cases stepped
  · rcases holds.asleep sleeps stepped with ⟨wakes, _⟩ | ⟨still, same⟩
    · rw [never] at wakes
      cases wakes
    · exact ⟨still, same.trans never⟩
  · exact absurd spurious calm

/-- A caller that the thread does not wake any more sleeps forever. -/
theorem Invariant.asleep_forever {later : List Event} (holds : Invariant command state)
    {pool : Pool} (sleeps : state.caller = .asleep pool)
    (never : state.process.wakes pool = false) (run : Trace (Steps command) state later next)
    (calm : .spurious ∉ later) : next.caller = .asleep pool := by
  have kept := @Trace.invariant_of State Event (Steps command) (· ≠ .spurious)
    (fun state => Invariant command state ∧ state.caller = .asleep pool ∧
      state.process.wakes pool = false)
    (fun calm kept stepped =>
      ⟨kept.1.step stepped, kept.1.asleep_step kept.2.1 kept.2.2 calm stepped⟩)
    _ _ _ run (fun event member same => calm (by rwa [← same])) ⟨holds, sleeps, never⟩
  exact kept.2.1

/-- A caller that the thread still notifies is woken by the steps of the thread. -/
theorem Invariant.woken (holds : Invariant command state) {pool : Pool} (sound : state.fault = none)
    (wakes : state.process.wakes pool = true) : ∃ later next,
      Trace (Steps command) state later next ∧ (∀ event ∈ later, event = .process) ∧
        next.caller ≠ .asleep pool := by
  refine @Trace.reaches State Event (Steps command) (· = .process)
    (fun state => Invariant command state ∧ state.fault = none ∧
      (state.caller = .asleep pool → state.process.wakes pool = true))
    (fun state => state.caller ≠ .asleep pool) (fun state => state.process.left command)
    (fun state kept => ?_) state ⟨holds, sound, fun _ => wakes⟩
  obtain ⟨holds, sound, wakes⟩ := kept
  by_cases sleeps : state.caller = .asleep pool
  · obtain ⟨next, stepped⟩ := processStep_of_left (Process.left_of_wakes (wakes sleeps))
    have still := processStep_sound sleeps (wakes sleeps) sound stepped
    refine .inr ⟨.process, next, rfl, ?_, ⟨holds.processStep stepped, still, fun asleep => ?_⟩,
      processStep_left stepped still⟩
    · rw [Steps, Shc.step, sound]
      exact stepped
    · rcases holds.asleep sleeps stepped with ⟨_, woken⟩ | ⟨_, same⟩
      · rw [asleep] at woken
        cases pool <;> cases woken
      · exact same.trans (wakes sleeps)
  · exact .inl sleeps

/-- A caller that sleeps, in any state that the two threads can come to, is woken in the
end if and only if the thread still notifies its pool. -/
theorem wakes_iff {events : List Event} {pool : Pool}
    (run : Trace (Steps command) {} events state) (sound : state.fault = none)
    (sleeps : state.caller = .asleep pool) :
    (∃ later next, Trace (Steps command) state later next ∧ .spurious ∉ later ∧
      next.caller ≠ .asleep pool) ↔ state.process.wakes pool = true := by
  have holds := Invariant.reachable run
  constructor
  · rintro ⟨later, next, rest, calm, woken⟩
    by_contra never
    exact woken (holds.asleep_forever sleeps (Bool.eq_false_of_not_eq_true never) rest calm)
  · intro wakes
    obtain ⟨later, next, rest, all, woken⟩ := holds.woken sound wakes
    exact ⟨later, next, rest, fun member => Event.noConfusion (all _ member), woken⟩

/-- A caller that fell asleep in `wait_finish` while the command runs. -/
theorem wakes_iff_failing : ∃ later next,
    Trace (Steps .failing) { State.waiting .failing with caller := .asleep .finish } later next ∧
      .spurious ∉ later ∧ next.caller ≠ .asleep .finish :=
  (wakes_iff (((started_reached _).append (waiting_reached _)).append (asleep_reached _))
    rfl rfl).mpr rfl

/-- A step of the thread that comes between the test and the sleep of a caller wakes nobody. -/
theorem processStep_unheard {pool : Pool} (waits : state.caller = .wait pool)
    (wakes : state.process.wakes .finish = true) (sound : state.fault = none)
    (stepped : state.processStep command = some next) :
    next.caller = .wait pool ∧ next.fault = none ∧
      (next.process.wakes .finish = true ∨ next.process = .ended) := by
  have unheard (notified : Pool) : state.notifyAll notified = state := by
    rw [State.notifyAll, waits, if_neg (by simp)]
  unfold State.processStep at stepped
  cases is : state.process <;> rw [is] at stepped
  case unborn | ended => cases stepped
  case test | setRunning | notifyStart =>
    rw [is] at wakes
    cases wakes
  case read stream =>
    cases stepped
    refine ⟨waits, sound, .inl ?_⟩
    simp only
    split <;> rfl
  case notifyLine | notifyOutput =>
    cases stepped
    rw [unheard]
    exact ⟨waits, sound, .inl rfl⟩
  case notifyFinish =>
    cases stepped
    rw [unheard]
    exact ⟨waits, sound, .inr rfl⟩
  all_goals
    cases stepped
    exact ⟨waits, sound, .inl rfl⟩

/-- The thread ends before a caller that has to wait for it falls asleep. -/
theorem ended_unheard {pool : Pool} (waits : state.caller = .wait pool)
    (wakes : state.process.wakes .finish = true) (sound : state.fault = none) :
    ∃ later next, Trace (Steps command) state later next ∧ (∀ event ∈ later, event = .process) ∧
      next.caller = .wait pool ∧ next.fault = none ∧ next.process = .ended := by
  refine @Trace.reaches State Event (Steps command) (· = .process)
    (fun state => state.caller = .wait pool ∧ state.fault = none ∧
      (state.process.wakes .finish = true ∨ state.process = .ended))
    (fun state => state.caller = .wait pool ∧ state.fault = none ∧ state.process = .ended)
    (fun state => state.process.left command) (fun state kept => ?_) state
    ⟨waits, sound, .inl wakes⟩
  obtain ⟨waits, sound, wakes | ended⟩ := kept
  · obtain ⟨next, stepped⟩ := processStep_of_left (Process.left_of_wakes wakes)
    have still := processStep_unheard waits wakes sound stepped
    refine .inr ⟨.process, next, rfl, ?_, still, processStep_left stepped still.2.1⟩
    rw [Steps, Shc.step, sound]
    exact stepped
  · exact .inl ⟨waits, sound, ended⟩

/-- Whatever the command is, `wait_finish` may never return: when the thread ends between
the test of `running` and the wait, no one is left to wake the caller. -/
theorem waitFinish_hangs (command : Command) : ∃ events state,
    Trace (Steps command) {} events state ∧ .spurious ∉ events ∧ state.fault = none ∧
      state.process = .ended ∧ state.caller = .asleep .finish ∧
      ∀ later next, Trace (Steps command) state later next → .spurious ∉ later →
        next.caller = .asleep .finish := by
  obtain ⟨later, state, rest, all, waits, sound, ended⟩ :=
    @ended_unheard command (.waiting command) .finish rfl rfl rfl
  have slept : Steps command state .caller { state with caller := .asleep .finish } := by
    simp only [Steps, Shc.step, sound, Option.isSome_none, Bool.false_eq_true, if_false,
      State.callerStep, waits]
  have run := (((started_reached command).append (waiting_reached command)).append rest).append
    (.next slept (.done _))
  refine ⟨_, _, run, fun member => ?_, sound, ended, rfl, fun later next rest calm => ?_⟩
  · simp only [List.mem_append, List.mem_cons, List.not_mem_nil, reduceCtorEq, or_false,
      false_or] at member
    exact Event.noConfusion (all _ member)
  · refine (Invariant.reachable run).asleep_forever rfl ?_ rest calm
    rw [ended]
    rfl

end Waking

end Ztd.Shc
