import Mathlib
import Ztd.Shell.Basic
import Ztd.Lib.Trace

/-! What holds of `shc` however its two threads step. -/

namespace Ztd.Shc
open Ztd.Lib

/-- The lines of a text, each with its newline. -/
def lines : Text → List Text
  | [] => []
  | c :: rest =>
    if c = '\n' then [c] :: lines rest
    else
      match lines rest with
      | [] => [[c]]
      | first :: others => (c :: first) :: others

theorem getline_eq_nil_iff (stream : Text) : (getline stream).1 = [] ↔ stream = [] := by
  cases stream with
  | nil => simp [getline]
  | cons c rest =>
    rw [getline]
    split <;> simp

theorem lines_getline {stream : Text} (more : stream ≠ []) :
    lines stream = (getline stream).1 :: lines (getline stream).2 := by
  induction stream with
  | nil => exact absurd rfl more
  | cons c rest ih =>
    rw [getline, lines]
    split
    · rfl
    · cases rest with
      | nil => rfl
      | cons d rest => rw [ih (List.cons_ne_nil d rest)]

theorem getline_length (stream : Text) :
    (getline stream).1.length + (getline stream).2.length = stream.length := by
  induction stream with
  | nil => rfl
  | cons c rest ih =>
    rw [getline]
    split
    · simp only [List.length_cons, List.length_nil]
      omega
    · simp only [List.length_cons]
      omega

/-- The caller came back from `run`, and the thread reads what the command writes. -/
def State.started (command : Command) : State where
  shc := { running := true, pid := command.pid, thread := true }
  process := .read command.written

theorem started_reached (command : Command) : Trace (Steps command) {}
    [.call .run, .caller, .caller, .caller, .caller, .process, .process, .process, .process,
      .process]
    (.started command) :=
  .next rfl <| .next rfl <| .next rfl <| .next rfl <| .next rfl <| .next rfl <| .next rfl <|
    .next rfl <| .next rfl <| .next rfl <| .done _

/-- A command that writes a line and fails. -/
def Command.failing : Command := { written := ['a', '\n'], status := 256, pid := 7 }

/-- It is over, and `wait_finish` was called behind it. -/
def State.failed : State where
  shc := { pid := 7, output := [['a', '\n']], returnValue := some 1, thread := true }
  caller := .finishTest
  process := .notifyOutput

theorem failed_reached : Trace (Steps .failing) {}
    ([.call .run, .caller, .caller, .caller, .caller, .process, .process, .process, .process,
      .process] ++ [.process, .process, .process, .process, .process, .process, .process,
      .call .waitFinish]) .failed :=
  (started_reached .failing).append <|
    .next rfl <| .next rfl <| .next rfl <| .next rfl <| .next rfl <| .next rfl <| .next rfl <|
      .next rfl <| .done _

/-- The caller is about to send a signal while the thread is about to open the pipe. -/
def State.opening : State where
  shc := { running := true, thread := true }
  caller := .killSend false
  process := .popen

/-- Not in the middle of `get_output`, and not gone. -/
@[simp] def Caller.free : Caller → Bool
  | .getFront | .getPop _ | .gone => false
  | _ => true

namespace Process

/-- `running` is set. -/
@[simp] def runs : Process → Bool
  | .unborn | .test | .setRunning | .notifyOutput | .notifyFinish | .ended => false
  | _ => true

/-- `running` was not set yet. -/
@[simp] def early : Process → Bool
  | .test | .setRunning => true
  | _ => false

/-- `pid` is set. -/
@[simp] def recorded : Process → Bool
  | .unborn | .test | .setRunning | .notifyStart | .popen | .setPid => false
  | _ => true

/-- `return_value` is set. -/
@[simp] def returned : Process → Bool
  | .clearRunning | .notifyOutput | .notifyFinish | .ended => true
  | _ => false

/-- The lines that are not in the queue yet. -/
@[simp] def pending (command : Command) : Process → List Text
  | .unborn | .test | .setRunning | .notifyStart | .popen | .setPid =>
    (lines command.written).map cstr
  | .read stream | .notifyLine stream => (lines stream).map cstr
  | .push line stream => cstr line :: (lines stream).map cstr
  | .pclose | .setReturn | .clearRunning | .notifyOutput | .notifyFinish | .ended => []

end Process

/-- What the object says of its threads in every state. -/
structure Invariant (command : Command) (state : State) : Prop where
  running : state.shc.running = state.process.runs
  pid : state.shc.pid = if state.process.recorded then command.pid else 0
  returnValue : state.shc.returnValue =
    if state.process.returned then some (exitStatus command.status) else none
  born : state.shc.thread = true ↔ state.process ≠ .unborn ∧ state.caller ≠ .gone
  gone : state.caller = .gone → state.process = .ended
  lines : state.taken ++ state.shc.output ++ state.process.pending command =
    (lines command.written).map cstr
  front : state.caller = .getFront → state.shc.output ≠ []
  pop : ∀ ret, state.caller = .getPop ret → ∃ rest, state.shc.output = ret :: rest
  signals : ∀ target ∈ state.signals, target = 0 ∨ target = command.pid
  queue : state.fault ≠ some .emptyQueue

section Steps
variable {command : Command} {state next : State}

/-- What can happen: a call, a step of one of the threads, or the return of a wait. -/
theorem steps_cases {event : Event} (stepped : Steps command state event next) :
    (∃ call, event = .call call ∧ state.caller = .idle ∧
      next = { state with caller := call.entry }) ∨
    (event = .caller ∧ state.callerStep = some next) ∨
    (event = .process ∧ state.processStep command = some next) ∨
    (event = .spurious ∧ ∃ pool, state.caller = .asleep pool ∧
      next = { state with caller := pool.resume }) := by
  unfold Steps Shc.step at stepped
  split at stepped
  · cases stepped
  · cases event with
    | call call =>
      simp only at stepped
      split at stepped
      · rename_i idle
        cases stepped
        exact .inl ⟨call, rfl, idle, rfl⟩
      · cases stepped
    | caller => exact .inr (.inl ⟨rfl, stepped⟩)
    | process => exact .inr (.inr (.inl ⟨rfl, stepped⟩))
    | spurious =>
      simp only at stepped
      split at stepped
      · rename_i pool sleeps
        cases stepped
        exact .inr (.inr (.inr ⟨rfl, pool, sleeps, rfl⟩))
      · cases stepped

theorem Invariant.initial (command : Command) : Invariant command {} where
  running := rfl
  pid := rfl
  returnValue := rfl
  born := by simp
  gone := by simp
  lines := rfl
  front := by simp
  pop := by simp
  signals := by simp
  queue := by simp

/-- The caller goes on somewhere else. -/
theorem Invariant.move (holds : Invariant command state) (stays : state.caller ≠ .gone)
    {caller : Caller} (free : caller.free = true) :
    Invariant command { state with caller := caller } :=
  { holds with
    front := by
      rintro rfl
      cases free
    pop := by
      rintro ret rfl
      cases free
    gone := by
      rintro rfl
      cases free
    born := by
      have goes : caller ≠ .gone := by
        rintro rfl
        cases free
      simpa [stays, goes] using holds.born }

theorem Invariant.resume (holds : Invariant command state) {pool : Pool}
    (sleeps : state.caller = .asleep pool) :
    Invariant command { state with caller := pool.resume } :=
  holds.move (by simp [sleeps]) (by cases pool <;> rfl)

theorem Invariant.notifyAll (holds : Invariant command state) (pool : Pool) :
    Invariant command (state.notifyAll pool) := by
  unfold State.notifyAll
  split
  · rename_i sleeps
    exact holds.resume sleeps
  · exact holds

theorem Invariant.callerStep (holds : Invariant command state)
    (stepped : state.callerStep = some next) : Invariant command next := by
  unfold State.callerStep at stepped
  cases at_ : state.caller <;> rw [at_] at stepped
  case idle | asleep | gone => cases stepped
  case runTest =>
    cases stepped
    exact holds.move (by simp [at_]) (by split <;> rfl)
  case runCreate =>
    cases stepped
    split
    · rw [← at_]
      exact { holds with queue := by simp }
    · rename_i none_
      -- an object without a thread never had one: only the destructor joins
      have unborn : state.process = .unborn := by
        by_contra born
        exact none_ (holds.born.mpr ⟨born, by simp [at_]⟩)
      have running := holds.running
      have pid := holds.pid
      have returnValue := holds.returnValue
      have lines := holds.lines
      rw [unborn] at running pid returnValue lines
      exact { holds with
        running := running
        pid := pid
        returnValue := returnValue
        lines := lines
        born := by simp
        gone := by simp
        front := by simp
        pop := by simp }
  case runRetest mine =>
    cases stepped
    exact holds.move (by simp [at_]) (by split <;> rfl)
  case killTest destroys =>
    cases stepped
    exact holds.move (by simp [at_]) (by cases destroys <;> split <;> rfl)
  case killSend destroys =>
    cases stepped
    have sent : Invariant command { state with caller := killed destroys } :=
      holds.move (by simp [at_]) (by cases destroys <;> rfl)
    refine { sent with signals := fun target member => ?_ }
    rcases List.mem_append.mp member with old | new
    · exact holds.signals target old
    · rw [List.mem_singleton.mp new, holds.pid]
      split
      · exact .inr rfl
      · exact .inl rfl
  case outputTest =>
    cases stepped
    exact holds.move (by simp [at_]) (by split <;> rfl)
  case outputQueue =>
    cases stepped
    exact holds.move (by simp [at_]) (by split <;> rfl)
  case getTest =>
    cases stepped
    split
    · exact holds.move (by simp [at_]) rfl
    · rename_i more
      exact { holds with
        born := by simpa [at_] using holds.born
        gone := by simp
        front := fun _ => more
        pop := by simp }
  case getFront =>
    have more := holds.front at_
    cases stepped
    split
    · rename_i nothing
      exact absurd nothing more
    · rename_i line rest is
      exact { holds with
        born := by simpa [at_] using holds.born
        gone := by simp
        front := by simp
        pop := by
          rintro ret ⟨⟩
          exact ⟨rest, is⟩ }
  case getPop ret =>
    obtain ⟨rest, is⟩ := holds.pop ret at_
    cases stepped
    have taken := holds.lines
    have popped : Invariant command { state with caller := .idle } :=
      holds.move (by simp [at_]) rfl
    rw [is] at taken ⊢
    refine { popped with lines := ?_, front := by simp, pop := by simp }
    simpa using taken
  case finishTest =>
    cases stepped
    exact holds.move (by simp [at_]) (by split <;> rfl)
  case wait pool =>
    cases stepped
    exact holds.move (by simp [at_]) rfl
  case destroyTest =>
    cases stepped
    exact holds.move (by simp [at_]) (by split <;> rfl)
  case join =>
    simp only at stepped
    split at stepped
    · cases stepped
      rw [← at_]
      exact { holds with queue := by simp }
    · split at stepped
      · rename_i ended
        cases stepped
        exact { holds with
          born := by simp
          gone := fun _ => ended
          front := by simp
          pop := by simp }
      · cases stepped

/-- The thread goes on, and may have changed the object. -/
theorem Invariant.advance (holds : Invariant command state) (born : state.process ≠ .unborn)
    (more : state.process ≠ .ended) (process : Process) (still : process ≠ .unborn) {shc : Shc}
    (thread : shc.thread = state.shc.thread) (running : shc.running = process.runs)
    (pid : shc.pid = if process.recorded then command.pid else 0)
    (returnValue : shc.returnValue =
      if process.returned then some (exitStatus command.status) else none)
    {pushed : List Text} (output : shc.output = state.shc.output ++ pushed)
    (pending : pushed ++ process.pending command = state.process.pending command) :
    Invariant command { state with shc := shc, process := process } where
  running := running
  pid := pid
  returnValue := returnValue
  born := by
    rw [thread, holds.born]
    simp [born, still]
  gone is := absurd (holds.gone is) more
  lines := by
    rw [← holds.lines, ← pending, output]
    simp only [List.append_assoc]
  front is := by
    rw [output]
    exact List.append_ne_nil_of_left_ne_nil (holds.front is) pushed
  pop ret is := by
    obtain ⟨rest, front⟩ := holds.pop ret is
    exact ⟨rest ++ pushed, by rw [output, front, List.cons_append]⟩
  signals := holds.signals
  queue := holds.queue

@[simp] theorem notifyAll_shc (pool : Pool) (state : State) :
    (state.notifyAll pool).shc = state.shc := by
  unfold State.notifyAll
  split <;> rfl

@[simp] theorem notifyAll_process (pool : Pool) (state : State) :
    (state.notifyAll pool).process = state.process := by
  unfold State.notifyAll
  split <;> rfl

@[simp] theorem notifyAll_fault (pool : Pool) (state : State) :
    (state.notifyAll pool).fault = state.fault := by
  unfold State.notifyAll
  split <;> rfl

/-- The thread wakes the caller and goes on. -/
theorem Invariant.wake (holds : Invariant command state) (pool : Pool)
    (born : state.process ≠ .unborn) (more : state.process ≠ .ended) (process : Process)
    (still : process ≠ .unborn) (runs : process.runs = state.process.runs)
    (recorded : process.recorded = state.process.recorded)
    (returned : process.returned = state.process.returned)
    (pending : process.pending command = state.process.pending command) :
    Invariant command { state.notifyAll pool with process := process } := by
  have woken := holds.notifyAll pool
  refine woken.advance (by simpa) (by simpa) process still rfl ?_ ?_ ?_ (List.append_nil _).symm ?_
  · rw [notifyAll_shc, runs]
    exact holds.running
  · rw [notifyAll_shc, recorded]
    exact holds.pid
  · rw [notifyAll_shc, returned]
    exact holds.returnValue
  · rw [notifyAll_process, List.nil_append]
    exact pending

theorem Invariant.processStep (holds : Invariant command state)
    (stepped : state.processStep command = some next) : Invariant command next := by
  unfold State.processStep at stepped
  have running := holds.running
  have pid := holds.pid
  have returnValue := holds.returnValue
  cases is : state.process <;> rw [is] at stepped
  case unborn | ended => cases stepped
  case test =>
    rw [is, Process.runs] at running
    rw [running] at stepped
    cases stepped
    exact holds.advance (by simp [is]) (by simp [is]) .setRunning (by simp) rfl running
      (by simpa [is] using pid) (by simpa [is] using returnValue) (List.append_nil _).symm
      (by simp [is])
  case setRunning =>
    cases stepped
    exact holds.advance (by simp [is]) (by simp [is]) .notifyStart (by simp) rfl rfl
      (by simpa [is] using pid) (by simpa [is] using returnValue) (List.append_nil _).symm
      (by simp [is])
  case notifyStart =>
    cases stepped
    split
    · exact holds.wake _ (by simp [is]) (by simp [is]) .popen (by simp) (by simp [is])
        (by simp [is]) (by simp [is]) (by simp [is])
    · rw [← is]
      exact { holds with queue := by simp }
  case popen =>
    cases stepped
    exact holds.advance (by simp [is]) (by simp [is]) .setPid (by simp) rfl
      (by simpa [is] using running) (by simpa [is] using pid) (by simpa [is] using returnValue)
      (List.append_nil _).symm
      (by simp [is])
  case setPid =>
    cases stepped
    exact holds.advance (by simp [is]) (by simp [is]) (.read command.written) (by simp) rfl
      (by simpa [is] using running) rfl (by simpa [is] using returnValue) (List.append_nil _).symm
      (by simp [is])
  case read stream =>
    cases stepped
    refine holds.advance (by simp [is]) (by simp [is]) _ (by split <;> simp) rfl ?_ ?_ ?_
      (List.append_nil _).symm ?_
    · rw [running, is, apply_ite Process.runs]
      simp
    · rw [pid, is, apply_ite Process.recorded]
      simp
    · rw [returnValue, is, apply_ite Process.returned]
      simp
    · rw [is, List.nil_append]
      split
      · rename_i nothing
        simp [(getline_eq_nil_iff stream).mp nothing, Shc.lines]
      · rename_i more
        simp [lines_getline fun nothing => more ((getline_eq_nil_iff stream).mpr nothing)]
  case push line stream =>
    cases stepped
    exact holds.advance (by simp [is]) (by simp [is]) (.notifyLine stream) (by simp) rfl
      (by simpa [is] using running) (by simpa [is] using pid) (by simpa [is] using returnValue) rfl
      (by simp [is])
  case notifyLine stream =>
    cases stepped
    exact holds.wake _ (by simp [is]) (by simp [is]) (.read stream) (by simp) (by simp [is])
      (by simp [is]) (by simp [is]) (by simp [is])
  case pclose =>
    cases stepped
    exact holds.advance (by simp [is]) (by simp [is]) .setReturn (by simp) rfl
      (by simpa [is] using running) (by simpa [is] using pid) (by simpa [is] using returnValue)
      (List.append_nil _).symm (by simp [is])
  case setReturn =>
    cases stepped
    exact holds.advance (by simp [is]) (by simp [is]) .clearRunning (by simp) rfl
      (by simpa [is] using running) (by simpa [is] using pid) rfl (List.append_nil _).symm
      (by simp [is])
  case clearRunning =>
    cases stepped
    exact holds.advance (by simp [is]) (by simp [is]) .notifyOutput (by simp) rfl rfl
      (by simpa [is] using pid) (by simpa [is] using returnValue) (List.append_nil _).symm
      (by simp [is])
  case notifyOutput =>
    cases stepped
    exact holds.wake _ (by simp [is]) (by simp [is]) .notifyFinish (by simp) (by simp [is])
      (by simp [is]) (by simp [is]) (by simp [is])
  case notifyFinish =>
    cases stepped
    exact holds.wake _ (by simp [is]) (by simp [is]) .ended (by simp) (by simp [is])
      (by simp [is]) (by simp [is]) (by simp [is])

theorem Invariant.step {event : Event} (holds : Invariant command state)
    (stepped : Steps command state event next) : Invariant command next := by
  rcases steps_cases stepped with ⟨call, _, idle, rfl⟩ | ⟨_, stepped⟩ | ⟨_, stepped⟩ |
    ⟨_, pool, sleeps, rfl⟩
  · exact holds.move (by simp [idle]) (by cases call <;> rfl)
  · exact holds.callerStep stepped
  · exact holds.processStep stepped
  · exact holds.resume sleeps

theorem Invariant.reachable {events : List Event}
    (run : Trace (Steps command) {} events state) : Invariant command state := by
  refine Trace.invariant (fun holds stepped => ?_) run (Invariant.initial command)
  exact Invariant.step holds stepped

/-- `running` is set before the caller leaves the `run` that made the thread, unless it
was woken by nobody. -/
def Started (state : State) : Prop := state.process.early = true → state.caller.creating = true

theorem early_runs {process : Process} (early : process.early = true) : process.runs = false := by
  cases process <;> simp_all

theorem Started.callerStep (started : Started state) (holds : Invariant command state)
    (stepped : state.callerStep = some next) : Started next := by
  -- a caller that is elsewhere may go where it likes, as `running` was set
  have elsewhere (outside : state.caller.creating = false)
      (same : next.process = state.process) : Started next := by
    intro early
    rw [same] at early
    rw [started early] at outside
    cases outside
  unfold State.callerStep at stepped
  cases at_ : state.caller <;> rw [at_] at stepped
  case idle | asleep | gone => cases stepped
  case runCreate =>
    cases stepped
    split
    · intro early
      rw [← at_]
      exact started early
    · exact fun _ => rfl
  case runRetest mine =>
    cases stepped
    intro early
    have inside := started early
    have running : state.shc.running = false := holds.running.trans (early_runs early)
    rw [at_] at inside
    cases mine with
    | false => cases inside
    | true => simp [running, Caller.creating]
  case wait pool =>
    cases stepped
    intro early
    have inside := started early
    rw [at_] at inside
    cases pool with
    | start mine => cases mine with
      | false => cases inside
      | true => rfl
    | output | finish => cases inside
  case getFront | getPop =>
    cases stepped
    refine elsewhere (by rw [at_]; rfl) ?_
    split <;> rfl
  case join =>
    refine elsewhere (by rw [at_]; rfl) ?_
    simp only at stepped
    split at stepped
    · cases stepped
      rfl
    · split at stepped
      · cases stepped
        rfl
      · cases stepped
  all_goals
    cases stepped
    exact elsewhere (by rw [at_]; rfl) rfl

theorem Started.processStep (started : Started state)
    (stepped : state.processStep command = some next) : Started next := by
  unfold State.processStep at stepped
  cases is : state.process <;> rw [is] at stepped
  case unborn | ended => cases stepped
  case test =>
    cases stepped
    exact fun _ => started (by rw [is]; rfl)
  case notifyStart =>
    cases stepped
    split <;> exact Bool.noConfusion
  case read stream =>
    cases stepped
    intro early
    exfalso
    revert early
    simp only
    split <;> exact Bool.noConfusion
  all_goals
    cases stepped
    exact Bool.noConfusion

theorem Started.step {event : Event} (started : Started state) (holds : Invariant command state)
    (calm : event ≠ .spurious) (stepped : Steps command state event next) : Started next := by
  rcases steps_cases stepped with ⟨call, _, idle, rfl⟩ | ⟨_, stepped⟩ | ⟨_, stepped⟩ | ⟨spurious, _⟩
  · intro early
    have inside := started early
    rw [idle] at inside
    cases inside
  · exact started.callerStep holds stepped
  · exact started.processStep stepped
  · exact absurd spurious calm

theorem Started.reachable {events : List Event} (run : Trace (Steps command) {} events state)
    (calm : .spurious ∉ events) : Invariant command state ∧ Started state := by
  refine @Trace.invariant_of State Event (Steps command) (· ≠ .spurious)
    (fun state => Invariant command state ∧ Started state) (fun calm both stepped => ?_) _ _ _ run
    (fun event member same => ?_) ⟨.initial command, Bool.noConfusion⟩
  · exact ⟨both.1.step stepped, both.2.step both.1 calm stepped⟩
  · subst same
    exact calm member

/-- What is there when the command is over. -/
structure Complete (command : Command) (state : State) : Prop where
  returnValue : state.shc.returnValue = some (exitStatus command.status)
  lines : state.taken ++ state.shc.output = (Shc.lines command.written).map cstr

/-- A process that does not run, and was started. -/
theorem returned_of_idle {process : Process} (idle : process.runs = false)
    (born : process ≠ .unborn) (late : process.early = false) :
    process.returned = true ∧ process.pending command = [] := by
  cases process <;> simp_all

theorem Invariant.complete (holds : Invariant command state)
    (returned : state.process.returned = true) (pending : state.process.pending command = []) :
    Complete command state where
  returnValue := by rw [holds.returnValue, if_pos returned]
  lines := by rw [← holds.lines, pending, List.append_nil]

theorem Complete.move (complete : Complete command state) (caller : Caller) :
    Complete command { state with caller := caller } :=
  ⟨complete.returnValue, complete.lines⟩

/-- When `wait_finish` returns, or `wait_output` because the command does not run, or the
destructor, the command is over: its value is there, and every line was taken or waits in
the queue. This needs that no wait returned by itself. -/
theorem finished_complete {events : List Event} (run : Trace (Steps command) {} events state)
    (calm : .spurious ∉ events) (made : state.shc.thread = true)
    (waits : state.caller = .finishTest ∨ state.caller = .outputTest ∨ state.caller = .join)
    (returns : Steps command state .caller next)
    (back : next.caller = .idle ∨ next.caller = .gone) : Complete command next := by
  obtain ⟨holds, started⟩ := Started.reachable run calm
  have born : state.process ≠ .unborn := (holds.born.mp made).1
  have finished (late : state.process.runs = false) : Complete command state := by
    have outside : state.caller.creating = false := by
      rcases waits with at_ | at_ | at_ <;> rw [at_] <;> rfl
    have later : state.process.early = false := by
      by_contra early
      rw [started (Bool.not_eq_false _ ▸ early)] at outside
      cases outside
    obtain ⟨returned, pending⟩ := returned_of_idle late born later
    exact holds.complete returned pending
  -- the test of `running` lets the caller go
  have tested {busy : Caller} (stays : busy ≠ .idle ∧ busy ≠ .gone)
      (back : (if state.shc.running then busy else .idle) = .idle ∨
        (if state.shc.running then busy else .idle) = .gone) : state.process.runs = false := by
    rw [← holds.running]
    cases off : state.shc.running with
    | true => simp [off, stays] at back
    | false => rfl
  obtain ⟨_, impossible, _⟩ | ⟨_, stepped⟩ | ⟨impossible, _⟩ | ⟨impossible, _⟩ := steps_cases returns
  · cases impossible
  · unfold State.callerStep at stepped
    rcases waits with at_ | at_ | at_ <;> rw [at_] at stepped
    · cases stepped
      exact (finished (tested (by simp) back)).move _
    · cases stepped
      exact (finished (tested (by simp) back)).move _
    · simp only [made, Bool.not_true, Bool.false_eq_true, if_false] at stepped
      split at stepped
      · rename_i ended
        cases stepped
        have complete := finished (by rw [ended]; rfl)
        exact ⟨complete.returnValue, complete.lines⟩
      · cases stepped
  · cases impossible
  · cases impossible

theorem finished_complete_failed :
    Complete Command.failing { State.failed with caller := .idle } :=
  finished_complete failed_reached (by decide) rfl (.inl rfl) rfl (.inl rfl)

end Steps

end Ztd.Shc
