import Ztd.Lib.Text

/-! `shc`: a shell command in the background. The thread of `run_process` and the
thread that calls the other functions step in any order. A step reads or writes one
member, and calls one function of the queue or of a pool; the code has no lock. -/

namespace Ztd
open Ztd.Lib

/-- The members of `shc` that both threads use. `thread` says whether there is a
thread that was not joined. -/
structure Shc where
  running : Bool := false
  pid : Nat := 0
  output : List Text := []
  returnValue : Option Nat := none
  thread : Bool := false
deriving DecidableEq, Repr

namespace Shc

/-- What the command writes and how it ends. -/
structure Command where
  written : Text
  status : Nat
  pid : Nat
deriving DecidableEq, Repr

/-- `WEXITSTATUS` -/
def exitStatus (status : Nat) : Nat := status / 256 % 256

/-- `getline` of a C stream: a line with its newline, if it has one, and the rest. -/
def getline : Text → Text × Text
  | [] => ([], [])
  | c :: rest =>
    if c = '\n' then ([c], rest)
    else
      let (line, rest) := getline rest
      (c :: line, rest)

/-- The pools that a thread may wait at. That of `run` is a local variable: `mine` says
whether it is the one that the thread of this call was given. -/
inductive Pool where
  | start (mine : Bool)
  | output
  | finish
deriving DecidableEq, Repr

/-- The functions of `shc`; `destroy` is the destructor. -/
inductive Call where
  | run | killInt | waitOutput | getOutput | waitFinish | destroy
deriving DecidableEq, Repr

/-- What the calling thread does next. -/
inductive Caller where
  | idle
  | runTest
  | runCreate
  | runRetest (mine : Bool)
  | killTest (destroys : Bool)
  | killSend (destroys : Bool)
  | outputTest
  | outputQueue
  | getTest
  | getFront
  | getPop (ret : Text)
  | finishTest
  /-- It has read that it has to wait, and does not sleep yet. -/
  | wait (pool : Pool)
  | asleep (pool : Pool)
  | destroyTest
  | join
  | gone
deriving DecidableEq, Repr

/-- What the thread of `run_process` does next, and what of the output is still unread. -/
inductive Process where
  | unborn
  | test
  | setRunning
  | notifyStart
  | popen
  | setPid
  | read (stream : Text)
  | push (line stream : Text)
  | notifyLine (stream : Text)
  | pclose
  | setReturn
  | clearRunning
  | notifyOutput
  | notifyFinish
  | ended
deriving DecidableEq, Repr

/-- What ends the program: `std::terminate`, for a thread that is assigned over or a
`join` without one, a pool that is not there any more, or the front of no queue. -/
inductive Fault where
  | terminate
  | dangling
  | emptyQueue
deriving DecidableEq, Repr

/-- An object with its two threads, the lines that `get_output` took out of the queue
and the processes that were sent a signal. -/
structure State where
  shc : Shc := {}
  caller : Caller := .idle
  process : Process := .unborn
  taken : List Text := []
  signals : List Nat := []
  fault : Option Fault := none
deriving DecidableEq, Repr

def Call.entry : Call → Caller
  | .run => .runTest
  | .killInt => .killTest false
  | .waitOutput => .outputTest
  | .getOutput => .getTest
  | .waitFinish => .finishTest
  | .destroy => .destroyTest

/-- Where a caller goes on that was woken. -/
def Pool.resume : Pool → Caller
  | .start _ => .idle
  | .output => .outputTest
  | .finish => .finishTest

/-- Where the caller goes on behind `kill_int`. -/
def killed (destroys : Bool) : Caller := if destroys then .join else .idle

/-- The pool that the thread was given is still there. -/
def Caller.creating : Caller → Bool
  | .runRetest true | .wait (.start true) | .asleep (.start true) => true
  | _ => false

namespace State

def notifyAll (pool : Pool) (state : State) : State :=
  if state.caller = .asleep pool then { state with caller := pool.resume } else state

/-- The next step of the calling thread, if it has one. -/
def callerStep (state : State) : Option State :=
  match state.caller with
  | .idle | .asleep _ | .gone => none
  | .runTest =>
    some { state with caller := if state.shc.running then .runRetest false else .runCreate }
  | .runCreate =>
    some <|
      -- no thread may be assigned over one that was not joined
      if state.shc.thread then { state with fault := some .terminate }
      else
        { state with
          shc := { state.shc with thread := true }
          process := .test
          caller := .runRetest true }
  | .runRetest mine =>
    some { state with caller := if state.shc.running then .idle else .wait (.start mine) }
  | .killTest destroys =>
    some { state with caller := if state.shc.running then .killSend destroys else killed destroys }
  | .killSend destroys =>
    some { state with signals := state.signals ++ [state.shc.pid], caller := killed destroys }
  | .outputTest =>
    some { state with caller := if state.shc.running then .outputQueue else .idle }
  | .outputQueue =>
    some { state with caller := if state.shc.output = [] then .wait .output else .idle }
  | .getTest =>
    some { state with caller := if state.shc.output = [] then .idle else .getFront }
  | .getFront =>
    some <|
      match state.shc.output with
      | [] => { state with fault := some .emptyQueue }
      | line :: _ => { state with caller := .getPop line }
  | .getPop ret =>
    some <|
      match state.shc.output with
      | [] => { state with fault := some .emptyQueue }
      | _ :: rest =>
        { state with
          shc := { state.shc with output := rest }
          taken := state.taken ++ [ret]
          caller := .idle }
  | .finishTest =>
    some { state with caller := if state.shc.running then .wait .finish else .idle }
  | .wait pool => some { state with caller := .asleep pool }
  | .destroyTest =>
    some { state with caller := if state.shc.running then .killTest true else .join }
  | .join =>
    if !state.shc.thread then some { state with fault := some .terminate }
    else if state.process = .ended then
      some { state with shc := { state.shc with thread := false }, caller := .gone }
    else none

/-- The next step of the thread of `run_process`, if it has one. -/
def processStep (command : Command) (state : State) : Option State :=
  match state.process with
  | .unborn | .ended => none
  | .test =>
    some { state with process := if state.shc.running then .ended else .setRunning }
  | .setRunning =>
    some { state with shc := { state.shc with running := true }, process := .notifyStart }
  | .notifyStart =>
    some <|
      -- `run` may have returned, and its pool is gone then
      if state.caller.creating then { state.notifyAll (.start true) with process := .popen }
      else { state with fault := some .dangling }
  | .popen => some { state with process := .setPid }
  | .setPid =>
    some { state with
      shc := { state.shc with pid := command.pid }
      process := .read command.written }
  | .read stream =>
    let (line, rest) := getline stream
    some { state with process := if line = [] then .pclose else .push line rest }
  | .push line stream =>
    some { state with
      shc := { state.shc with output := state.shc.output ++ [cstr line] }
      process := .notifyLine stream }
  | .notifyLine stream => some { state.notifyAll .output with process := .read stream }
  | .pclose => some { state with process := .setReturn }
  | .setReturn =>
    some { state with
      shc := { state.shc with returnValue := some (exitStatus command.status) }
      process := .clearRunning }
  | .clearRunning =>
    some { state with shc := { state.shc with running := false }, process := .notifyOutput }
  | .notifyOutput => some { state.notifyAll .output with process := .notifyFinish }
  | .notifyFinish => some { state.notifyAll .finish with process := .ended }

end State

/-- A call begins, one of the threads steps, or a wait returns by itself. -/
inductive Event where
  | call (call : Call)
  | caller
  | process
  | spurious
deriving DecidableEq, Repr

/-- The state behind an event, if it can happen. -/
def step (command : Command) (state : State) (event : Event) : Option State :=
  if state.fault.isSome then none
  else
    match event with
    | .call call => if state.caller = .idle then some { state with caller := call.entry } else none
    | .caller => state.callerStep
    | .process => state.processStep command
    | .spurious =>
      match state.caller with
      | .asleep pool => some { state with caller := pool.resume }
      | _ => none

/-- Both threads in any order. -/
def Steps (command : Command) (state : State) (event : Event) (next : State) : Prop :=
  step command state event = some next

end Shc

end Ztd
