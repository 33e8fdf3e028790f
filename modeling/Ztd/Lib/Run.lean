/-! Outcomes of imperative code: a value, an exception, an access outside of an
object, or a loop that outlived its fuel. `Run` has no state; `Act` keeps the
state an exception leaves behind. -/

namespace Ztd.Lib
universe u

/-- Why a computation ended without a value. -/
inductive Stop (ε : Type u) where
  | thrown (error : ε)
  | fault
  | diverged
deriving DecidableEq, Repr

def Stop.map {ε ε' : Type} (f : ε → ε') : Stop ε → Stop ε'
  | .thrown error => .thrown (f error)
  | .fault => .fault
  | .diverged => .diverged

abbrev Run (ε α : Type) := Except (Stop ε) α

namespace Run
variable {ε ε' α β : Type}

def raise (error : ε) : Run ε α := .error (.thrown error)

def fault : Run ε α := .error .fault

def diverged : Run ε α := .error .diverged

/-- `try { body } catch(error) { handler }` for the one kind of exception. -/
def catchError (body : Run ε α) (handler : ε → Run ε α) : Run ε α :=
  match body with
  | .error (.thrown error) => handler error
  | other => other

/-- Rewrite the exception, leave every other outcome. -/
def mapError (f : ε → ε') : Run ε α → Run ε' α
  | .ok value => .ok value
  | .error (.thrown error) => .error (.thrown (f error))
  | .error .fault => .error .fault
  | .error .diverged => .error .diverged

@[simp] theorem bind_ok (value : α) (next : α → Run ε β) :
    (Except.ok value >>= next) = next value := rfl

@[simp] theorem bind_error (stop : Stop ε) (next : α → Run ε β) :
    ((Except.error stop : Run ε α) >>= next) = .error stop := rfl

theorem bind_eq_error {run : Run ε α} {next : α → Run ε β} {stop : Stop ε} :
    (run >>= next) = .error stop ↔
      run = .error stop ∨ ∃ value, run = .ok value ∧ next value = .error stop := by
  cases run <;> simp

theorem bind_eq_ok {run : Run ε α} {next : α → Run ε β} {result : β} :
    (run >>= next) = .ok result ↔ ∃ value, run = .ok value ∧ next value = .ok result := by
  cases run <;> simp

theorem map_eq_ok {run : Run ε α} {f : α → β} {result : β} :
    run.map f = .ok result ↔ ∃ value, run = .ok value ∧ f value = result := by
  cases run <;> simp [Except.map]

theorem map_eq_error {run : Run ε α} {f : α → β} {stop : Stop ε} :
    run.map f = .error stop ↔ run = .error stop := by
  cases run <;> simp [Except.map]

@[simp] theorem catchError_ok (value : α) (handler : ε → Run ε α) :
    catchError (.ok value) handler = .ok value := rfl

@[simp] theorem catchError_thrown (error : ε) (handler : ε → Run ε α) :
    catchError (.error (.thrown error)) handler = handler error := rfl

/-- The outcome without what the exception says. -/
def forget (run : Run ε α) : Run Unit α := run.mapError fun _ => ()

section Forget
variable (run : Run ε α)

@[simp] theorem forget_ok (value : α) : forget (.ok value : Run ε α) = .ok value := rfl

@[simp] theorem forget_thrown (error : ε) :
    forget (.error (.thrown error) : Run ε α) = .error (.thrown ()) := rfl

@[simp] theorem forget_fault : forget (.error .fault : Run ε α) = .error .fault := rfl

@[simp] theorem forget_diverged : forget (.error .diverged : Run ε α) = .error .diverged := rfl

theorem forget_eq_ok {value : α} : forget run = .ok value ↔ run = .ok value := by
  cases run with
  | ok other => simp
  | error stop => cases stop <;> simp

end Forget

/-- The first computation is the second, unless it leaves its objects. -/
def Within (run bounded : Run ε α) : Prop := run = fault ∨ run = bounded

namespace Within
variable {run bounded : Run ε α}

theorem refl (run : Run ε α) : Within run run := .inr rfl

theorem bind {next next' : α → Run ε β} (within : Within run bounded)
    (later : ∀ value, Within (next value) (next' value)) :
    Within (run >>= next) (bounded >>= next') := by
  rcases within with rfl | rfl
  · exact .inl rfl
  · cases run with
    | ok value => exact later value
    | error stop => exact .inr rfl

theorem catchError {handler : ε → Run ε α} (within : Within run bounded) :
    Within (run.catchError handler) (bounded.catchError handler) := by
  rcases within with rfl | rfl
  · exact .inl rfl
  · exact .inr rfl

theorem mapError (f : ε → ε') (within : Within run bounded) :
    Within (run.mapError f) (bounded.mapError f) := by
  rcases within with rfl | rfl
  · exact .inl rfl
  · exact .inr rfl

theorem map (f : α → β) (within : Within run bounded) :
    Within (Except.map f run) (Except.map f bounded) := by
  rcases within with rfl | rfl
  · exact .inl rfl
  · exact .inr rfl

theorem ite {condition : Prop} [Decidable condition] {other other' : Run ε α}
    (first : Within run bounded) (second : Within other other') :
    Within (if condition then run else other) (if condition then bounded else other') := by
  split
  · exact first
  · exact second

end Within

/-- Two computations end alike: their values are related, or their exceptions
are, or both leave their objects, or both outlive their fuel. -/
def Matches (values : α → β → Prop) (errors : ε → ε' → Prop) : Run ε α → Run ε' β → Prop
  | .ok value, .ok other => values value other
  | .error (.thrown error), .error (.thrown other) => errors error other
  | .error .fault, .error .fault | .error .diverged, .error .diverged => True
  | _, _ => False

namespace Matches
variable {γ δ : Type} {values : α → β → Prop} {errors : ε → ε' → Prop} {run : Run ε α} {other : Run ε' β}

theorem bind {next : α → Run ε γ} {follow : β → Run ε' δ} {results : γ → δ → Prop}
    (alike : Matches values errors run other)
    (later : ∀ value other, values value other → Matches results errors (next value) (follow other)) :
    Matches results errors (run >>= next) (other >>= follow) := by
  rcases run with (_ | _ | _) | value <;> rcases other with (_ | _ | _) | result <;>
    first | exact alike | exact alike.elim | exact later _ _ alike

theorem map {f : α → γ} {g : β → δ} {results : γ → δ → Prop} (alike : Matches values errors run other)
    (later : ∀ value other, values value other → results (f value) (g other)) :
    Matches results errors (run.map f) (other.map g) := by
  rcases run with (_ | _ | _) | value <;> rcases other with (_ | _ | _) | result <;>
    first | exact alike | exact alike.elim | exact later _ _ alike

theorem mapError {ζ : Type} {f : ε' → ζ} {later : ε → ζ → Prop} (alike : Matches values errors run other)
    (renames : ∀ error trouble, errors error trouble → later error (f trouble)) :
    Matches values later run (other.mapError f) := by
  rcases run with (_ | _ | _) | value <;> rcases other with (_ | _ | _) | result <;>
    first | exact alike | exact alike.elim | exact renames _ _ alike

/-- A handler that throws again, against the exceptions as they are. -/
theorem rethrow {handler : ε → ε} {outer : ε → ε' → Prop} (alike : Matches values errors run other)
    (handles : ∀ error trouble, errors error trouble → outer (handler error) trouble) :
    Matches values outer (run.catchError fun error => raise (handler error)) other := by
  rcases run with (_ | _ | _) | value <;> rcases other with (_ | _ | _) | result <;>
    first | exact alike | exact alike.elim | exact handles _ _ alike

end Matches

end Run

/-- Code over a mutable state, kept when an exception ends it. -/
abbrev Act (σ ε α : Type) := ExceptT (Stop ε) (StateM σ) α

namespace Act
variable {σ ε α β : Type}

def raise (error : ε) : Act σ ε α := throw (.thrown error)

def fault : Act σ ε α := throw .fault

def diverged : Act σ ε α := throw .diverged

/-- Stateless code as a part of stateful code. -/
def lift (run : Run ε α) : Act σ ε α := ExceptT.mk (pure run)

def exec (act : Act σ ε α) (state : σ) : Except (Stop ε) α × σ := StateT.run (ExceptT.run act) state

/-- `try { act } catch(error) { handler }`, with the state as the exception left it. -/
def catchError (act : Act σ ε α) (handler : ε → Act σ ε α) : Act σ ε α :=
  ExceptT.mk do
    match ← act.run with
    | .error (.thrown error) => (handler error).run
    | outcome => pure outcome

/-- Unwinding: what a scope does when an exception leaves it. -/
def onThrow (act : Act σ ε α) (cleanup : Act σ ε Unit) : Act σ ε α :=
  act.catchError fun error => do
    cleanup
    raise error

@[simp] theorem exec_pure (value : α) (state : σ) :
    exec (pure value : Act σ ε α) state = (.ok value, state) := rfl

@[simp] theorem exec_raise (error : ε) (state : σ) :
    exec (raise error : Act σ ε α) state = (.error (.thrown error), state) := rfl

@[simp] theorem exec_fault (state : σ) :
    exec (fault : Act σ ε α) state = (.error .fault, state) := rfl

@[simp] theorem exec_lift (run : Run ε α) (state : σ) :
    exec (lift run : Act σ ε α) state = (run, state) := rfl

@[simp] theorem exec_get (state : σ) : exec (get : Act σ ε σ) state = (.ok state, state) := rfl

@[simp] theorem exec_modify (f : σ → σ) (state : σ) :
    exec (modify f : Act σ ε PUnit) state = (.ok ⟨⟩, f state) := rfl

theorem exec_bind (act : Act σ ε α) (next : α → Act σ ε β) (state : σ) :
    exec (act >>= next) state =
      match exec act state with
      | (.ok value, after) => exec (next value) after
      | (.error stop, after) => (.error stop, after) := by
  simp only [exec, bind, ExceptT.bind, ExceptT.mk, ExceptT.run, StateT.bind, StateT.run]
  cases act state with
  | mk result after => cases result <;> rfl

theorem exec_catchError (act : Act σ ε α) (handler : ε → Act σ ε α) (state : σ) :
    exec (catchError act handler) state =
      match exec act state with
      | (.error (.thrown error), after) => exec (handler error) after
      | ended => ended := by
  simp only [exec, catchError, ExceptT.mk, ExceptT.run, bind, StateT.bind, StateT.run]
  cases act state with
  | mk result after => cases result with
    | ok value => rfl
    | error stop => cases stop <;> rfl

theorem exec_map (f : α → β) (act : Act σ ε α) (state : σ) :
    exec (f <$> act) state =
      match exec act state with
      | (.ok value, after) => (.ok (f value), after)
      | (.error stop, after) => (.error stop, after) :=
  exec_bind act (fun value => pure (f value)) state

end Act

end Ztd.Lib
