import OrocosRtt.Library.Run

/-! The life cycle of a `TaskCore`. The operations run from one call of user code to the
next; `stack` holds the calls under way, innermost first, each with what its operation
still has to do. Whoever is on top (or the outside, when nothing is) chooses what happens:
it calls an operation, returns or throws. -/
namespace OrocosRtt.Task

inductive TaskState where
  | init | preOperational | fatalError | exception | stopped | running | runTimeError
  deriving DecidableEq, Repr

namespace TaskState

/-- The enumeration's value, by which states are compared. -/
def rank : TaskState → Nat
  | .init => 0
  | .preOperational => 1
  | .fatalError => 2
  | .exception => 3
  | .stopped => 4
  | .running => 5
  | .runTimeError => 6

instance : LE TaskState := ⟨fun a b => a.rank ≤ b.rank⟩
instance : LT TaskState := ⟨fun a b => a.rank < b.rank⟩

theorem le_def (a b : TaskState) : a ≤ b ↔ a.rank ≤ b.rank := Iff.rfl
theorem lt_def (a b : TaskState) : a < b ↔ a.rank < b.rank := Iff.rfl

instance (a b : TaskState) : Decidable (a ≤ b) := inferInstanceAs (Decidable (a.rank ≤ b.rank))
instance (a b : TaskState) : Decidable (a < b) := inferInstanceAs (Decidable (a.rank < b.rank))

theorem not_lt {a b : TaskState} : ¬ a < b ↔ b ≤ a := Nat.not_lt

end TaskState

/-- What can be called on a task; `step` is the engine's `processChildren` for it. -/
inductive Operation where
  | configure | cleanup | start | stop | error | exception | recover | fatal | step
  deriving DecidableEq, Repr

/-- Code the operations call. `stopTask`, `trigger` and `stopActivity` go to the activity,
which may call `breakUpdateHook` or run an engine step. -/
inductive Hook where
  | configureHook | cleanupHook | startHook | stopHook | exceptionHook
  | prepareUpdateHook | updateHook | errorHook
  | stopTask | trigger | stopActivity
  deriving DecidableEq, Repr

/-- Where the code goes on that called `exception()`, or the `fatal()` in its handler. -/
inductive Caller where
  | direct
  | caught (op : Operation)
  | update
  | errorHook
  deriving DecidableEq, Repr

/-- A call under way, named after the operation that waits for it. -/
inductive Frame where
  | configure
  | cleanup
  | start
  | trigger
  | stopTask (orig : { s : TaskState // .running ≤ s })
  | stop
  | exceptionStop (copy : TaskState) (c : Caller)
  | exceptionCleanup (c : Caller)
  | exceptionHook (c : Caller)
  | fatal (c : Caller)
  | prepareUpdateHook
  | updateHook
  | errorHook
  deriving DecidableEq, Repr

def Frame.hook : Frame → Hook
  | .configure => .configureHook
  | .cleanup => .cleanupHook
  | .start => .startHook
  | .trigger => .trigger
  | .stopTask _ => .stopTask
  | .stop => .stopHook
  | .exceptionStop _ _ => .stopHook
  | .exceptionCleanup _ => .cleanupHook
  | .exceptionHook _ => .exceptionHook
  | .fatal _ => .stopActivity
  | .prepareUpdateHook => .prepareUpdateHook
  | .updateHook => .updateHook
  | .errorHook => .errorHook

inductive Event where
  | called (op : Operation)
  | returned (op : Operation) (result : Bool)
  | entered (h : Hook)
  | left (h : Hook) (result : Bool)
  | threw (h : Hook)
  deriving DecidableEq, Repr

inductive Action where
  | call (op : Operation)
  | ret (result : Bool)
  | throw
  deriving DecidableEq, Repr

structure TaskCore where
  mTaskState : TaskState
  mTargetState : TaskState
  mInitialState : TaskState
  stack : List Frame
  log : List Event
  deriving DecidableEq, Repr

namespace TaskCore

def create (initial : TaskState) : TaskCore where
  mTaskState := initial
  mTargetState := initial
  mInitialState := initial
  stack := []
  log := []

def isRunning (t : TaskCore) : Bool := TaskState.running ≤ t.mTaskState

/-- `mTargetState = mTaskState = s`. -/
def assign (s : TaskState) (t : TaskCore) : TaskCore :=
  { t with mTaskState := s, mTargetState := s }

def aim (s : TaskState) (t : TaskCore) : TaskCore := { t with mTargetState := s }
def become (s : TaskState) (t : TaskCore) : TaskCore := { t with mTaskState := s }

def note (e : Event) (t : TaskCore) : TaskCore := { t with log := e :: t.log }

/-- Calls a hook: the operation waits until it is left. -/
def enter (f : Frame) (t : TaskCore) : TaskCore :=
  { t with stack := f :: t.stack, log := .entered f.hook :: t.log }

def configure (t : TaskCore) : TaskCore :=
  if t.mTaskState = .stopped ∨ t.mTaskState = .preOperational then
    (t.aim .stopped).enter .configure
  else t.note (.returned .configure false)

def cleanup (t : TaskCore) : TaskCore :=
  if t.mTaskState = .stopped then (t.aim .preOperational).enter .cleanup
  else t.note (.returned .cleanup false)

def fatal (c : Caller) (t : TaskCore) : TaskCore :=
  (t.assign .fatalError).enter (.fatal c)

def error (t : TaskCore) : TaskCore :=
  if t.mTargetState < .running then t else t.assign .runTimeError

/-- `exception()` after its `stopHook`, `copy` being the state it was called in. -/
def exceptionRest (copy : TaskState) (c : Caller) (t : TaskCore) : TaskCore :=
  if .stopped ≤ copy ∧ t.mInitialState = .preOperational then t.enter (.exceptionCleanup c)
  else t.enter (.exceptionHook c)

def exception (c : Caller) (t : TaskCore) : TaskCore :=
  if .running ≤ t.mTaskState then
    (t.assign .exception).enter (.exceptionStop t.mTaskState c)
  else (t.assign .exception).exceptionRest t.mTaskState c

def recover (t : TaskCore) : TaskCore :=
  if t.mTaskState = .exception then
    (t.assign t.mInitialState).note (.returned .recover true)
  else if t.mTaskState = .runTimeError then
    (t.assign .running).note (.returned .recover true)
  else t.note (.returned .recover false)

def start (t : TaskCore) : TaskCore :=
  if t.mTaskState = .stopped then (t.aim .running).enter .start
  else t.note (.returned .start false)

def stop (t : TaskCore) : TaskCore :=
  if h : .running ≤ t.mTaskState then (t.aim .stopped).enter (.stopTask ⟨t.mTaskState, h⟩)
  else t.note (.returned .stop false)

/-- The second half of `processChildren`. -/
def processError (t : TaskCore) : TaskCore :=
  if t.mTaskState = .runTimeError then t.enter .errorHook else t

def processChildren (t : TaskCore) : TaskCore :=
  if t.mTaskState = .running ∧ t.mTargetState = .running then t.enter .prepareUpdateHook
  else t.processError

/-- What the caller of `exception()` does after it. -/
def resume (c : Caller) (t : TaskCore) : TaskCore :=
  match c with
  | .direct => t
  | .caught op => t.note (.returned op false)
  | .update => t.processError
  | .errorHook => t

/-- What is done when the call that `f` waits for returns `b`. -/
def afterReturn (f : Frame) (b : Bool) (t : TaskCore) : TaskCore :=
  match f with
  | .configure =>
    if b then (t.become .stopped).note (.returned .configure true)
    else (t.assign .preOperational).note (.returned .configure false)
  | .cleanup => (t.become .preOperational).note (.returned .cleanup true)
  | .start =>
    if b then (t.become .running).enter .trigger
    else (t.aim .stopped).note (.returned .start false)
  | .trigger => t.note (.returned .start true)
  | .stopTask orig =>
    if b then t.enter .stop else (t.assign orig.1).note (.returned .stop false)
  | .stop => (t.become .stopped).note (.returned .stop true)
  | .exceptionStop copy c => t.exceptionRest copy c
  | .exceptionCleanup c => t.enter (.exceptionHook c)
  | .exceptionHook c => t.resume c
  | .fatal c => t.resume c
  | .prepareUpdateHook => t.enter .updateHook
  | .updateHook => t.processError
  | .errorHook => t

/-- What is done when the call that `f` waits for throws. What `fatal()` throws leaves
every operation up to the next call of user code. -/
def afterThrow (f : Frame) (t : TaskCore) : TaskCore :=
  match f with
  | .configure => t.exception (.caught .configure)
  | .cleanup => t.exception (.caught .cleanup)
  | .start => t.exception (.caught .start)
  | .trigger => t.exception (.caught .start)
  | .stopTask _ => t.exception (.caught .stop)
  | .stop => t.exception (.caught .stop)
  | .exceptionStop _ c => t.fatal c
  | .exceptionCleanup c => t.fatal c
  | .exceptionHook c => t.fatal c
  | .fatal _ => t
  | .prepareUpdateHook => t.exception .update
  | .updateHook => t.exception .update
  | .errorHook => t.exception .errorHook

def invoke (op : Operation) (t : TaskCore) : TaskCore :=
  match op with
  | .configure => t.configure
  | .cleanup => t.cleanup
  | .start => t.start
  | .stop => t.stop
  | .error => t.error
  | .exception => t.exception .direct
  | .recover => t.recover
  | .fatal => t.fatal .direct
  | .step => t.processChildren

/-- Takes the innermost call off the stack. -/
def leave (s : List Frame) (e : Event) (t : TaskCore) : TaskCore :=
  { t with stack := s, log := e :: t.log }

def step (t : TaskCore) (a : Action) : TaskCore :=
  match a with
  | .call op => (t.note (.called op)).invoke op
  | .ret b =>
    match t.stack with
    | [] => t
    | f :: s => (t.leave s (.left f.hook b)).afterReturn f b
  | .throw =>
    match t.stack with
    | [] => t
    | f :: s => (t.leave s (.threw f.hook)).afterThrow f

/-! What each part leaves in the two states. -/

@[simp] theorem assign_mTaskState (s : TaskState) (t : TaskCore) :
    (t.assign s).mTaskState = s := rfl
@[simp] theorem assign_mTargetState (s : TaskState) (t : TaskCore) :
    (t.assign s).mTargetState = s := rfl
@[simp] theorem assign_mInitialState (s : TaskState) (t : TaskCore) :
    (t.assign s).mInitialState = t.mInitialState := rfl
@[simp] theorem assign_stack (s : TaskState) (t : TaskCore) :
    (t.assign s).stack = t.stack := rfl
@[simp] theorem assign_log (s : TaskState) (t : TaskCore) : (t.assign s).log = t.log := rfl

@[simp] theorem aim_mTaskState (s : TaskState) (t : TaskCore) :
    (t.aim s).mTaskState = t.mTaskState := rfl
@[simp] theorem aim_mTargetState (s : TaskState) (t : TaskCore) :
    (t.aim s).mTargetState = s := rfl
@[simp] theorem aim_mInitialState (s : TaskState) (t : TaskCore) :
    (t.aim s).mInitialState = t.mInitialState := rfl
@[simp] theorem aim_stack (s : TaskState) (t : TaskCore) : (t.aim s).stack = t.stack := rfl
@[simp] theorem aim_log (s : TaskState) (t : TaskCore) : (t.aim s).log = t.log := rfl

@[simp] theorem become_mTaskState (s : TaskState) (t : TaskCore) :
    (t.become s).mTaskState = s := rfl
@[simp] theorem become_mTargetState (s : TaskState) (t : TaskCore) :
    (t.become s).mTargetState = t.mTargetState := rfl
@[simp] theorem become_mInitialState (s : TaskState) (t : TaskCore) :
    (t.become s).mInitialState = t.mInitialState := rfl
@[simp] theorem become_stack (s : TaskState) (t : TaskCore) :
    (t.become s).stack = t.stack := rfl
@[simp] theorem become_log (s : TaskState) (t : TaskCore) : (t.become s).log = t.log := rfl

@[simp] theorem note_mTaskState (e : Event) (t : TaskCore) :
    (t.note e).mTaskState = t.mTaskState := rfl
@[simp] theorem note_mTargetState (e : Event) (t : TaskCore) :
    (t.note e).mTargetState = t.mTargetState := rfl
@[simp] theorem note_mInitialState (e : Event) (t : TaskCore) :
    (t.note e).mInitialState = t.mInitialState := rfl
@[simp] theorem note_stack (e : Event) (t : TaskCore) : (t.note e).stack = t.stack := rfl
@[simp] theorem note_log (e : Event) (t : TaskCore) : (t.note e).log = e :: t.log := rfl

@[simp] theorem enter_mTaskState (f : Frame) (t : TaskCore) :
    (t.enter f).mTaskState = t.mTaskState := rfl
@[simp] theorem enter_mTargetState (f : Frame) (t : TaskCore) :
    (t.enter f).mTargetState = t.mTargetState := rfl
@[simp] theorem enter_mInitialState (f : Frame) (t : TaskCore) :
    (t.enter f).mInitialState = t.mInitialState := rfl
@[simp] theorem enter_stack (f : Frame) (t : TaskCore) :
    (t.enter f).stack = f :: t.stack := rfl
@[simp] theorem enter_log (f : Frame) (t : TaskCore) :
    (t.enter f).log = .entered f.hook :: t.log := rfl

@[simp] theorem leave_mTaskState (s : List Frame) (e : Event) (t : TaskCore) :
    (t.leave s e).mTaskState = t.mTaskState := rfl
@[simp] theorem leave_mTargetState (s : List Frame) (e : Event) (t : TaskCore) :
    (t.leave s e).mTargetState = t.mTargetState := rfl
@[simp] theorem leave_mInitialState (s : List Frame) (e : Event) (t : TaskCore) :
    (t.leave s e).mInitialState = t.mInitialState := rfl
@[simp] theorem leave_stack (s : List Frame) (e : Event) (t : TaskCore) :
    (t.leave s e).stack = s := rfl
@[simp] theorem leave_log (s : List Frame) (e : Event) (t : TaskCore) :
    (t.leave s e).log = e :: t.log := rfl

@[simp] theorem fatal_mTaskState (c : Caller) (t : TaskCore) :
    (t.fatal c).mTaskState = .fatalError := rfl
@[simp] theorem fatal_mTargetState (c : Caller) (t : TaskCore) :
    (t.fatal c).mTargetState = .fatalError := rfl

@[simp] theorem exceptionRest_mTaskState (copy : TaskState) (c : Caller) (t : TaskCore) :
    (t.exceptionRest copy c).mTaskState = t.mTaskState := by
  unfold exceptionRest
  split <;> rfl

@[simp] theorem exceptionRest_mTargetState (copy : TaskState) (c : Caller) (t : TaskCore) :
    (t.exceptionRest copy c).mTargetState = t.mTargetState := by
  unfold exceptionRest
  split <;> rfl

@[simp] theorem exception_mTaskState (c : Caller) (t : TaskCore) :
    (t.exception c).mTaskState = .exception := by
  unfold exception
  split <;> simp

@[simp] theorem exception_mTargetState (c : Caller) (t : TaskCore) :
    (t.exception c).mTargetState = .exception := by
  unfold exception
  split <;> simp

@[simp] theorem processError_mTaskState (t : TaskCore) :
    t.processError.mTaskState = t.mTaskState := by
  unfold processError
  split <;> rfl

@[simp] theorem processError_mTargetState (t : TaskCore) :
    t.processError.mTargetState = t.mTargetState := by
  unfold processError
  split <;> rfl

@[simp] theorem processChildren_mTaskState (t : TaskCore) :
    t.processChildren.mTaskState = t.mTaskState := by
  unfold processChildren
  split <;> simp

@[simp] theorem processChildren_mTargetState (t : TaskCore) :
    t.processChildren.mTargetState = t.mTargetState := by
  unfold processChildren
  split <;> simp

@[simp] theorem resume_mTaskState (c : Caller) (t : TaskCore) :
    (t.resume c).mTaskState = t.mTaskState := by
  cases c <;> simp [resume]

@[simp] theorem resume_mTargetState (c : Caller) (t : TaskCore) :
    (t.resume c).mTargetState = t.mTargetState := by
  cases c <;> simp [resume]

/-- An operation that waits for a call leaves the task's state alone until then, unless it
sets both states. -/
theorem configure_mTaskState (t : TaskCore) : t.configure.mTaskState = t.mTaskState := by
  unfold configure
  split <;> rfl

theorem cleanup_mTaskState (t : TaskCore) : t.cleanup.mTaskState = t.mTaskState := by
  unfold cleanup
  split <;> rfl

theorem start_mTaskState (t : TaskCore) : t.start.mTaskState = t.mTaskState := by
  unfold start
  split <;> rfl

theorem stop_mTaskState (t : TaskCore) : t.stop.mTaskState = t.mTaskState := by
  unfold stop
  split <;> rfl

end TaskCore
end OrocosRtt.Task
