import OrocosRtt.Library.Run
import Mathlib.Data.Int.Notation
import Mathlib.Logic.Function.Basic

/-! A thread object: its thread function and the calls of `start` and `stop` made on it, each
taking one lock, unlock, semaphore operation, flag read or flag write at a time. -/
namespace OrocosRtt.Os.Thread

/-- What the life-cycle is about: an `initialize` that returned true, a `finalize` that began. -/
inductive Event
  | initialized
  | finalize
deriving DecidableEq, Repr

/-- Who holds the mutex `breaker`. -/
inductive Holder (τ : Type)
  | free
  | thread
  | caller (t : τ)
deriving DecidableEq

/-- Where the thread function is; each place is named after what it does next. -/
inductive Place
  | testActive | testPeriod | testRunning | semWait | enter | lock
  | cycle | step | waitPeriod | leave
  | setInloop | loop | clearInloop | unlock
  | unwind | caughtInloop
  | stopRunning | stopInloop | stopActive | stopFinalize | finalizing
deriving DecidableEq, Repr

/-- Where a controlling thread is in its call of `start` or `stop`. -/
inductive Call
  | idle
  | startTest | startSem | startTrigger | startActive | initializing | startCheck | startFail
  | startRunning | startSignal
  | stopTest | stopClear | stopInloop | breakLoop | stopLock | stopUnlock | stopFinalize
  | finalizing | stopActive | stopRestore
deriving DecidableEq, Repr

/-- How a function that the user supplies ends, or an operation that can fail. -/
inductive Outcome
  | ok
  | fails
  | throws
deriving DecidableEq, Repr

structure Config where
  periodic : Bool
  maxOverRun : ℤ

/-- `log`, the last event first, and `stopped`, whether `stop` returned true after the last
`start`, record what happened; no step reads them. -/
structure State (τ : Type) where
  active : Bool
  running : Bool
  inloop : Bool
  sem : ℕ
  breaker : Holder τ
  overruns : ℤ
  place : Place
  calls : τ → Call
  log : List Event
  stopped : Bool

variable {τ : Type} [DecidableEq τ]

def create : State τ where
  active := false
  running := false
  inloop := false
  sem := 0
  breaker := .free
  overruns := 0
  place := .testActive
  calls := fun _ => .idle
  log := []
  stopped := false

/-- The thread function goes to its place `p`. -/
abbrev State.goto (s : State τ) (p : Place) : State τ := { s with place := p }

/-- The call of `t` goes to its place `k`. -/
def State.call (s : State τ) (t : τ) (k : Call) : State τ :=
  { s with calls := Function.update s.calls t k }

@[simp] theorem State.call_self (s : State τ) (t : τ) (k : Call) : (s.call t k).calls t = k :=
  Function.update_self ..

theorem State.call_other (s : State τ) {t u : τ} (k : Call) (h : u ≠ t) :
    (s.call t k).calls u = s.calls u := Function.update_of_ne h ..

/-- A periodic thread drops out of periodic mode before it waits for a command. -/
abbrev State.await (s : State τ) (c : Config) : State τ :=
  { s with overruns := if c.periodic then 0 else s.overruns, place := .semWait }

/-- What the thread function does next. `step` or `loop` may throw, and a wait for the period
fails when it reports an overrun. A blocked wait changes nothing. -/
def threadMove (c : Config) (s : State τ) (o : Outcome) : State τ :=
  match s.place with
  | .testActive => if s.active then s.goto .testPeriod else s.await c
  | .testPeriod => if s.active && !c.periodic then s.await c else s.goto .testRunning
  | .testRunning => if s.running then s.goto .enter else s.await c
  | .semWait => if s.sem = 0 then s else { s with sem := s.sem - 1, place := .enter }
  | .enter => if s.running then s.goto .lock else s.goto .testActive
  | .lock =>
    if s.breaker = .free then
      { s with breaker := .thread, place := if c.periodic then .cycle else .setInloop }
    else s
  | .cycle => if s.running then s.goto .step else s.goto .leave
  | .step => if o = .throws then s.goto .unwind else s.goto .waitPeriod
  | .waitPeriod =>
    if o = .fails then
      { s with
        overruns := s.overruns + 1
        place := if s.overruns + 1 = c.maxOverRun then .leave else .cycle }
    else
      { s with
        overruns := if s.overruns = 0 then 0 else s.overruns - 1
        place := .cycle }
  | .leave =>
    { s with
      breaker := .free
      place := if s.overruns = c.maxOverRun then .stopRunning else .testActive }
  | .setInloop => { s with inloop := true, place := .loop }
  | .loop => if o = .throws then s.goto .unwind else s.goto .clearInloop
  | .clearInloop => { s with inloop := false, place := .unlock }
  | .unlock => { s with breaker := .free, place := .testActive }
  | .unwind =>
    { s with breaker := .free, place := if c.periodic then .stopRunning else .caughtInloop }
  | .caughtInloop => { s with inloop := false, place := .stopRunning }
  -- from here on `emergencyStop`, which takes no lock
  | .stopRunning => { s with running := false, place := .stopInloop }
  | .stopInloop => { s with inloop := false, place := .stopActive }
  | .stopActive => { s with active := false, place := .stopFinalize }
  | .stopFinalize => { s with log := .finalize :: s.log, place := .finalizing }
  | .finalizing => s.goto .testActive

/-- What the call of `t` does next. `initialize` and `breakLoop` fail when they return false, and an
exception leaves `start` or `stop`; an attempt to lock fails when it times out. -/
def callMove (c : Config) (s : State τ) (t : τ) (o : Outcome) : State τ :=
  match s.calls t with
  | .idle => s
  | .startTest =>
    if s.active then s.call t (if c.periodic then .idle else .startSem)
    else s.call t .startActive
  | .startSem => if 0 < s.sem then s.call t .idle else s.call t .startTrigger
  | .startTrigger => { s with sem := s.sem + 1 }.call t .idle
  | .startActive => { s with active := true, stopped := false }.call t .initializing
  | .initializing =>
    match o with
    | .ok => { s with log := .initialized :: s.log }.call t .startCheck
    | .fails => s.call t .startFail
    | .throws => s.call t .idle
  | .startCheck => if s.active then s.call t .startRunning else s.call t .startFail
  | .startFail => { s with active := false }.call t .idle
  | .startRunning => { s with running := true }.call t .startSignal
  | .startSignal => { s with sem := s.sem + 1 }.call t .idle
  | .stopTest => if s.active then s.call t .stopClear else s.call t .idle
  | .stopClear =>
    { s with running := false }.call t (if c.periodic then .stopLock else .stopInloop)
  | .stopInloop => if s.inloop then s.call t .breakLoop else s.call t .stopLock
  | .breakLoop =>
    match o with
    | .ok => s.call t .stopLock
    | .fails => s.call t .stopRestore
    | .throws => s.call t .idle
  | .stopLock =>
    if o = .fails then s.call t .stopRestore
    else if s.breaker = .free then { s with breaker := .caller t }.call t .stopUnlock
    else s
  -- the lock's scope ends before `finalize`
  | .stopUnlock => { s with breaker := .free }.call t .stopFinalize
  | .stopFinalize => { s with log := .finalize :: s.log }.call t .finalizing
  | .finalizing => s.call t .stopActive
  | .stopActive => { s with active := false, stopped := true }.call t .idle
  | .stopRestore => { s with running := true }.call t .idle

/-- One step of the thread function or of a call, or a new call of `start` or `stop`. -/
inductive Act (τ : Type)
  | thread (o : Outcome)
  | start (t : τ)
  | stop (t : τ)
  | call (t : τ) (o : Outcome)

def step (c : Config) (s : State τ) : Act τ → State τ
  | .thread o => threadMove c s o
  | .start t => if s.calls t = .idle then s.call t .startTest else s
  | .stop t => if s.calls t = .idle then s.call t .stopTest else s
  | .call t o => callMove c s t o

/-- The state after the steps `acts` of a thread that was just created. -/
abbrev after (c : Config) (acts : List (Act τ)) : State τ :=
  Library.Run.run (step c) create acts

/-! ### Kinds of places -/

/-- A call of `step` or `loop` is running. -/
def Place.executing : Place → Bool
  | .step | .loop => true
  | _ => false

/-- The thread function holds the mutex. -/
def Place.holds : Place → Bool
  | .cycle | .step | .waitPeriod | .leave | .setInloop | .loop | .clearInloop | .unlock
  | .unwind => true
  | _ => false

/-- An `emergencyStop` has cleared `running` and is not done. -/
def Place.emergency : Place → Bool
  | .stopInloop | .stopActive | .stopFinalize | .finalizing => true
  | _ => false

/-- A `start` between its store of `active` and that of `running`, or a `stop` between its lock
and its return. -/
def Call.busy : Call → Bool
  | .initializing | .startCheck | .startFail | .startRunning => true
  | .stopUnlock | .stopFinalize | .finalizing | .stopActive => true
  | _ => false

/-- The last event is a successful `initialize`. -/
def opened : List Event → Bool
  | .initialized :: _ => true
  | _ => false

/-- Successful calls of `initialize` and calls of `finalize` take turns, and the first is an
`initialize`. -/
def Alternating : List Event → Prop
  | [] => True
  | .initialized :: l => opened l = false ∧ Alternating l
  | .finalize :: l => opened l = true ∧ Alternating l

end OrocosRtt.Os.Thread
