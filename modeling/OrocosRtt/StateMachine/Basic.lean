import OrocosRtt.Program.Status
import Mathlib.Data.Int.Order.Basic

/-! Data of a scripting state machine: the parsed graph of states and transitions, the
surroundings it asks (conditions and programs), and the members its operations change. -/
namespace OrocosRtt.StateMachine

inductive Status where
  | inactive | activating | active | requesting | running | stopping | stopped | resetting
  | deactivating | paused | error | unloaded
  deriving DecidableEq, Repr

inductive PrivateStatus where
  | nill | gostop | goreset | pausing
  deriving DecidableEq, Repr

/-- One entry of a `TransList`. The target type is `σ` for the transitions of a state and
`Option σ` for the global ones, which may leave the target out. -/
structure Transition (τ π γ : Type) where
  cnd : γ
  target : τ
  priority : ℤ
  line : ℕ
  transprog : Option π

/-- One entry of an `EventList`; a target of `none` means the state the event arrives in. -/
structure EventTransition (σ π γ : Type) where
  guard : γ
  transprog : Option π
  target : Option σ

/-- What a program of the machine was parsed for. Every program has one owner. -/
inductive Role (σ : Type) where
  | entry (s : σ) | run (s : σ) | handle (s : σ) | exit (s : σ) | transition
  deriving DecidableEq

abbrev ByPriority {τ π γ : Type} (l : List (Transition τ π γ)) : Prop :=
  l.Pairwise fun a b => b.priority ≤ a.priority

/-- The part of a state machine that is fixed once it is loaded. -/
structure StateGraph (σ π γ : Type) where
  states : List σ
  getName : σ → String
  getEntryProgram : σ → Option π
  getRunProgram : σ → Option π
  getHandleProgram : σ → Option π
  getExitProgram : σ → Option π
  stateMap : σ → List (Transition σ π γ)
  globalMap : List (Transition (Option σ) π γ)
  precondMap : Option σ → List (γ × ℕ)
  eventMap : Option σ → List (EventTransition σ π γ)
  initstate : σ
  finistate : σ
  role : π → Role σ
  entry_role : ∀ s p, getEntryProgram s = some p → role p = .entry s
  run_role : ∀ s p, getRunProgram s = some p → role p = .run s
  handle_role : ∀ s p, getHandleProgram s = some p → role p = .handle s
  exit_role : ∀ s p, getExitProgram s = some p → role p = .exit s
  local_role : ∀ s, ∀ t ∈ stateMap s, ∀ p, t.transprog = some p → role p = .transition
  global_role : ∀ t ∈ globalMap, ∀ p, t.transprog = some p → role p = .transition
  event_role : ∀ k, ∀ e ∈ eventMap k, ∀ p, e.transprog = some p → role p = .transition
  local_sorted : ∀ s, ByPriority (stateMap s)
  global_sorted : ByPriority globalMap

/-- The conditions and programs as the machine sees them: evaluating a condition or
executing a program answers and may change the world in any way. -/
structure Surroundings (π γ ω : Type) where
  evaluate : γ → ω → Bool × ω
  resetCondition : γ → ω → ω
  resetProgram : π → ω → ω
  executeUntil : π → ω → Outcome × ω
  executeStep : π → ω → Outcome × ω
  /-- `initc`: reset, read the arguments and execute. -/
  initCommand : Option (ω → Bool × ω)

/-- A position in the transition list of a state. -/
structure TransIter (σ : Type) where
  state : σ
  pos : ℕ
  deriving DecidableEq

def TransIter.next {σ : Type} (it : TransIter σ) : TransIter σ := ⟨it.state, it.pos + 1⟩

/-- What `changeState` was called with and the members it found. -/
structure Change (σ π : Type) where
  source : Option σ
  pending : Option σ
  target : σ
  transprog : Option π
  exitprog : Option π
  entryprog : Option π
  interrupted : Option π
  status : Status
  cursor : Option (TransIter σ)
  deriving DecidableEq

/-- What a machine does, for the statements about runs. -/
inductive Event (σ π γ : Type) where
  | guard (c : γ) (b : Bool)
  | precondition (c : γ) (b : Bool)
  /-- `checkConditions` looks the preconditions of a target up. -/
  | check (s : Option σ)
  /-- `checkConditions` goes on with the preconditions it looked up before. -/
  | resume (s : Option σ)
  /-- A stepping search went on to the next transition. -/
  | advance
  /-- A request to the final or initial state is granted without a transition. -/
  | fallback (s : σ)
  | changeState (c : Change σ π)
  | leaveState (s : Option σ)
  | handleState (s : Option σ)
  | runState (s : Option σ) (currentProg currentRun : Option π)
  | requestNextState (s : Option σ)
  | start (p : π)
  | execute (p : π) (o : Outcome)
  | current (s : Option σ)
  | activate
  | deactivate
  deriving DecidableEq

structure Machine (σ π γ ω : Type) where
  smStatus : Status
  smpStatus : PrivateStatus
  current : Option σ
  next : Option σ
  currentProg : Option π
  currentExit : Option π
  currentHandle : Option π
  currentEntry : Option π
  currentRun : Option π
  currentTrans : Option π
  reqstep : Option (TransIter σ)
  reqend : Option (TransIter σ)
  /-- `prec_it`, the preconditions from its first to its second iterator. -/
  precIt : List (γ × ℕ)
  checkingPrecond : Bool
  mstep : Bool
  evaluating : ℕ
  /-- Which event handlers are connected, by their list in `eventMap` and position. -/
  connected : Option σ → ℕ → Bool
  programs : π → Program
  world : ω
  /-- Newest first. -/
  log : List (Event σ π γ)

/-- The program pointers besides `currentProg`. -/
inductive Slot where
  | trans | exit | entry | handle | run
  deriving DecidableEq

namespace Machine

variable {σ π γ ω : Type}

def slot (m : Machine σ π γ ω) : Slot → Option π
  | .trans => m.currentTrans
  | .exit => m.currentExit
  | .entry => m.currentEntry
  | .handle => m.currentHandle
  | .run => m.currentRun

def clear (m : Machine σ π γ ω) : Slot → Machine σ π γ ω
  | .trans => { m with currentTrans := none }
  | .exit => { m with currentExit := none }
  | .entry => { m with currentEntry := none }
  | .handle => { m with currentHandle := none }
  | .run => { m with currentRun := none }

def record (m : Machine σ π γ ω) (e : Event σ π γ) : Machine σ π γ ω :=
  { m with log := e :: m.log }

def inError (m : Machine σ π γ ω) : Bool := m.smStatus = .error

variable [DecidableEq π]

def setProgram (m : Machine σ π γ ω) (p : π) (q : Program) : Machine σ π γ ω :=
  { m with programs := fun r => if r = p then q else m.programs r }

/-- In exit, entry or transition programs. -/
def inTransition (m : Machine σ π γ ω) : Bool :=
  m.currentProg ≠ none ∧ m.currentProg ≠ m.currentRun ∧ m.currentProg ≠ m.currentHandle

/-- Only a run program may be interrupted. -/
def interruptible (m : Machine σ π γ ω) : Bool :=
  m.currentProg = none ∨ m.currentProg = m.currentRun

/-- The machine as constructed and loaded in an engine, with its programs loaded. -/
def loading (unloadOnStop : π → Bool) (world : ω) : Machine σ π γ ω where
  smStatus := .inactive
  smpStatus := .nill
  current := none
  next := none
  currentProg := none
  currentExit := none
  currentHandle := none
  currentEntry := none
  currentRun := none
  currentTrans := none
  reqstep := none
  reqend := none
  precIt := []
  checkingPrecond := false
  mstep := false
  evaluating := 0
  connected := fun _ _ => false
  programs := fun p => (Program.fresh (unloadOnStop p)).loaded
  world := world
  log := []

end Machine

end OrocosRtt.StateMachine
