import Mathlib.Data.List.Basic

/-! The status protocol of a script program: what `start`, `pause`, `step`, `stop`,
`reset` and `execute` do to its status and flags. The two execution loops come as
parameters, with what they report about the program. -/
namespace OrocosRtt

inductive ProgramStatus where
  | unknown | stopped | paused | running | error
  deriving DecidableEq, Repr

/-- How an execution loop of a program returned: waiting in a node, at the exit node, or
after a command or condition threw. -/
inductive Outcome where
  | waiting | exited | failed
  deriving DecidableEq, Repr

structure Program where
  pStatus : ProgramStatus
  pausing : Bool
  mstep : Bool
  isLoaded : Bool
  munloadOnStop : Bool
  deriving DecidableEq, Repr

namespace Program

/-- A program as it is constructed. -/
def fresh (unloadOnStop : Bool) : Program where
  pStatus := .stopped
  pausing := false
  mstep := false
  isLoaded := false
  munloadOnStop := unloadOnStop

def inError (p : Program) : Bool := p.pStatus = .error
def isStopped (p : Program) : Bool := p.pStatus = .stopped
def isRunning (p : Program) : Bool := p.pStatus = .running
def isPaused (p : Program) : Bool := p.pStatus = .paused

def stop (p : Program) : Program := { p with pStatus := .stopped }

/-- The status part of `FunctionGraph::reset`; the cursor is reset by its owner. -/
def reset (p : Program) : Program := p.stop

/-- `none` when the start is refused. A stopped program is reset first. -/
def start (p : Program) : Option Program :=
  if p.isLoaded = false then none
  else if p.pStatus = .stopped ∨ p.pStatus = .paused then some { p with pStatus := .running }
  else none

def pause (p : Program) : Option Program :=
  if p.isLoaded then
    some { (if p.pStatus = .stopped then p.reset else p) with pausing := true }
  else none

def step (p : Program) : Option Program :=
  if p.isLoaded ∧ p.pStatus = .paused ∧ p.mstep = false then some { p with mstep := true }
  else none

def stepDone (p : Program) : Bool := p.mstep = false

/-- `loading()`: a program that unloads when it stops has to be started right away. -/
def loading (p : Program) : Program :=
  if p.munloadOnStop then (p.start).getD p else p

def loaded (p : Program) : Program := loading { p with isLoaded := true }

/-- Which loop `execute` hands over to. -/
inductive Mode where
  | none | untilWait | oneStep
  deriving DecidableEq, Repr

/-- What `execute` does before it hands over: the flags it consumes and the loop it picks. -/
def beginExecute (p : Program) : Mode × Program :=
  if p.pausing then (.none, { p with pStatus := .paused, pausing := false })
  else match p.pStatus with
    | .running => (.untilWait, p)
    | .paused => if p.mstep then (.oneStep, { p with mstep := false }) else (.none, p)
    | .error | .unknown | .stopped => (.none, p)

/-- The status an execution loop leaves behind. -/
def finishExecute (p : Program) : Outcome → Program
  | .waiting => p
  | .exited => p.stop
  | .failed => { p with pStatus := .error }

@[simp] theorem stop_pStatus (p : Program) : p.stop.pStatus = .stopped := rfl
@[simp] theorem reset_pStatus (p : Program) : p.reset.pStatus = .stopped := rfl
@[simp] theorem stop_isLoaded (p : Program) : p.stop.isLoaded = p.isLoaded := rfl
@[simp] theorem reset_isLoaded (p : Program) : p.reset.isLoaded = p.isLoaded := rfl
@[simp] theorem stop_pausing (p : Program) : p.stop.pausing = p.pausing := rfl
@[simp] theorem reset_pausing (p : Program) : p.reset.pausing = p.pausing := rfl

@[simp] theorem fresh_loaded_isLoaded (b : Bool) : (fresh b).loaded.isLoaded = true := by
  cases b <;> rfl

@[simp] theorem fresh_loaded_pausing (b : Bool) : (fresh b).loaded.pausing = false := by
  cases b <;> rfl

/-- A loaded program can always be started from its reset state. -/
theorem start_reset {p : Program} (h : p.isLoaded = true) :
    p.reset.start = some { p with pStatus := .running } := by
  simp [start, reset, stop, h]

theorem step_isLoaded {p q : Program} (h : p.step = some q) : q.isLoaded = p.isLoaded := by
  unfold step at h
  split at h
  · cases h; rfl
  · cases h

theorem beginExecute_isLoaded (p : Program) : p.beginExecute.2.isLoaded = p.isLoaded := by
  unfold beginExecute
  repeat' split
  all_goals rfl

/-- A pause is consumed by the next execution. -/
theorem beginExecute_pausing (p : Program) : p.beginExecute.2.pausing = false := by
  cases hp : p.pausing <;> cases hs : p.pStatus <;> cases hm : p.mstep <;>
    simp [beginExecute, hp, hs, hm]

theorem step_pausing {p q : Program} (h : p.step = some q) : q.pausing = p.pausing := by
  unfold step at h
  split at h
  · cases h; rfl
  · cases h

theorem pause_isLoaded {p q : Program} (h : p.pause = some q) : q.isLoaded = p.isLoaded := by
  unfold pause at h
  split at h
  · cases h
    split <;> rfl
  · cases h

@[simp] theorem finishExecute_pausing (p : Program) (o : Outcome) :
    (p.finishExecute o).pausing = p.pausing := by
  cases o <;> rfl

@[simp] theorem finishExecute_isLoaded (p : Program) (o : Outcome) :
    (p.finishExecute o).isLoaded = p.isLoaded := by
  cases o <;> rfl

end Program
end OrocosRtt
