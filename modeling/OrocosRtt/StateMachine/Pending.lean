import OrocosRtt.Library.Early
import OrocosRtt.StateMachine.Basic

/-! The programs of a state machine: how they are started and executed, how a state is
left, entered, run and handled, and how `executePending` works off what is pending. -/
namespace OrocosRtt.StateMachine.Machine

open Library.Early

variable {σ π γ ω : Type} [DecidableEq σ] [DecidableEq π]
variable (G : StateGraph σ π γ) (W : Surroundings π γ ω)

/-- `prog->reset(); if (prog->start() == false) smStatus = Status::error;` -/
def startProgram (p : π) (m : Machine σ π γ ω) : Machine σ π γ ω :=
  let m := { m with world := W.resetProgram p m.world }.setProgram p (m.programs p).reset
  match (m.programs p).start with
  | some q => (m.setProgram p q).record (.start p)
  | none => { m with smStatus := .error }

/-- Starts a program whose pointer was just set; it becomes the current one if there is none. -/
def launch (p : Option π) (m : Machine σ π γ ω) : Machine σ π γ ω :=
  match p with
  | none => m
  | some p =>
    let m := m.startProgram W p
    if m.currentProg = none then { m with currentProg := some p } else m

/-- The handles registered for `k`, connected or disconnected. -/
def setHandles (k : Option σ) (b : Bool) (c : Option σ → ℕ → Bool) : Option σ → ℕ → Bool :=
  fun k' i => if k' = k ∧ i < (G.eventMap k).length then b else c k' i

def enableEvents (k : Option σ) (m : Machine σ π γ ω) : Machine σ π γ ω :=
  { m with connected := setHandles G k true m.connected }

def disableEvents (k : Option σ) (m : Machine σ π γ ω) : Machine σ π γ ω :=
  { m with connected := setHandles G k false m.connected }

def enableGlobalEvents (m : Machine σ π γ ω) : Machine σ π γ ω := m.enableEvents G none

def disableGlobalEvents (m : Machine σ π γ ω) : Machine σ π γ ω := m.disableEvents G none

/-- The functions on a state assert that it is not null; what is logged tells. -/
def leaveState (s : Option σ) (m : Machine σ π γ ω) : Machine σ π γ ω :=
  let m := m.record (.leaveState s)
  match s with
  | none => m
  | some s =>
    let m := m.disableEvents G (some s)
    let m := { m with currentExit := G.getExitProgram s }
    m.launch W m.currentExit

def runState (s : Option σ) (m : Machine σ π γ ω) : Machine σ π γ ω :=
  let m := m.record (.runState s m.currentProg m.currentRun)
  match s with
  | none => m
  | some s =>
    let m := { m with currentRun := G.getRunProgram s }
    m.launch W m.currentRun

def handleState (s : Option σ) (m : Machine σ π γ ω) : Machine σ π γ ω :=
  let m := m.record (.handleState s)
  match s with
  | none => m
  | some s =>
    let m := { m with currentHandle := G.getHandleProgram s }
    m.launch W m.currentHandle

def resetConditions {τ : Type} (l : List (Transition τ π γ)) (w : ω) : ω :=
  l.foldl (fun w t => W.resetCondition t.cnd w) w

/-- The line shown for the first of the transitions still to evaluate. -/
def lineOf {τ : Type} (l : List (Transition τ π γ)) : ℕ := (l.head?.map Transition.line).getD 0

/-- Before a state is entered, all its transitions are reset. -/
def enterState (s : σ) (m : Machine σ π γ ω) : Machine σ π γ ω :=
  let m := { m with world := resetConditions W (G.stateMap s) m.world }
  let m := m.enableEvents G (some s)
  let m := { m with next := some s, currentEntry := G.getEntryProgram s }
  m.launch W m.currentEntry

/-- `ProgramInterface::execute` of a program of the machine. -/
def execProgram (p : π) (m : Machine σ π γ ω) : Machine σ π γ ω :=
  let (mode, q) := (m.programs p).beginExecute
  let m := m.setProgram p q
  match mode with
  | .none => m
  | .untilWait =>
    let (o, w) := W.executeUntil p m.world
    ({ m with world := w }.setProgram p (q.finishExecute o)).record (.execute p o)
  | .oneStep =>
    let (o, w) := W.executeStep p m.world
    ({ m with world := w }.setProgram p (q.finishExecute o)).record (.execute p o)

/-- `ProgramInterface::step` of a program of the machine: this only sets its flag. -/
def stepProgram (p : π) (m : Machine σ π γ ω) : Machine σ π γ ω :=
  match (m.programs p).step with
  | some q => m.setProgram p q
  | none => m

/-- `ProgramInterface::pause` of a program of the machine. -/
def pauseProgram (p : π) (m : Machine σ π γ ω) : Machine σ π γ ω :=
  match (m.programs p).pause with
  | some q => m.setProgram p q
  | none => m

/-- One `step()` or `execute()` of a program, as `executeProgram` does it. -/
def advanceProgram (stepping : Bool) (p : π) (m : Machine σ π γ ω) : Machine σ π γ ω :=
  let m := { m with currentProg := some p }
  if stepping then m.stepProgram p else m.execProgram W p

/-- Execute the program of a pointer and clean the pointer up if it stopped. -/
def executeProgram (k : Slot) (stepping : Bool) (m : Machine σ π γ ω) :
    Bool × Machine σ π γ ω :=
  match m.slot k with
  | none => (false, m)
  | some p =>
    let m := m.advanceProgram W stepping p
    if (m.programs p).inError then
      (false, { m with smStatus := .error, smpStatus := .nill })
    else if (m.programs p).isStopped = false then (false, m)
    else (true, { m with currentProg := none }.clear k)

/-- `if (executeProgram(..) == false) return false;`, and in stepping mode
`currentProg = after; return false;` once it is done. -/
def executeStage (k : Slot) (stepping : Bool) (after : Machine σ π γ ω → Option π)
    (m : Machine σ π γ ω) : Except (Bool × Machine σ π γ ω) (Machine σ π γ ω) :=
  match m.executeProgram W k stepping with
  | (false, m) => .error (false, m)
  | (true, m) => if stepping then .error (false, { m with currentProg := after m }) else .ok m

/-- The stage of a pointer, passed over if there is no program. -/
def pendingSlot (k : Slot) (stepping : Bool) (after : Machine σ π γ ω → Option π)
    (m : Machine σ π γ ω) : Except (Bool × Machine σ π γ ω) (Machine σ π γ ω) :=
  if m.slot k = none then .ok m else m.executeStage W k stepping after

/-- First the transition program; a handle in progress is finished before it. -/
def pendingTrans (stepping : Bool) (m : Machine σ π γ ω) :
    Except (Bool × Machine σ π γ ω) (Machine σ π γ ω) :=
  if m.currentTrans = none then .ok m
  else
    m.executeStage W (if m.currentHandle = none then .trans else .handle) stepping
      (fun m => m.currentExit <|> m.currentEntry <|> m.currentRun)

def pendingExit (stepping : Bool) (m : Machine σ π γ ω) :
    Except (Bool × Machine σ π γ ω) (Machine σ π γ ω) :=
  m.pendingSlot W .exit stepping (fun m => m.currentEntry <|> m.currentRun)

/-- `current = next`, with the search for a transition set to the first of `n`. -/
def becomeCurrent (n : σ) (m : Machine σ π γ ω) : Machine σ π γ ω :=
  { m with
    reqstep := some ⟨n, 0⟩
    reqend := some ⟨n, (G.stateMap n).length⟩
    evaluating := lineOf (G.stateMap n)
    current := some n }.record (.current (some n))

/-- The formal change of the current state, after the exit of the previous one. -/
def pendingChange (m : Machine σ π γ ω) :
    Except (Bool × Machine σ π γ ω) (Machine σ π γ ω) :=
  if m.current = m.next then .ok m
  else match m.next with
    | none => .error (true, { m with current := none }.record (.current none))
    | some n => .ok (m.becomeCurrent G n)

def pendingEntry (stepping : Bool) (m : Machine σ π γ ω) :
    Except (Bool × Machine σ π γ ω) (Machine σ π γ ω) :=
  m.pendingSlot W .entry stepping (fun m => m.currentRun)

/-- Handle is executed after the transitions failed. -/
def pendingHandle (stepping : Bool) (m : Machine σ π γ ω) :
    Except (Bool × Machine σ π γ ω) (Machine σ π γ ω) :=
  m.pendingSlot W .handle stepping (fun m => m.currentRun)

/-- Run is executed before the transitions. -/
def pendingRun (stepping : Bool) (m : Machine σ π γ ω) :
    Except (Bool × Machine σ π γ ω) (Machine σ π γ ω) :=
  m.pendingSlot W .run stepping (fun m => m.currentProg)

/-- Works off the pending programs in their order. The result is true when nothing is
pending any more. -/
def executePending (stepping : Bool) (m : Machine σ π γ ω) : Bool × Machine σ π γ ω :=
  if m.inError then (false, m)
  else result do
    let m ← m.pendingTrans W stepping
    let m ← m.pendingExit W stepping
    let m ← m.pendingChange G
    let m ← m.pendingEntry W stepping
    let m ← m.pendingHandle W stepping
    let m ← m.pendingRun W stepping
    pure (true, m)

end OrocosRtt.StateMachine.Machine
