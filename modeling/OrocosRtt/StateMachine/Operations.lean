import OrocosRtt.Library.Run
import OrocosRtt.StateMachine.Requests

/-! The public operations of a state machine and its runs. -/
namespace OrocosRtt.StateMachine
namespace Machine

variable {σ π γ ω : Type} [DecidableEq σ] [DecidableEq π]
variable (G : StateGraph σ π γ) (W : Surroundings π γ ω)

def pause (m : Machine σ π γ ω) : Bool × Machine σ π γ ω :=
  if m.smStatus ≠ .inactive ∧ m.smStatus ≠ .unloaded then
    let m := match m.currentProg with
      | some p => (m.pauseProgram p).execProgram W p
      | none => m
    (true, { m with smpStatus := .pausing })
  else (false, m)

def step (m : Machine σ π γ ω) : Bool × Machine σ π γ ω :=
  if m.smStatus = .paused ∧ m.mstep = false then (true, { m with mstep := true })
  else if m.smStatus = .active then (true, { m with smStatus := .requesting })
  else (false, m)

/-- Also `start()`. -/
def automatic (m : Machine σ π γ ω) : Bool × Machine σ π γ ω :=
  if m.smStatus ≠ .inactive ∧ m.smStatus ≠ .unloaded ∧ m.smStatus ≠ .error then
    (true, { m with smStatus := .running }.runState G W m.current)
  else (false, m)

def reactive (m : Machine σ π γ ω) : Bool × Machine σ π γ ω :=
  if m.smStatus ≠ .inactive ∧ m.smStatus ≠ .unloaded ∧ m.smStatus ≠ .error then
    (true, { m with smStatus := .active })
  else (false, m)

def stop (m : Machine σ π γ ω) : Bool × Machine σ π γ ω :=
  if m.smStatus ≠ .inactive ∧ m.smStatus ≠ .unloaded then
    (true, { m with smpStatus := .gostop })
  else (false, m)

def reset (m : Machine σ π γ ω) : Bool × Machine σ π γ ω :=
  if m.smStatus = .stopped then (true, { m with smpStatus := .goreset }) else (false, m)

/-- `case gostop` of `execute`. -/
def executeStop (m : Machine σ π γ ω) : Machine σ π γ ω :=
  let m := (m.executePending G W false).2
  match m.requestFinalState G W with
  | (true, m) =>
    { m with smStatus := if m.inTransition then .stopping else .stopped, smpStatus := .nill }
  | (false, m) => m

/-- `case goreset` of `execute`. -/
def executeReset (m : Machine σ π γ ω) : Machine σ π γ ω :=
  match m.executePending G W false with
  | (true, m) =>
    let m := (m.requestInitialState G W).2
    { m with smStatus := if m.inTransition then .resetting else .active, smpStatus := .nill }
  | (false, m) => { m with smpStatus := .nill }

/-- Work off what is pending, and change the status once that is done. -/
def pendingThen (st : Status) (m : Machine σ π γ ω) : Machine σ π γ ω :=
  match m.executePending G W false with
  | (true, m) => { m with smStatus := st }
  | (false, m) => m

/-- The public visible states in `execute`. -/
def executeStatus (m : Machine σ π γ ω) : Machine σ π γ ω :=
  match m.smStatus with
  | .inactive | .error | .unloaded => m
  | .requesting =>
    match m.executePending G W false with
    | (true, m) => { m.requestNextState G W false with smStatus := .active }
    | (false, m) => m
  | .active => (m.executePending G W false).2
  | .running =>
    match m.executePending G W false with
    | (true, m) => m.requestNextState G W false
    | (false, m) => m
  | .paused =>
    if m.mstep then
      let m := match m.executePending G W true with
        | (true, m) => m.requestNextState G W true
        | (false, m) => m
      { m with mstep := false }
    else m
  | .activating =>
    let m := (m.executePending G W false).2
    if m.inTransition then m else { m with smStatus := .active }
  | .stopping => m.pendingThen G W .stopped
  | .deactivating => m.pendingThen G W .inactive
  | .resetting => m.pendingThen G W .active
  | .stopped =>
    let m := (m.executePending G W false).2
    if m.current = some G.finistate then m else { m with smStatus := .active }

def execute (m : Machine σ π γ ω) : Machine σ π γ ω :=
  if m.smStatus = .inactive ∨ m.smStatus = .unloaded then { m with smpStatus := .nill }
  else match m.smpStatus with
    | .pausing => { m with smStatus := .paused, smpStatus := .nill }
    | .gostop => m.executeStop G W
    | .goreset => m.executeReset G W
    | .nill => m.executeStatus G W

def planActivate (m : Machine σ π γ ω) : Machine σ π γ ω :=
  let m := (m.record .activate).enterState G W G.initstate
  let m := { m with
    reqstep := m.next.map begin
    reqend := m.next.map fun s => ⟨s, (G.stateMap s).length⟩ }
  m.enableGlobalEvents G

/-- Once the preconditions and the init commands have succeeded. -/
def enterInitialState (m : Machine σ π γ ω) : Machine σ π γ ω :=
  let m := m.planActivate G W
  if m.inError then m
  else match m.executePending G W false with
    | (true, m) => { m with smStatus := .active }
    | (false, m) => if m.inError then m else { m with smStatus := .activating }

def activate (m : Machine σ π γ ω) : Bool × Machine σ π γ ω :=
  if m.smStatus ≠ .inactive then (false, m)
  else
    let m := { m with smpStatus := .nill }
    match m.checkConditions G W (some G.initstate) false with
    | (.success, m) =>
      match W.initCommand with
      | none => (true, m.enterInitialState G W)
      | some initc =>
        let (b, w) := initc m.world
        let m := { m with world := w }
        if b then (true, m.enterInitialState G W) else (false, m)
    | (_, m) => (false, m)

/-- Whatever state the machine is in, leave it. A program in error is skipped, and so is
an exit program that stalled in a previous `deactivate`. -/
def planDeactivate (m : Machine σ π γ ω) : Machine σ π γ ω :=
  let m := (m.record .deactivate).disableGlobalEvents G
  let m := { m with
    currentExit := m.currentExit.filter fun p => !(m.programs p).inError
    currentTrans := m.currentTrans.filter fun p => !(m.programs p).inError }
  let m :=
    if m.next ≠ none ∧ m.current ≠ none then m.leaveState G W m.current
    else { m with currentExit := none, currentTrans := none }
  { m with
    currentProg := none
    currentEntry := none
    currentHandle := none
    currentRun := none
    next := none }

def deactivate (m : Machine σ π γ ω) : Bool × Machine σ π γ ω :=
  if m.smStatus = .inactive then (false, m)
  else match (m.planDeactivate G W).executePending G W false with
    | (true, m) => (true, { m with smStatus := .inactive })
    | (false, m) => (true, { m with smStatus := .deactivating })

end Machine

/-- A call from outside: an operation of the interface, a signal that one of the handlers
in `eventMap` is registered for, or a round of the engine. -/
inductive Operation (σ : Type) where
  | activate | deactivate | automatic | reactive | stop | pause | step | reset
  | requestState (name : String)
  | event (source : Option σ) (i : ℕ)
  | execute
  deriving DecidableEq

variable {σ π γ ω : Type} [DecidableEq σ] [DecidableEq π]
variable (G : StateGraph σ π γ) (W : Surroundings π γ ω)

namespace Machine

def call (m : Machine σ π γ ω) : Operation σ → Machine σ π γ ω
  | .activate => (m.activate G W).2
  | .deactivate => (m.deactivate G W).2
  | .automatic => (m.automatic G W).2
  | .reactive => m.reactive.2
  | .stop => m.stop.2
  | .pause => (m.pause W).2
  | .step => m.step.2
  | .reset => m.reset.2
  | .requestState name => (m.requestState G W name).2
  | .event source i =>
    match (G.eventMap source)[i]? with
    | some e => m.eventTransition G W source e
    | none => m
  | .execute => m.execute G W

/-- The machine after a list of calls. -/
def runOps (m : Machine σ π γ ω) (ops : List (Operation σ)) : Machine σ π γ ω :=
  Library.Run.run (fun m op => m.call G W op) m ops

/-- Every call of the list meets `ok` in the state it arrives in. -/
abbrev Calls (ok : Machine σ π γ ω → Operation σ → Prop) (m : Machine σ π γ ω)
    (ops : List (Operation σ)) : Prop :=
  Library.Run.Along (fun m op => m.call G W op) ok m ops

end Machine
end OrocosRtt.StateMachine
