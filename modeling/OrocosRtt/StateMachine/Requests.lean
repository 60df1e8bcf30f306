import OrocosRtt.StateMachine.Pending

/-! Changing the state: `changeState`, the check of the preconditions, and the searches and
requests that decide on a change. -/
namespace OrocosRtt.StateMachine

/-- `1` (the preconditions hold), `0` (not done yet, only when stepping) and `-1`. -/
inductive Verdict where
  | success | busy | failed
  deriving DecidableEq, Repr

namespace Machine

variable {σ π γ ω : Type} [DecidableEq σ] [DecidableEq π]
variable (G : StateGraph σ π γ) (W : Surroundings π γ ω)

def begin (s : σ) : TransIter σ := ⟨s, 0⟩

/-- `currentExit && currentExit->inError()` -/
def exitInError (m : Machine σ π γ ω) : Bool :=
  match m.currentExit with
  | some p => (m.programs p).inError
  | none => false

/-- The exit program that `changeState` is about to plan: one in error is skipped. -/
def exitProgram (m : Machine σ π γ ω) : Option π :=
  if m.exitInError then none else m.current.bind G.getExitProgram

/-- What is logged of a call of `changeState`. -/
def change (newState : σ) (transProg : Option π) (m : Machine σ π γ ω) : Change σ π where
  source := m.current
  pending := m.next
  target := newState
  transprog := transProg
  exitprog := m.exitProgram G
  entryprog := G.getEntryProgram newState
  interrupted := m.currentProg
  status := m.smStatus
  cursor := m.reqstep

/-- A transition to the current state itself: the run program is not reset, a handle in
progress is completed first, and without a transition program a handle is scheduled. -/
def planSelf (transProg : Option π) (m : Machine σ π γ ω) : Machine σ π γ ω :=
  match transProg with
  | some p =>
    let m := m.startProgram W p
    { m with currentTrans := some p, currentProg := some p, reqstep := m.current.map begin }
  | none => if m.currentHandle = none then m.handleState G W m.current else m

/-- A transition to another state: the pointers of all the programs on the way are set. -/
def planChange (newState : σ) (transProg : Option π) (m : Machine σ π γ ω) :
    Machine σ π γ ω :=
  let m := { m with currentRun := none, currentHandle := none }
  let m := match transProg with
    | some p => m.startProgram W p
    | none => m
  let m := { m with currentTrans := transProg }
  let m :=
    if m.exitInError then { m with currentExit := none }
    else m.leaveState G W m.current
  m.enterState G W newState

/-- The first half of `changeState`: what is to be done is planned. -/
def planState (newState : σ) (transProg : Option π) (m : Machine σ π γ ω) :
    Machine σ π γ ω :=
  let m := m.record (.changeState (m.change G newState transProg))
  if some newState = m.current then m.planSelf G W transProg
  else m.planChange G W newState transProg

/-- If not stepping, exit and entry are tried directly. A run is scheduled for the next
step; if a handle is not finished it will come after that. -/
def changeState (newState : σ) (transProg : Option π) (stepping : Bool)
    (m : Machine σ π γ ω) : Machine σ π γ ω :=
  let m := m.planState G W newState transProg
  let m := if stepping then m else (m.executePending G W stepping).2
  m.runState G W (some newState)

def evaluateGuard (c : γ) (m : Machine σ π γ ω) : Bool × Machine σ π γ ω :=
  let (b, w) := W.evaluate c m.world
  (b, { m with world := w }.record (.guard c b))

def evaluatePrecondition (c : γ) (m : Machine σ π γ ω) : Bool × Machine σ π γ ω :=
  let (b, w) := W.evaluate c m.world
  (b, { m with world := w }.record (.precondition c b))

/-- The loop of `checkConditions` over what is left from `prec_it.first` on. -/
def checkLoop (stepping : Bool) :
    List (γ × ℕ) → Machine σ π γ ω → Verdict × Machine σ π γ ω
  | [], m => (.success, { m with checkingPrecond := false })
  | (c, line) :: rest, m =>
    if m.checkingPrecond = false ∧ stepping then
      (.busy, { m with evaluating := line, checkingPrecond := true })
    else
      match m.evaluatePrecondition W c with
      | (false, m) => (.failed, { m with checkingPrecond := false })
      | (true, m) =>
        let m := { m with precIt := rest }
        if stepping then
          (.busy, { m with
            evaluating := (rest.head?.map Prod.snd).getD m.evaluating
            checkingPrecond := true })
        else checkLoop stepping rest m

/-- The iterators are reset when the preconditions of `state` are checked the first time in
stepping mode, and always otherwise. -/
def checkConditions (state : Option σ) (stepping : Bool) (m : Machine σ π γ ω) :
    Verdict × Machine σ π γ ω :=
  let m :=
    if m.checkingPrecond = false ∨ stepping = false then
      { m with precIt := G.precondMap state }.record (.check state)
    else m.record (.resume state)
  m.checkLoop W stepping m.precIt

/-- The guard of a transition and, if it holds, the preconditions of its target. -/
def tryTransition {τ : Type} (target : τ → Option σ) (t : Transition τ π γ)
    (m : Machine σ π γ ω) : Bool × Machine σ π γ ω :=
  match m.evaluateGuard W t.cnd with
  | (false, m) => (false, m)
  | (true, m) =>
    match m.checkConditions G W (target t.target) false with
    | (.success, m) => (true, m)
    | (_, m) => (false, m)

/-- The first of the transitions that can be taken. -/
def findTransition {τ : Type} (target : τ → Option σ) :
    List (Transition τ π γ) → Machine σ π γ ω → Option (Transition τ π γ) × Machine σ π γ ω
  | [], m => (none, m)
  | t :: ts, m =>
    match m.tryTransition G W target t with
    | (true, m) => (some t, m)
    | (false, m) => findTransition target ts m

def resetGlobals (m : Machine σ π γ ω) : Machine σ π γ ω :=
  { m with world := resetConditions W G.globalMap m.world }

/-- The global transitions, then handle: `s` is the current state. `noTransition` is what
is done to the cursor when no transition was found. -/
def searchGlobal (s : σ) (stepping : Bool)
    (noTransition : Machine σ π γ ω → Machine σ π γ ω) (m : Machine σ π γ ω) :
    Machine σ π γ ω :=
  match m.findTransition G W id G.globalMap with
  | (some t, m) => m.changeState G W (t.target.getD s) t.transprog stepping
  | (none, m) => (noTransition m).changeState G W s none stepping

/-- Reset the search for the next time. -/
def rewind (s : σ) (m : Machine σ π γ ω) : Machine σ π γ ω :=
  { m with reqstep := some (begin s), evaluating := lineOf (G.stateMap s) }

/-- `++reqstep`, to the first of the transitions `ts`. -/
def moveOn (ts : List (Transition σ π γ)) (m : Machine σ π γ ω) : Machine σ π γ ω :=
  { m with reqstep := m.reqstep.map TransIter.next, evaluating := lineOf ts }

/-- The loop over the transitions of `s` from `reqstep` on; only one round when stepping. -/
def searchLocal (s : σ) (stepping : Bool) :
    List (Transition σ π γ) → Machine σ π γ ω → Machine σ π γ ω
  | [], m => m
  | t :: ts, m =>
    let next (m : Machine σ π γ ω) : Machine σ π γ ω :=
      if ts = [] then m.searchGlobal G W s stepping (rewind G s)
      else
        let m := m.moveOn ts
        if stepping then m.record .advance else searchLocal s stepping ts m
    match m.evaluateGuard W t.cnd with
    | (false, m) => next m
    | (true, m) =>
      -- evaluate() might have called other functions of the machine
      if m.reqstep = m.reqend then m
      else match m.checkConditions G W (some t.target) stepping with
        | (.busy, m) => m
        | (.success, m) => m.changeState G W t.target t.transprog stepping
        | (.failed, m) => next m

/-- The transitions from `reqstep` on. -/
def remaining (m : Machine σ π γ ω) : List (Transition σ π γ) :=
  match m.reqstep with
  | some it => (G.stateMap it.state).drop it.pos
  | none => []

def requestNextState (stepping : Bool) (m : Machine σ π γ ω) : Machine σ π γ ω :=
  let m := m.record (.requestNextState m.current)
  match m.current with
  | none => m
  | some s =>
    if m.interruptible = false ∨ m.currentTrans ≠ none then m
    else
      -- avoid resetting too much in stepping mode
      let m := if m.reqstep = some (begin s) then m.resetGlobals G W else m
      if m.reqstep = m.reqend then m.searchGlobal G W s stepping id
      else m.searchLocal G W s stepping (m.remaining G)

/-- The user's requests are granted by a transition of the current state, by a global one,
and always to the final state and from the final to the initial one. -/
def requestStateChange (target : σ) (m : Machine σ π γ ω) : Bool × Machine σ π γ ω :=
  match m.current with
  | none => (false, m)
  | some s =>
    if m.interruptible = false then (false, m)
    else if s = target then (true, m.changeState G W target none false)
    else
      match m.findTransition G W some
          ((G.stateMap s).filter fun t => t.target = target) with
      | (some t, m) => (true, m.changeState G W target t.transprog false)
      | (none, m) =>
        let m := m.resetGlobals G W
        match m.findTransition G W id
            (G.globalMap.filter fun t => t.target = some target) with
        | (some t, m) => (true, m.changeState G W target t.transprog false)
        | (none, m) =>
          if G.finistate = target ∨ G.initstate = target ∧ s = G.finistate then
            (true, (m.record (.fallback target)).changeState G W target none false)
          else (false, m)

def getState (name : String) : Option σ := G.states.find? fun s => G.getName s = name

def requestState (name : String) (m : Machine σ π γ ω) : Bool × Machine σ π γ ω :=
  match getState G name with
  | some s => m.requestStateChange G W s
  | none => (false, m)

def requestInitialState (m : Machine σ π γ ω) : Bool × Machine σ π γ ω :=
  if m.interruptible ∧ (m.current = some G.initstate ∨ m.current = some G.finistate) then
    (true, (m.requestStateChange G W G.initstate).2)
  else (false, m)

def requestFinalState (m : Machine σ π γ ω) : Bool × Machine σ π γ ω :=
  if m.current = none ∨ m.inError = false ∧ m.interruptible = false then (false, m)
  else m.requestStateChange G W G.finistate

/-- A transition triggered by a signal: `source` is null for the global ones. -/
def eventTransition (source : Option σ) (e : EventTransition σ π γ) (m : Machine σ π γ ω) :
    Machine σ π γ ω :=
  match m.current with
  | none => m
  | some s =>
    if source.getD s = s ∧ m.inTransition = false then
      match m.evaluateGuard W e.guard with
      | (false, m) => m
      | (true, m) =>
        match m.checkConditions G W (some (e.target.getD s)) false with
        | (.success, m) => m.changeState G W (e.target.getD s) e.transprog false
        | (_, m) => m
    else m

end Machine
end OrocosRtt.StateMachine
