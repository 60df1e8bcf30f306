import OrocosRtt.Library.Run
import OrocosRtt.Program.Status

/-! `FunctionGraph`: a program as a graph of commands with guarded edges, executed by two
loops over one cursor. The loop of `executeUntil` is run one pass at a time, so that a
program that never waits is a run without end. -/
namespace OrocosRtt.Scripting
set_option linter.unusedSectionVars false

/-- The graph as `FunctionGraphBuilder` makes it: the exit node is only ever the target of
an edge. A node without a command holds a `CommandNOP`. -/
structure ProgramGraph (V K C : Type) where
  startv : V
  exitv : V
  command : V → Option K
  outEdges : V → List (C × V)
  start_ne_exit : startv ≠ exitv
  exit_command : command exitv = none
  exit_outEdges : outEdges exitv = []

/-- One command, then the exit node. -/
def oneCommand : ProgramGraph Bool Unit Unit where
  startv := false
  exitv := true
  command v := if v then none else some ()
  outEdges v := if v then [] else [((), true)]
  start_ne_exit := by decide
  exit_command := rfl
  exit_outEdges := rfl

/-- What a command may ask of the program it is part of. -/
inductive SelfRequest where
  | stop | pause
  deriving DecidableEq, Repr

/-- How a command's `execute` went: what it called on its own program, and whether it threw. -/
structure Response where
  requests : List SelfRequest
  threw : Bool
  deriving DecidableEq, Repr

/-- The commands and conditions of a program; all they know and change is in `W`. -/
structure Commands (K C W : Type) where
  /-- `reset()` and `readArguments()`; true when it threw. -/
  startExecution : K → W → Bool × W
  execute : K → W → Response × W
  valid : K → W → Bool
  resetCondition : C → W → W
  /-- `none` when the condition threw. -/
  evaluate : C → W → Option Bool × W

inductive Request where
  | start | pause | step | stop | reset
  deriving DecidableEq, Repr

/-- `vertex` opens each execution of a vertex; the last four are what `execute()` and the
engine do to the program's status. -/
inductive Event (V C : Type) where
  | vertex (v : V)
  | resetCondition (c : C)
  | startExecution (v : V)
  | execute (v : V)
  | evaluate (c : C)
  | accepted (r : Request)
  | nowPaused
  | exited
  | failed
  | unloaded
  deriving DecidableEq, Repr

/-- `busy`: within the loop of `executeUntil`, between two passes. `context`: the service
of a program script is there. -/
structure FunctionGraph (V C W : Type) extends Program where
  current : V
  previous : V
  context : Bool
  busy : Bool
  world : W
  log : List (Event V C)

namespace FunctionGraph

section
variable {V K C W : Type} [DecidableEq V]

def note (e : Event V C) (s : FunctionGraph V C W) : FunctionGraph V C W :=
  { s with log := e :: s.log }

def setWorld (w : W) (s : FunctionGraph V C W) : FunctionGraph V C W := { s with world := w }

def setStatus (p : ProgramStatus) (s : FunctionGraph V C W) : FunctionGraph V C W :=
  { s with pStatus := p }

def reset (G : ProgramGraph V K C) (s : FunctionGraph V C W) : FunctionGraph V C W :=
  { s with pStatus := .stopped, current := G.startv, previous := G.exitv }

/-- A program as it is loaded in the engine: one that unloads when it stops is started at
once and has no service. -/
def loaded (unloadOnStop : Bool) (G : ProgramGraph V K C) (w : W) : FunctionGraph V C W where
  toProgram := (Program.fresh unloadOnStop).loaded
  current := G.startv
  previous := G.exitv
  context := !unloadOnStop
  busy := false
  world := w
  log := []

/-- A program script as `loadProgram` leaves it: it has a service and waits for `start()`. -/
def loadedScript (G : ProgramGraph V K C) (w : W) : FunctionGraph V C W := loaded false G w

def start (G : ProgramGraph V K C) (s : FunctionGraph V C W) : FunctionGraph V C W :=
  if s.isLoaded = false then s
  else if s.pStatus = .stopped then ((s.reset G).setStatus .running).note (.accepted .start)
  else if s.pStatus = .paused then (s.setStatus .running).note (.accepted .start)
  else s

def pause (G : ProgramGraph V K C) (s : FunctionGraph V C W) : FunctionGraph V C W :=
  if s.isLoaded = false then s
  else
    let s := if s.pStatus = .stopped then s.reset G else s
    { s with pausing := true }.note (.accepted .pause)

def requestStep (s : FunctionGraph V C W) : FunctionGraph V C W :=
  if s.isLoaded = true ∧ s.pStatus = .paused ∧ s.mstep = false then
    { s with mstep := true }.note (.accepted .step)
  else s

def stop (s : FunctionGraph V C W) : FunctionGraph V C W := s.setStatus .stopped

/-- A request from outside. -/
def request (G : ProgramGraph V K C) (r : Request) (s : FunctionGraph V C W) :
    FunctionGraph V C W :=
  match r with
  | .start => s.start G
  | .pause => s.pause G
  | .step => s.requestStep
  | .stop => s.stop.note (.accepted .stop)
  | .reset => (s.reset G).note (.accepted .reset)

/-- A request from one of the program's commands. -/
def ask (G : ProgramGraph V K C) (s : FunctionGraph V C W) (r : SelfRequest) :
    FunctionGraph V C W :=
  match r with
  | .stop => s.request G .stop
  | .pause => s.request G .pause

/-- The engine drops a program whose `execute()` returned false; `unloading()` removes the
service of a program script. -/
def unload (s : FunctionGraph V C W) : FunctionGraph V C W :=
  { s with isLoaded := false, context := false }.note .unloaded

variable (G : ProgramGraph V K C) (B : Commands K C W)

def resetConditions : List (C × V) → FunctionGraph V C W → FunctionGraph V C W
  | [], s => s
  | (c, _) :: es, s =>
    resetConditions es ((s.setWorld (B.resetCondition c s.world)).note (.resetCondition c))

/-- The current vertex is initialised when the cursor has come to it from another one; true
when its command threw. -/
def startVertex (s : FunctionGraph V C W) : Bool × FunctionGraph V C W :=
  if s.previous = s.current then (false, s)
  else
    let s := s.resetConditions B (G.outEdges s.current)
    match G.command s.current with
    | none => (false, s.note (.startExecution s.current))
    | some k =>
      let r := B.startExecution k s.world
      (r.1, (s.setWorld r.2).note (.startExecution s.current))

/-- Executes the current vertex; true when its command threw. -/
def executeVertex (s : FunctionGraph V C W) : Bool × FunctionGraph V C W :=
  let s := { s with previous := s.current }
  match G.command s.current with
  | none => (false, s.note (.execute s.current))
  | some k =>
    let r := B.execute k s.world
    (r.1.threw, r.1.requests.foldl (ask G) ((s.setWorld r.2).note (.execute s.current)))

def isValid (s : FunctionGraph V C W) : Bool :=
  match G.command s.current with
  | none => true
  | some k => B.valid k s.world

/-- The branch selecting logic: the first edge whose condition holds is taken; true when a
condition threw. -/
def branch : List (C × V) → FunctionGraph V C W → Bool × FunctionGraph V C W
  | [], s => (false, s)
  | (c, v) :: es, s =>
    let r := B.evaluate c s.world
    let s := (s.setWorld r.2).note (.evaluate c)
    match r.1 with
    | none => (true, s)
    | some true => (false, { s with current := v })
    | some false => branch es s

/-- One vertex execution, as both loops make it; true when something threw. -/
def turn (s : FunctionGraph V C W) : Bool × FunctionGraph V C W :=
  let r := (s.note (.vertex s.current)).startVertex G B
  if r.1 then r
  else
    let r := r.2.executeVertex G B
    if r.1 then r
    else if r.2.isValid G B then r.2.branch B (G.outEdges r.2.current)
    else r

def fail (s : FunctionGraph V C W) : FunctionGraph V C W :=
  (s.setStatus .error).note .failed

/-- `execute()` returns `ret` to the engine. -/
def leave (ret : Bool) (s : FunctionGraph V C W) : FunctionGraph V C W :=
  let s := { s with busy := false }
  if ret then s else s.unload

/-- One pass of the loop of `executeUntil`. -/
def pass (s : FunctionGraph V C W) : FunctionGraph V C W :=
  let r := s.turn G B
  if r.1 then r.2.fail.leave false
  else if r.2.previous ≠ r.2.current ∧ r.2.pStatus = .running ∧ r.2.pausing = false then
    { r.2 with busy := true }
  else if r.2.current = G.exitv then (r.2.stop.note .exited).leave (!r.2.munloadOnStop)
  else r.2.leave true

def executeStep (s : FunctionGraph V C W) : FunctionGraph V C W :=
  let r := s.turn G B
  if r.1 then r.2.fail
  else if r.2.current = G.exitv then r.2.stop.note .exited
  else r.2

/-- The accepted `step()` is used up. -/
def takeStep (s : FunctionGraph V C W) : FunctionGraph V C W := { s with mstep := false }

/-- `execute()` up to the first pass of `executeUntil`. -/
def execute (s : FunctionGraph V C W) : FunctionGraph V C W :=
  if s.pausing then ({ s with pStatus := .paused, pausing := false }.note .nowPaused)
  else
    match s.pStatus with
    | .running => s.pass G B
    | .paused => if s.mstep then s.takeStep.executeStep G B else s
    | .error | .unknown | .stopped => s.leave (!s.munloadOnStop)

/-- What can happen next: a request, a step of the engine, or the loop of `executeUntil`
goes on. -/
inductive Action where
  | request (r : Request)
  | execute
  | goOn
  deriving DecidableEq, Repr

def step (s : FunctionGraph V C W) (a : Action) : FunctionGraph V C W :=
  match a with
  | .request r => if s.busy then s else s.request G r
  | .execute => if s.busy ∨ s.isLoaded = false then s else s.execute G B
  | .goOn => if s.busy then s.pass G B else s

variable {G B}

/-- What is carried through a vertex execution: `I` up to the command's own execution, `J`
from its requests on. -/
structure TurnRule (G : ProgramGraph V K C) (I J : FunctionGraph V C W → Prop) : Prop where
  resetCondition : ∀ s c, I s → I (s.note (.resetCondition c))
  startExecution : ∀ s v, I s → I (s.note (.startExecution v))
  execute : ∀ s v, I s → I (s.note (.execute v))
  world : ∀ s w, I s → I (s.setWorld w)
  previous : ∀ s v, I s → I { s with previous := v }
  after : ∀ s, I s → J s
  ask : ∀ s r, J s → J (s.ask G r)
  evaluate : ∀ s c, J s → J (s.note (.evaluate c))
  world' : ∀ s w, J s → J (s.setWorld w)
  current : ∀ s v, J s → J { s with current := v }

namespace TurnRule

variable {I J : FunctionGraph V C W → Prop}

theorem resetConditions (h : TurnRule G I J) (es : List (C × V)) :
    ∀ s : FunctionGraph V C W, I s → I (s.resetConditions B es) := by
  induction es with
  | nil => intro s hs; exact hs
  | cons e es ih => intro s hs; exact ih _ (h.resetCondition _ _ (h.world _ _ hs))

theorem startVertex (h : TurnRule G I J) {s : FunctionGraph V C W} (hs : I s) :
    I (s.startVertex G B).2 := by
  unfold FunctionGraph.startVertex
  split
  · exact hs
  · have hr := h.resetConditions (B := B) (G.outEdges s.current) s hs
    dsimp only
    split
    · exact h.startExecution _ _ hr
    · exact h.startExecution _ _ (h.world _ _ hr)

theorem asks (h : TurnRule G I J) (rs : List SelfRequest) :
    ∀ s : FunctionGraph V C W, J s → J (rs.foldl (FunctionGraph.ask G) s) := by
  induction rs with
  | nil => intro s hs; exact hs
  | cons r rs ih => intro s hs; exact ih _ (h.ask s r hs)

theorem executeVertex (h : TurnRule G I J) {s : FunctionGraph V C W} (hs : I s) :
    J (s.executeVertex G B).2 := by
  have hp := h.previous s s.current hs
  unfold FunctionGraph.executeVertex
  dsimp only
  split
  · exact h.after _ (h.execute _ _ hp)
  · exact h.asks _ _ (h.after _ (h.execute _ _ (h.world _ _ hp)))

theorem branch (h : TurnRule G I J) (es : List (C × V)) :
    ∀ s : FunctionGraph V C W, J s → J (s.branch B es).2 := by
  induction es with
  | nil => intro s hs; exact hs
  | cons e es ih =>
    intro s hs
    have he := h.evaluate _ e.1 (h.world' s (B.evaluate e.1 s.world).2 hs)
    unfold FunctionGraph.branch
    dsimp only
    split
    · exact he
    · exact h.current _ _ he
    · exact ih _ he

theorem turn (h : TurnRule G I J) {s : FunctionGraph V C W}
    (hs : I (s.note (.vertex s.current))) : J (s.turn G B).2 := by
  have hstart := h.startVertex (B := B) hs
  have hexec := h.executeVertex (B := B) hstart
  unfold FunctionGraph.turn
  dsimp only
  split
  · exact h.after _ hstart
  · split
    · exact hexec
    · split
      · exact h.branch _ _ hexec
      · exact hexec

end TurnRule
end
end FunctionGraph
end OrocosRtt.Scripting
