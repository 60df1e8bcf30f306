import OrocosRtt.Library.Log
import OrocosRtt.Program.Stepping

/-! The call of a script function: one `CallFunction` with its own copy of the function,
executed again and again by the program that holds it. The world of the body is what the
copy owns (its arguments, variables and result) and what it shares with others. -/
namespace OrocosRtt.Scripting
open Library.Run Library.Log
set_option linter.unusedSectionVars false

/-- How a call site came about in `FunctionFactory::produce`. -/
inductive SiteKind where
  /-- An `ActionAliasDataSource` of the result: `reset()` follows a call that did not throw. -/
  | value
  /-- A `DataSourceCommand` of a function without result: `reset()` goes before the call. -/
  | void
  deriving DecidableEq, Repr

/-- What happens in an execution of the site; `started` is the begin of the body at its first
statement, `exited` and `failed` its end. -/
inductive CallEvent (P S : Type) where
  | called
  | evaluated (w : P × S)
  | started (p : P)
  | exited (p : P)
  | failed
  | returned (p : P)
  | raised
  deriving DecidableEq, Repr

/-- The arguments of a call: `readArguments` evaluates them, `execute` assigns them to the
copy's own variables; false when one of them could not be evaluated. -/
structure Arguments (P S : Type) where
  readArguments : P × S → P × S
  execute : P × S → Bool × (P × S)

/-- `waiting`: in `waitForFunctions`. `blocked`: the engine's own thread waits for a message
there, and so does not execute functions. -/
structure CallSite (V C P S : Type) where
  kind : SiteKind
  /-- The caller is executed by the engine that runs the function. -/
  sameEngine : Bool
  isqueued : Bool
  maccept : Bool
  foo : FunctionGraph V C (P × S)
  waiting : Bool
  blocked : Bool
  log : List (CallEvent P S)

namespace CallSite

inductive Action (S : Type) where
  /-- The program executes the site. -/
  | call
  /-- The engine executes the function, one pass of its loop. -/
  | pass
  /-- A message for the engine arrives. -/
  | wake
  /-- Other code changes what it shares with the function. -/
  | others (x : S)

variable {V K C P S : Type} [DecidableEq V]

def note (e : CallEvent P S) (s : CallSite V C P S) : CallSite V C P S :=
  { s with log := e :: s.log }

def setFoo (f : FunctionGraph V C (P × S)) (s : CallSite V C P S) : CallSite V C P S :=
  { s with foo := f }

variable (G : ProgramGraph V K C) (B : Commands K C (P × S)) (A : Arguments P S)

/-- A site as `produce` makes it, with a fresh copy of the function. -/
def create (kind : SiteKind) (sameEngine : Bool) (w : P × S) : CallSite V C P S where
  kind := kind
  sameEngine := sameEngine
  isqueued := false
  maccept := false
  foo := {
    toProgram := .fresh true
    current := G.startv
    previous := G.exitv
    context := false
    busy := false
    world := w
    log := [] }
  waiting := false
  blocked := false
  log := []

/-- `removeFunction` takes the function out of the engine if it is there. -/
def reset (s : CallSite V C P S) : CallSite V C P S :=
  { s with foo := { s.foo with isLoaded := false }, maccept := false, isqueued := false }

/-- `runFunction` in an engine that accepts the function: `loading()` starts it, which
`start()` refuses in the error status. -/
def runFunction (s : CallSite V C P S) : CallSite V C P S :=
  let f : FunctionGraph V C (P × S) := { s.foo with isLoaded := true }
  let g := if f.munloadOnStop then f.start G else f
  let s := s.setFoo g
  if f.pStatus ≠ .running ∧ g.pStatus = .running ∧ g.current = G.startv then
    s.note (.started g.world.1)
  else s

def fooDone (s : CallSite V C P S) : Bool := s.foo.inError || s.foo.isStopped

/-- `execute()` has not thrown: the caller goes on, with the value that the copy holds. -/
def deliver (s : CallSite V C P S) : CallSite V C P S :=
  let s := s.note (.returned s.foo.world.1)
  if s.kind = .value then s.reset else s

/-- `execute()` comes back from `waitForFunctions`. -/
def finish (s : CallSite V C P S) : CallSite V C P S :=
  let s := { s with waiting := false, blocked := false }
  if s.foo.inError then s.note .raised else s.deliver

/-- `readArguments()`, after the `reset()` of a site without result. -/
def prepare (s : CallSite V C P S) : CallSite V C P S :=
  let s := (if s.kind = .void then s.reset else s).note .called
  let w := A.readArguments s.foo.world
  (s.setFoo (s.foo.setWorld w)).note (.evaluated w)

/-- `execute()` of a site that is not queued, up to `waitForFunctions`. -/
def enter (s : CallSite V C P S) : CallSite V C P S :=
  let r := A.execute s.foo.world
  let s := { s with isqueued := true }.setFoo (s.foo.setWorld r.2)
  if r.1 then
    let s := { s.runFunction G with maccept := true }
    if s.fooDone then s.finish else { s with waiting := true }
  else
    -- execute() returns false, the value is read all the same
    { s with maccept := false }.deliver

def call (s : CallSite V C P S) : CallSite V C P S :=
  let s := s.prepare A
  if s.isqueued then s.deliver else s.enter G A

/-- One pass of the function's loop; it may be over afterwards, or wait. -/
def pass (s : CallSite V C P S) : CallSite V C P S :=
  let f := s.foo.step G B (if s.foo.busy then .goOn else .execute)
  let s := s.setFoo f
  if f.pStatus = .error then (s.note .failed).finish
  else if f.pStatus = .stopped then (s.note (.exited f.world.1)).finish
  else if f.busy then s
  else { s with blocked := s.sameEngine }

def step (s : CallSite V C P S) (a : Action S) : CallSite V C P S :=
  match a with
  | .call => if s.waiting then s else s.call G A
  | .pass => if s.waiting && !s.blocked then s.pass G B else s
  | .wake => { s with blocked := false }
  | .others x => s.setFoo (s.foo.setWorld (s.foo.world.1, x))

/-- Each execution of the site evaluates the arguments, runs the body from its first
statement with them and delivers what the body ended with, its value or its error. -/
def Follows (A : Arguments P S) (e : CallEvent P S) (l : List (CallEvent P S)) : Prop :=
  match e with
  | .called => ∀ x ∈ l.head?, (∃ p, x = .returned p) ∨ x = .raised
  | .evaluated _ => l.head? = some .called
  | .started p => ∃ w, l.head? = some (.evaluated w) ∧ p = (A.execute w).2.1
  | .exited _ => ∃ p, l.head? = some (.started p)
  | .failed => ∃ p, l.head? = some (.started p)
  | .returned p => l.head? = some (.exited p)
  | .raised => l.head? = some .failed

/-- The condition on a step: the site is not executed again after an error, its arguments
can be evaluated, and in its caller's own engine the body does not wait. -/
def Regular (s : CallSite V C P S) (a : Action S) : Prop :=
  match a with
  | .call =>
    s.waiting = false → .raised ∉ s.log ∧
      (A.execute (A.readArguments s.foo.world)).1 = true
  | .pass =>
    s.waiting = true → s.blocked = false → s.sameEngine = true →
      (s.foo.turn G B).1 = true ∨ (s.foo.turn G B).2.previous ≠ (s.foo.turn G B).2.current ∨
        (s.foo.turn G B).2.current = G.exitv
  | .wake => True
  | .others _ => True

instance (s : CallSite V C P S) (a : Action S) [DecidableEq P] [DecidableEq S] :
    Decidable (Regular G B A s a) :=
  match a with
  | .call => inferInstanceAs (Decidable (s.waiting = false → .raised ∉ s.log ∧
      (A.execute (A.readArguments s.foo.world)).1 = true))
  | .pass => inferInstanceAs (Decidable (s.waiting = true → s.blocked = false →
      s.sameEngine = true → (s.foo.turn G B).1 = true ∨
        (s.foo.turn G B).2.previous ≠ (s.foo.turn G B).2.current ∨
        (s.foo.turn G B).2.current = G.exitv))
  | .wake => .isTrue trivial
  | .others _ => .isTrue trivial

/-- How a pass of a running body ends. -/
structure Passed (G : ProgramGraph V K C) (B : Commands K C (P × S))
    (f g : FunctionGraph V C (P × S)) : Prop where
  unloadOnStop : g.munloadOnStop = f.munloadOnStop
  pausing : g.pausing = false
  idle : g.pStatus ≠ .running → g.busy = false
  status : g.pStatus = .error ∨ g.pStatus = .stopped ∨
    (g.pStatus = .running ∧ g.isLoaded = true)
  going : g.pStatus = .running →
    (f.turn G B).1 = true ∨ (f.turn G B).2.previous ≠ (f.turn G B).2.current ∨
      (f.turn G B).2.current = G.exitv → g.busy = true

variable {G B A}

/-- The site between two actions. -/
structure Orderly (A : Arguments P S) (s : CallSite V C P S) : Prop where
  follows : Throughout (Follows A) s.log
  unloadOnStop : s.foo.munloadOnStop = true
  pausing : s.foo.pausing = false
  unblocked : s.blocked = false
  idle : s.waiting = false → s.foo.busy = false ∧
    (∀ x ∈ s.log.head?, (∃ p, x = .returned p) ∨ x = .raised) ∧
    (.raised ∉ s.log → s.foo.pStatus = .stopped ∧ (s.kind = .value → s.isqueued = false))
  working : s.waiting = true → s.foo.pStatus = .running ∧ s.foo.isLoaded = true ∧
    ∃ p, s.log.head? = some (.started p)

/-- What `prepare` leaves of a site that can start its body. -/
structure Ready (A : Arguments P S) (w : P × S) (s : CallSite V C P S) : Prop where
  follows : Throughout (Follows A) s.log
  evaluated : s.log.head? = some (.evaluated w)
  world : s.foo.world = w
  stopped : s.foo.pStatus = .stopped
  unloadOnStop : s.foo.munloadOnStop = true
  pausing : s.foo.pausing = false
  idle : s.foo.busy = false
  unblocked : s.blocked = false
  unqueued : s.isqueued = false

end CallSite
end OrocosRtt.Scripting
