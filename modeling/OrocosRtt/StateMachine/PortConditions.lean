import OrocosRtt.Buffer.Interface
import OrocosRtt.Library.Log
import OrocosRtt.StateMachine.Evaluation
import Mathlib.Logic.Function.Basic

/-! The conditions that transitions on port events are parsed into, and what evaluating them does to
the ports and variables. -/
set_option linter.unusedSectionVars false

namespace OrocosRtt.StateMachine.PortEvents

open OrocosRtt.Buffer (FlowStatus)
open Library.Log

/-- `p(x)`: a sample is read from the port `evname` into the variable `evarg`. -/
structure PortEvent (ι ν : Type) where
  evname : ι
  evarg : ν
  deriving DecidableEq

/-- The result of a `ConditionCache`, by the state in which it was parsed and its port; the state
is null for a global one. -/
structure Result (σ ι : Type) where
  curstate : Option σ
  port : ι
  deriving DecidableEq

inductive Condition (σ ι ν δ : Type) where
  /-- `ConditionTrue` -/
  | always
  /-- A condition from the text, with the event of its line. -/
  | expression (event : Option (PortEvent ι ν)) (e : δ)
  /-- `ConditionCompare`: `evname.read(evarg) == NewData`. -/
  | newData (event : PortEvent ι ν)
  /-- `ConditionCache` -/
  | cache (result : Result σ ι) (mc : Condition σ ι ν δ)
  /-- `ConditionBoolDataSource` -/
  | boolDataSource (result : Result σ ι)
  /-- `ConditionBinaryCompositeAND` -/
  | and (lhs rhs : Condition σ ι ν δ)
  /-- `ConditionInvert` -/
  | invert (mc : Condition σ ι ν δ)
  deriving DecidableEq

/-- What a read of a port finds: the new samples, and the one that was read last. -/
structure Feed (V : Type) where
  samples : List V
  last : Option V

/-- What is done with ports and guards, for the statements about a pass. A guard of a port event
comes with the value of the variable. -/
inductive Access (ι ν δ V : Type) where
  | read (event : PortEvent ι ν) (status : FlowStatus) (sample : Option V)
  | guard (event : Option (PortEvent ι ν)) (sample : Option V) (e : δ) (b : Bool)
  deriving DecidableEq

structure World (σ ι ν δ V : Type) where
  ports : ι → Feed V
  vars : ν → V
  results : Result σ ι → Bool
  /-- What the connections do to the ports before the next read, by the number of reads so far. -/
  traffic : ℕ → (ι → Feed V) → ι → Feed V
  clock : ℕ
  /-- Newest first. -/
  log : List (Access ι ν δ V)

variable {σ ι ν δ V : Type} [DecidableEq σ] [DecidableEq ι] [DecidableEq ν]

namespace World

def record (w : World σ ι ν δ V) (a : Access ι ν δ V) : World σ ι ν δ V :=
  { w with log := a :: w.log }

def setResult (c : Result σ ι) (b : Bool) (w : World σ ι ν δ V) : World σ ι ν δ V :=
  { w with results := Function.update w.results c b }

/-- The ports as the next read finds them. -/
def found (w : World σ ι ν δ V) : ι → Feed V := w.traffic w.clock w.ports

/-- `InputPort::read`: old data are copied too. -/
def read (event : PortEvent ι ν) (w : World σ ι ν δ V) : FlowStatus × World σ ι ν δ V :=
  let w := { w with ports := w.found, clock := w.clock + 1 }
  match (w.ports event.evname).samples, (w.ports event.evname).last with
  | v :: rest, _ =>
    (.newData, { w with
      ports := Function.update w.ports event.evname ⟨rest, some v⟩
      vars := Function.update w.vars event.evarg v }.record (.read event .newData (some v)))
  | [], some v =>
    (.oldData, { w with
      vars := Function.update w.vars event.evarg v }.record (.read event .oldData (some v)))
  | [], none => (.noData, w.record (.read event .noData none))

end World

namespace Condition

/-- `evaluate`; `φ` says when a condition from the text is true. -/
def evaluate (φ : δ → (ν → V) → Bool) :
    Condition σ ι ν δ → World σ ι ν δ V → Bool × World σ ι ν δ V
  | always, w => (true, w)
  | expression event e, w =>
    (φ e w.vars,
      w.record (.guard event (event.map fun ev => w.vars ev.evarg) e (φ e w.vars)))
  | newData event, w => (decide ((w.read event).1 = .newData), (w.read event).2)
  | cache c mc, w =>
    ((mc.evaluate φ w).1, (mc.evaluate φ w).2.setResult c (mc.evaluate φ w).1)
  | boolDataSource c, w => (w.results c, w)
  | and lhs rhs, w =>
    match lhs.evaluate φ w with
    | (true, w) => rhs.evaluate φ w
    | (false, w) => (false, w)
  | invert mc, w => (!(mc.evaluate φ w).1, (mc.evaluate φ w).2)

/-- `reset`; an inverted condition has none. -/
def reset : Condition σ ι ν δ → World σ ι ν δ V → World σ ι ν δ V
  | cache c _, w => w.setResult c false
  | and lhs rhs, w => rhs.reset (lhs.reset w)
  | always, w | expression .., w | newData _, w | boolDataSource _, w | invert _, w => w

/-- The port of the transition that has the condition. -/
def port : Condition σ ι ν δ → Option ι
  | cache c _ | boolDataSource c => some c.port
  | and lhs _ => lhs.port
  | always | expression .. | newData _ | invert _ => none

/-- The guards of the text in it, with the events of their lines. -/
def guards : Condition σ ι ν δ → List (Option (PortEvent ι ν) × δ)
  | expression event e => [(event, e)]
  | cache _ mc | invert mc => mc.guards
  | and lhs rhs => lhs.guards ++ rhs.guards
  | always | newData _ | boolDataSource _ => []

/-- It was made for an else branch. -/
def isElse : Condition σ ι ν δ → Bool
  | and _ rhs => rhs.isElse
  | invert _ => true
  | always | expression .. | newData _ | cache .. | boolDataSource _ => false

/-- Evaluating it can read a port. -/
def reads : Condition σ ι ν δ → Bool
  | newData _ => true
  | cache _ mc | invert mc => mc.reads
  | and lhs rhs => lhs.reads || rhs.reads
  | always | expression .. | boolDataSource _ => false

end Condition

/-- The surroundings of a machine with these conditions and any programs. -/
def surroundings {π : Type} (φ : δ → (ν → V) → Bool)
    (W : Surroundings π (Condition σ ι ν δ) (World σ ι ν δ V)) :
    Surroundings π (Condition σ ι ν δ) (World σ ι ν δ V) :=
  { W with
    evaluate := Condition.evaluate φ
    resetCondition := Condition.reset }

/-! ### What the variables hold -/

/-- The new sample that was read into `x` last, if nothing else was. -/
def sampleIn (x : ν) : List (Access ι ν δ V) → Option (ι × Option V)
  | [] => none
  | .guard .. :: l => sampleIn x l
  | .read event status sample :: l =>
    if event.evarg = x ∧ status ≠ .noData then
      if status = .newData then some (event.evname, sample) else none
    else sampleIn x l

def Access.reads (p : ι) : Access ι ν δ V → Bool
  | .read event _ _ => event.evname = p
  | .guard .. => false

/-- A port is read once, and a guard of a port event sees the sample that was read. -/
def Access.consistent (a : Access ι ν δ V) (l : List (Access ι ν δ V)) : Prop :=
  match a with
  | .read event _ _ => ∀ b ∈ l, b.reads event.evname = false
  | .guard (some event) sample _ _ => sampleIn event.evarg l = some (event.evname, sample)
  | .guard none .. => True

end OrocosRtt.StateMachine.PortEvents
