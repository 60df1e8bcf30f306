import OrocosRtt.Library.Run
import Mathlib.Data.Nat.Notation
import Mathlib.Logic.Function.Basic

/-! Sending an operation: the call object that a sender makes, the engines its message travels
through, and the handles with which its results are collected. -/
namespace OrocosRtt.Operation

/-- `RStore`: the results of an operation, its return value and its reference arguments. -/
structure RStore (ρ : Type) where
  executed : Bool
  error : Bool
  arg : ρ
deriving Repr

/-- What `collect` and `collectIfDone` report; `raised` is the exception of `checkError`. -/
inductive SendStatus (ρ : Type)
  | notReady
  | success (r : ρ)
  | raised
deriving DecidableEq, Repr

variable {ρ ε : Type}

/-- The user's function returns `f`, or throws. -/
def RStore.exec (v : RStore ρ) : Option ρ → RStore ρ
  | some r => { executed := true, error := false, arg := r }
  | none => { v with executed := true, error := true }

def RStore.collectIfDone (v : RStore ρ) : SendStatus ρ :=
  if v.executed then (if v.error then .raised else .success v.arg) else .notReady

/-- Where `do_send` is: it posts the message, makes the object refer to itself, and returns a
handle. Its own reference to the object lasts until it is done. -/
inductive Sender
  | post
  | setSelf
  | handle
  | done
deriving DecidableEq, Repr

/-- Where the message is: not accepted, in the queue of an engine or being processed by it, or
disposed of. -/
inductive Token (ε : Type)
  | none
  | queued (e : ε)
  | held (e : ε)
  | disposed
deriving DecidableEq

/-- The call object, a clone made for one `send`. `accepted`, `runs`, the results of its
executions, `released`, how often it was destroyed, `misused`, whether it was used after that, and
`token` record what happened; no step reads them. -/
structure LocalOperationCaller (ρ ε : Type) where
  myengine : ε
  caller : Option ε
  retv : RStore ρ
  self : Bool
  sender : Sender
  handles : ℕ
  accepted : Bool
  runs : List (Option ρ)
  released : ℕ
  misused : Bool
  token : Token ε

namespace LocalOperationCaller

/-- How many shared pointers refer to the object. -/
def references (c : LocalOperationCaller ρ ε) : ℕ :=
  (if c.self then 1 else 0) + (if c.sender = .done then 0 else 1) + c.handles

/-- The object is used. -/
def touch (c : LocalOperationCaller ρ ε) : LocalOperationCaller ρ ε :=
  { c with misused := c.misused || c.released ≠ 0 }

/-- A reference was dropped; with the last one the object is destroyed. -/
def settle (c : LocalOperationCaller ρ ε) : LocalOperationCaller ρ ε :=
  if c.references = 0 then { c with released := c.released + 1 } else c

/-- `self.reset()`. -/
def resetSelf (c : LocalOperationCaller ρ ε) : LocalOperationCaller ρ ε :=
  if c.self then { c with self := false }.settle else c

end LocalOperationCaller

open LocalOperationCaller

/-- What an engine does next with the message it processes, in `executeAndDispose`. -/
inductive Stage
  | test
  | execute
  | handBack
  | dispose
deriving DecidableEq, Repr

/-- The call objects, and for each engine its queue and the messages it is processing, the
innermost first. -/
structure State (ρ ε : Type) where
  calls : ℕ → Option (LocalOperationCaller ρ ε)
  queues : ε → List ℕ
  frames : ε → List (ℕ × Stage)

def create : State ρ ε where
  calls := fun _ => none
  queues := fun _ => []
  frames := fun _ => []

/-- `cloneRT` and the arguments stored in the clone. -/
def clone (myengine : ε) (caller : Option ε) (arg : ρ) : LocalOperationCaller ρ ε where
  myengine := myengine
  caller := caller
  retv := { executed := false, error := false, arg := arg }
  self := false
  sender := .post
  handles := 0
  accepted := false
  runs := []
  released := 0
  misused := false
  token := .none

variable [DecidableEq ε]

def State.set (s : State ρ ε) (id : ℕ) (c : LocalOperationCaller ρ ε) : State ρ ε :=
  { s with calls := Function.update s.calls id (some c) }

def State.enqueue (s : State ρ ε) (e : ε) (id : ℕ) : State ρ ε :=
  { s with queues := Function.update s.queues e (s.queues e ++ [id]) }

def State.frame (s : State ρ ε) (e : ε) (fs : List (ℕ × Stage)) : State ρ ε :=
  { s with frames := Function.update s.frames e fs }

/-- The next step of the sender of `id`; `o` tells whether the engine accepts the message. -/
def senderMove (s : State ρ ε) (id : ℕ) (o : Bool) : State ρ ε :=
  match s.calls id with
  | none => s
  | some c =>
    match c.sender with
    | .post =>
      if o then
        (s.set id { c with sender := .setSelf, accepted := true, token := .queued c.myengine }).enqueue
          c.myengine id
      else s.set id { c with sender := .done }.settle
    | .setSelf => s.set id { c.touch with self := true, sender := .handle }
    | .handle => s.set id { c with sender := .done, handles := c.handles + 1 }
    | .done => s

/-- `mqueue->dequeue`. An operation that is being executed may process further messages. -/
def dequeue (s : State ρ ε) (e : ε) : State ρ ε :=
  match s.queues e, s.frames e with
  | id :: q, fs =>
    if fs.head?.all (fun f => f.2 = .execute) then
      match s.calls id with
      | some c =>
        ({ s with queues := Function.update s.queues e q }.set id { c with token := .held e }).frame
          e ((id, .test) :: fs)
      | none => s
    else s
  | [], _ => s

/-- The next step of `executeAndDispose` for the message `id`; `r` is what the operation returns,
and `o` tells whether the caller's engine accepts the message. -/
def processMove (s : State ρ ε) (e : ε) (id : ℕ) (stage : Stage) (fs : List (ℕ × Stage))
    (c : LocalOperationCaller ρ ε) (r : Option ρ) (o : Bool) : State ρ ε :=
  match stage with
  | .test =>
    (s.set id c.touch).frame e ((id, if c.retv.executed then .dispose else .execute) :: fs)
  | .execute =>
    (s.set id { c.touch with retv := c.retv.exec r, runs := r :: c.runs }).frame e
      ((id, .handBack) :: fs)
  | .handBack =>
    match c.caller with
    | none => (s.set id c.touch).frame e ((id, .dispose) :: fs)
    | some e' =>
      if o then
        ((s.set id { c.touch with token := .queued e' }).enqueue e' id).frame e fs
      else (s.set id c.touch).frame e ((id, .dispose) :: fs)
  | .dispose => (s.set id { c.touch with token := .disposed }.resetSelf).frame e fs

def engineMove (s : State ρ ε) (e : ε) (r : Option ρ) (o : Bool) : State ρ ε :=
  match s.frames e with
  | [] => s
  | (id, stage) :: fs =>
    match s.calls id with
    | some c => processMove s e id stage fs c r o
    | none => s

/-- A step of a sender, of an engine, or of the owner of a send handle. -/
inductive Act (ρ ε : Type)
  | send (id : ℕ) (myengine : ε) (caller : Option ε) (arg : ρ)
  | sender (id : ℕ) (o : Bool)
  | dequeue (e : ε)
  | engine (e : ε) (r : Option ρ) (o : Bool)
  | copy (id : ℕ)
  | drop (id : ℕ)

def step (s : State ρ ε) : Act ρ ε → State ρ ε
  | .send id myengine caller arg =>
    if (s.calls id).isNone then s.set id (clone myengine caller arg) else s
  | .sender id o => senderMove s id o
  | .dequeue e => dequeue s e
  | .engine e r o => engineMove s e r o
  | .copy id =>
    match s.calls id with
    | some c => if 0 < c.handles then s.set id { c with handles := c.handles + 1 } else s
    | none => s
  | .drop id =>
    match s.calls id with
    | some c => if 0 < c.handles then s.set id { c with handles := c.handles - 1 }.settle else s
    | none => s

abbrev after (acts : List (Act ρ ε)) : State ρ ε := Library.Run.run step create acts

end OrocosRtt.Operation
