import OrocosRtt.Library.Queue
import OrocosRtt.Library.Run
import Mathlib.Data.Int.Notation
import Mathlib.Logic.Function.Basic

/-! `removeFunction` of a running engine: the caller puts a message on its own stack, posts it, and
waits until the function is not loaded or the message was executed. The thread of the engine works
off its queues meanwhile; what it executes may process messages and functions itself, and may
call `removeFunction`. -/
namespace OrocosRtt.Engine.Removal
open Library.Queue

/-- The message of a call of `removeFunction`, or any other. -/
inductive Message
  | remove (call : ℕ)
  | other
  deriving DecidableEq

inductive Place
  | testLoaded
  | testActive
  /-- The engine does not run, and the caller executes `removeSelfFunction`. -/
  | removeSelf (nbr : ℕ)
  | post
  | wait
  | testFound
  | unload
  | done (result : Bool)
  deriving DecidableEq

/-- A call of `removeFunction` with the `found` of its message. -/
structure Call (F : Type) where
  f : F
  /-- The caller is the thread of the engine. -/
  isSelf : Bool
  place : Place
  found : Bool
  deriving DecidableEq

/-- What the thread of the engine is in the middle of. -/
inductive Frame (F : Type)
  | processMessages
  | processFunctions
  /-- The loop of `processFunctions`, with the function whose `execute` runs. -/
  | functions (nbr : ℤ) (executing : Option F)
  | user
  | removeSelf (call nbr : ℕ)
  | setFound (call : ℕ)
  | removeFunction (call : ℕ)
  deriving DecidableEq

structure State (F : Type) (capacity : ℕ) where
  mqueue : BoundedQueue Message capacity
  fqueue : BoundedQueue F capacity
  isLoaded : F → Bool
  frames : List (Frame F)
  calls : ℕ → Option (Call F)
  hasActivity : Bool
  isActive : Bool
  fatalError : Bool

variable {F : Type} {capacity : ℕ}

def create : State F capacity where
  mqueue := .empty
  fqueue := .empty
  isLoaded _ := false
  frames := []
  calls _ := none
  hasActivity := false
  isActive := false
  fatalError := false

/-- The call `id` goes to its place `p`. -/
def State.goto (s : State F capacity) (id : ℕ) (c : Call F) (p : Place) : State F capacity :=
  { s with calls := Function.update s.calls id (some { c with place := p }) }

@[simp] theorem State.goto_self (s : State F capacity) (id : ℕ) (c : Call F) (p : Place) :
    (s.goto id c p).calls id = some { c with place := p } := Function.update_self ..

theorem State.goto_other (s : State F capacity) {id i : ℕ} (c : Call F) (p : Place) (h : i ≠ id) :
    (s.goto id c p).calls i = s.calls i := Function.update_of_ne h ..

/-- `process` and `runFunction` take what comes unless the component is in `FatalError`. -/
def State.accepts (s : State F capacity) : Bool := s.hasActivity && !s.fatalError

def State.process (s : State F capacity) (m : Message) : State F capacity :=
  if s.accepts then { s with mqueue := s.mqueue.push m } else s

variable [DecidableEq F]

def State.setLoaded (s : State F capacity) (f : F) (b : Bool) : State F capacity :=
  { s with isLoaded := Function.update s.isLoaded f b }

def runFunction (s : State F capacity) (f : F) : State F capacity :=
  if s.accepts then { s.setLoaded f true with fqueue := s.fqueue.push f } else s

/-- One round of the loop of `removeSelfFunction`: its result when it is the last one, else how
many are left. -/
def removeSelf (f : F) (nbr : ℕ) (q : BoundedQueue F capacity) :
    (Bool ⊕ ℕ) × BoundedQueue F capacity :=
  match nbr with
  | 0 => (.inl true, q)
  | nbr + 1 =>
    match q.pop with
    | none => (.inl false, q)
    | some (foo, q) => if f = foo then (.inl true, q) else (.inr nbr, q.push foo)

/-- What the caller waits for. -/
def State.pred (s : State F capacity) (c : Call F) : Bool := !s.isLoaded c.f || c.found

/-- The next step of the call `id`. The locks and wake-ups of a wait only tell when the caller may
test what it waits for; the thread of the engine processes messages between two tests. -/
def callMove (s : State F capacity) (id : ℕ) (c : Call F) : State F capacity :=
  match c.place with
  | .testLoaded => s.goto id c (if s.isLoaded c.f then .testActive else .done true)
  | .testActive =>
    s.goto id c
      (if s.hasActivity && s.isActive then .post else .removeSelf s.fqueue.items.length)
  | .removeSelf nbr =>
    match removeSelf c.f nbr s.fqueue with
    | (.inl result, q) =>
      { s with fqueue := q }.goto id c (if result then .unload else .done false)
    | (.inr nbr, q) => { s with fqueue := q }.goto id c (.removeSelf nbr)
  | .post =>
    (s.process (.remove id)).goto id c
      (if s.accepts && !s.mqueue.isFull then .wait else .testFound)
  | .wait =>
    if s.pred c then s.goto id c .testFound
    else if c.isSelf then { s with frames := .processMessages :: s.frames }
    else s
  | .testFound => s.goto id c (if c.found then .unload else .done false)
  | .unload => (s.setLoaded c.f false).goto id c (.done true)
  | .done _ => if c.isSelf then { s with frames := s.frames.tail } else s

/-- A caller in the thread of the engine goes on when nothing else is on top of it. -/
def State.goesOn (s : State F capacity) (id : ℕ) (c : Call F) : Bool :=
  !c.isSelf || s.frames.head? = some (.removeFunction id)

/-- The next step of the thread of the engine outside `removeFunction`; `o` is what the `execute`
of a function returns. -/
def engineMove (s : State F capacity) (o : Bool) : State F capacity :=
  match s.frames with
  | [] => s
  | .processMessages :: fs =>
    match s.mqueue.pop with
    | none => { s with frames := fs }
    | some (.remove id, q) =>
      { s with mqueue := q, frames := .removeSelf id s.fqueue.items.length :: s.frames }
    | some (.other, q) => { s with mqueue := q, frames := .user :: s.frames }
  | .processFunctions :: fs => { s with frames := .functions s.fqueue.items.length none :: fs }
  | .functions nbr none :: fs =>
    match s.fqueue.pop with
    | none => { s with frames := fs }
    | some (foo, q) => { s with fqueue := q, frames := .functions nbr (some foo) :: fs }
  | .functions nbr (some foo) :: fs =>
    let s' := if o then { s with fqueue := s.fqueue.push foo } else s.setLoaded foo false
    { s' with frames := if nbr - 1 = 0 then fs else .functions (nbr - 1) none :: fs }
  | .user :: fs => { s with frames := fs }
  | .removeSelf id nbr :: fs =>
    match s.calls id with
    | none => s
    | some c =>
      match removeSelf c.f nbr s.fqueue with
      | (.inl _, q) => { s with fqueue := q, frames := .setFound id :: fs }
      | (.inr nbr, q) => { s with fqueue := q, frames := .removeSelf id nbr :: fs }
  | .setFound id :: fs =>
    match s.calls id with
    | none => s
    | some c =>
      { s with calls := Function.update s.calls id (some { c with found := true }), frames := fs }
  | .removeFunction _ :: _ => s

/-- Code of the user runs in the thread of the engine. -/
def State.inUser (s : State F capacity) : Bool :=
  match s.frames with
  | .user :: _ => true
  | .functions _ (some _) :: _ => true
  | _ => false

inductive Act (F : Type)
  /-- A new call of `removeFunction`. -/
  | remove (id : ℕ) (f : F) (isSelf : Bool)
  | call (id : ℕ)
  /-- The activity executes `step`. -/
  | step
  | engine (o : Bool)
  /-- Code of the user waits in the thread of the engine, which processes messages or functions. -/
  | processMessages
  | processFunctions
  | post
  | run (f : F)
  /-- The function ends, or unloads itself. -/
  | unload (f : F)
  | surround (hasActivity isActive fatalError : Bool)

def step (s : State F capacity) : Act F → State F capacity
  | .remove id f isSelf =>
    if (s.calls id).isNone && (!isSelf || s.inUser) then
      { s with
        calls := Function.update s.calls id (some ⟨f, isSelf, .testLoaded, false⟩)
        frames := if isSelf then .removeFunction id :: s.frames else s.frames }
    else s
  | .call id =>
    match s.calls id with
    | none => s
    | some c => if s.goesOn id c then callMove s id c else s
  | .step =>
    if s.isActive && s.frames.isEmpty then
      -- `processChildren` calls code of the user
      { s with frames := [.processMessages, .processFunctions, .user] }
    else s
  | .engine o => engineMove s o
  | .processMessages => if s.inUser then { s with frames := .processMessages :: s.frames } else s
  | .processFunctions => if s.inUser then { s with frames := .processFunctions :: s.frames } else s
  | .post => s.process .other
  | .run f => runFunction s f
  | .unload f => s.setLoaded f false
  | .surround a b c => { s with hasActivity := a, isActive := b, fatalError := c }

/-- The state after the steps `acts` of an engine that was just created. -/
abbrev after (acts : List (Act F)) : State F capacity := Library.Run.run step create acts

end OrocosRtt.Engine.Removal
