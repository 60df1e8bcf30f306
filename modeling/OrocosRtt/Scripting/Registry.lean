import OrocosRtt.Engine.Functions
import OrocosRtt.Library.Index

/-! The scripting service: its maps of programs and state machines, and the functions that load
them into the engine and unload them again. -/
namespace OrocosRtt.Scripting
open Engine Library.Queue

/-- A state machine with its children; `sc` stands for the object. -/
inductive StateMachine (S : Type) where
  | node (sc : S) (children : List (StateMachine S))

/-- A state machine as it is registered, with whether `getParent()` is set. -/
structure Entry (S : Type) where
  machine : StateMachine S
  parent : Bool

namespace StateMachine

variable {S : Type}

def sc : StateMachine S → S
  | .node sc _ => sc

def children : StateMachine S → List (StateMachine S)
  | .node _ cs => cs

mutual

/-- The machine and all below it, parents first. -/
def entries (parent : Bool) : StateMachine S → List (Entry S)
  | .node sc cs => ⟨.node sc cs, parent⟩ :: entriesAll cs

def entriesAll : List (StateMachine S) → List (Entry S)
  | [] => []
  | c :: cs => entries true c ++ entriesAll cs

end

mutual

/-- The machine and all below it, children first. -/
def leaving (parent : Bool) : StateMachine S → List (Entry S)
  | .node sc cs => leavingAll cs ++ [⟨.node sc cs, parent⟩]

def leavingAll : List (StateMachine S) → List (Entry S)
  | [] => []
  | c :: cs => leaving true c ++ leavingAll cs

end

mutual

theorem leaving_perm (parent : Bool) : ∀ t : StateMachine S,
    (t.leaving parent).Perm (t.entries parent)
  | .node sc cs => by
    unfold leaving entries
    exact (List.perm_append_singleton _ _).trans ((leavingAll_perm cs).cons _)

theorem leavingAll_perm : ∀ cs : List (StateMachine S), (leavingAll cs).Perm (entriesAll cs)
  | [] => List.Perm.refl _
  | c :: cs => by
    unfold leavingAll entriesAll
    exact (leaving_perm true c).append (leavingAll_perm cs)

end

/-- The first entry is the machine itself, and the others have parents. -/
theorem entries_eq (parent : Bool) (t : StateMachine S) :
    t.entries parent = ⟨t, parent⟩ :: entriesAll t.children := by
  cases t
  rfl

mutual

theorem entries_parent : ∀ (t : StateMachine S), ∀ e ∈ t.entries true, e.parent = true
  | .node sc cs, e, he => by
    unfold entries at he
    rcases List.mem_cons.mp he with rfl | he
    · rfl
    · exact entriesAll_parent cs e he

theorem entriesAll_parent : ∀ (cs : List (StateMachine S)), ∀ e ∈ entriesAll cs, e.parent = true
  | [], e, he => by cases he
  | c :: cs, e, he => by
    unfold entriesAll at he
    rcases List.mem_append.mp he with he | he
    · exact entries_parent c e he
    · exact entriesAll_parent cs e he

end

end StateMachine

variable {P S N : Type} [DecidableEq P] [DecidableEq S] [DecidableEq N] {capacity : ℕ}

/-- The service of a component with programs `P` and state machines `S`. -/
structure ScriptingService (P S N : Type) (capacity : ℕ) where
  programs : N → Option P
  states : N → Option (Entry S)
  engine : ExecutionEngine (P ⊕ S) capacity

/-- The names that programs and state machines have. -/
structure Names (P S N : Type) where
  program : P → N
  machine : S → N

namespace ScriptingService

variable (names : Names P S N)

def create (around : Surroundings) : ScriptingService P S N capacity where
  programs := fun _ => none
  states := fun _ => none
  engine := .create around

/-- What `runFunction` returns. -/
def accepts (e : ExecutionEngine (P ⊕ S) capacity) : Bool :=
  e.around.hasActivity && !e.around.fatalError && !e.queue.isFull

/-- The loop over the children stands behind the `throw` of the check of the machine itself, so
that only the name of the machine is looked up. -/
def recursiveCheckLoadStateMachine (s : ScriptingService P S N capacity) (t : StateMachine S) :
    Bool :=
  (s.states (names.machine t.sc)).isNone

/-- The result of `runFunction` is not looked at. -/
def loadEntry (s : ScriptingService P S N capacity) (e : Entry S) :
    ScriptingService P S N capacity :=
  { s with
    states := Function.update s.states (names.machine e.machine.sc) (some e)
    engine := s.engine.runFunction (.inr e.machine.sc) }

mutual

def recursiveLoadStateMachine (s : ScriptingService P S N capacity) (parent : Bool) :
    StateMachine S → ScriptingService P S N capacity
  | .node sc cs => recursiveLoadAll (s.loadEntry names ⟨.node sc cs, parent⟩) cs

def recursiveLoadAll (s : ScriptingService P S N capacity) :
    List (StateMachine S) → ScriptingService P S N capacity
  | [] => s
  | c :: cs => recursiveLoadAll (recursiveLoadStateMachine s true c) cs

end

def loadStateMachine (s : ScriptingService P S N capacity) (t : StateMachine S) (parent : Bool) :
    ScriptingService P S N capacity × Bool :=
  if parent then (s, false)
  else if s.recursiveCheckLoadStateMachine names t then
    (s.recursiveLoadStateMachine names false t, true)
  else (s, false)

/-- The check goes on with the machine that is registered under the name of a child. -/
def recursiveCheckUnloadStateMachine (s : ScriptingService P S N capacity) :
    ℕ → StateMachine S → Option Bool
  | 0, _ => none
  | fuel + 1, si => check fuel si.children
where
  check (fuel : ℕ) : List (StateMachine S) → Option Bool
    | [] => some true
    | c :: cs =>
      match s.states (names.machine c.sc) with
      | none => some false
      | some e =>
        (s.recursiveCheckUnloadStateMachine fuel e.machine).bind fun b =>
          if b then check fuel cs else some false

/-- `assert( it != states.end() )`, and the erasure. -/
def unloadEntry (s : ScriptingService P S N capacity) (sc : S) :
    Option (ScriptingService P S N capacity) :=
  match s.states (names.machine sc) with
  | none => none
  | some _ => some
    { s with
      states := Function.update s.states (names.machine sc) none
      engine := s.engine.removeFunction (.inr sc) }

mutual

def recursiveUnloadStateMachine (s : ScriptingService P S N capacity) :
    StateMachine S → Option (ScriptingService P S N capacity)
  | .node sc cs => (recursiveUnloadAll s cs).bind fun s => s.unloadEntry names sc

def recursiveUnloadAll (s : ScriptingService P S N capacity) :
    List (StateMachine S) → Option (ScriptingService P S N capacity)
  | [] => some s
  | c :: cs => (recursiveUnloadStateMachine s c).bind fun s => recursiveUnloadAll s cs

end

def unloadStateMachine (s : ScriptingService P S N capacity) (fuel : ℕ) (name : N) :
    Option (ScriptingService P S N capacity × Bool) :=
  match s.states name with
  | none => some (s, false)
  | some e =>
    if e.parent then some (s, false)
    else (s.recursiveCheckUnloadStateMachine names fuel e.machine).bind fun b =>
      if b then (s.recursiveUnloadStateMachine names e.machine).map fun s => (s, true)
      else some (s, false)

def loadProgram (s : ScriptingService P S N capacity) (pi : P) :
    ScriptingService P S N capacity × Bool :=
  if (s.programs (names.program pi)).isSome then (s, false)
  else
    let programs := Function.update s.programs (names.program pi) (some pi)
    let engine := s.engine.runFunction (.inl pi)
    if accepts s.engine then ({ s with programs := programs, engine := engine }, true)
    else
      ({ s with
        programs := Function.update programs (names.program pi) none
        engine := engine }, false)

def unloadProgram (s : ScriptingService P S N capacity) (name : N) :
    ScriptingService P S N capacity × Bool :=
  match s.programs name with
  | none => (s, false)
  | some pi =>
    ({ s with
      programs := Function.update s.programs name none
      engine := s.engine.removeFunction (.inl pi) }, true)

/-- What is done with the service, and a change of what surrounds its engine. -/
inductive Action (P S N : Type) where
  | loadStateMachine (t : StateMachine S) (parent : Bool)
  | unloadStateMachine (name : N)
  | loadProgram (pi : P)
  | unloadProgram (name : N)
  | surround (around : Surroundings)

/-- An operation, with what it returns; an exception counts as false. -/
def perform (s : ScriptingService P S N capacity) (fuel : ℕ) :
    Action P S N → Option (ScriptingService P S N capacity × Bool)
  | .loadStateMachine t parent => some (s.loadStateMachine names t parent)
  | .unloadStateMachine name => s.unloadStateMachine names fuel name
  | .loadProgram pi => some (s.loadProgram names pi)
  | .unloadProgram name => some (s.unloadProgram name)
  | .surround around => some ({ s with engine := { s.engine with around := around } }, true)

end ScriptingService
end OrocosRtt.Scripting
