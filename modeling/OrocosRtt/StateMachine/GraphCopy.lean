import OrocosRtt.DataSource.Copied
import OrocosRtt.StateMachine.TransitionOrder
import Mathlib.Data.List.Forall2
import Mathlib.Data.Option.Basic
import Mathlib.Logic.Function.Basic

/-! The graph of a state machine as it is built, and the instance that `copy` makes of it. -/
namespace OrocosRtt.StateMachine.GraphCopy

open DataSource.Copy

/-- A `StateInterface*`. The null pointer is the key of the global transitions. -/
abbrev Pointer := Option ℕ

/-- A map from states to lists, or a multimap. The keys are in the order of an iteration. -/
structure PointerMap (α : Type) where
  keys : List Pointer
  value : Pointer → List α
  nodup : keys.Nodup
  outside : ∀ k ∉ keys, value k = []

namespace PointerMap

variable {α : Type}

def empty : PointerMap α where
  keys := []
  value := fun _ => []
  nodup := List.nodup_nil
  outside := fun _ _ => rfl

/-- `operator[]` enters the key if it is not there. -/
def add (k : Pointer) (m : PointerMap α) : PointerMap α where
  keys := if k ∈ m.keys then m.keys else m.keys ++ [k]
  value := m.value
  nodup := by
    split
    · exact m.nodup
    · next h => exact m.nodup.append (List.nodup_singleton k) (by simpa using h)
  outside := by
    intro j hj
    apply m.outside
    split at hj
    · exact hj
    · exact fun h => hj (List.mem_append_left _ h)

@[simp] theorem mem_add {j k : Pointer} {m : PointerMap α} :
    j ∈ (m.add k).keys ↔ j = k ∨ j ∈ m.keys := by
  simp only [add]
  split
  · next h => exact ⟨Or.inr, fun hj => hj.elim (fun he => he ▸ h) id⟩
  · simp [or_comm]

@[simp] theorem value_add {k : Pointer} {m : PointerMap α} : (m.add k).value = m.value := rfl

def modify (k : Pointer) (f : List α → List α) (m : PointerMap α) : PointerMap α where
  keys := (m.add k).keys
  value := Function.update m.value k (f (m.value k))
  nodup := (m.add k).nodup
  outside := by
    intro j hj
    rw [mem_add, not_or] at hj
    rw [Function.update_of_ne hj.1, m.outside j hj.2]

@[simp] theorem mem_modify {j k : Pointer} {f : List α → List α} {m : PointerMap α} :
    j ∈ (m.modify k f).keys ↔ j = k ∨ j ∈ m.keys := mem_add

@[simp] theorem value_modify {k : Pointer} {f : List α → List α} {m : PointerMap α} :
    (m.modify k f).value = Function.update m.value k (f (m.value k)) := rfl

theorem mem_keys_of_mem {k : Pointer} {a : α} {m : PointerMap α} (h : a ∈ m.value k) :
    k ∈ m.keys := by
  by_contra hk
  simp [m.outside k hk] at h

end PointerMap

/-- A state object, with its programs. -/
structure StateDescription (C : Type) where
  name : String
  entrypoint : ℕ
  inited : Bool
  mentry : Option C
  mexit : Option C
  mhandle : Option C
  mrun : Option C

/-- An entry of an `EventList`. -/
structure Event (C D : Type) where
  sp : ℕ
  ename : String
  args : List D
  target : Pointer
  guard : C
  transprog : Option C
  elseto : Pointer
  elseprog : Option C

/-- A state machine with programs and conditions of type `C` and event arguments of type `D`. -/
structure Graph (C D : Type) where
  desc : ℕ → StateDescription C
  stateMap : PointerMap (Transition Pointer C C)
  precondMap : PointerMap (C × ℕ)
  eventMap : PointerMap (Event C D)
  initstate : Pointer
  finistate : Pointer
  initc : Option C

namespace Graph

variable {C D : Type}

/-- The constructor: the null pointer allows global transitions. -/
def create (desc : ℕ → StateDescription C) : Graph C D where
  desc := desc
  stateMap := PointerMap.empty.add none
  precondMap := .empty
  eventMap := .empty
  initstate := none
  finistate := none
  initc := none

def addState (s : Pointer) (g : Graph C D) : Graph C D :=
  { g with stateMap := g.stateMap.add s }

def transitionSet (fromState : Pointer) (t : Transition Pointer C C) (g : Graph C D) : Graph C D :=
  { g with
    stateMap := (g.stateMap.modify fromState (StateMachine.transitionSet t)).add t.target }

def preconditionSet (state : Pointer) (p : C × ℕ) (g : Graph C D) : Graph C D :=
  { g with
    precondMap := g.precondMap.modify state (· ++ [p])
    stateMap := g.stateMap.add state }

/-- Without a target, the event leads back to the state that it leaves. -/
def retarget (fromState : Pointer) (e : Event C D) : Event C D :=
  { e with target := if e.target = none then fromState else e.target }

/-- `produces` tells whether the service can set up a handler for the event. The state of `elseto` is
not entered in the `stateMap`. -/
def createEventTransition (produces : ℕ → String → List D → Bool) (fromState : Pointer)
    (e : Event C D) (g : Graph C D) : Graph C D :=
  if produces e.sp e.ename e.args then
    { g with
      eventMap := g.eventMap.modify fromState (· ++ [retarget fromState e])
      stateMap := (g.stateMap.add fromState).add (retarget fromState e).target }
  else g

def setInitialState (s : Pointer) (g : Graph C D) : Graph C D :=
  { g with initstate := s, stateMap := g.stateMap.add s }

def setFinalState (s : Pointer) (g : Graph C D) : Graph C D :=
  { g with finistate := s, stateMap := g.stateMap.add s }

def setInitCommand (c : Option C) (g : Graph C D) : Graph C D :=
  { g with initc := c }

end Graph

/-- What is done to a machine while it is built. -/
inductive Operation (C D : Type) where
  | addState (s : Pointer)
  | transitionSet (fromState : Pointer) (t : Transition Pointer C C)
  | preconditionSet (state : Pointer) (p : C × ℕ)
  | createEventTransition (fromState : Pointer) (e : Event C D)
  | setInitialState (s : Pointer)
  | setFinalState (s : Pointer)
  | setInitCommand (c : Option C)

namespace Graph

variable {C D : Type} (produces : ℕ → String → List D → Bool)

def step (g : Graph C D) (op : Operation C D) : Graph C D :=
  match op with
  | .addState s => g.addState s
  | .transitionSet k t => g.transitionSet k t
  | .preconditionSet k p => g.preconditionSet k p
  | .createEventTransition k e => g.createEventTransition produces k e
  | .setInitialState s => g.setInitialState s
  | .setFinalState s => g.setFinalState s
  | .setInitCommand c => g.setInitCommand c

/-- Every target of a transition or event is in the `stateMap`, and transitions are sorted. Nothing
is said of `elseto`. -/
structure WellFormed (g : Graph C D) : Prop where
  null : none ∈ g.stateMap.keys
  sorted : ∀ k, ByPriority (g.stateMap.value k)
  targets : ∀ k, ∀ t ∈ g.stateMap.value k, t.target ∈ g.stateMap.keys
  preconditions : ∀ k ∈ g.precondMap.keys, k ∈ g.stateMap.keys
  events : ∀ k ∈ g.eventMap.keys, k ∈ g.stateMap.keys
  eventTargets : ∀ k, ∀ e ∈ g.eventMap.value k, e.target ∈ g.stateMap.keys
  nullTargets : ∀ k, ∀ e ∈ g.eventMap.value k, e.target = none → k = none
  produced : ∀ k, ∀ e ∈ g.eventMap.value k, produces e.sp e.ename e.args
  initial : g.initstate ∈ g.stateMap.keys
  final : g.finistate ∈ g.stateMap.keys

theorem wellFormed_create (desc : ℕ → StateDescription C) :
    (create desc : Graph C D).WellFormed produces where
  null := by simp [create]
  sorted := fun k => by simp [create, PointerMap.empty, ByPriority]
  targets := fun k t ht => by simp [create, PointerMap.empty] at ht
  preconditions := fun k hk => by simp [create, PointerMap.empty] at hk
  events := fun k hk => by simp [create, PointerMap.empty] at hk
  eventTargets := fun k e he => by simp [create, PointerMap.empty] at he
  nullTargets := fun k e he => by simp [create, PointerMap.empty] at he
  produced := fun k e he => by simp [create, PointerMap.empty] at he
  initial := by simp [create]
  final := by simp [create]

variable {produces}

/-- More states in the map do no harm. -/
theorem WellFormed.add {g : Graph C D} (h : g.WellFormed produces) (s : Pointer) :
    ({ g with stateMap := g.stateMap.add s } : Graph C D).WellFormed produces where
  null := by simp [h.null]
  sorted := h.sorted
  targets := fun k t ht => by simp [h.targets k t ht]
  preconditions := fun k hk => by simp [h.preconditions k hk]
  events := fun k hk => by simp [h.events k hk]
  eventTargets := fun k e he => by simp [h.eventTargets k e he]
  nullTargets := h.nullTargets
  produced := h.produced
  initial := by simp [h.initial]
  final := by simp [h.final]

theorem mem_update {α : Type} {v : Pointer → List α} {k j : Pointer} {l : List α} {a : α}
    (h : a ∈ Function.update v k l j) : (j = k ∧ a ∈ l) ∨ a ∈ v j := by
  by_cases hj : j = k
  · subst hj
    simp_all
  · rw [Function.update_of_ne hj] at h
    exact Or.inr h

theorem mem_added {α : Type} {m : PointerMap α} {k j : Pointer} {a b : α}
    (h : a ∈ (m.modify k (· ++ [b])).value j) : (j = k ∧ a = b) ∨ a ∈ m.value j := by
  rcases mem_update h with ⟨rfl, h⟩ | h
  · rcases List.mem_append.mp h with h | h
    · exact Or.inr h
    · exact Or.inl ⟨rfl, List.mem_singleton.mp h⟩
  · exact Or.inr h

theorem WellFormed.transitionSet {g : Graph C D} (h : g.WellFormed produces) (k : Pointer)
    (t : Transition Pointer C C) : (g.transitionSet k t).WellFormed produces where
  null := by simp [Graph.transitionSet, h.null]
  sorted := by
    classical
    intro j
    by_cases hj : j = k
    · subst hj
      simpa [Graph.transitionSet] using transitionSet_byPriority t (h.sorted j)
    · simpa [Graph.transitionSet, Function.update_of_ne hj] using h.sorted j
  targets := by
    intro j u hu
    simp only [Graph.transitionSet, PointerMap.value_add, PointerMap.value_modify] at hu
    simp only [Graph.transitionSet, PointerMap.mem_add, PointerMap.mem_modify]
    rcases mem_update hu with ⟨rfl, hu⟩ | hu
    · rcases (List.mem_orderedInsert _).mp hu with rfl | hu
      · exact Or.inl rfl
      · exact Or.inr (Or.inr (h.targets _ u hu))
    · exact Or.inr (Or.inr (h.targets j u hu))
  preconditions := fun j hj => by simp [Graph.transitionSet, h.preconditions j hj]
  events := fun j hj => by simp [Graph.transitionSet, h.events j hj]
  eventTargets := fun j e he => by simp [Graph.transitionSet, h.eventTargets j e he]
  nullTargets := h.nullTargets
  produced := h.produced
  initial := by simp [Graph.transitionSet, h.initial]
  final := by simp [Graph.transitionSet, h.final]

theorem WellFormed.preconditionSet {g : Graph C D} (h : g.WellFormed produces) (k : Pointer)
    (p : C × ℕ) : (g.preconditionSet k p).WellFormed produces :=
  { h.add k with
    preconditions := fun j hj => by
      simp only [Graph.preconditionSet, PointerMap.mem_modify] at hj
      simpa [Graph.preconditionSet] using hj.imp_right (h.preconditions j) }

theorem WellFormed.createEventTransition {g : Graph C D} (h : g.WellFormed produces) (k : Pointer)
    (e : Event C D) : (g.createEventTransition produces k e).WellFormed produces := by
  unfold Graph.createEventTransition
  split
  · next hp =>
    exact
      { (h.add k).add (retarget k e).target with
        events := fun j hj => by
          simp only [PointerMap.mem_modify] at hj
          simp only [PointerMap.mem_add]
          exact Or.inr (hj.imp_right (h.events j))
        eventTargets := fun j a ha => by
          rcases mem_added ha with ⟨rfl, rfl⟩ | ha
          · simp
          · simp [h.eventTargets j a ha]
        nullTargets := fun j a ha hn => by
          rcases mem_added ha with ⟨rfl, rfl⟩ | ha
          · simp only [retarget] at hn
            split at hn
            · exact hn
            · contradiction
          · exact h.nullTargets j a ha hn
        produced := fun j a ha => by
          rcases mem_added ha with ⟨rfl, rfl⟩ | ha
          · exact hp
          · exact h.produced j a ha }
  · exact h

theorem WellFormed.step {g : Graph C D} (h : g.WellFormed produces) (op : Operation C D) :
    (g.step produces op).WellFormed produces := by
  cases op with
  | addState s => exact h.add s
  | transitionSet k t => exact h.transitionSet k t
  | preconditionSet k p => exact h.preconditionSet k p
  | createEventTransition k e => exact h.createEventTransition k e
  | setInitialState s => exact { h.add s with initial := by simp [Graph.step, Graph.setInitialState] }
  | setFinalState s => exact { h.add s with final := by simp [Graph.step, Graph.setFinalState] }
  | setInitCommand c => exact { h with }

/-- Whatever is done while a machine is built, its graph is well-formed. -/
theorem wellFormed_foldl (ops : List (Operation C D)) {g : Graph C D}
    (h : g.WellFormed produces) : (ops.foldl (step produces) g).WellFormed produces := by
  induction ops generalizing g with
  | nil => exact h
  | cons op ops ih => exact ih (h.step op)

end Graph

end OrocosRtt.StateMachine.GraphCopy
