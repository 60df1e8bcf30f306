import OrocosRtt.LockFree.AtomicMWSRQueue
import OrocosRtt.Library.Run

/-! Event ports: each sample on one of them puts the port in the queue of its component, and the
component calls the callbacks of the ports in the queue before it updates. -/
namespace OrocosRtt.Task

open Library LockFree

/-- A component with ports `P`, whose names are `N`. -/
structure TaskContext (P : Type) where
  portqueue : AtomicMWSRQueue P
  /-- The ports in `user_callbacks`. -/
  userCallbacks : P → Bool
  mports : List P
  /-- The ports that have this component as their interface and `msignal_interface` set. -/
  signalInterface : P → Bool

namespace TaskContext

variable {P N : Type} [DecidableEq P] [DecidableEq N]

def create : TaskContext P where
  portqueue := .create 64
  userCallbacks := fun _ => false
  mports := []
  signalInterface := fun _ => false

/-- The answer of `enqueue` is not looked at. -/
def dataOnPort (t : TaskContext P) (port : P) : Option (TaskContext P) :=
  (Run.finish AtomicMWSRQueue.enqueue 3 (.load port) t.portqueue).map fun r =>
    { t with portqueue := r.1 }

/-- `InputPortInterface::signal`, for each sample that arrives. -/
def signal (t : TaskContext P) (port : P) : Option (TaskContext P) :=
  if t.signalInterface port then t.dataOnPort port else some t

def dataOnPortCallback (t : TaskContext P) (port : P) : TaskContext P :=
  { t with userCallbacks := Function.update t.userCallbacks port true }

def dataOnPortRemoved (t : TaskContext P) (port : P) : TaskContext P :=
  { t with userCallbacks := Function.update t.userCallbacks port false }

/-- `removePort`; a port that was removed keeps its interface. -/
def removePort (name : P → N) (t : TaskContext P) (n : N) : TaskContext P :=
  match t.mports.find? fun p => name p = n with
  | none => t
  | some port => { t.dataOnPortRemoved port with mports := t.mports.erase port }

def addLocalPort (name : P → N) (t : TaskContext P) (port : P) : TaskContext P :=
  let t := t.removePort name (name port)
  { t with mports := t.mports ++ [port] }

def addEventPort (name : P → N) (t : TaskContext P) (port : P) (callback : Bool) : TaskContext P :=
  let t := t.addLocalPort name port
  let t := if callback then t.dataOnPortCallback port else t
  { t with signalInterface := Function.update t.signalInterface port true }

/-- `prepareUpdateHook`, with the callbacks it makes. -/
def prepareUpdateHook (t : TaskContext P) : ℕ → Option (TaskContext P × List P)
  | 0 => none
  | fuel + 1 =>
    match Run.finish AtomicMWSRQueue.dequeue 5 .load t.portqueue with
    | none => none
    | some (q, none) => some ({ t with portqueue := q }, [])
    | some (q, some port) =>
      (prepareUpdateHook { t with portqueue := q } fuel).map fun r =>
        (r.1, if t.userCallbacks port then port :: r.2 else r.2)

/-- The writes, one after the other. -/
def writes (t : TaskContext P) : List P → Option (TaskContext P)
  | [] => some t
  | port :: ports => (t.signal port).bind fun t => t.writes ports

inductive Action (P N : Type) where
  | addEventPort (port : P) (callback : Bool)
  | removePort (name : N)
  | write (port : P)
  | prepareUpdateHook

/-- The queue has 65 slots, and one of them stays empty. -/
def fuel : ℕ := 65

def step (name : P → N) (t : TaskContext P) : Action P N → Option (TaskContext P)
  | .addEventPort port callback => some (t.addEventPort name port callback)
  | .removePort n => some (t.removePort name n)
  | .write port => t.signal port
  | .prepareUpdateHook => (t.prepareUpdateHook fuel).map Prod.fst

def run (name : P → N) (t : TaskContext P) : List (Action P N) → Option (TaskContext P)
  | [] => some t
  | a :: as => (t.step name a).bind fun t => t.run name as

/-! ### What is in the queue -/

/-- The queue holds these ports, the oldest first. -/
structure Pending (q : AtomicMWSRQueue P) (ports : List P) : Prop where
  stored : q.Stored (ports.map fun p => (⟨p, .written⟩ : AtomicMWSRQueue.Cell P Unit))
  size : q.size = 65

omit [DecidableEq P] in
theorem create_pending : Pending (AtomicMWSRQueue.create 64 : AtomicMWSRQueue P) [] :=
  ⟨AtomicMWSRQueue.create_stored (by decide), rfl⟩

variable {t : TaskContext P} {ports : List P}

omit [DecidableEq P] in
theorem Pending.length (h : Pending t.portqueue ports) : ports.length ≤ 64 := by
  have hl := h.stored.length
  rw [List.length_map, h.size] at hl
  omega

omit [DecidableEq P] in
/-- A port that finds 64 others in the queue is forgotten. -/
theorem dataOnPort_spec (h : Pending t.portqueue ports) (port : P) : ∃ q,
    t.dataOnPort port = some { t with portqueue := q } ∧
      Pending q ((ports ++ [port]).take 64) := by
  have hl := h.length
  by_cases hroom : ports.length < 64
  · obtain ⟨q, hq, hs, hsize⟩ := AtomicMWSRQueue.enqueue_alone h.stored
      (by rw [List.length_map, h.size]; omega) port
    refine ⟨q, by rw [dataOnPort, hq]; rfl, ?_, hsize.trans h.size⟩
    have htake : (ports ++ [port]).take 64 = ports ++ [port] := by
      apply List.take_of_length_le
      rw [List.length_append, List.length_singleton]
      omega
    rw [htake, List.map_append]
    exact hs
  · have hfull : Run.finish AtomicMWSRQueue.enqueue 1 (.load port) t.portqueue =
        some (t.portqueue, false) :=
      AtomicMWSRQueue.enqueue_alone_full h.stored (by rw [List.length_map, h.size]; omega) port
    refine ⟨t.portqueue, by rw [dataOnPort, Run.finish_mono (k := 2) hfull]; rfl, ?_⟩
    rw [List.take_append_of_le_length (by omega), List.take_of_length_le hl]
    exact h

omit [DecidableEq P] in
/-- What does not fit at first does not fit later either. -/
theorem take_append_take (n : ℕ) (l m : List P) : (l.take n ++ m).take n = (l ++ m).take n := by
  rw [List.take_append, List.take_append, List.take_take, min_self, List.length_take]
  congr 2
  omega

omit [DecidableEq P] in
theorem writes_spec (ws : List P) : ∀ {t : TaskContext P} {ports : List P},
    Pending t.portqueue ports → ∃ q, t.writes ws = some { t with portqueue := q } ∧
      Pending q ((ports ++ ws.filter t.signalInterface).take 64) := by
  induction ws with
  | nil =>
    intro t ports h
    refine ⟨t.portqueue, rfl, ?_⟩
    rw [List.filter_nil, List.append_nil, List.take_of_length_le h.length]
    exact h
  | cons w ws ih =>
    intro t ports h
    cases hsig : t.signalInterface w with
    | false =>
      obtain ⟨q, hq, hp⟩ := ih h
      refine ⟨q, by simpa [writes, signal, hsig] using hq, ?_⟩
      rwa [List.filter_cons_of_neg (by simp [hsig])]
    | true =>
      obtain ⟨q₁, hq₁, hp₁⟩ := dataOnPort_spec h w
      obtain ⟨q, hq, hp⟩ := @ih { t with portqueue := q₁ } _ hp₁
      refine ⟨q, by simpa [writes, signal, hsig, hq₁] using hq, ?_⟩
      rw [List.filter_cons_of_pos (by simp [hsig])]
      rw [take_append_take, List.append_assoc, List.singleton_append] at hp
      exact hp

omit [DecidableEq P] in
/-- The hook empties the queue, and calls the callback of each port it takes out. -/
theorem prepareUpdateHook_spec : ∀ (ports : List P) {t : TaskContext P} {fuel : ℕ},
    Pending t.portqueue ports → ports.length < fuel → ∃ q,
      t.prepareUpdateHook fuel = some ({ t with portqueue := q }, ports.filter t.userCallbacks) ∧
        Pending q [] := by
  intro ports
  induction ports with
  | nil =>
    intro t fuel h hf
    obtain ⟨fuel, rfl⟩ := Nat.exists_eq_succ_of_ne_zero (Nat.ne_of_gt hf)
    have hempty := Run.finish_mono (k := 3) (AtomicMWSRQueue.dequeue_alone_empty h.stored)
    refine ⟨t.portqueue, ?_, h⟩
    rw [prepareUpdateHook, hempty]
    rfl
  | cons port ports ih =>
    intro t fuel h hf
    obtain ⟨fuel, rfl⟩ := Nat.exists_eq_succ_of_ne_zero (Nat.ne_of_gt (Nat.zero_lt_of_lt hf))
    obtain ⟨q₁, hq₁, hs₁, hsize⟩ := AtomicMWSRQueue.dequeue_alone h.stored
    obtain ⟨q, hq, hp⟩ := @ih { t with portqueue := q₁ } fuel ⟨hs₁, hsize.trans h.size⟩
      (Nat.lt_of_succ_lt_succ hf)
    refine ⟨q, ?_, hp⟩
    rw [prepareUpdateHook, hq₁]
    dsimp only
    rw [hq, List.filter_cons]
    rfl

theorem removePort_portqueue (name : P → N) (t : TaskContext P) (n : N) :
    (t.removePort name n).portqueue = t.portqueue := by
  unfold removePort
  split
  · rfl
  · rfl

theorem addEventPort_portqueue (name : P → N) (t : TaskContext P) (port : P) (callback : Bool) :
    (t.addEventPort name port callback).portqueue = t.portqueue := by
  have hr := t.removePort_portqueue name (name port)
  cases callback with
  | false => exact hr
  | true => exact hr

/-- Nothing a component does gets stuck. -/
theorem step_spec (name : P → N) (h : Pending t.portqueue ports) (a : Action P N) :
    ∃ t' ports', t.step name a = some t' ∧ Pending t'.portqueue ports' := by
  cases a with
  | addEventPort port callback =>
    exact ⟨_, ports, rfl, by rwa [addEventPort_portqueue]⟩
  | removePort n => exact ⟨_, ports, rfl, by rwa [removePort_portqueue]⟩
  | write port =>
    show ∃ t' ports', t.signal port = some t' ∧ _
    unfold signal
    split
    · obtain ⟨q, hq, hp⟩ := dataOnPort_spec h port
      exact ⟨_, _, hq, hp⟩
    · exact ⟨t, ports, rfl, h⟩
  | prepareUpdateHook =>
    have hl := h.length
    obtain ⟨q, hq, hp⟩ := @prepareUpdateHook_spec _ ports t fuel h (by unfold fuel; omega)
    exact ⟨{ t with portqueue := q }, [], by rw [step, hq]; rfl, hp⟩

theorem run_spec (name : P → N) (as : List (Action P N)) : ∀ {t : TaskContext P} {ports : List P},
    Pending t.portqueue ports →
      ∃ t' ports', t.run name as = some t' ∧ Pending t'.portqueue ports' := by
  induction as with
  | nil => intro t ports h; exact ⟨t, ports, rfl, h⟩
  | cons a as ih =>
    intro t ports h
    obtain ⟨t₁, ports₁, h₁, hp₁⟩ := step_spec name h a
    obtain ⟨t', ports', h', hp'⟩ := ih hp₁
    exact ⟨t', ports', by rw [run, h₁]; exact h', hp'⟩

/-- The component has just executed the hook, at the end of a run. -/
def Updated (name : P → N) (as : List (Action P N)) (t : TaskContext P) : Prop :=
  ∃ t₀ calls, create.run name as = some t₀ ∧ t₀.prepareUpdateHook fuel = some (t, calls)

theorem updated_pending {name : P → N} {as : List (Action P N)} (h : t.Updated name as) :
    Pending t.portqueue [] := by
  obtain ⟨t₀, calls, hrun, hhook⟩ := h
  obtain ⟨t₁, ports, h₁, hp₁⟩ := run_spec name as (t := create) create_pending
  obtain rfl : t₁ = t₀ := Option.some.inj (h₁.symm.trans hrun)
  have hl := hp₁.length
  obtain ⟨q, hq, hp⟩ := @prepareUpdateHook_spec _ ports t₁ fuel hp₁ (by unfold fuel; omega)
  rw [hhook] at hq
  obtain ⟨rfl, -⟩ := Prod.mk.inj (Option.some.inj hq)
  exact hp

/-- Each callback of a port that received data is called, and no other one. -/
def CallsReceivers (t : TaskContext P) (ws calls : List P) : Prop :=
  ∀ port, port ∈ calls ↔ port ∈ ws ∧ t.signalInterface port ∧ t.userCallbacks port

/-- The next execution of the hook takes out of the queue what was put in since the last one. -/
theorem calls_spec {name : P → N} {as : List (Action P N)} (h : t.Updated name as) (ws : List P) :
    ∃ t₁ t₂, t.writes ws = some t₁ ∧ t₁.prepareUpdateHook fuel =
      some (t₂, ((ws.filter t.signalInterface).take 64).filter t.userCallbacks) := by
  obtain ⟨q₁, hq₁, hp₁⟩ := writes_spec ws (updated_pending h)
  have hl : ((ws.filter t.signalInterface).take 64).length < fuel := by
    rw [List.length_take]
    unfold fuel
    omega
  obtain ⟨q₂, hq₂, -⟩ := @prepareUpdateHook_spec _ _ { t with portqueue := q₁ } fuel hp₁ hl
  exact ⟨_, _, hq₁, hq₂⟩

theorem exists_updated (name : P → N) (as : List (Action P N)) : ∃ t : TaskContext P,
    t.Updated name as := by
  obtain ⟨t, ports, hrun, hp⟩ := run_spec name as (t := create) create_pending
  have hl : ports.length < fuel := Nat.lt_succ_of_le hp.length
  obtain ⟨q, hq, -⟩ := prepareUpdateHook_spec ports hp hl
  exact ⟨{ t with portqueue := q }, t, _, hrun, hq⟩

/-- The next execution of the hook calls the callbacks of exactly the ports that received data
when each of them is among the first 64 samples of event ports since the last one. -/
theorem receivers_called_iff (name : P → N) (as : List (Action P N)) :
    ∃ t : TaskContext P, t.Updated name as ∧ ∀ ws : List P, ∃ t₁ t₂ calls,
      t.writes ws = some t₁ ∧ t₁.prepareUpdateHook fuel = some (t₂, calls) ∧
        (t.CallsReceivers ws calls ↔ ∀ port ∈ ws, t.signalInterface port → t.userCallbacks port →
          port ∈ (ws.filter t.signalInterface).take 64) := by
  obtain ⟨t, ht⟩ := exists_updated name as
  refine ⟨t, ht, fun ws => ?_⟩
  obtain ⟨t₁, t₂, h₁, h₂⟩ := calls_spec ht ws
  refine ⟨t₁, t₂, _, h₁, h₂, ?_⟩
  simp only [CallsReceivers, List.mem_filter]
  constructor
  · intro h port hw hs hc
    exact ((h port).mpr ⟨hw, hs, hc⟩).1
  · intro h port
    constructor
    · rintro ⟨htake, hc⟩
      obtain ⟨hw, hs⟩ := List.mem_filter.mp (List.mem_of_mem_take htake)
      exact ⟨hw, hs, hc⟩
    · rintro ⟨hw, hs, hc⟩
      exact ⟨h port hw hs hc, hc⟩

def twoPorts : TaskContext Bool :=
  (create.addEventPort id false true).addEventPort id true true

/-- With 64 samples of one port in the queue, the sample of another one is forgotten. -/
theorem receiver_forgotten :
    let both : List (Action Bool Bool) := [.addEventPort false true, .addEventPort true true]
    ∃ t : TaskContext Bool, t.Updated id both ∧ ∃ ws t₁ t₂ calls, t.writes ws = some t₁ ∧
      t₁.prepareUpdateHook fuel = some (t₂, calls) ∧ ¬ t.CallsReceivers ws calls := by
  intro both
  obtain ⟨q, hq, -⟩ := @prepareUpdateHook_spec _ [] twoPorts fuel create_pending (by decide)
  have ht : TaskContext.Updated id both { twoPorts with portqueue := q } :=
    ⟨twoPorts, _, rfl, hq⟩
  obtain ⟨t₁, t₂, h₁, h₂⟩ := calls_spec ht (List.replicate 64 false ++ [true])
  refine ⟨_, ht, _, t₁, t₂, _, h₁, h₂, fun hc => ?_⟩
  have hsig : twoPorts.signalInterface true = true ∧ twoPorts.userCallbacks true = true := by
    decide
  have hcalled := (hc true).mpr ⟨by simp, hsig⟩
  have hnot : true ∉ ((List.replicate 64 false ++ [true]).filter
      twoPorts.signalInterface).take 64 := by decide
  exact hnot (List.mem_filter.mp hcalled).1

end TaskContext
end OrocosRtt.Task
