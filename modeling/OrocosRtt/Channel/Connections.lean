import OrocosRtt.Library.Run
import Mathlib.Data.List.Nodup

/-! The connection managers of local ports. A removal travels along the chain of channel elements, and
its last element calls the manager at the other side, which looks for a connection by its ID. -/
namespace OrocosRtt.Channel

inductive Place where
  | inputEndpoint
  | storage
  | outputEndpoint
  deriving DecidableEq

/-- An end point informs its port when the other side has started the removal. -/
def Place.leaves (forward : Bool) : Place → Bool
  | .inputEndpoint => !forward
  | .storage => false
  | .outputEndpoint => forward

/-- A channel element, by the call to `createConnection` that built it and its place in the chain. -/
structure Element where
  channel : ℕ
  place : Place
  deriving DecidableEq

/-- A local `ConnID` is the other port; the channel is the end point at this one. -/
structure ChannelDescriptor (O I : Type) where
  connID : O ⊕ I
  channel : Element
  deriving DecidableEq

structure ConnectionManager (O I : Type) where
  connections : List (ChannelDescriptor O I)
  curChannel : Option (ChannelDescriptor O I)

variable {O I : Type}

namespace ConnectionManager

def empty : ConnectionManager O I := ⟨[], none⟩

def addConnection (connID : O ⊕ I) (channel : Element) (m : ConnectionManager O I) :
    ConnectionManager O I where
  curChannel := if m.connections = [] then some ⟨connID, channel⟩ else m.curChannel
  connections := m.connections ++ [⟨connID, channel⟩]

def updateCurrentChannel (resetCurrent : Bool) (m : ConnectionManager O I) :
    ConnectionManager O I :=
  { m with curChannel :=
      if m.connections = [] then none
      else if resetCurrent then m.connections.head? else m.curChannel }

variable [DecidableEq O] [DecidableEq I]

def findMatchingPort (connID : O ⊕ I) (descriptor : ChannelDescriptor O I) : Bool :=
  descriptor.connID = connID

/-- The part of `removeConnection` that is done with the lock. -/
def erase (connID : O ⊕ I) (descriptor : ChannelDescriptor O I) (m : ConnectionManager O I) :
    ConnectionManager O I :=
  updateCurrentChannel (m.curChannel.map ChannelDescriptor.channel = some descriptor.channel)
    { m with connections := m.connections.eraseP (findMatchingPort connID) }

end ConnectionManager

/-- The ports `O ⊕ I` with their connections, and the channel elements. -/
structure Network (O I : Type) where
  input : Element → Option Element
  output : Element → Option Element
  /-- The port of an end point. -/
  port : Element → Option (O ⊕ I)
  cid : Element → Option (O ⊕ I)
  manager : O ⊕ I → ConnectionManager O I
  /-- How many channels were built. -/
  created : ℕ

namespace Network

variable [DecidableEq O] [DecidableEq I]

def create : Network O I where
  input := fun _ => none
  output := fun _ => none
  port := fun _ => none
  cid := fun _ => none
  manager := fun _ => .empty
  created := 0

def setManager (port : O ⊕ I) (m : ConnectionManager O I) (s : Network O I) : Network O I :=
  { s with manager := Function.update s.manager port m }

@[simp] theorem setManager_self (port : O ⊕ I) (s : Network O I) :
    s.setManager port (s.manager port) = s := by
  rw [setManager, Function.update_eq_self]

def setOutput (e output : Element) (s : Network O I) : Network O I :=
  { s with
    output := Function.update s.output e (some output)
    input := Function.update s.input output (some e) }

/-- The end of `ChannelElementBase::disconnect`. -/
def unlink (e : Element) (s : Network O I) : Network O I :=
  { s with input := Function.update s.input e none, output := Function.update s.output e none }

/-- The direction from outputs to inputs. -/
def isForward (port : O ⊕ I) : Bool := port.isLeft

def removeConnection (disconnect : Bool → Element → Network O I → Option (Network O I))
    (port connID : O ⊕ I) (s : Network O I) : Option (Network O I) :=
  let m := s.manager port
  match m.connections.find? (ConnectionManager.findMatchingPort connID) with
  | none => some s
  | some descriptor =>
    disconnect (isForward port) descriptor.channel
      (s.setManager port (m.erase connID descriptor))

def leavePort (disconnect : Bool → Element → Network O I → Option (Network O I)) (forward : Bool)
    (e : Element) (s : Network O I) : Option (Network O I) :=
  match s.port e, s.cid e with
  | some port, some cid =>
    if e.place.leaves forward then
      removeConnection disconnect port cid { s with port := Function.update s.port e none }
    else some s
  | _, _ => some s

/-- The element that `disconnect` goes to. -/
def next (forward : Bool) (e : Element) (s : Network O I) : Option Element :=
  if forward then s.output e else s.input e

/-- `disconnect` of a channel element, for as long as the fuel lasts. -/
def disconnect : ℕ → Bool → Element → Network O I → Option (Network O I)
  | 0, _, _, _ => none
  | n + 1, forward, e, s => do
    let s ← match s.next forward e with
      | some next => disconnect n forward next s
      | none => some s
    leavePort (disconnect n) forward e (s.unlink e)

/-- Enough for two chains of three elements, and the call that comes back. -/
def fuel : ℕ := 7

/-- `disconnect(port)` of a port. -/
def disconnectPort (port other : O ⊕ I) (s : Network O I) : Option (Network O I) :=
  removeConnection (disconnect fuel) port other s

/-- `disconnect()` of a port. -/
def disconnectAll (port : O ⊕ I) (s : Network O I) : Option (Network O I) :=
  (s.manager port).connections.foldlM
    (fun s descriptor => disconnect fuel (isForward port) descriptor.channel s)
    (s.setManager port .empty)

/-- An output end point registers itself at its port when it is ready. -/
def register (e : Element) (s : Network O I) : Network O I :=
  match s.port e, s.cid e with
  | some port, some cid => s.setManager port ((s.manager port).addConnection cid e)
  | _, _ => s

def inputReady : ℕ → Element → Network O I → Option (Network O I × Bool)
  | 0, _, _ => none
  | n + 1, e, s =>
    let forwarded (s : Network O I) :=
      match s.input e with
      | some previous => inputReady n previous s
      | none => some (s, false)
    match e.place with
    | .inputEndpoint => some (s, true)
    | .storage => forwarded s
    | .outputEndpoint => forwarded (s.register e)

def channelReady (channel : Element) (s : Network O I) : Option (Network O I × Bool) := do
  let (s, ready) ← inputReady fuel channel s
  if ready then return (s, true)
  let s ← disconnect fuel false channel s
  let s ← disconnect fuel true channel s
  return (s, false)

def getOutputEndPoint : ℕ → Element → Network O I → Option Element
  | 0, _, _ => none
  | n + 1, e, s =>
    match s.output e with
    | some next => getOutputEndPoint n next s
    | none => some e

/-- The chain of `createConnection`, built from the input port to the output port. -/
def buildChannel (o : O) (i : I) (s : Network O I) : Network O I :=
  let e (place : Place) : Element := ⟨s.created, place⟩
  let s := { s with
    created := s.created + 1
    port := Function.update (Function.update s.port (e .outputEndpoint) (some (.inr i)))
      (e .inputEndpoint) (some (.inl o))
    cid := Function.update (Function.update s.cid (e .outputEndpoint) (some (.inl o)))
      (e .inputEndpoint) (some (.inr i)) }
  (s.setOutput (e .storage) (e .outputEndpoint)).setOutput (e .inputEndpoint) (e .storage)

/-- `added` is what `connectionAdded` of the output port returns. -/
def createAndCheckConnection (o : O) (i : I) (channelInput : Element) (added : Bool)
    (s : Network O I) : Option (Network O I × Bool) :=
  if added then do
    let s := s.setManager (.inl o) ((s.manager (.inl o)).addConnection (.inr i) channelInput)
    let endpoint ← getOutputEndPoint fuel channelInput s
    let (s, ready) ← channelReady endpoint s
    if ready then return (s, true)
    let s ← disconnectPort (.inl o) (.inr i) s
    return (s, false)
  else do
    let s ← disconnect fuel true channelInput s
    return (s, false)

/-- The ports are `compatible` when their data types are the same. -/
def createConnection (o : O) (i : I) (compatible added : Bool) (s : Network O I) :
    Option (Network O I × Bool) :=
  if compatible then
    createAndCheckConnection o i ⟨s.created, .inputEndpoint⟩ added (s.buildChannel o i)
  else some (s, false)

/-- Calls to ports; the port of a removal can be on either side. -/
inductive Call (O I : Type) where
  | createConnection (o : O) (i : I) (compatible added : Bool)
  | disconnectPort (port other : O ⊕ I)
  | disconnectAll (port : O ⊕ I)

def perform (c : Call O I) (s : Network O I) : Option (Network O I) :=
  match c with
  | .createConnection o i compatible added =>
    (s.createConnection o i compatible added).map Prod.fst
  | .disconnectPort port other => s.disconnectPort port other
  | .disconnectAll port => s.disconnectAll port

end Network

/-! ### The connections that exist -/

/-- A channel between two ports. -/
structure LocalConnection (O I : Type) where
  channel : ℕ
  source : O
  target : I

def Place.next : Bool → Place → Option Place
  | true, .inputEndpoint => some .storage
  | true, .storage => some .outputEndpoint
  | true, .outputEndpoint => none
  | false, .inputEndpoint => none
  | false, .storage => some .inputEndpoint
  | false, .outputEndpoint => some .storage

/-- The end point at which a removal in the given direction starts. -/
def Place.start (forward : Bool) : Place := bif forward then .inputEndpoint else .outputEndpoint

namespace LocalConnection

def element (c : LocalConnection O I) (place : Place) : Element := ⟨c.channel, place⟩

/-- The port at which a removal in the given direction starts. -/
def port (forward : Bool) (c : LocalConnection O I) : O ⊕ I :=
  bif forward then .inl c.source else .inr c.target

def descriptor (forward : Bool) (c : LocalConnection O I) : ChannelDescriptor O I :=
  ⟨c.port !forward, c.element (.start forward)⟩

/-- The elements of the channel run from the output port to the input port, and back. -/
structure Complete (c : LocalConnection O I) (s : Network O I) : Prop where
  next : ∀ forward place, s.next forward (c.element place) = (place.next forward).map c.element
  port : ∀ forward, s.port (c.element (.start forward)) = some (c.port forward)
  cid : ∀ forward, s.cid (c.element (.start forward)) = some (c.port !forward)

/-- The two channels are between the same ports. -/
def parallel [DecidableEq O] [DecidableEq I] (c d : LocalConnection O I) : Bool :=
  d.source = c.source ∧ d.target = c.target

@[simp] theorem isForward_port (forward : Bool) (c : LocalConnection O I) :
    Network.isForward (c.port forward) = forward := by
  cases forward <;> rfl

/-- The channel has the two ports at its ends. -/
def joins [DecidableEq O] [DecidableEq I] (port other : O ⊕ I) (c : LocalConnection O I) : Bool :=
  c.port (Network.isForward port) = port ∧ c.port (!Network.isForward port) = other

theorem joins_port [DecidableEq O] [DecidableEq I] (forward : Bool) (c : LocalConnection O I) :
    joins (c.port forward) (c.port !forward) = parallel c := by
  funext d
  cases forward <;> simp [joins, parallel, port, Network.isForward, and_comm]

end LocalConnection

namespace ConnectionManager

/-- There is a current channel when there are connections, and it is one of them. -/
structure Current (m : ConnectionManager O I) : Prop where
  none_iff : m.curChannel = none ↔ m.connections = []
  mem : ∀ d ∈ m.curChannel, d ∈ m.connections

theorem empty_current : (empty : ConnectionManager O I).Current :=
  ⟨by simp [empty], nofun⟩

theorem Current.addConnection {m : ConnectionManager O I} (h : m.Current) (connID : O ⊕ I)
    (channel : Element) : (m.addConnection connID channel).Current := by
  rw [ConnectionManager.addConnection]
  by_cases hm : m.connections = []
  · rw [if_pos hm, hm]
    exact ⟨by simp, by simp⟩
  · rw [if_neg hm]
    constructor
    · simp [h.none_iff, hm]
    · intro d hd
      exact List.mem_append_left _ (h.mem d hd)

/-- Only the first match goes. -/
theorem mem_eraseP {α : Type} {p : α → Bool} {l : List α} {a d : α} (hd : l.find? p = some d)
    (ha : a ∈ l) (hne : a ≠ d) : a ∈ l.eraseP p := by
  induction l with
  | nil => cases ha
  | cons b l ih =>
    rw [List.find?_cons] at hd
    rw [List.eraseP_cons]
    cases hb : p b with
    | true =>
      rw [hb] at hd
      obtain rfl := Option.some.inj hd
      exact (List.mem_cons.mp ha).resolve_left hne
    | false =>
      rw [hb] at hd
      rcases List.mem_cons.mp ha with rfl | ha
      · exact List.mem_cons_self
      · exact List.mem_cons_of_mem _ (ih hd ha)

theorem Current.erase [DecidableEq O] [DecidableEq I] {m : ConnectionManager O I} (h : m.Current)
    {connID : O ⊕ I} {d : ChannelDescriptor O I}
    (hd : m.connections.find? (findMatchingPort connID) = some d) : (m.erase connID d).Current := by
  rw [ConnectionManager.erase, updateCurrentChannel]
  by_cases hempty : m.connections.eraseP (findMatchingPort connID) = []
  · rw [if_pos hempty]
    exact ⟨by simp [hempty], nofun⟩
  rw [if_neg hempty]
  by_cases hcur : m.curChannel.map ChannelDescriptor.channel = some d.channel
  · rw [if_pos (decide_eq_true hcur)]
    exact ⟨by simp, fun d' hd' => List.mem_of_mem_head? hd'⟩
  · rw [if_neg (by simpa using hcur)]
    have hm : m.connections ≠ [] := by
      intro he
      rw [he] at hempty
      exact hempty rfl
    refine ⟨by simp [h.none_iff, hm, hempty], fun d' hd' => ?_⟩
    have hne : d' ≠ d := by
      rintro rfl
      rw [Option.mem_def.mp hd'] at hcur
      exact hcur rfl
    exact mem_eraseP hd (h.mem d' hd') hne

end ConnectionManager

namespace Network

open ConnectionManager LocalConnection

/-- The chain runs from the end point `a` at the output port to the end point `b` at the input port. -/
structure Chain (s : Network O I) (o : O) (i : I) (a storage b : Element) : Prop where
  source : s.port a = some (.inl o)
  target : s.port b = some (.inr i)
  output : s.output a = some storage ∧ s.output storage = some b ∧ s.output b = none
  input : s.input b = some storage ∧ s.input storage = some a ∧ s.input a = none

theorem chain_of_complete {s : Network O I} {c : LocalConnection O I} (h : c.Complete s) :
    s.Chain c.source c.target (c.element .inputEndpoint) (c.element .storage)
      (c.element .outputEndpoint) where
  source := h.port true
  target := h.port false
  output := ⟨h.next true .inputEndpoint, h.next true .storage, h.next true .outputEndpoint⟩
  input := ⟨h.next false .outputEndpoint, h.next false .storage, h.next false .inputEndpoint⟩

/-- The ports at either side list the channels of `lists`, and those of `linked` are complete. Nothing
else is linked, apart from the channel that is being removed. -/
structure Shape [DecidableEq O] [DecidableEq I] (lists : Bool → List (LocalConnection O I))
    (linked : List (LocalConnection O I)) (pending : Option ℕ) (s : Network O I) : Prop where
  listed : ∀ port, (s.manager port).connections =
    ((lists (isForward port)).filter (·.port (isForward port) = port)).map
      (descriptor (isForward port))
  current : ∀ port, (s.manager port).Current
  complete : ∀ c ∈ linked, c.Complete s
  unlinked : ∀ e : Element, e.channel ∉ linked.map channel → some e.channel ≠ pending →
    ∀ forward, s.next forward e = none
  nodup : (linked.map channel).Nodup
  fresh : ∀ c ∈ linked, c.channel < s.created

/-- All but one channel is as it was. -/
structure Elsewhere (channel : ℕ) (s s' : Network O I) : Prop where
  next : ∀ e : Element, e.channel ≠ channel → ∀ forward, s'.next forward e = s.next forward e
  port : ∀ e : Element, e.channel ≠ channel → s'.port e = s.port e
  cid : ∀ e : Element, e.channel ≠ channel → s'.cid e = s.cid e
  created : s.created ≤ s'.created

theorem Elsewhere.trans {channel : ℕ} {s s' s'' : Network O I} (h : Elsewhere channel s s')
    (h' : Elsewhere channel s' s'') : Elsewhere channel s s'' where
  next := fun e he forward => (h'.next e he forward).trans (h.next e he forward)
  port := fun e he => (h'.port e he).trans (h.port e he)
  cid := fun e he => (h'.cid e he).trans (h.cid e he)
  created := Nat.le_trans h.created h'.created

theorem Elsewhere.complete {channel : ℕ} {s s' : Network O I} (h : Elsewhere channel s s')
    {c : LocalConnection O I} (hc : c.Complete s) (hne : c.channel ≠ channel) : c.Complete s' where
  next := fun forward place => (h.next _ hne forward).trans (hc.next forward place)
  port := fun forward => (h.port _ hne).trans (hc.port forward)
  cid := fun forward => (h.cid _ hne).trans (hc.cid forward)

@[simp] theorem next_unlink_self (forward : Bool) (e : Element) (s : Network O I) :
    (s.unlink e).next forward e = none := by
  cases forward <;> exact Function.update_self ..

theorem next_unlink_of_ne (forward : Bool) {e e' : Element} (h : e' ≠ e) (s : Network O I) :
    (s.unlink e).next forward e' = s.next forward e' := by
  cases forward <;> exact Function.update_of_ne h ..

theorem elsewhere_unlink (e : Element) (s : Network O I) : Elsewhere e.channel s (s.unlink e) where
  next := fun _ he forward => next_unlink_of_ne forward (fun h => he (congrArg Element.channel h)) s
  port := fun _ _ => rfl
  cid := fun _ _ => rfl
  created := Nat.le_refl _

/-- An end point that informs its port forgets it. -/
def leave (e : Element) (s : Network O I) : Network O I :=
  { s.unlink e with port := Function.update s.port e none }

theorem elsewhere_leave (e : Element) (s : Network O I) : Elsewhere e.channel s (s.leave e) where
  next := (elsewhere_unlink e s).next
  port := fun _ he => Function.update_of_ne (fun h => he (congrArg Element.channel h)) ..
  cid := fun _ _ => rfl
  created := Nat.le_refl _

theorem buildChannel_complete (o : O) (i : I) {s : Network O I}
    (hnone : ∀ place forward, s.next forward ⟨s.created, place⟩ = none) :
    (⟨s.created, o, i⟩ : LocalConnection O I).Complete (s.buildChannel o i) where
  next := by
    intro forward place
    have hin := hnone .inputEndpoint false
    have hout := hnone .outputEndpoint true
    simp only [next, Bool.false_eq_true, if_true, if_false] at hin hout
    cases forward <;> cases place <;>
      simp [next, buildChannel, setOutput, element, Place.next, hin, hout]
  port := by
    intro forward
    cases forward <;> simp [buildChannel, setOutput, element, Place.start, LocalConnection.port]
  cid := by
    intro forward
    cases forward <;> simp [buildChannel, setOutput, element, Place.start, LocalConnection.port]

theorem elsewhere_buildChannel (o : O) (i : I) (s : Network O I) :
    Elsewhere s.created s (s.buildChannel o i) where
  next := by
    intro e he forward
    have hne (place : Place) : e ≠ ⟨s.created, place⟩ := fun h => he (congrArg Element.channel h)
    cases forward <;> simp [next, buildChannel, setOutput, hne]
  port := by
    intro e he
    have hne (place : Place) : e ≠ ⟨s.created, place⟩ := fun h => he (congrArg Element.channel h)
    simp [buildChannel, setOutput, hne]
  cid := by
    intro e he
    have hne (place : Place) : e ≠ ⟨s.created, place⟩ := fun h => he (congrArg Element.channel h)
    simp [buildChannel, setOutput, hne]
  created := Nat.le_succ _

/-- The elements that are unlinked, one after the other, are those of a channel. -/
theorem unlink_all {c : LocalConnection O I} {s : Network O I} {forward : Bool}
    (hnext : ∀ forward', s.next forward' (c.element (.start !forward)) = none) (place : Place)
    (forward' : Bool) : ((s.unlink (c.element .storage)).unlink (c.element (.start forward))).next
      forward' (c.element place) = none := by
  by_cases hstart : place = .start forward
  · rw [hstart, next_unlink_self]
  have hstart' : c.element place ≠ c.element (.start forward) :=
    fun h => hstart (congrArg Element.place h)
  rw [next_unlink_of_ne _ hstart']
  by_cases hstorage : place = .storage
  · rw [hstorage, next_unlink_self]
  have hstorage' : c.element place ≠ c.element .storage :=
    fun h => hstorage (congrArg Element.place h)
  have hplace : place = .start !forward := by
    cases forward <;> cases place <;> simp_all [Place.start]
  rw [next_unlink_of_ne _ hstorage', hplace, hnext]

/-- The channels that stay when the first match goes. -/
theorem mem_eraseP_iff {linked : List (LocalConnection O I)} (hnodup : (linked.map channel).Nodup)
    {p : LocalConnection O I → Bool} {c d : LocalConnection O I} (hc : linked.find? p = some c) :
    d ∈ linked.eraseP p ↔ d ∈ linked ∧ d.channel ≠ c.channel := by
  obtain ⟨hp, as, bs, rfl, has⟩ := List.find?_eq_some_iff_append.mp hc
  rw [List.eraseP_append_right _ (by simpa using has), List.eraseP_cons_of_pos hp]
  rw [List.map_append, List.map_cons] at hnodup
  have hnot := (List.nodup_middle.mp hnodup).notMem
  have hother (h : d ∈ as ∨ d ∈ bs) : d.channel ≠ c.channel := by
    intro he
    apply hnot
    rw [← he, ← List.map_append]
    exact List.mem_map_of_mem (List.mem_append.mpr h)
  grind

/-- Elements that do not meet `p` can be erased before the filter. -/
theorem filter_eraseP_of_not {α : Type} {p q : α → Bool} (h : ∀ a, q a = true → p a = false)
    (l : List α) : (l.eraseP q).filter p = l.filter p := by
  induction l with
  | nil => rfl
  | cons a l ih =>
    rw [List.eraseP_cons]
    cases hq : q a with
    | true => rw [cond_true, List.filter_cons, h a hq, if_neg Bool.false_ne_true]
    | false => rw [cond_false, List.filter_cons, List.filter_cons, ih]

variable [DecidableEq O] [DecidableEq I]

theorem removeConnection_none {disconnect : Bool → Element → Network O I → Option (Network O I)}
    {port connID : O ⊕ I} {s : Network O I}
    (h : (s.manager port).connections.find? (findMatchingPort connID) = none) :
    removeConnection disconnect port connID s = some s := by
  rw [removeConnection, h]

theorem removeConnection_some {disconnect : Bool → Element → Network O I → Option (Network O I)}
    {port connID : O ⊕ I} {s : Network O I} {d : ChannelDescriptor O I}
    (h : (s.manager port).connections.find? (findMatchingPort connID) = some d) :
    removeConnection disconnect port connID s = disconnect (isForward port) d.channel
      (s.setManager port ((s.manager port).erase connID d)) := by
  rw [removeConnection, h]

theorem leavePort_of_not {disconnect : Bool → Element → Network O I → Option (Network O I)}
    {forward : Bool} {e : Element} {s : Network O I} (h : e.place.leaves forward = false) :
    leavePort disconnect forward e s = some s := by
  rw [leavePort, h]
  split <;> rfl

@[simp] theorem findMatchingPort_descriptor (connID : O ⊕ I) (forward : Bool)
    (c : LocalConnection O I) :
    findMatchingPort connID (c.descriptor forward) = true ↔ c.port (!forward) = connID := by
  rw [findMatchingPort, decide_eq_true_eq]
  rfl

section Shape

variable {lists : Bool → List (LocalConnection O I)} {linked : List (LocalConnection O I)}
  {pending : Option ℕ} {s : Network O I}

theorem Shape.find (h : Shape lists linked pending s) (port other : O ⊕ I) :
    (s.manager port).connections.find? (findMatchingPort other) =
      ((lists (isForward port)).find? (joins port other)).map (descriptor (isForward port)) := by
  rw [h.listed, List.find?_map, List.find?_filter]
  congr 2
  funext c
  rw [Bool.eq_iff_iff]
  simp [joins]

theorem Shape.find_port (h : Shape lists linked pending s) (forward : Bool)
    (c : LocalConnection O I) :
    (s.manager (c.port forward)).connections.find? (findMatchingPort (c.port !forward)) =
      ((lists forward).find? (parallel c)).map (descriptor forward) := by
  rw [h.find, joins_port, isForward_port]

/-- The port at one end of a channel drops it from its list. -/
theorem Shape.erase (h : Shape lists linked pending s) {forward : Bool} {c : LocalConnection O I}
    (hc : (lists forward).find? (parallel c) = some c) :
    Shape (Function.update lists forward ((lists forward).eraseP (parallel c))) linked pending
      (s.setManager (c.port forward)
        ((s.manager (c.port forward)).erase (c.port !forward) (c.descriptor forward))) where
  listed := by
    intro port
    show (Function.update s.manager _ _ _).connections = _
    by_cases hport : port = c.port forward
    · subst hport
      rw [Function.update_self, isForward_port, Function.update_self]
      show (s.manager _).connections.eraseP _ = _
      rw [h.listed, isForward_port, List.eraseP_map, List.eraseP_filter]
      congr 3
      funext d
      rw [← joins_port forward c, Bool.eq_iff_iff]
      simp [joins, and_comm]
    · rw [Function.update_of_ne hport, h.listed]
      by_cases hforward : isForward port = forward
      · subst hforward
        rw [Function.update_self, filter_eraseP_of_not]
        intro d hd
        rw [← joins_port (isForward port) c] at hd
        simp only [joins, isForward_port, decide_eq_true_eq] at hd
        simp [hd.1, Ne.symm hport]
      · rw [Function.update_of_ne hforward]
  current := by
    intro port
    have hfind := h.find_port forward c
    rw [hc, Option.map_some] at hfind
    show (Function.update s.manager _ _ _).Current
    by_cases hport : port = c.port forward
    · subst hport
      rw [Function.update_self]
      exact (h.current _).erase hfind
    · rw [Function.update_of_ne hport]
      exact h.current port
  complete := fun c hc => { h.complete c hc with }
  unlinked := h.unlinked
  nodup := h.nodup
  fresh := h.fresh

/-- All elements of a channel were unlinked, and all others are as they were. -/
theorem Shape.unlinkChannel (h : Shape lists linked pending s) {p : LocalConnection O I → Bool}
    {c : LocalConnection O I} (hc : linked.find? p = some c) {s' : Network O I}
    (helsewhere : Elsewhere c.channel s s') (hmanager : s'.manager = s.manager)
    (hnone : ∀ place forward, s'.next forward (c.element place) = none) :
    Shape lists (linked.eraseP p) pending s' where
  listed := fun port => by rw [hmanager, h.listed]
  current := fun port => by rw [hmanager]; exact h.current port
  complete := by
    intro d hd
    obtain ⟨hd, hne⟩ := (mem_eraseP_iff h.nodup hc).mp hd
    exact helsewhere.complete (h.complete d hd) hne
  unlinked := by
    intro e he hpending forward
    by_cases hchannel : e.channel = c.channel
    · have hplace := hnone e.place forward
      rwa [element, ← hchannel] at hplace
    · rw [helsewhere.next e hchannel]
      apply h.unlinked e _ hpending
      intro hmem
      obtain ⟨d, hd, hde⟩ := List.mem_map.mp hmem
      apply he
      have hd' := (mem_eraseP_iff h.nodup hc).mpr ⟨hd, hde ▸ hchannel⟩
      exact hde ▸ List.mem_map_of_mem hd'
  nodup := h.nodup.sublist (List.eraseP_sublist.map _)
  fresh := by
    intro d hd
    exact Nat.lt_of_lt_of_le (h.fresh d ((mem_eraseP_iff h.nodup hc).mp hd).1) helsewhere.created

end Shape

section Chain

variable {c : LocalConnection O I} {s : Network O I}

/-- A removal goes through the chain; the port at its end looks for a connection to remove, before
the elements on the way are unlinked. -/
theorem disconnect_complete (hc : c.Complete s) (forward : Bool) (n : ℕ) :
    disconnect (n + 3) forward (c.element (.start forward)) s =
      (removeConnection (disconnect n) (c.port !forward) (c.port forward)
        (s.leave (c.element (.start !forward)))).map fun s =>
          (s.unlink (c.element .storage)).unlink (c.element (.start forward)) := by
  have hlast : disconnect (n + 1) forward (c.element (.start !forward)) s =
      removeConnection (disconnect n) (c.port !forward) (c.port forward)
        (s.leave (c.element (.start !forward))) := by
    have hport : (s.unlink (c.element (.start !forward))).port (c.element (.start !forward)) =
        some (c.port !forward) := hc.port !forward
    have hcid : (s.unlink (c.element (.start !forward))).cid (c.element (.start !forward)) =
        some (c.port forward) := by
      have hcid := hc.cid !forward
      rwa [Bool.not_not] at hcid
    have hnext : s.next forward (c.element (.start !forward)) = none := by
      rw [hc.next]
      cases forward <;> rfl
    have hleaves : (c.element (.start !forward)).place.leaves forward = true := by
      cases forward <;> rfl
    rw [disconnect, hnext]
    show leavePort _ _ _ _ = _
    rw [leavePort, hport, hcid]
    exact if_pos hleaves
  have hmiddle : disconnect (n + 2) forward (c.element .storage) s =
      (disconnect (n + 1) forward (c.element (.start !forward)) s).map
        fun s => s.unlink (c.element .storage) := by
    have hnext : s.next forward (c.element .storage) = some (c.element (.start !forward)) := by
      rw [hc.next]
      cases forward <;> rfl
    rw [disconnect, hnext, Option.map_eq_bind]
    show Option.bind _ _ = _
    congr 1
    funext s
    exact leavePort_of_not rfl
  have hnext : s.next forward (c.element (.start forward)) = some (c.element .storage) := by
    rw [hc.next]
    cases forward <;> rfl
  have hleaves : (c.element (.start forward)).place.leaves forward = false := by
    cases forward <;> rfl
  rw [disconnect, hnext]
  show Option.bind _ _ = _
  rw [hmiddle, hlast, Option.bind_map, Option.map_eq_bind]
  congr 1
  funext s
  exact leavePort_of_not hleaves

theorem disconnect_unlinked {forward : Bool} {e : Element} (hnext : s.next forward e = none)
    (hleaves : e.place.leaves forward = false) (n : ℕ) :
    disconnect (n + 1) forward e s = some (s.unlink e) := by
  rw [disconnect, hnext]
  exact leavePort_of_not hleaves

theorem start_leaves (forward : Bool) : (Place.start forward).leaves forward = false := by
  cases forward <;> rfl

variable {lists : Bool → List (LocalConnection O I)} {linked : List (LocalConnection O I)}
  {pending : Option ℕ}

/-- The port at the other end drops the channel, when it is the first one that it finds. -/
theorem Shape.disconnect (h : Shape lists linked pending s) {forward : Bool}
    (hlinked : linked.find? (parallel c) = some c)
    (hlisted : (lists !forward).find? (parallel c) = some c) (n : ℕ) :
    ∃ s', Network.disconnect (n + 4) forward (c.element (.start forward)) s = some s' ∧
      Shape (Function.update lists (!forward) ((lists !forward).eraseP (parallel c)))
        (linked.eraseP (parallel c)) pending s' ∧ Elsewhere c.channel s s' := by
  have hfind := h.find_port (!forward) c
  have herase := h.erase hlisted
  rw [Bool.not_not] at hfind herase
  rw [hlisted, Option.map_some] at hfind
  let far := c.element (.start !forward)
  let s₁ := s.leave far
  let s₂ := s₁.setManager (c.port !forward)
    ((s.manager (c.port !forward)).erase (c.port forward) (c.descriptor !forward))
  have hfar : s₂.next (!forward) far = none := next_unlink_self (!forward) far s
  have hremove : removeConnection (Network.disconnect (n + 1)) (c.port !forward) (c.port forward) s₁ =
      some (s₂.unlink far) := by
    rw [removeConnection_some (s := s₁) hfind, isForward_port]
    exact disconnect_unlinked hfar (start_leaves !forward) n
  have hcomplete := h.complete c (List.mem_of_find?_eq_some hlinked)
  have hleave : Elsewhere c.channel s s₂ := { elsewhere_leave far s with }
  have helsewhere : Elsewhere c.channel s
      (((s₂.unlink far).unlink (c.element .storage)).unlink (c.element (.start forward))) :=
    ((hleave.trans (elsewhere_unlink far s₂)).trans
      (elsewhere_unlink (c.element .storage) _)).trans (elsewhere_unlink (c.element _) _)
  refine ⟨((s₂.unlink far).unlink (c.element .storage)).unlink (c.element (.start forward)), ?_, ?_,
    helsewhere⟩
  · rw [disconnect_complete hcomplete forward (n + 1), hremove, Option.map_some]
  · exact herase.unlinkChannel hlinked { helsewhere with } rfl
      (unlink_all fun forward' => next_unlink_self forward' far s₂)

end Chain

/-! ### Calls keep the shape -/

section Calls

variable {live : List (LocalConnection O I)} {s : Network O I}

/-- The ports at both sides list the same channels, and these are the ones that are linked. -/
abbrev Live (live : List (LocalConnection O I)) (s : Network O I) : Prop :=
  Shape (fun _ => live) live none s

theorem update_both {α : Type} (forward : Bool) (a b : α) :
    Function.update (Function.update (fun _ => a) forward b) (!forward) b = fun _ : Bool => b := by
  funext b'
  cases forward <;> cases b' <;> rfl

theorem Live.disconnectPort (h : Live live s) (port other : O ⊕ I) :
    ∃ s' live', s.disconnectPort port other = some s' ∧ Live live' s' ∧ live' ⊆ live ∧
      s.created ≤ s'.created := by
  have hfind := h.find port other
  rw [Network.disconnectPort]
  cases hc : live.find? (joins port other) with
  | none =>
    rw [hc, Option.map_none] at hfind
    exact ⟨s, live, removeConnection_none hfind, h, List.Subset.refl _, Nat.le_refl _⟩
  | some c =>
    rw [hc, Option.map_some] at hfind
    have hjoins := List.find?_some hc
    simp only [joins, decide_eq_true_eq] at hjoins
    obtain ⟨hport, hother⟩ := hjoins
    generalize isForward port = forward at hport hother hfind
    subst hport hother
    rw [joins_port] at hc
    have herase : Shape (Function.update (fun _ => live) forward (live.eraseP (parallel c))) live none
        (s.setManager (c.port forward) ((s.manager (c.port forward)).erase (c.port !forward)
          (c.descriptor forward))) := h.erase hc
    have hfar : Function.update (fun _ => live) forward (live.eraseP (parallel c)) (!forward) =
        live := Function.update_of_ne (by cases forward <;> decide) ..
    obtain ⟨s', hs', hshape, helsewhere⟩ := herase.disconnect hc (hfar ▸ hc) 3
    rw [hfar, update_both] at hshape
    refine ⟨s', live.eraseP (parallel c), ?_, hshape, fun d hd => List.mem_of_mem_eraseP hd,
      helsewhere.created⟩
    rw [removeConnection_some hfind, isForward_port]
    exact hs'

/-- The first channel at a port is also the first one to the port at its other end. -/
theorem find_parallel {rest todo : List (LocalConnection O I)} {forward : Bool} {port : O ⊕ I}
    {c : LocalConnection O I} (h : rest.filter (·.port forward = port) = c :: todo) :
    rest.find? (parallel c) = some c ∧
      (rest.eraseP (parallel c)).filter (·.port forward = port) = todo := by
  have hport : c.port forward = port := by
    have hmem := List.mem_filter.mp (h ▸ List.mem_cons_self : c ∈ rest.filter _)
    simpa using hmem.2
  subst hport
  have hparallel (d : LocalConnection O I) : parallel c d =
      (decide (d.port (!forward) = c.port (!forward)) &&
        decide (d.port forward = c.port forward)) := by
    rw [← joins_port forward c, Bool.eq_iff_iff]
    simp [joins, and_comm]
  constructor
  · have hfind := congrArg (List.find? fun d => d.port (!forward) = c.port (!forward)) h
    rw [List.find?_filter, List.find?_cons_of_pos (by simp)] at hfind
    rw [← hfind]
    congr 1
    funext d
    rw [hparallel, Bool.eq_iff_iff]
    simp [and_comm]
  · have herase := congrArg (List.eraseP fun d => d.port (!forward) = c.port (!forward)) h
    rw [List.eraseP_filter, List.eraseP_cons_of_pos (by simp)] at herase
    rw [← herase]
    congr 2
    funext d
    exact hparallel d

/-- The port has dropped all its channels, and those of `todo` are still to be disconnected. -/
theorem disconnect_rest {forward : Bool} {port : O ⊕ I} {todo : List (LocalConnection O I)} :
    ∀ {rest : List (LocalConnection O I)} {s : Network O I},
      Shape (Function.update (fun _ => rest) forward (rest.filter (¬ ·.port forward = port)))
        rest none s →
      rest.filter (·.port forward = port) = todo →
      ∃ s' live', (todo.map (descriptor forward)).foldlM
        (fun s d => Network.disconnect fuel forward d.channel s) s = some s' ∧ Live live' s' ∧
          live' ⊆ rest ∧ s.created ≤ s'.created := by
  induction todo with
  | nil =>
    intro rest s h htodo
    have hrest : rest.filter (¬ ·.port forward = port) = rest := by
      rw [List.filter_eq_self]
      intro c hc
      have hnot := List.filter_eq_nil_iff.mp htodo c hc
      simpa using hnot
    rw [hrest, Function.update_eq_self] at h
    exact ⟨s, rest, rfl, h, List.Subset.refl _, Nat.le_refl _⟩
  | cons c todo ih =>
    intro rest s h htodo
    obtain ⟨hc, hrest⟩ := find_parallel htodo
    have hport : c.port forward = port := by
      have hmem := List.mem_filter.mp (htodo ▸ List.mem_cons_self : c ∈ rest.filter _)
      simpa using hmem.2
    have hfar : Function.update (fun _ => rest) forward (rest.filter (¬ ·.port forward = port))
        (!forward) = rest := Function.update_of_ne (by cases forward <;> decide) ..
    obtain ⟨s', hs', hshape, helsewhere⟩ := h.disconnect hc (hfar ▸ hc) 3
    rw [hfar] at hshape
    have hkept : (rest.eraseP (parallel c)).filter (¬ ·.port forward = port) =
        rest.filter (¬ ·.port forward = port) := by
      apply filter_eraseP_of_not
      intro d hd
      rw [← joins_port forward c] at hd
      simp only [joins, isForward_port, decide_eq_true_eq] at hd
      simp [hd.1, hport]
    have hlists : Function.update (Function.update (fun _ => rest) forward
          (rest.filter (¬ ·.port forward = port))) (!forward) (rest.eraseP (parallel c)) =
        Function.update (fun _ => rest.eraseP (parallel c)) forward
          ((rest.eraseP (parallel c)).filter (¬ ·.port forward = port)) := by
      rw [hkept]
      funext b
      cases forward <;> cases b <;> rfl
    rw [hlists] at hshape
    obtain ⟨s'', live', hs'', hlive, hsub, hcreated⟩ := ih hshape hrest
    refine ⟨s'', live', ?_, hlive, fun d hd => List.mem_of_mem_eraseP (hsub hd),
      Nat.le_trans helsewhere.created hcreated⟩
    rw [List.map_cons, List.foldlM_cons]
    show (Network.disconnect fuel forward (c.element (.start forward)) s).bind _ = _
    rw [show Network.disconnect fuel forward (c.element (.start forward)) s = some s' from hs',
      Option.bind_some]
    exact hs''

theorem Live.disconnectAll (h : Live live s) (port : O ⊕ I) :
    ∃ s' live', s.disconnectAll port = some s' ∧ Live live' s' ∧ live' ⊆ live ∧
      s.created ≤ s'.created := by
  have hempty : Shape (Function.update (fun _ => live) (isForward port)
      (live.filter (¬ ·.port (isForward port) = port))) live none
      (s.setManager port .empty) := by
    refine { h with listed := fun port' => ?_, current := fun port' => ?_, complete := fun c hc => ?_ }
    · show (Function.update s.manager _ _ _).connections = _
      by_cases hport : port' = port
      · subst hport
        rw [Function.update_self, Function.update_self, List.filter_filter]
        simp [empty]
      · rw [Function.update_of_ne hport, h.listed]
        by_cases hside : isForward port' = isForward port
        · rw [hside, Function.update_self, List.filter_filter]
          congr 2
          funext c
          grind
        · rw [Function.update_of_ne hside]
    · show (Function.update s.manager _ _ _).Current
      by_cases hport : port' = port
      · subst hport
        rw [Function.update_self]
        exact empty_current
      · rw [Function.update_of_ne hport]
        exact h.current port'
    · exact { h.complete c hc with }
  rw [Network.disconnectAll, h.listed]
  exact disconnect_rest hempty rfl

end Calls

section Pending

variable {lists : Bool → List (LocalConnection O I)} {linked : List (LocalConnection O I)}
  {pending : Option ℕ} {s s' : Network O I} {k : ℕ}

/-- What happens to a channel that is in no list leaves the shape as it is. -/
theorem Shape.elsewhere (h : Shape lists linked pending s) (helsewhere : Elsewhere k s s')
    (hk : ∀ c ∈ linked, c.channel ≠ k) (hpending : pending = none ∨ pending = some k)
    (hmanager : s'.manager = s.manager) : Shape lists linked (some k) s' where
  listed := fun port => by rw [hmanager, h.listed]
  current := fun port => by rw [hmanager]; exact h.current port
  complete := fun c hc => helsewhere.complete (h.complete c hc) (hk c hc)
  unlinked := by
    intro e he hne forward
    have hek : e.channel ≠ k := fun heq => hne (congrArg some heq)
    rw [helsewhere.next e hek]
    apply h.unlinked e he
    rcases hpending with rfl | rfl
    · exact nofun
    · exact hne
  nodup := h.nodup
  fresh := fun c hc => Nat.lt_of_lt_of_le (h.fresh c hc) helsewhere.created

/-- The removal of a channel is over when nothing of it is linked. -/
theorem Shape.settle (h : Shape lists linked (some k) s)
    (hnone : ∀ place forward, s.next forward ⟨k, place⟩ = none) : Shape lists linked none s where
  listed := h.listed
  current := h.current
  complete := h.complete
  unlinked := by
    intro e he _ forward
    by_cases hek : e.channel = k
    · have hplace := hnone e.place forward
      rwa [← hek] at hplace
    · exact h.unlinked e he (fun heq => hek (Option.some.inj heq)) forward
  nodup := h.nodup
  fresh := h.fresh

/-- A port lists a new channel. -/
theorem Shape.add (h : Shape lists linked pending s) (forward : Bool) (c : LocalConnection O I) :
    Shape (Function.update lists forward (lists forward ++ [c])) linked pending
      (s.setManager (c.port forward)
        ((s.manager (c.port forward)).addConnection (c.port !forward)
          (c.element (.start forward)))) where
  listed := by
    intro port
    show (Function.update s.manager _ _ _).connections = _
    by_cases hport : port = c.port forward
    · subst hport
      rw [Function.update_self, isForward_port, Function.update_self, List.filter_append,
        List.map_append]
      show (s.manager _).connections ++ _ = _
      rw [h.listed, isForward_port]
      simp [descriptor]
    · rw [Function.update_of_ne hport, h.listed]
      by_cases hforward : isForward port = forward
      · subst hforward
        rw [Function.update_self, List.filter_append]
        simp [Ne.symm hport]
      · rw [Function.update_of_ne hforward]
  current := by
    intro port
    show (Function.update s.manager _ _ _).Current
    by_cases hport : port = c.port forward
    · subst hport
      rw [Function.update_self]
      exact (h.current _).addConnection _ _
    · rw [Function.update_of_ne hport]
      exact h.current port
  complete := fun c hc => { h.complete c hc with }
  unlinked := h.unlinked
  nodup := h.nodup
  fresh := h.fresh

/-- A channel that both ports list is linked like the others. -/
theorem Shape.complete_add {c : LocalConnection O I} (h : Shape lists linked (some c.channel) s)
    (hc : c.Complete s) (hnew : ∀ d ∈ linked, d.channel ≠ c.channel) (hfresh : c.channel < s.created) :
    Shape lists (linked ++ [c]) none s where
  listed := h.listed
  current := h.current
  complete := by
    intro d hd
    rcases List.mem_append.mp hd with hd | hd
    · exact h.complete d hd
    · rwa [List.mem_singleton.mp hd]
  unlinked := by
    intro e he _
    rw [List.map_append, List.mem_append, not_or] at he
    exact h.unlinked e he.1 (by simpa using he.2)
  nodup := by
    rw [List.map_append]
    apply h.nodup.append (List.nodup_singleton _)
    intro k hk hk'
    obtain ⟨d, hd, rfl⟩ := List.mem_map.mp hk
    exact hnew d hd (by simpa using hk')
  fresh := by
    intro d hd
    rcases List.mem_append.mp hd with hd | hd
    · exact h.fresh d hd
    · rwa [List.mem_singleton.mp hd]

end Pending

section Create

variable {live : List (LocalConnection O I)} {s : Network O I} {c : LocalConnection O I}

/-- Both ports list the new channel when it is ready. -/
theorem added_listed (h : Shape (fun _ => live) live (some c.channel) s) (hc : c.Complete s)
    (hnew : ∀ d ∈ live, d.channel ≠ c.channel) (hfresh : c.channel < s.created) :
    ∃ s', s.createAndCheckConnection c.source c.target (c.element .inputEndpoint) true =
      some (s', true) ∧ Live (live ++ [c]) s' ∧ s.created ≤ s'.created := by
  let s₁ := s.setManager (.inl c.source)
    ((s.manager (.inl c.source)).addConnection (.inr c.target) (c.element .inputEndpoint))
  let s₂ := s₁.setManager (.inr c.target)
    ((s₁.manager (.inr c.target)).addConnection (.inl c.source) (c.element .outputEndpoint))
  have hc₁ : c.Complete s₁ := { hc with }
  have hc₂ : c.Complete s₂ := { hc with }
  have hout (place : Place) : s₁.output (c.element place) = (place.next true).map c.element :=
    hc₁.next true place
  have hin (place : Place) : s₂.input (c.element place) = (place.next false).map c.element :=
    hc₂.next false place
  have hend : getOutputEndPoint fuel (c.element .inputEndpoint) s₁ =
      some (c.element .outputEndpoint) := by
    simp only [fuel, getOutputEndPoint, hout, Place.next, Option.map_some, Option.map_none]
  have hregister : s₁.register (c.element .outputEndpoint) = s₂ := by
    have hport : s₁.port (c.element .outputEndpoint) = some (.inr c.target) := hc₁.port false
    have hcid : s₁.cid (c.element .outputEndpoint) = some (.inl c.source) := hc₁.cid false
    rw [register, hport, hcid]
  have hready : inputReady fuel (c.element .outputEndpoint) s₁ = some (s₂, true) := by
    rw [fuel, inputReady]
    show (match (s₁.register _).input _ with | some _ => _ | none => _) = _
    rw [hregister, hin]
    show inputReady 6 (c.element .storage) s₂ = _
    rw [inputReady]
    show (match s₂.input _ with | some _ => _ | none => _) = _
    rw [hin]
    rfl
  refine ⟨s₂, ?_, ?_, Nat.le_refl _⟩
  · rw [createAndCheckConnection, if_pos rfl]
    show (getOutputEndPoint fuel (c.element .inputEndpoint) s₁).bind _ = _
    rw [hend, Option.bind_some, channelReady, hready]
    rfl
  · have hadd := (h.add true c).add false c
    have hlists : Function.update (Function.update (fun _ => live) true (live ++ [c])) false
        (Function.update (fun _ => live) true (live ++ [c]) false ++ [c]) =
          fun _ => live ++ [c] := update_both true live (live ++ [c])
    rw [hlists] at hadd
    exact hadd.complete_add hc₂ hnew hfresh

/-- When the output port refuses a new channel, its removal takes the place of that of the oldest
channel between the same ports, if there is one. -/
theorem refused_removed (h : Shape (fun _ => live) live (some c.channel) s) (hc : c.Complete s)
    (hnew : ∀ d ∈ live, d.channel ≠ c.channel) :
    ∃ s' live', s.createAndCheckConnection c.source c.target (c.element .inputEndpoint) false =
      some (s', false) ∧ Live live' s' ∧ live' ⊆ live ∧ s.created ≤ s'.created := by
  let far := c.element (.start false)
  let s₁ := s.leave far
  have h₁ : Shape (fun _ => live) live (some c.channel) s₁ :=
    h.elsewhere (elsewhere_leave far s) hnew (.inr rfl) rfl
  have hfind := h₁.find_port false c
  have hremoved {s₂ : Network O I} {live' : List (LocalConnection O I)}
      (hremove : removeConnection (disconnect 4) (c.port false) (c.port !false) s₁ = some s₂)
      (h₂ : Shape (fun _ => live') live' (some c.channel) s₂)
      (hsub : live' ⊆ live) (hcreated : s.created ≤ s₂.created)
      (hfar : ∀ forward, s₂.next forward far = none) :
      ∃ s' live', s.createAndCheckConnection c.source c.target (c.element .inputEndpoint) false =
        some (s', false) ∧ Live live' s' ∧ live' ⊆ live ∧ s.created ≤ s'.created := by
    let s₃ := (s₂.unlink (c.element .storage)).unlink (c.element (.start true))
    have helsewhere : Elsewhere c.channel s₂ s₃ :=
      (elsewhere_unlink (c.element .storage) s₂).trans (elsewhere_unlink (c.element (.start true)) _)
    have hnone (place : Place) (forward : Bool) : s₃.next forward (c.element place) = none :=
      unlink_all hfar place forward
    have hsettled := (h₂.elsewhere helsewhere (fun d hd => hnew d (hsub hd)) (.inr rfl) rfl).settle
      hnone
    refine ⟨s₃, live', ?_, hsettled, hsub, Nat.le_trans hcreated helsewhere.created⟩
    have hdisconnect := disconnect_complete hc true 4
    rw [createAndCheckConnection, if_neg Bool.false_ne_true]
    show (disconnect fuel true (c.element (.start true)) s).bind _ = _
    rw [show disconnect fuel true (c.element (.start true)) s = _ from hdisconnect]
    show ((removeConnection (disconnect 4) (c.port false) (c.port !false) s₁).map _).bind _ = _
    rw [hremove]
    rfl
  cases hd : live.find? (parallel c) with
  | none =>
    rw [hd] at hfind
    exact hremoved (removeConnection_none hfind) h₁ (List.Subset.refl _) (Nat.le_refl _)
      fun forward => next_unlink_self forward far s
  | some d =>
    rw [hd, Option.map_some] at hfind
    have hdmem := List.mem_of_find?_eq_some hd
    have hports := List.find?_some hd
    simp only [parallel, decide_eq_true_eq] at hports
    have hsame : parallel c = parallel d := by
      funext e
      simp only [parallel, hports]
    have hport (forward : Bool) : c.port forward = d.port forward := by
      cases forward <;> simp [LocalConnection.port, hports]
    rw [hsame] at hd
    let s₀ := s₁.setManager (d.port false)
      ((s₁.manager (d.port false)).erase (d.port !false) (d.descriptor false))
    have herase : Shape (Function.update (fun _ => live) false (live.eraseP (parallel d))) live
        (some c.channel) s₀ := h₁.erase hd
    have hlisted : Function.update (fun _ => live) false (live.eraseP (parallel d)) (!false) =
        live := rfl
    obtain ⟨s₂, hs₂, h₂, helsewhere⟩ := herase.disconnect hd (hlisted ▸ hd) 0
    have hlists : Function.update (Function.update (fun _ => live) false (live.eraseP (parallel d)))
        (!false) (Function.update (fun _ => live) false (live.eraseP (parallel d)) (!false)
          |>.eraseP (parallel d)) = fun _ => live.eraseP (parallel d) :=
      update_both false live (live.eraseP (parallel d))
    rw [hlists] at h₂
    refine hremoved ?_ h₂ (fun e he => List.mem_of_mem_eraseP he) helsewhere.created ?_
    · rw [removeConnection_some hfind, isForward_port, hport, hport]
      exact hs₂
    · intro forward
      rw [helsewhere.next far (Ne.symm (hnew d hdmem))]
      exact next_unlink_self forward far s

/-- The only channel that can be new is the one that was built. -/
theorem Live.createConnection (h : Live live s) (o : O) (i : I) (compatible added : Bool) :
    ∃ s' live' r, s.createConnection o i compatible added = some (s', r) ∧ Live live' s' ∧
      (∀ c ∈ live', c ∈ live ∨ c.channel = s.created ∧ compatible = true) ∧
      s.created ≤ s'.created ∧ (compatible = true → s.created < s'.created) := by
  rw [Network.createConnection]
  cases compatible with
  | false => exact ⟨s, live, false, rfl, h, fun c hc => .inl hc, Nat.le_refl _, nofun⟩
  | true =>
    let c : LocalConnection O I := ⟨s.created, o, i⟩
    have hnew (d : LocalConnection O I) (hd : d ∈ live) : d.channel ≠ c.channel :=
      Nat.ne_of_lt (h.fresh d hd)
    have hnone (place : Place) (forward : Bool) : s.next forward ⟨s.created, place⟩ = none := by
      apply h.unlinked _ _ nofun
      intro hmem
      obtain ⟨d, hd, hd'⟩ := List.mem_map.mp hmem
      exact hnew d hd hd'
    have hc := buildChannel_complete o i hnone
    have hshape : Shape (fun _ => live) live (some c.channel) (s.buildChannel o i) :=
      h.elsewhere (elsewhere_buildChannel o i s) hnew (.inl rfl) rfl
    have hbuilt : s.created < (s.buildChannel o i).created := Nat.lt_succ_self _
    rw [if_pos rfl]
    cases added with
    | true =>
      obtain ⟨s', hs', hlive, hcreated⟩ := added_listed hshape hc hnew hbuilt
      have hlt := Nat.lt_of_lt_of_le hbuilt hcreated
      refine ⟨s', live ++ [c], true, hs', hlive, fun d hd => ?_, Nat.le_of_lt hlt, fun _ => hlt⟩
      rcases List.mem_append.mp hd with hd | hd
      · exact .inl hd
      · exact .inr ⟨congrArg channel (List.mem_singleton.mp hd), rfl⟩
    | false =>
      obtain ⟨s', live', hs', hlive, hsub, hcreated⟩ := refused_removed hshape hc hnew
      have hlt := Nat.lt_of_lt_of_le hbuilt hcreated
      exact ⟨s', live', false, hs', hlive, fun d hd => .inl (hsub hd), Nat.le_of_lt hlt, fun _ => hlt⟩

end Create

theorem create_live : Live [] (create : Network O I) where
  listed := fun _ => rfl
  current := fun _ => empty_current
  complete := nofun
  unlinked := fun _ _ _ forward => by cases forward <;> rfl
  nodup := List.nodup_nil
  fresh := nofun

theorem Live.perform {live : List (LocalConnection O I)} {s : Network O I} (h : Live live s)
    (c : Call O I) : ∃ s' live', perform c s = some s' ∧ Live live' s' := by
  cases c with
  | createConnection o i compatible added =>
    obtain ⟨s', live', r, hs', hlive, -⟩ := h.createConnection o i compatible added
    exact ⟨s', live', congrArg (Option.map Prod.fst) hs', hlive⟩
  | disconnectPort port other =>
    obtain ⟨s', live', hs', hlive, -⟩ := h.disconnectPort port other
    exact ⟨s', live', hs', hlive⟩
  | disconnectAll port =>
    obtain ⟨s', live', hs', hlive, -⟩ := h.disconnectAll port
    exact ⟨s', live', hs', hlive⟩

theorem Live.calls {live : List (LocalConnection O I)} {s : Network O I} (h : Live live s)
    (cs : List (Call O I)) :
    ∃ s' live', cs.foldlM (fun s c => Network.perform c s) s = some s' ∧ Live live' s' := by
  induction cs generalizing live s with
  | nil => exact ⟨s, live, rfl, h⟩
  | cons c cs ih =>
    obtain ⟨s₁, live₁, hs₁, h₁⟩ := h.perform c
    obtain ⟨s', live', hs', h'⟩ := ih h₁
    refine ⟨s', live', ?_, h'⟩
    rw [List.foldlM_cons, hs₁]
    exact hs'

/-! ### The lists of the ports -/

/-- An output port lists a channel when the input port at its end does, every element that is linked
belongs to a channel that is listed, and the current channel of an input port is one that it lists. -/
structure Consistent (s : Network O I) : Prop where
  output : ∀ o, ∀ d ∈ (s.manager (.inl o)).connections, ∃ i storage b, d.connID = .inr i ∧
    s.Chain o i d.channel storage b ∧ ⟨.inl o, b⟩ ∈ (s.manager (.inr i)).connections
  input : ∀ i, ∀ d ∈ (s.manager (.inr i)).connections, ∃ o a storage, d.connID = .inl o ∧
    s.Chain o i a storage d.channel ∧ ⟨.inr i, a⟩ ∈ (s.manager (.inl o)).connections
  once : ∀ port, (s.manager port).connections.Nodup
  linked : ∀ e, s.input e ≠ none ∨ s.output e ≠ none → ∃ o i a storage b,
    s.Chain o i a storage b ∧ ⟨.inr i, a⟩ ∈ (s.manager (.inl o)).connections ∧
      e ∈ [a, storage, b]
  current : ∀ i, ((s.manager (.inr i)).curChannel = none ↔ (s.manager (.inr i)).connections = []) ∧
    ∀ d ∈ (s.manager (.inr i)).curChannel, d ∈ (s.manager (.inr i)).connections

section Live

variable {live : List (LocalConnection O I)} {s : Network O I}

theorem Live.mem_iff (h : Live live s) {port : O ⊕ I} {d : ChannelDescriptor O I} :
    d ∈ (s.manager port).connections ↔
      ∃ c ∈ live, c.port (isForward port) = port ∧ c.descriptor (isForward port) = d := by
  rw [h.listed, List.mem_map]
  simp only [List.mem_filter, decide_eq_true_eq, and_assoc]

theorem Live.listed_mem (h : Live live s) {c : LocalConnection O I} (hc : c ∈ live)
    (forward : Bool) : c.descriptor forward ∈ (s.manager (c.port forward)).connections := by
  rw [h.mem_iff, isForward_port]
  exact ⟨c, hc, rfl, rfl⟩

theorem Live.consistent (h : Live live s) : s.Consistent where
  output := by
    intro o d hd
    obtain ⟨c, hc, hport, rfl⟩ := h.mem_iff.mp hd
    obtain rfl : c.source = o := Sum.inl.inj hport
    exact ⟨c.target, _, _, rfl, chain_of_complete (h.complete c hc), h.listed_mem hc false⟩
  input := by
    intro i d hd
    obtain ⟨c, hc, hport, rfl⟩ := h.mem_iff.mp hd
    obtain rfl : c.target = i := Sum.inr.inj hport
    exact ⟨c.source, _, _, rfl, chain_of_complete (h.complete c hc), h.listed_mem hc true⟩
  once := by
    intro port
    rw [h.listed]
    apply List.Nodup.of_map (fun d => d.channel.channel)
    rw [List.map_map]
    exact h.nodup.sublist (List.filter_sublist.map _)
  linked := by
    intro e he
    have hmem : e.channel ∈ live.map channel := by
      by_contra hnot
      rcases he with he | he
      · exact he (h.unlinked e hnot nofun false)
      · exact he (h.unlinked e hnot nofun true)
    obtain ⟨c, hc, hchannel⟩ := List.mem_map.mp hmem
    have hchain := chain_of_complete (h.complete c hc)
    refine ⟨c.source, c.target, _, _, _, hchain, h.listed_mem hc true, ?_⟩
    obtain ⟨k, place⟩ := e
    subst hchannel
    cases place <;> simp [element]
  current := fun i => ⟨(h.current _).none_iff, (h.current _).mem⟩

end Live

/-- Connections between the same ports, removals from both sides and attempts that fail included: all
calls return, and leave the lists of the ports and the chains of the channels consistent. -/
theorem calls_consistent (cs : List (Call O I)) :
    ∃ s : Network O I, cs.foldlM (fun s c => perform c s) create = some s ∧ s.Consistent := by
  obtain ⟨s, live, hs, h⟩ := create_live.calls cs
  exact ⟨s, hs, h.consistent⟩

end Network

end OrocosRtt.Channel
