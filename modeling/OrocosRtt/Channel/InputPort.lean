import OrocosRtt.Channel.Delivery
import OrocosRtt.Channel.Connections

/-! Reading from an input port with any number of connections. The current channel is read first and
may give an old sample; the others are searched for new ones only. -/
namespace OrocosRtt.Channel

open Library.Run
open OrocosRtt.Buffer (FlowStatus)

/-- The size of a buffer is within what its indexes can tell apart. -/
structure SizedPolicy extends ConnPolicy where
  positive : 1 ≤ size
  bounded : size ≤ 65534

/-- What a new channel is built with, and what `connectionAdded` of the output port gives it. -/
structure ChannelStart (β : Type) (width : ℕ) where
  policy : SizedPolicy
  default : Fin width → β
  lastWrittenValue : Fin width → β
  sample : Fin width → β
  /-- The sample is also written. -/
  init : Bool

/-- Local ports and their connections; `none` stands for a storage that was not built. -/
structure Ports (O I β : Type) (width : ℕ) where
  network : Network O I
  storage : ℕ → Option ((p : ConnPolicy) × (p.connection β width).State)
  /-- The new samples that were read from each channel. -/
  delivered : ℕ → List (Fin width → β)

/-- `NoData`, `OldData` and `NewData` are compared as numbers. -/
def value : FlowStatus → ℕ
  | .noData => 0
  | .oldData => 1
  | .newData => 2

namespace Ports

variable {O I β : Type} {width : ℕ}

def create : Ports O I β width where
  network := .create
  storage := fun _ => none
  delivered := fun _ => []

/-! ### Reading -/

def readStorage (k : ℕ) (sample : Fin width → β) (copyOldData : Bool) (p : Ports O I β width) :
    Option (Ports O I β width × FlowStatus × (Fin width → β)) := do
  let ⟨policy, s⟩ ← p.storage k
  let (s, status, sample) ← (policy.connection β width).read sample copyOldData s
  let storage := Function.update p.storage k (some ⟨policy, s⟩)
  let delivered := if status = .newData then
    Function.update p.delivered k (p.delivered k ++ [sample]) else p.delivered
  return ({ p with storage, delivered }, status, sample)

/-- `read` of a channel element: the end points ask the element at their input. -/
def readElement : ℕ → Element → (Fin width → β) → Bool → Ports O I β width →
    Option (Ports O I β width × FlowStatus × (Fin width → β))
  | 0, _, _, _, _ => none
  | n + 1, e, sample, copyOldData, p =>
    match e.place with
    | .storage => p.readStorage e.channel sample copyOldData
    | .inputEndpoint | .outputEndpoint =>
      match p.network.input e with
      | some input => readElement n input sample copyOldData p
      | none => some (p, .noData, sample)

/-- What `InputPort::read` keeps while it searches: the result, and the caller's sample. -/
structure Search (O I β : Type) (width : ℕ) where
  ports : Ports O I β width
  result : FlowStatus
  sample : Fin width → β

def doRead (copyOldData : Bool) (descriptor : ChannelDescriptor O I) (r : Search O I β width) :
    Option (Search O I β width × Bool) := do
  let (ports, tresult, sample) ← readElement 3 descriptor.channel r.sample copyOldData r.ports
  if tresult = .newData then return (⟨ports, tresult, sample⟩, true)
  return (⟨ports, if value r.result < value tresult then tresult else r.result, sample⟩, false)

def findNew : List (ChannelDescriptor O I) → Search O I β width →
    Option (Search O I β width × Option (ChannelDescriptor O I))
  | [], r => some (r, none)
  | descriptor :: ds, r => do
    let (r, found) ← doRead false descriptor r
    if found then return (r, some descriptor)
    findNew ds r

def findIf (copyOldData : Bool) (m : ConnectionManager O I) (r : Search O I β width) :
    Option (Search O I β width × Option (ChannelDescriptor O I)) :=
  match m.curChannel with
  | some channel => do
    let (r, found) ← doRead copyOldData channel r
    if found then return (r, some channel)
    findNew m.connections r
  | none => findNew m.connections r

section Calls

variable [DecidableEq O] [DecidableEq I]

def selectReaderChannel (i : I) (copyOldData : Bool) (r : Search O I β width) :
    Option (Search O I β width) := do
  let m := r.ports.network.manager (.inr i)
  let (r, newChannel) ← findIf copyOldData m r
  match newChannel with
  | some channel =>
    let network := r.ports.network.setManager (.inr i) { m with curChannel := some channel }
    return { r with ports := { r.ports with network } }
  | none => return r

def read (i : I) (sample : Fin width → β) (copyOldData : Bool) (p : Ports O I β width) :
    Option (Ports O I β width × FlowStatus × (Fin width → β)) :=
  (selectReaderChannel i copyOldData ⟨p, .noData, sample⟩).map fun r =>
    (r.ports, r.result, r.sample)

/-! ### Writing and connecting -/

def writeStorage (k : ℕ) (sample : Fin width → β) (p : Ports O I β width) :
    Option (Ports O I β width) := do
  let ⟨policy, s⟩ ← p.storage k
  let s ← (policy.connection β width).write sample s
  return { p with storage := Function.update p.storage k (some ⟨policy, s⟩) }

/-- `write` of a channel element; what it signals to the elements after the storage is `true`. -/
def writeElement : ℕ → Element → (Fin width → β) → Ports O I β width →
    Option (Ports O I β width × Bool)
  | 0, _, _, _ => none
  | n + 1, e, sample, p =>
    match e.place with
    | .inputEndpoint =>
      match p.network.output e with
      | some output => writeElement n output sample p
      | none => some (p, false)
    | .storage => (p.writeStorage e.channel sample).map fun p => (p, true)
    | .outputEndpoint => some (p, false)

/-- The channels that stay in the list of an output port. -/
def writeAll (sample : Fin width → β) : List (ChannelDescriptor O I) → Ports O I β width →
    Option (Ports O I β width × List (ChannelDescriptor O I))
  | [], p => some (p, [])
  | descriptor :: ds, p => do
    let (p, written) ← writeElement 3 descriptor.channel sample p
    let (p, kept) ← writeAll sample ds p
    return (p, if written then descriptor :: kept else kept)

def write (o : O) (sample : Fin width → β) (p : Ports O I β width) :
    Option (Ports O I β width) := do
  let m := p.network.manager (.inl o)
  let (p, kept) ← writeAll sample m.connections p
  return { p with network := p.network.setManager (.inl o) { m with connections := kept } }

/-- The storage of a new channel. -/
def buildStorage (start : ChannelStart β width) :
    Option ((p : ConnPolicy) × (p.connection β width).State) :=
  let policy := start.policy.toConnPolicy
  let s := (policy.connection β width).dataSample start.sample
    (policy.buildDataStorage start.default start.lastWrittenValue)
  if start.init then ((policy.connection β width).write start.sample s).map fun s => ⟨policy, s⟩
  else some ⟨policy, s⟩

def createConnection (o : O) (i : I) (compatible added : Bool) (start : ChannelStart β width)
    (p : Ports O I β width) : Option (Ports O I β width) := do
  let (network, _) ← p.network.createConnection o i compatible added
  if compatible then
    let s ← buildStorage start
    return { p with network, storage := Function.update p.storage p.network.created (some s) }
  else return { p with network }

inductive Call (O I β : Type) (width : ℕ) where
  | createConnection (o : O) (i : I) (compatible added : Bool) (start : ChannelStart β width)
  | disconnectPort (port other : O ⊕ I)
  | disconnectAll (port : O ⊕ I)
  | write (o : O) (sample : Fin width → β)
  | read (i : I) (sample : Fin width → β) (copyOldData : Bool)

def perform (c : Call O I β width) (p : Ports O I β width) : Option (Ports O I β width) :=
  match c with
  | .createConnection o i compatible added start => p.createConnection o i compatible added start
  | .disconnectPort port other =>
    (p.network.disconnectPort port other).map fun network => { p with network }
  | .disconnectAll port => (p.network.disconnectAll port).map fun network => { p with network }
  | .write o sample => p.write o sample
  | .read i sample copyOldData => (p.read i sample copyOldData).map Prod.fst

/-- A call that does not return has no state after it. -/
def step (s : Option (Ports O I β width)) (c : Call O I β width) : Option (Ports O I β width) :=
  s.bind (perform c)

end Calls

/-! ### What the channels hold -/

def unread (p : Ports O I β width) (k : ℕ) : Prop :=
  ∃ s, p.storage k = some s ∧ s.1.unread s.2

/-- The storage of the channel keeps what it delivered last. -/
structure Served (p : Ports O I β width) (k : ℕ) : Prop where
  held : ∃ s V items, p.storage k = some s ∧
    Delivers (s.1.connection β width) s.1.unread V ∧ V items (p.delivered k).getLast? s.2

/-- Reading old samples changes nothing that can be noticed. -/
structure Same (p p' : Ports O I β width) : Prop where
  network : p'.network = p.network
  delivered : p'.delivered = p.delivered
  unread : ∀ k, p'.unread k ↔ p.unread k
  storage : ∀ k, p.unread k → p'.storage k = p.storage k
  served : ∀ k, p.Served k → p'.Served k

theorem Same.refl (p : Ports O I β width) : Same p p :=
  ⟨rfl, rfl, fun _ => Iff.rfl, fun _ _ => rfl, fun _ => id⟩

theorem Same.trans {p p' p'' : Ports O I β width} (h : Same p p') (h' : Same p' p'') :
    Same p p'' where
  network := h'.network.trans h.network
  delivered := h'.delivered.trans h.delivered
  unread := fun k => (h'.unread k).trans (h.unread k)
  storage := fun k hk => (h'.storage k ((h.unread k).mpr hk)).trans (h.storage k hk)
  served := fun k hk => h'.served k (h.served k hk)

section Storage

variable {p : Ports O I β width} {k : ℕ}

/-- What is read depends on the storage alone. -/
theorem readStorage_snd (sample : Fin width → β) (copyOldData : Bool) :
    (p.readStorage k sample copyOldData).map Prod.snd = (p.storage k).bind fun s =>
      ((s.1.connection β width).read sample copyOldData s.2).map Prod.snd := by
  rw [readStorage]
  cases p.storage k with
  | none => rfl
  | some s =>
    show Option.map Prod.snd (((s.1.connection β width).read sample copyOldData s.2).bind _) = _
    rw [Option.map_bind, Option.bind_some, Option.map_eq_bind]
    rfl

theorem readStorage_new {s : (policy : ConnPolicy) × (policy.connection β width).State}
    (hs : p.storage k = some s) {state : (s.1.connection β width).State}
    {sample x : Fin width → β} {copyOldData : Bool}
    (hread : (s.1.connection β width).read sample copyOldData s.2 = some (state, .newData, x)) :
    p.readStorage k sample copyOldData = some ({ p with
      storage := Function.update p.storage k (some ⟨s.1, state⟩)
      delivered := Function.update p.delivered k (p.delivered k ++ [x]) }, .newData, x) := by
  rw [readStorage, hs, Option.bind_eq_bind, Option.bind_some]
  show ((s.1.connection β width).read sample copyOldData s.2).bind _ = _
  rw [hread]
  rfl

theorem readStorage_old {s : (policy : ConnPolicy) × (policy.connection β width).State}
    (hs : p.storage k = some s) {state : (s.1.connection β width).State} {status : FlowStatus}
    {sample x : Fin width → β} {copyOldData : Bool} (hstatus : status ≠ .newData)
    (hread : (s.1.connection β width).read sample copyOldData s.2 = some (state, status, x)) :
    p.readStorage k sample copyOldData = some ({ p with
      storage := Function.update p.storage k (some ⟨s.1, state⟩) }, status, x) := by
  rw [readStorage, hs, Option.bind_eq_bind, Option.bind_some]
  show ((s.1.connection β width).read sample copyOldData s.2).bind _ = _
  rw [hread, Option.bind_some]
  simp only [if_neg hstatus]
  rfl

/-- Only the storage of one channel has changed. -/
theorem served_update {p' : Ports O I β width}
    {s : Option ((policy : ConnPolicy) × (policy.connection β width).State)}
    (hstorage : p'.storage = Function.update p.storage k s)
    (hdelivered : ∀ j ≠ k, p'.delivered j = p.delivered j) (hk : p'.Served k) {j : ℕ}
    (hj : p.Served j) : p'.Served j := by
  by_cases he : j = k
  · exact he ▸ hk
  obtain ⟨s', V, items, hs', hD, hV⟩ := hj.held
  refine ⟨s', V, items, ?_, hD, ?_⟩
  · rw [hstorage, Function.update_of_ne he, hs']
  · rw [hdelivered j he]
    exact hV

/-- An unread sample is delivered. -/
theorem Served.read_new (h : p.Served k) (hunread : p.unread k) :
    ∃ x, ∀ sample copyOldData, ∃ p', p.readStorage k sample copyOldData = some (p', .newData, x) ∧
      p'.network = p.network ∧
      p'.delivered = Function.update p.delivered k (p.delivered k ++ [x]) ∧
      ∀ j, p.Served j → p'.Served j := by
  obtain ⟨s, V, items, hs, hD, hV⟩ := h.held
  obtain ⟨s', hs', hunread⟩ := hunread
  obtain rfl := Option.some.inj (hs.symm.trans hs')
  have hitems := (hD.unread_iff _ _ _ hV).mp hunread
  obtain ⟨x, rest, rfl⟩ := List.exists_cons_of_ne_nil hitems
  refine ⟨x, fun sample copyOldData => ?_⟩
  obtain ⟨state, hread, hV'⟩ := hD.readNew sample copyOldData x rest _ _ hV
  let p' : Ports O I β width := { p with
    storage := Function.update p.storage k (some ⟨s.1, state⟩)
    delivered := Function.update p.delivered k (p.delivered k ++ [x]) }
  have hstorage : p'.storage k = some ⟨s.1, state⟩ := Function.update_self ..
  have hdelivered : p'.delivered k = p.delivered k ++ [x] := Function.update_self ..
  refine ⟨p', readStorage_new hs hread, rfl, rfl, fun j hj => ?_⟩
  apply served_update rfl (fun j hne => Function.update_of_ne hne ..) _ hj
  refine ⟨⟨s.1, state⟩, V, rest, hstorage, hD, ?_⟩
  rw [hdelivered, List.getLast?_append]
  exact hV'

/-- Without an unread sample, the one that was delivered last is an old sample. -/
theorem Served.read_old (h : p.Served k) (hunread : ¬ p.unread k) (sample : Fin width → β)
    (copyOldData : Bool) :
    ∃ p', p.readStorage k sample copyOldData = some (p',
        if p.delivered k = [] then .noData else .oldData,
        if copyOldData then (p.delivered k).getLast?.getD sample else sample) ∧ Same p p' := by
  obtain ⟨s, V, items, hs, hD, hV⟩ := h.held
  have hitems : items = [] := by
    by_contra hne
    exact hunread ⟨s, hs, (hD.unread_iff _ _ _ hV).mpr hne⟩
  subst hitems
  have hread : ∃ state, (s.1.connection β width).read sample copyOldData s.2 =
      some (state, if p.delivered k = [] then .noData else .oldData,
        if copyOldData then (p.delivered k).getLast?.getD sample else sample) ∧
      V [] (p.delivered k).getLast? state := by
    cases hlast : (p.delivered k).getLast? with
    | none =>
      rw [hlast] at hV
      obtain ⟨state, hstate, hV'⟩ := hD.readNone sample copyOldData _ hV
      refine ⟨state, ?_, hV'⟩
      rw [hstate, if_pos (List.getLast?_eq_none_iff.mp hlast), Option.getD_none, ite_self]
    | some x =>
      rw [hlast] at hV
      obtain ⟨state, hstate, hV'⟩ := hD.readOld sample copyOldData x _ hV
      refine ⟨state, ?_, hV'⟩
      have hne : p.delivered k ≠ [] := by
        intro he
        rw [he] at hlast
        cases hlast
      rw [hstate, if_neg hne, Option.getD_some]
  obtain ⟨state, hstate, hV'⟩ := hread
  have hstatus : (if p.delivered k = [] then FlowStatus.noData else .oldData) ≠ .newData := by
    split <;> decide
  let p' : Ports O I β width := { p with
    storage := Function.update p.storage k (some ⟨s.1, state⟩) }
  have hstorage : p'.storage k = some ⟨s.1, state⟩ := Function.update_self ..
  refine ⟨p', readStorage_old hs hstatus hstate, rfl, rfl, fun j => ?_, fun j hj => ?_,
    fun j hj => ?_⟩
  · show (∃ s', Function.update p.storage k _ j = some s' ∧ _) ↔ _
    by_cases hj : j = k
    · subst hj
      rw [Function.update_self]
      refine iff_of_false ?_ hunread
      rintro ⟨s', hs', hu⟩
      obtain rfl := Option.some.inj hs'
      exact (hD.unread_iff _ _ _ hV').mp hu rfl
    · rw [Function.update_of_ne hj]
      rfl
  · have hne : j ≠ k := fun he => hunread (he ▸ hj)
    exact Function.update_of_ne hne ..
  · have hk : p'.Served k := ⟨⟨s.1, state⟩, V, [], hstorage, hD, hV'⟩
    have hupdate : p'.storage = Function.update p.storage k (some ⟨s.1, state⟩) := rfl
    have hothers (j : ℕ) (_ : j ≠ k) : p'.delivered j = p.delivered j := rfl
    exact served_update hupdate hothers hk hj

/-- A sample is written to a storage, and the rest stays. -/
theorem Served.writeStorage (h : p.Served k) (sample : Fin width → β) :
    ∃ p', p.writeStorage k sample = some p' ∧ p'.network = p.network ∧
      p'.delivered = p.delivered ∧ ∀ j, p.Served j → p'.Served j := by
  obtain ⟨s, V, items, hs, hD, hV⟩ := h.held
  obtain ⟨items', state, hwrite, hV'⟩ := hD.write sample items _ _ hV
  let p' : Ports O I β width := { p with
    storage := Function.update p.storage k (some ⟨s.1, state⟩) }
  have hstorage : p'.storage k = some ⟨s.1, state⟩ := Function.update_self ..
  have hupdate : p'.storage = Function.update p.storage k (some ⟨s.1, state⟩) := rfl
  have hothers (j : ℕ) (_ : j ≠ k) : p'.delivered j = p.delivered j := rfl
  refine ⟨p', ?_, rfl, rfl, fun j hj => ?_⟩
  · rw [Ports.writeStorage, hs, Option.bind_eq_bind, Option.bind_some]
    show ((s.1.connection β width).write sample s.2).bind _ = _
    rw [hwrite]
    rfl
  · have hk : p'.Served k := ⟨⟨s.1, state⟩, V, items', hstorage, hD, hV'⟩
    exact served_update hupdate hothers hk hj

theorem buildStorage_delivers (start : ChannelStart β width) : ∃ s V items,
    buildStorage start = some s ∧ Delivers (s.1.connection β width) s.1.unread V ∧
      V items none s.2 := by
  obtain ⟨V, hD, hnew⟩ := @ConnPolicy.delivers β width start.policy.toConnPolicy
    start.policy.positive start.policy.bounded
  have hV := hnew start.default start.lastWrittenValue start.sample
  cases hinit : start.init with
  | false => exact ⟨⟨start.policy.toConnPolicy, _⟩, V, [], by rw [buildStorage, hinit]; rfl, hD, hV⟩
  | true =>
    obtain ⟨items, state, hwrite, hV'⟩ := hD.write start.sample _ _ _ hV
    refine ⟨⟨start.policy.toConnPolicy, state⟩, V, items, ?_, hD, hV'⟩
    rw [buildStorage, hinit, if_pos rfl, hwrite, Option.map_some]

end Storage

/-- A new sample was taken from channel `k`, the one that its storage had for the next read. -/
structure Took (k : ℕ) (x : Fin width → β) (p p' : Ports O I β width) : Prop where
  network : p'.network = p.network
  delivered : p'.delivered = Function.update p.delivered k (p.delivered k ++ [x])
  unread : p.unread k
  next : ∀ sample copyOldData, ∃ p'', p.readStorage k sample copyOldData = some (p'', .newData, x)
  served : ∀ j, p.Served j → p'.Served j

theorem Same.took {p p' p'' : Ports O I β width} {k : ℕ} {x : Fin width → β} (h : Same p p')
    (h' : Took k x p' p'') (hserved : p.Served k) : Took k x p p'' where
  network := h'.network.trans h.network
  delivered := by rw [h'.delivered, h.delivered]
  unread := (h.unread k).mp h'.unread
  next := by
    have hunread := (h.unread k).mp h'.unread
    obtain ⟨x', hx'⟩ := hserved.read_new hunread
    intro sample copyOldData
    obtain ⟨p₁, hp₁, -⟩ := hx' sample copyOldData
    obtain ⟨p₂, hp₂⟩ := h'.next sample copyOldData
    have hsame : (p'.readStorage k sample copyOldData).map Prod.snd =
        (p.readStorage k sample copyOldData).map Prod.snd := by
      rw [readStorage_snd, readStorage_snd, h.storage k hunread]
    rw [hp₁, hp₂] at hsame
    have hx : x = x' := congrArg Prod.snd (Option.some.inj hsame)
    exact ⟨p₁, hx ▸ hp₁⟩
  served := fun j hj => h'.served j (h.served j hj)

section Search

variable {live : List (LocalConnection O I)} {p : Ports O I β width} {c : LocalConnection O I}

/-- The input end point of a channel passes a read on to the storage. -/
theorem readElement_complete (hc : c.Complete p.network) (sample : Fin width → β)
    (copyOldData : Bool) : readElement 3 (c.descriptor false).channel sample copyOldData p =
      p.readStorage c.channel sample copyOldData := by
  have hinput : p.network.input (c.descriptor false).channel = some (c.element .storage) :=
    hc.next false .outputEndpoint
  rw [readElement]
  show (match p.network.input _ with | some _ => _ | none => _) = _
  rw [hinput]
  rfl

theorem doRead_new (hc : c.Complete p.network) (h : p.Served c.channel)
    (hunread : p.unread c.channel) : ∃ x, ∀ copyOldData result sample, ∃ p',
      doRead copyOldData (c.descriptor false) ⟨p, result, sample⟩ =
        some (⟨p', .newData, x⟩, true) ∧ Took c.channel x p p' := by
  obtain ⟨x, hx⟩ := h.read_new hunread
  refine ⟨x, fun copyOldData result sample => ?_⟩
  obtain ⟨p', hp', hnetwork, hdelivered, hserved⟩ := hx sample copyOldData
  refine ⟨p', ?_, hnetwork, hdelivered, hunread, fun sample copyOldData => ?_, hserved⟩
  · rw [doRead, readElement_complete hc, hp']
    rfl
  · obtain ⟨p'', hp'', -⟩ := hx sample copyOldData
    exact ⟨p'', hp''⟩

theorem doRead_old (hc : c.Complete p.network) (h : p.Served c.channel)
    (hunread : ¬ p.unread c.channel) (copyOldData : Bool) {result : FlowStatus}
    (hresult : result ≠ .newData) (sample : Fin width → β) : ∃ p',
      doRead copyOldData (c.descriptor false) ⟨p, result, sample⟩ =
        some (⟨p', if p.delivered c.channel = [] then result else .oldData,
          if copyOldData then (p.delivered c.channel).getLast?.getD sample else sample⟩, false) ∧
      Same p p' := by
  obtain ⟨p', hp', hsame⟩ := h.read_old hunread sample copyOldData
  refine ⟨p', ?_, hsame⟩
  rw [doRead, readElement_complete hc, hp']
  by_cases hnone : p.delivered c.channel = []
  · rw [if_pos hnone, if_pos hnone]
    cases result with
    | newData => exact absurd rfl hresult
    | noData => rfl
    | oldData => rfl
  · rw [if_neg hnone, if_neg hnone]
    cases result with
    | newData => exact absurd rfl hresult
    | noData => rfl
    | oldData => rfl

theorem Same.complete {p' : Ports O I β width} (h : Same p p') (hc : c.Complete p.network) :
    c.Complete p'.network := by
  rw [h.network]
  exact hc

variable {cs : List (LocalConnection O I)}

/-- The search stops at the first channel with a new sample. -/
theorem findNew_new (hcs : ∀ c ∈ cs, c.Complete p.network ∧ p.Served c.channel)
    (hunread : ∃ c ∈ cs, p.unread c.channel) {result : FlowStatus} (hresult : result ≠ .newData)
    (sample : Fin width → β) : ∃ c ∈ cs, ∃ x p',
      findNew (cs.map (LocalConnection.descriptor false)) ⟨p, result, sample⟩ =
        some (⟨p', .newData, x⟩, some (c.descriptor false)) ∧ Took c.channel x p p' := by
  induction cs generalizing p result with
  | nil =>
    obtain ⟨c, hc, -⟩ := hunread
    cases hc
  | cons c cs ih =>
    obtain ⟨⟨hc, hserved⟩, hcs⟩ := List.forall_mem_cons.mp hcs
    by_cases hu : p.unread c.channel
    · obtain ⟨x, hx⟩ := doRead_new hc hserved hu
      obtain ⟨p', hp', htook⟩ := hx false result sample
      refine ⟨c, List.mem_cons_self, x, p', ?_, htook⟩
      rw [List.map_cons, findNew, hp']
      rfl
    · obtain ⟨p₁, hp₁, hsame⟩ := doRead_old hc hserved hu false hresult sample
      have hrest : ∃ c ∈ cs, p₁.unread c.channel := by
        obtain ⟨d, hd, hdu⟩ := hunread
        have hd' : d ∈ cs := (List.mem_cons.mp hd).resolve_left fun he => hu (he ▸ hdu)
        exact ⟨d, hd', (hsame.unread _).mpr hdu⟩
      have hcs₁ (d : LocalConnection O I) (hd : d ∈ cs) :
          d.Complete p₁.network ∧ p₁.Served d.channel :=
        ⟨hsame.complete (hcs d hd).1, hsame.served _ (hcs d hd).2⟩
      have hresult₁ : (if p.delivered c.channel = [] then result else .oldData) ≠ .newData := by
        split
        · exact hresult
        · decide
      obtain ⟨d, hd, x, p', hp', htook⟩ := ih hcs₁ hrest hresult₁
      refine ⟨d, List.mem_cons_of_mem _ hd, x, p', ?_, hsame.took htook (hcs d hd).2⟩
      rw [List.map_cons, findNew, hp₁]
      exact hp'

/-- A search that finds no new sample leaves the caller's sample as it was. -/
theorem findNew_old (hcs : ∀ c ∈ cs, c.Complete p.network ∧ p.Served c.channel)
    (hunread : ∀ c ∈ cs, ¬ p.unread c.channel) {result : FlowStatus} (hresult : result ≠ .newData)
    (sample : Fin width → β) : ∃ p',
      findNew (cs.map (LocalConnection.descriptor false)) ⟨p, result, sample⟩ =
        some (⟨p', if ∀ c ∈ cs, p.delivered c.channel = [] then result else .oldData, sample⟩,
          none) ∧ Same p p' := by
  induction cs generalizing p result with
  | nil =>
    refine ⟨p, ?_, Same.refl p⟩
    rw [if_pos (List.forall_mem_nil _)]
    rfl
  | cons c cs ih =>
    obtain ⟨⟨hc, hserved⟩, hcs⟩ := List.forall_mem_cons.mp hcs
    obtain ⟨hu, hunread⟩ := List.forall_mem_cons.mp hunread
    obtain ⟨p₁, hp₁, hsame⟩ := doRead_old hc hserved hu false hresult sample
    have hcs₁ (d : LocalConnection O I) (hd : d ∈ cs) :
        d.Complete p₁.network ∧ p₁.Served d.channel :=
      ⟨hsame.complete (hcs d hd).1, hsame.served _ (hcs d hd).2⟩
    have hunread₁ (d : LocalConnection O I) (hd : d ∈ cs) : ¬ p₁.unread d.channel :=
      fun hdu => hunread d hd ((hsame.unread _).mp hdu)
    have hresult₁ : (if p.delivered c.channel = [] then result else .oldData) ≠ .newData := by
      split
      · exact hresult
      · decide
    obtain ⟨p', hp', hsame'⟩ := ih hcs₁ hunread₁ hresult₁
    refine ⟨p', ?_, hsame.trans hsame'⟩
    rw [List.map_cons, findNew, hp₁]
    refine hp'.trans ?_
    rw [hsame.delivered]
    by_cases hnone : p.delivered c.channel = []
    · simp [hnone]
    · simp [hnone]

theorem writeAll_complete {cs : List (LocalConnection O I)} (sample : Fin width → β) :
    ∀ {p : Ports O I β width}, (∀ c ∈ cs, c.Complete p.network ∧ p.Served c.channel) →
      ∃ p', writeAll sample (cs.map (LocalConnection.descriptor true)) p =
        some (p', cs.map (LocalConnection.descriptor true)) ∧ p'.network = p.network ∧
          p'.delivered = p.delivered ∧ ∀ j, p.Served j → p'.Served j := by
  induction cs with
  | nil => exact fun _ => ⟨_, rfl, rfl, rfl, fun _ => id⟩
  | cons c cs ih =>
    intro p hcs
    obtain ⟨⟨hc, hserved⟩, hcs⟩ := List.forall_mem_cons.mp hcs
    obtain ⟨p₁, hp₁, hnetwork, hdelivered, hkeeps⟩ := hserved.writeStorage sample
    have helement : writeElement 3 (c.descriptor true).channel sample p = some (p₁, true) := by
      have houtput : p.network.output (c.descriptor true).channel = some (c.element .storage) :=
        hc.next true .inputEndpoint
      rw [writeElement]
      show (match p.network.output _ with | some _ => _ | none => _) = _
      rw [houtput]
      show (p.writeStorage c.channel sample).map _ = _
      rw [hp₁, Option.map_some]
    have hcs₁ (d : LocalConnection O I) (hd : d ∈ cs) :
        d.Complete p₁.network ∧ p₁.Served d.channel :=
      ⟨hnetwork ▸ (hcs d hd).1, hkeeps _ (hcs d hd).2⟩
    obtain ⟨p', hp', hnetwork', hdelivered', hkeeps'⟩ := ih hcs₁
    refine ⟨p', ?_, hnetwork'.trans hnetwork, hdelivered'.trans hdelivered,
      fun j hj => hkeeps' j (hkeeps j hj)⟩
    rw [List.map_cons, writeAll, helement, Option.bind_eq_bind, Option.bind_some]
    show (writeAll sample (cs.map _) p₁).bind _ = _
    rw [hp']
    rfl

end Search

/-! ### A read -/

section Kept

variable [DecidableEq O] [DecidableEq I]

/-- The ports list the channels of `channels`, and their storages are at work. -/
structure Kept (channels : List (LocalConnection O I)) (p : Ports O I β width) : Prop where
  live : Network.Live channels p.network
  served : ∀ c ∈ channels, p.Served c.channel
  fresh : ∀ k, p.network.created ≤ k → p.delivered k = []

/-- The channels of an input port, in the order in which they were connected. -/
def channelsAt (channels : List (LocalConnection O I)) (i : I) : List (LocalConnection O I) :=
  channels.filter (·.port false = .inr i)

variable {channels : List (LocalConnection O I)} {p : Ports O I β width}

theorem Kept.connections (h : Kept channels p) (i : I) :
    (p.network.manager (.inr i)).connections =
      (channelsAt channels i).map (LocalConnection.descriptor false) :=
  h.live.listed (.inr i)

theorem Kept.served_at (h : Kept channels p) {i : I} {c : LocalConnection O I}
    (hc : c ∈ channelsAt channels i) : c.Complete p.network ∧ p.Served c.channel :=
  have hc := (List.mem_filter.mp hc).1
  ⟨h.live.complete c hc, h.served c hc⟩

/-- The current channel is one of the port. -/
theorem Kept.current (h : Kept channels p) {i : I} {d : ChannelDescriptor O I}
    (hd : (p.network.manager (.inr i)).curChannel = some d) :
    ∃ c ∈ channelsAt channels i, c.descriptor false = d := by
  have hmem := (h.live.current (.inr i)).mem d hd
  rw [h.connections] at hmem
  exact List.mem_map.mp hmem

theorem read_new (h : Kept channels p) {i : I}
    (hunread : ∃ c ∈ channelsAt channels i, p.unread c.channel) (sample : Fin width → β)
    (copyOldData : Bool) :
    ∃ c ∈ channelsAt channels i, ∃ x p', Took c.channel x p p' ∧
      p.read i sample copyOldData = some ({ p' with
        network := p.network.setManager (.inr i)
          { p.network.manager (.inr i) with curChannel := some (c.descriptor false) } },
        .newData, x) := by
  have hcs (c : LocalConnection O I) (hc : c ∈ channelsAt channels i) := h.served_at hc
  have hfound {c : LocalConnection O I} (hc : c ∈ channelsAt channels i) {x : Fin width → β}
      {p' : Ports O I β width} (htook : Took c.channel x p p')
      (hfind : findIf copyOldData (p.network.manager (.inr i)) ⟨p, .noData, sample⟩ =
        some (⟨p', .newData, x⟩, some (c.descriptor false))) :
      ∃ c ∈ channelsAt channels i, ∃ x p', Took c.channel x p p' ∧
        p.read i sample copyOldData = some ({ p' with
          network := p.network.setManager (.inr i)
            { p.network.manager (.inr i) with curChannel := some (c.descriptor false) } },
          .newData, x) := by
    refine ⟨c, hc, x, p', htook, ?_⟩
    rw [read, selectReaderChannel]
    simp only [Option.bind_eq_bind, hfind, Option.bind_some, htook.network]
    rfl
  have hnone : FlowStatus.noData ≠ .newData := by decide
  cases hcur : (p.network.manager (.inr i)).curChannel with
  | none =>
    obtain ⟨c, hc, x, p', hp', htook⟩ := findNew_new hcs hunread hnone sample
    apply hfound hc htook
    rw [findIf, hcur, h.connections]
    exact hp'
  | some d =>
    obtain ⟨c, hc, rfl⟩ := h.current hcur
    obtain ⟨hcomplete, hserved⟩ := hcs c hc
    by_cases hu : p.unread c.channel
    · obtain ⟨x, hx⟩ := doRead_new hcomplete hserved hu
      obtain ⟨p', hp', htook⟩ := hx copyOldData .noData sample
      apply hfound hc htook
      rw [findIf, hcur]
      simp only [Option.bind_eq_bind, hp', Option.bind_some]
      rfl
    · obtain ⟨p₁, hp₁, hsame⟩ := doRead_old hcomplete hserved hu copyOldData hnone sample
      have hcs₁ (d : LocalConnection O I) (hd : d ∈ channelsAt channels i) :
          d.Complete p₁.network ∧ p₁.Served d.channel :=
        ⟨hsame.complete (hcs d hd).1, hsame.served _ (hcs d hd).2⟩
      have hunread₁ : ∃ d ∈ channelsAt channels i, p₁.unread d.channel := by
        obtain ⟨d, hd, hdu⟩ := hunread
        exact ⟨d, hd, (hsame.unread _).mpr hdu⟩
      have hresult₁ : (if p.delivered c.channel = [] then FlowStatus.noData else .oldData) ≠
          .newData := by
        split <;> decide
      obtain ⟨d, hd, x, p', hp', htook⟩ := findNew_new hcs₁ hunread₁ hresult₁
        (if copyOldData then (p.delivered c.channel).getLast?.getD sample else sample)
      apply hfound hd (hsame.took htook (hcs d hd).2)
      rw [findIf, hcur]
      simp only [Option.bind_eq_bind, hp₁, Option.bind_some]
      rw [h.connections]
      exact hp'

/-- What the current channel has delivered last, if anything. -/
def currentDelivered (i : I) (p : Ports O I β width) : Option (Fin width → β) :=
  (p.network.manager (.inr i)).curChannel.bind fun d =>
    (p.delivered d.channel.channel).getLast?

theorem read_old (h : Kept channels p) {i : I}
    (hunread : ∀ c ∈ channelsAt channels i, ¬ p.unread c.channel) (sample : Fin width → β)
    (copyOldData : Bool) :
    ∃ p', Same p p' ∧ p.read i sample copyOldData = some (p',
      if ∀ c ∈ channelsAt channels i, p.delivered c.channel = [] then .noData else .oldData,
      if copyOldData then (p.currentDelivered i).getD sample else sample) := by
  have hcs (c : LocalConnection O I) (hc : c ∈ channelsAt channels i) := h.served_at hc
  have hnone : FlowStatus.noData ≠ .newData := by decide
  rw [currentDelivered, read, selectReaderChannel]
  cases hcur : (p.network.manager (.inr i)).curChannel with
  | none =>
    obtain ⟨p', hp', hsame⟩ := findNew_old hcs hunread hnone sample
    refine ⟨p', hsame, ?_⟩
    simp only [findIf, hcur, h.connections, hp', Option.bind_eq_bind, Option.bind_some]
    simp
  | some d =>
    obtain ⟨c, hc, rfl⟩ := h.current hcur
    obtain ⟨hcomplete, hserved⟩ := hcs c hc
    obtain ⟨p₁, hp₁, hsame⟩ := doRead_old hcomplete hserved (hunread c hc) copyOldData hnone sample
    have hcs₁ (d : LocalConnection O I) (hd : d ∈ channelsAt channels i) :
        d.Complete p₁.network ∧ p₁.Served d.channel :=
      ⟨hsame.complete (hcs d hd).1, hsame.served _ (hcs d hd).2⟩
    have hunread₁ (d : LocalConnection O I) (hd : d ∈ channelsAt channels i) :
        ¬ p₁.unread d.channel := fun hdu => hunread d hd ((hsame.unread _).mp hdu)
    have hresult₁ : (if p.delivered c.channel = [] then FlowStatus.noData else .oldData) ≠
        .newData := by
      split <;> decide
    obtain ⟨p', hp', hsame'⟩ := findNew_old hcs₁ hunread₁ hresult₁
      (if copyOldData then (p.delivered c.channel).getLast?.getD sample else sample)
    refine ⟨p', hsame.trans hsame', ?_⟩
    simp only [findIf, hcur, h.connections, hp₁, hp', Option.bind_eq_bind, Option.bind_some]
    rw [hsame.delivered]
    by_cases hall : ∀ c ∈ channelsAt channels i, p.delivered c.channel = []
    · simp only [if_pos hall, if_pos (hall c hc)]
      rfl
    · simp only [if_neg hall]
      rfl

end Kept

/-! ### Runs -/

section Runs

variable [DecidableEq O] [DecidableEq I]

/-- The channels that an input port lists. -/
def listed (i : I) (p : Ports O I β width) : List ℕ :=
  (p.network.manager (.inr i)).connections.map fun d => d.channel.channel

/-- A read that may copy an old sample: it gives a new sample when a channel has one, and then the one
that a channel has; an old one only if it is a sample that a channel delivered before, whatever the
caller's sample was; and none when no channel delivered or has one. -/
structure ReadsWell (i : I) (p : Ports O I β width) : Prop where
  returns : ∀ sample, (p.read i sample true).isSome
  newData : ∀ sample p' status x, p.read i sample true = some (p', status, x) →
    (status = .newData ↔ ∃ k ∈ p.listed i, p.unread k)
  delivers : ∀ sample p' x, p.read i sample true = some (p', .newData, x) →
    ∃ k ∈ p.listed i, p.unread k ∧
      (∃ p'', p.readStorage k sample true = some (p'', .newData, x)) ∧
      p'.delivered = Function.update p.delivered k (p.delivered k ++ [x])
  oldData : ∀ sample p' x, p.read i sample true = some (p', .oldData, x) →
    ∃ k ∈ p.listed i, ∃ y ∈ p.delivered k,
      ∀ sample, ∃ p', p.read i sample true = some (p', .oldData, y)
  noData : ∀ sample p' status x, p.read i sample true = some (p', status, x) →
    (status = .noData ↔ ∀ k ∈ p.listed i, ¬ p.unread k ∧ p.delivered k = [])

/-- When a channel of the port has delivered a sample and none has a new one, the current channel has
delivered a sample. -/
def currentReady (i : I) (p : Ports O I β width) : Prop :=
  (∀ k ∈ p.listed i, ¬ p.unread k) → (∃ k ∈ p.listed i, p.delivered k ≠ []) →
    p.currentDelivered i ≠ none

variable {channels : List (LocalConnection O I)} {p : Ports O I β width}

theorem Kept.listed_eq (h : Kept channels p) (i : I) :
    p.listed i = (channelsAt channels i).map LocalConnection.channel := by
  rw [listed, h.connections, List.map_map]
  rfl

/-- A read finds a new sample when there is one. -/
theorem Kept.readsWell_new (h : Kept channels p) {i : I}
    (hunread : ∃ c ∈ channelsAt channels i, p.unread c.channel) : p.ReadsWell i := by
  have hread (sample : Fin width → β) := read_new h hunread sample true
  have hmem {c : LocalConnection O I} (hc : c ∈ channelsAt channels i) : c.channel ∈ p.listed i := by
    rw [h.listed_eq]
    exact List.mem_map_of_mem hc
  constructor
  · intro sample
    obtain ⟨c, hc, x, p', htook, heq⟩ := hread sample
    rw [heq]
    rfl
  · intro sample p₁ status y hp₁
    obtain ⟨c, hc, x, p', htook, heq⟩ := hread sample
    obtain ⟨-, rfl, -⟩ : _ ∧ FlowStatus.newData = status ∧ x = y := by
      simpa using heq.symm.trans hp₁
    exact iff_of_true rfl ⟨c.channel, hmem hc, htook.unread⟩
  · intro sample p₁ y hp₁
    obtain ⟨c, hc, x, p', htook, heq⟩ := hread sample
    obtain ⟨rfl, rfl⟩ : _ = p₁ ∧ x = y := by
      simpa using heq.symm.trans hp₁
    exact ⟨c.channel, hmem hc, htook.unread, htook.next sample true, htook.delivered⟩
  · intro sample p₁ y hp₁
    obtain ⟨c, hc, x, p', htook, heq⟩ := hread sample
    cases heq.symm.trans hp₁
  · intro sample p₁ status y hp₁
    obtain ⟨c, hc, x, p', htook, heq⟩ := hread sample
    obtain ⟨-, rfl, -⟩ : _ ∧ FlowStatus.newData = status ∧ x = y := by
      simpa using heq.symm.trans hp₁
    exact iff_of_false nofun fun hall => (hall c.channel (hmem hc)).1 htook.unread

theorem Kept.readsWell_iff [Nontrivial (Fin width → β)] (h : Kept channels p) (i : I) :
    p.ReadsWell i ↔ p.currentReady i := by
  have hlisted {P : ℕ → Prop} : (∃ k ∈ p.listed i, P k) ↔
      ∃ c ∈ channelsAt channels i, P c.channel := by
    simp [h.listed_eq]
  have hall {P : ℕ → Prop} : (∀ k ∈ p.listed i, P k) ↔
      ∀ c ∈ channelsAt channels i, P c.channel := by
    simp [h.listed_eq]
  by_cases hunread : ∃ c ∈ channelsAt channels i, p.unread c.channel
  · have hready : p.currentReady i := by
      intro hnone
      obtain ⟨c, hc, hu⟩ := hunread
      exact absurd hu (hall.mp hnone c hc)
    exact iff_of_true (h.readsWell_new hunread) hready
  push Not at hunread
  have hread (sample : Fin width → β) := read_old h hunread sample true
  have hunread' : ¬ ∃ k ∈ p.listed i, p.unread k := by
    rw [hlisted]
    exact fun ⟨c, hc, hu⟩ => hunread c hc hu
  by_cases hnone : ∀ c ∈ channelsAt channels i, p.delivered c.channel = []
  · have hready : p.currentReady i := by
      rintro - ⟨k, hk, hne⟩
      exact (hne ((hall (P := fun k => p.delivered k = [])).mpr hnone k hk)).elim
    refine iff_of_true ⟨fun sample => ?_, fun sample p₁ status y hp₁ => ?_, fun sample p₁ y hp₁ => ?_,
      fun sample p₁ y hp₁ => ?_, fun sample p₁ status y hp₁ => ?_⟩ hready
    all_goals
      obtain ⟨p', -, heq⟩ := hread sample
      rw [if_pos hnone] at heq
    · rw [heq]
      rfl
    · cases heq.symm.trans hp₁
      exact iff_of_false nofun hunread'
    · cases heq.symm.trans hp₁
    · cases heq.symm.trans hp₁
    · cases heq.symm.trans hp₁
      exact iff_of_true rfl (hall.mpr fun c hc => ⟨hunread c hc, hnone c hc⟩)
  · have hsome : ∃ k ∈ p.listed i, p.delivered k ≠ [] := by
      rw [hlisted]
      push Not at hnone
      exact hnone
    constructor
    · intro hwell _ _ hcur
      obtain ⟨p₁, -, heq⟩ := hread (Classical.choice (Nontrivial.to_nonempty))
      rw [if_neg hnone] at heq
      obtain ⟨k, -, y, -, hy⟩ := hwell.oldData _ _ _ heq
      obtain ⟨z, hz⟩ := exists_ne y
      obtain ⟨p₂, hp₂⟩ := hy z
      obtain ⟨p₃, -, heq'⟩ := hread z
      rw [if_neg hnone, hcur] at heq'
      cases heq'.symm.trans hp₂
      exact hz rfl
    · intro hready
      have hcur := hready (hall.mpr hunread) hsome
      obtain ⟨y, hy⟩ := Option.ne_none_iff_exists'.mp hcur
      refine ⟨fun sample => ?_, fun sample p₁ status y hp₁ => ?_, fun sample p₁ y hp₁ => ?_,
        fun sample p₁ x hp₁ => ?_, fun sample p₁ status y hp₁ => ?_⟩
      all_goals
        obtain ⟨p', -, heq⟩ := hread sample
        rw [if_neg hnone] at heq
      · rw [heq]
        rfl
      · cases heq.symm.trans hp₁
        exact iff_of_false nofun hunread'
      · cases heq.symm.trans hp₁
      · obtain ⟨d, hd, hlast⟩ := Option.bind_eq_some_iff.mp hy
        obtain ⟨c, hc, rfl⟩ := h.current hd
        have hk : c.channel ∈ p.listed i := by
          rw [h.listed_eq]
          exact List.mem_map_of_mem hc
        refine ⟨c.channel, hk, y, List.mem_of_getLast? hlast, fun sample => ?_⟩
        obtain ⟨p', -, heq⟩ := hread sample
        rw [if_neg hnone, if_pos rfl, hy] at heq
        exact ⟨p', heq⟩
      · cases heq.symm.trans hp₁
        refine iff_of_false nofun fun hall' => ?_
        obtain ⟨k, hk, hne⟩ := hsome
        exact hne (hall' k hk).2

theorem create_kept : Kept [] (create : Ports O I β width) :=
  ⟨Network.create_live, nofun, fun _ _ => rfl⟩

/-- Another channel of the port becomes the current one. -/
theorem setCurrent_live {network : Network O I} (h : Network.Live channels network) {i : I}
    {d : ChannelDescriptor O I} (hd : d ∈ (network.manager (.inr i)).connections) :
    Network.Live channels (network.setManager (.inr i)
      { network.manager (.inr i) with curChannel := some d }) := by
  refine { h with listed := fun port => ?_, current := fun port => ?_, complete := fun c hc => ?_ }
  · show (Function.update network.manager _ _ _).connections = _
    by_cases hport : port = .inr i
    · rw [hport, Function.update_self]
      exact h.listed _
    · rw [Function.update_of_ne hport]
      exact h.listed port
  · show (Function.update network.manager _ _ _).Current
    by_cases hport : port = .inr i
    · rw [hport, Function.update_self]
      refine ⟨iff_of_false nofun fun hnil => ?_, fun d' hd' => ?_⟩
      · rw [show (network.manager (.inr i)).connections = [] from hnil] at hd
        cases hd
      · exact Option.some.inj hd' ▸ hd
    · rw [Function.update_of_ne hport]
      exact h.current port
  · exact { h.complete c hc with }

theorem Kept.read (h : Kept channels p) (i : I) (sample : Fin width → β) (copyOldData : Bool) :
    ∃ p' r, p.read i sample copyOldData = some (p', r) ∧ Kept channels p' := by
  by_cases hunread : ∃ c ∈ channelsAt channels i, p.unread c.channel
  · obtain ⟨c, hc, x, p', htook, heq⟩ := read_new h hunread sample copyOldData
    refine ⟨_, _, heq, ?_, fun d hd => ?_, fun k hk => ?_⟩
    · apply setCurrent_live h.live
      rw [h.connections]
      exact List.mem_map_of_mem hc
    · exact { htook.served _ (h.served d hd) with }
    · have hne : k ≠ c.channel :=
        Nat.ne_of_gt (Nat.lt_of_lt_of_le (h.live.fresh c (List.mem_filter.mp hc).1) hk)
      show p'.delivered k = []
      rw [htook.delivered, Function.update_of_ne hne]
      exact h.fresh k hk
  · push Not at hunread
    obtain ⟨p', hsame, heq⟩ := read_old h hunread sample copyOldData
    refine ⟨_, _, heq, ?_, fun d hd => hsame.served _ (h.served d hd), fun k hk => ?_⟩
    · rw [hsame.network]
      exact h.live
    · rw [hsame.delivered]
      exact h.fresh k (hsame.network ▸ hk)

theorem Kept.write (h : Kept channels p) (o : O) (sample : Fin width → β) :
    ∃ p', p.write o sample = some p' ∧ Kept channels p' := by
  have hlisted : (p.network.manager (.inl o)).connections =
      (channels.filter (·.port true = .inl o)).map (LocalConnection.descriptor true) :=
    h.live.listed (.inl o)
  obtain ⟨p', hp', hnetwork, hdelivered, hkeeps⟩ := writeAll_complete sample
    fun c (hc : c ∈ channels.filter (·.port true = .inl o)) =>
      have hc := (List.mem_filter.mp hc).1
      ⟨h.live.complete c hc, h.served c hc⟩
  have hsame : p'.network.setManager (.inl o) { p.network.manager (.inl o) with
      connections := (p.network.manager (.inl o)).connections } = p.network := by
    rw [hnetwork]
    exact Network.setManager_self ..
  refine ⟨{ p' with network := p.network }, ?_, h.live, fun c hc => ?_, fun k hk => ?_⟩
  · rw [Ports.write, hlisted, hp', Option.bind_eq_bind, Option.bind_some]
    show some { p' with network := _ } = _
    rw [← hlisted, hsame]
  · exact { hkeeps _ (h.served c hc) with }
  · show p'.delivered k = []
    rw [hdelivered]
    exact h.fresh k hk

theorem Kept.createConnection (h : Kept channels p) (o : O) (i : I) (compatible added : Bool)
    (start : ChannelStart β width) :
    ∃ p' channels', p.createConnection o i compatible added start = some p' ∧
      Kept channels' p' := by
  obtain ⟨network, channels', r, hnetwork, hlive, hnew, hcreated, hbuilt⟩ :=
    h.live.createConnection o i compatible added
  have hfresh (k : ℕ) (hk : network.created ≤ k) : p.delivered k = [] :=
    h.fresh k (Nat.le_trans hcreated hk)
  rw [Ports.createConnection, hnetwork, Option.bind_eq_bind, Option.bind_some]
  cases compatible with
  | false =>
    refine ⟨{ p with network }, channels', rfl, hlive, fun c hc => ?_, hfresh⟩
    have hold := (hnew c hc).resolve_right fun hright => absurd hright.2 Bool.false_ne_true
    exact { h.served c hold with }
  | true =>
    obtain ⟨s, V, items, hs, hD, hV⟩ := buildStorage_delivers start
    let p' : Ports O I β width :=
      { p with network, storage := Function.update p.storage p.network.created (some s) }
    have hp' : (buildStorage start).bind (fun s => some { p with
        network, storage := Function.update p.storage p.network.created (some s) }) = some p' := by
      rw [hs, Option.bind_some]
    refine ⟨p', channels', hp', hlive, fun c hc => ?_, hfresh⟩
    have hk : p'.Served p.network.created := by
      refine ⟨s, V, items, Function.update_self .., hD, ?_⟩
      show V items (p.delivered p.network.created).getLast? s.2
      rw [h.fresh _ (Nat.le_refl _)]
      exact hV
    rcases hnew c hc with hold | ⟨hchannel, -⟩
    · have hupdate : p'.storage = Function.update p.storage p.network.created (some s) := rfl
      have hothers (j : ℕ) (_ : j ≠ p.network.created) : p'.delivered j = p.delivered j := rfl
      exact served_update hupdate hothers hk { (h.served c hold) with }
    · rw [hchannel]
      exact hk

theorem Kept.perform (h : Kept channels p) (c : Call O I β width) :
    ∃ p' channels', Ports.perform c p = some p' ∧ Kept channels' p' := by
  have hsub {channels' : List (LocalConnection O I)} {network : Network O I}
      (hlive : Network.Live channels' network) (hsub : channels' ⊆ channels)
      (hcreated : p.network.created ≤ network.created) : Kept channels' { p with network } :=
    ⟨hlive, fun c hc => { h.served c (hsub hc) with },
      fun k hk => h.fresh k (Nat.le_trans hcreated hk)⟩
  cases c with
  | createConnection o i compatible added start => exact h.createConnection o i compatible added start
  | disconnectPort port other =>
    obtain ⟨network, channels', hs', hlive, hsub', hcreated⟩ := h.live.disconnectPort port other
    exact ⟨_, channels', congrArg (Option.map _) hs', hsub hlive hsub' hcreated⟩
  | disconnectAll port =>
    obtain ⟨network, channels', hs', hlive, hsub', hcreated⟩ := h.live.disconnectAll port
    exact ⟨_, channels', congrArg (Option.map _) hs', hsub hlive hsub' hcreated⟩
  | write o sample =>
    obtain ⟨p', hp', hkept⟩ := h.write o sample
    exact ⟨p', channels, hp', hkept⟩
  | read i sample copyOldData =>
    obtain ⟨p', r, hp', hkept⟩ := h.read i sample copyOldData
    exact ⟨p', channels, congrArg (Option.map Prod.fst) hp', hkept⟩

/-- A read that may copy an old sample does what a reader relies on. -/
def readsWell (s : Option (Ports O I β width)) (c : Call O I β width) : Prop :=
  match c with
  | .read i _ true => ∃ p, s = some p ∧ p.ReadsWell i
  | .read _ _ false | .createConnection .. | .disconnectPort .. | .disconnectAll _ | .write .. => True

/-- At a read that may copy an old sample, the current channel is ready. -/
def readsReady (s : Option (Ports O I β width)) (c : Call O I β width) : Prop :=
  match c with
  | .read i _ true => ∃ p, s = some p ∧ p.currentReady i
  | .read _ _ false | .createConnection .. | .disconnectPort .. | .disconnectAll _ | .write .. => True

/-- In a run from new ports, the reads do what a reader relies on exactly when the current channel has
delivered a sample whenever there are old samples only. -/
theorem reads_well_iff [Nontrivial (Fin width → β)] (cs : List (Call O I β width)) :
    Along step readsWell (some create) cs ↔ Along step readsReady (some create) cs := by
  apply along_congr (I := fun s => ∃ p channels, s = some p ∧ Kept channels p)
  · rintro s c ⟨p, channels, rfl, h⟩
    obtain ⟨p', channels', hp', h'⟩ := h.perform c
    exact ⟨p', channels', hp', h'⟩
  · rintro s c ⟨p, channels, rfl, h⟩
    have hiff (i : I) : (∃ p', some p = some p' ∧ p'.ReadsWell i) ↔
        ∃ p', some p = some p' ∧ p'.currentReady i := by
      simp [h.readsWell_iff i]
    cases c with
    | read i sample copyOldData =>
      cases copyOldData with
      | false => exact Iff.rfl
      | true => exact hiff i
    | createConnection | disconnectPort | disconnectAll | write => exact Iff.rfl
  · exact ⟨create, [], rfl, create_kept⟩

end Runs

section Example

def connect (o : Fin 3) : Call (Fin 3) Unit ℕ 1 :=
  .createConnection o () true true ⟨⟨⟨.data, .locked, 1⟩, by decide, by decide⟩, fun _ => 0, fun _ => 0,
    fun _ => 0, false⟩

/-- Two channels and no removal. -/
theorem reads_well_two :
    let sample (n : ℕ) : Fin 1 → ℕ := fun _ => n
    let cs : List (Call (Fin 3) Unit ℕ 1) := [connect 0, connect 1, .write 1 (sample 1),
      .read () (sample 0) true, .read () (sample 0) true]
    Along step readsWell (some create) cs ↔ Along step readsReady (some create) cs :=
  reads_well_iff _

/-- When the current channel is removed, one that never delivered takes its place. -/
theorem old_data_untouched :
    let sample (n : ℕ) : Fin 1 → ℕ := fun _ => n
    let cs : List (Call (Fin 3) Unit ℕ 1) := [connect 0, connect 1, connect 2, .write 1 (sample 1),
      .read () (sample 0) true, .write 2 (sample 2), .read () (sample 0) true,
      .disconnectPort (.inl 2) (.inr ())]
    let s := run step (some create) cs
    (s.map fun p => (p.listed ()).map p.delivered) = some [[], [sample 1]] ∧
      (s.bind (read () (sample 7) true)).map Prod.snd = some (.oldData, sample 7) := by
  decide

end Example

end Ports

end OrocosRtt.Channel
