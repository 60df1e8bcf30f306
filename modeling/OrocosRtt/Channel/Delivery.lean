import OrocosRtt.Channel.DataSample

/-! What a read at the end of a connection gives, for each kind of storage. -/
namespace OrocosRtt.Channel

open OrocosRtt.Buffer
open Library.Queue
open OrocosRtt.LockFree (BufferLockFree)

variable {α : Type}

/-- `V items last s` says that in the state `s` the samples `items` are not read yet and `last` was
read last. -/
structure Delivers (C : Connection α) (unread : C.State → Prop)
    (V : List α → Option α → C.State → Prop) : Prop where
  unread_iff : ∀ items last s, V items last s → (unread s ↔ items ≠ [])
  write : ∀ a items last s, V items last s →
    ∃ items' s', C.write a s = some s' ∧ V items' last s'
  readNew : ∀ a copyOldData x items last s, V (x :: items) last s →
    ∃ s', C.read a copyOldData s = some (s', .newData, x) ∧ V items (some x) s'
  readOld : ∀ a copyOldData x s, V [] (some x) s →
    ∃ s', C.read a copyOldData s = some (s', .oldData, if copyOldData then x else a) ∧
      V [] (some x) s'
  readNone : ∀ a copyOldData s, V [] none s →
    ∃ s', C.read a copyOldData s = some (s', .noData, a) ∧ V [] none s'

/-! ### Data elements -/

def DataElement.unread {D : DataObjectInterface α} (c : DataElement D) : Prop :=
  c.written = true ∧ c.mread = false

/-- The value that is stored was read when `mread` is set. -/
structure DataElement.Holds {D : DataObjectInterface α} (V : α → D.State → Prop) (items : List α)
    (last : Option α) (c : DataElement D) : Prop where
  stored : ∃ a, V a c.data ∧ (c.written = true → c.mread = false → items = [a]) ∧
    (c.written = true → c.mread = true → items = [] ∧ last = some a)
  fresh : c.written = false → items = [] ∧ last = none

section DataElement

variable {D : DataObjectInterface α} {V : α → D.State → Prop} {items : List α} {last : Option α}
  {c : DataElement D}

theorem DataElement.Holds.unread_iff (h : c.Holds V items last) : c.unread ↔ items ≠ [] := by
  obtain ⟨⟨a, -, hunread, hread⟩, hfresh⟩ := h
  rw [DataElement.unread]
  cases hw : c.written with
  | false => simp [(hfresh hw).1]
  | true =>
    cases hm : c.mread with
    | false => simp [hunread hw hm]
    | true => simp [(hread hw hm).1]

theorem DataElement.Holds.write (hD : Stores D V) (h : c.Holds V items last) (x : α) :
    ∃ c', c.write x = some c' ∧ c'.Holds V [x] last := by
  obtain ⟨⟨a, ha, -⟩, -⟩ := h
  obtain ⟨s, hs, hx⟩ := hD.set a x c.data ha
  refine ⟨⟨true, false, s⟩, ?_, ⟨x, hx, fun _ _ => rfl, fun _ => nofun⟩, nofun⟩
  rw [DataElement.write, hs, Option.map_some]

theorem DataElement.Holds.read_new (hD : Stores D V) {x : α} (h : c.Holds V (x :: items) last)
    (sample : α) (copyOldData : Bool) :
    ∃ c', c.read sample copyOldData = some (c', .newData, x) ∧ c'.Holds V items (some x) := by
  obtain ⟨⟨a, ha, hunread, hread⟩, hfresh⟩ := h
  obtain ⟨s, hs, ha'⟩ := hD.get a c.data ha
  cases hw : c.written with
  | false => cases (hfresh hw).1
  | true =>
    cases hm : c.mread with
    | true => cases (hread hw hm).1
    | false =>
      obtain ⟨rfl, rfl⟩ := List.cons.inj (hunread hw hm)
      refine ⟨⟨true, true, s⟩, ?_, ⟨x, ha', fun _ => nofun, fun _ _ => ⟨rfl, rfl⟩⟩, nofun⟩
      rw [DataElement.read, if_pos hw, if_pos hm, hs, Option.map_some]

theorem DataElement.Holds.read_old (hD : Stores D V) {x : α} (h : c.Holds V [] (some x))
    (sample : α) (copyOldData : Bool) :
    ∃ c', c.read sample copyOldData =
      some (c', .oldData, if copyOldData then x else sample) ∧ c'.Holds V [] (some x) := by
  obtain ⟨⟨a, ha, hunread, hread⟩, hfresh⟩ := h
  obtain ⟨s, hs, ha'⟩ := hD.get a c.data ha
  cases hw : c.written with
  | false => cases (hfresh hw).2
  | true =>
    cases hm : c.mread with
    | false => cases hunread hw hm
    | true =>
      obtain rfl := Option.some.inj (hread hw hm).2
      rw [DataElement.read, if_pos hw, if_neg (by simp [hm]), hs, Option.map_some]
      cases copyOldData with
      | false => exact ⟨c, rfl, ⟨x, ha, hunread, hread⟩, hfresh⟩
      | true => exact ⟨{ c with data := s }, rfl, ⟨x, ha', hunread, hread⟩, hfresh⟩

theorem DataElement.Holds.read_none (h : c.Holds V [] none) (sample : α) (copyOldData : Bool) :
    c.read sample copyOldData = some (c, .noData, sample) := by
  obtain ⟨⟨a, ha, hunread, hread⟩, hfresh⟩ := h
  cases hw : c.written with
  | false => rw [DataElement.read, if_neg (by simp [hw])]
  | true =>
    cases hm : c.mread with
    | false => cases hunread hw hm
    | true => cases (hread hw hm).2

theorem DataElement.delivers (hD : Stores D V) :
    Delivers (dataConnection D) DataElement.unread (DataElement.Holds V) where
  unread_iff := fun _ _ _ h => h.unread_iff
  write := fun a _ _ _ h => ⟨[a], h.write hD a⟩
  readNew := fun a copyOldData _ _ _ _ h => h.read_new hD a copyOldData
  readOld := fun a copyOldData _ _ h => h.read_old hD a copyOldData
  readNone := fun a copyOldData s h => ⟨s, h.read_none a copyOldData, h⟩

end DataElement

/-! ### Buffers -/

/-- The samples of a bounded queue, and the one that was read last. -/
def Queued {B : BufferInterface α} (capacity : ℕ)
    (R : List α → Option (B.Pointer × α) → B.State → Prop) (items : List α) (last : Option α)
    (c : ChannelBufferElement B) : Prop :=
  ∃ f : Fifo α capacity, Related R f c ∧ f.queue.items = items ∧ f.last = last

theorem read_of_perform {B : BufferInterface α} {capacity : ℕ} {circular : Bool}
    {R : List α → Option (B.Pointer × α) → B.State → Prop} (hB : Implements B capacity circular R)
    {f g : Fifo α capacity} {c : ChannelBufferElement B} (h : Related R f c) {a : α}
    {copyOldData : Bool} {status : FlowStatus} {x : α}
    (hperform : f.perform circular (.read a copyOldData) = (g, .flow status x)) :
    ∃ c', c.read a copyOldData = some (c', status, x) ∧ Related R g c' := by
  obtain ⟨c', hc', hrelated⟩ := hB.perform (o := .read a copyOldData) trivial h
  rw [hperform] at hc' hrelated
  obtain ⟨⟨c'', r⟩, hr, he⟩ := Option.map_eq_some_iff.mp hc'
  obtain ⟨rfl, hflow⟩ := Prod.mk.inj he
  obtain ⟨rfl, rfl⟩ := Result.flow.inj hflow
  exact ⟨c'', hr, hrelated⟩

theorem delivers_of_implements {B : BufferInterface α} {capacity : ℕ} {circular : Bool}
    {R : List α → Option (B.Pointer × α) → B.State → Prop} (hB : Implements B capacity circular R)
    {dataSample : α → B.State → B.State} {size : B.State → ℤ}
    {unread : ChannelBufferElement B → Prop}
    (hunread : ∀ items h (c : ChannelBufferElement B), R items h c.buffer → (unread c ↔ items ≠ [])) :
    Delivers (bufferConnection B dataSample size) unread (Queued capacity R) where
  unread_iff := by
    rintro items last c ⟨f, ⟨h, hr, -⟩, rfl, -⟩
    exact hunread f.queue.items h c hr
  write := by
    rintro a items last c ⟨f, hf, rfl, rfl⟩
    obtain ⟨c', hc', hrelated⟩ := hB.perform (o := .write a true) trivial hf
    obtain ⟨x, hx, he⟩ := Option.map_eq_some_iff.mp hc'
    refine ⟨_, c', ?_, _, hrelated, rfl, rfl⟩
    have hfst : x.1 = c' := congrArg Prod.fst he
    rw [← hfst]
    exact congrArg (Option.map Prod.fst) hx
  readNew := by
    rintro a copyOldData x items last c ⟨f, hf, hitems, -⟩
    obtain ⟨q, hpop, hq⟩ := BoundedQueue.pop_cons hitems
    have hperform : f.perform circular (.read a copyOldData) =
        (⟨q, some x⟩, .flow .newData x) := by
      simp [Fifo.perform, hpop]
    obtain ⟨c', hc', hrelated⟩ := read_of_perform hB hf hperform
    exact ⟨c', hc', _, hrelated, hq, rfl⟩
  readOld := by
    rintro a copyOldData x c ⟨f, hf, hitems, hlast⟩
    have hperform : f.perform circular (.read a copyOldData) =
        (f, .flow .oldData (if copyOldData then x else a)) := by
      simp [Fifo.perform, BoundedQueue.pop_nil hitems, hlast]
    obtain ⟨c', hc', hrelated⟩ := read_of_perform hB hf hperform
    exact ⟨c', hc', f, hrelated, hitems, hlast⟩
  readNone := by
    rintro a copyOldData c ⟨f, hf, hitems, hlast⟩
    have hperform : f.perform circular (.read a copyOldData) = (f, .flow .noData a) := by
      simp [Fifo.perform, BoundedQueue.pop_nil hitems, hlast]
    obtain ⟨c', hc', hrelated⟩ := read_of_perform hB hf hperform
    exact ⟨c', hc', f, hrelated, hitems, hlast⟩

/-! ### All kinds of storage -/

theorem Stores.create_holds {D : DataObjectInterface α} {V : α → D.State → Prop} (hD : Stores D V)
    (a sample : α) : DataElement.Holds V [] none
      (⟨false, false, D.dataSample sample (D.create a)⟩ : DataElement D) :=
  ⟨⟨sample, hD.dataSample a sample _ (hD.create a), nofun, nofun⟩, fun _ => ⟨rfl, rfl⟩⟩

namespace ConnPolicy

variable {β : Type} {width : ℕ}

/-- A sample was written that is not read yet. -/
def unread : (p : ConnPolicy) → (p.connection β width).State → Prop
  | ⟨.data, .unsync, _⟩, c | ⟨.data, .locked, _⟩, c | ⟨.data, .lockFree, _⟩, c =>
    DataElement.unread c
  | ⟨.buffer, .unsync, _⟩, c | ⟨.circularBuffer, .unsync, _⟩, c |
    ⟨.buffer, .locked, _⟩, c | ⟨.circularBuffer, .locked, _⟩, c => c.buffer.buf ≠ []
  | ⟨.buffer, .lockFree, _⟩, c | ⟨.circularBuffer, .lockFree, _⟩, c => c.buffer.bufs.count ≠ 0

theorem deque_delivers {size : ℕ} (hs : 1 ≤ size) (hs' : size ≤ 65534)
    (asserts circular locked : Bool) :
    Delivers (bufferConnection (DequeBuffer.interface (Fin width → β) asserts) (dequeSample locked)
        (fun b => sizeType b.buf.length)) (fun c => c.buffer.buf ≠ [])
      (Queued size (DequeBuffer.Holds size circular)) := by
  apply delivers_of_implements (DequeBuffer.implements hs (by omega) asserts circular)
  intro items h c hholds
  rw [hholds.buf]

theorem pool_delivers {size : ℕ} (hs : 1 ≤ size) (hs' : size ≤ 65534) (circular : Bool) :
    Delivers (bufferConnection (LockFree.ofCapacity (Fin width → β) size) poolSample
        (fun b => b.bufs.count)) (fun c => c.buffer.bufs.count ≠ 0)
      (Queued size (LockFree.Represents size circular)) := by
  apply delivers_of_implements (LockFree.implements hs (by omega) (Nat.le_refl _) circular)
  rintro items h c ⟨queue, free, hholds, rfl⟩
  show c.buffer.bufs.count ≠ 0 ↔ _
  rw [hholds.stored.count_eq, List.length_map, Ne, Ne, List.map_eq_nil_iff, ← List.length_eq_zero_iff]
  omega

theorem deque_created {size : ℕ} {cap : ℤ} (hcap : cap = size) (asserts circular locked : Bool)
    (lastSample sample : Fin width → β) : Queued size (DequeBuffer.Holds size circular) [] none
      (.create (dequeSample locked sample ⟨cap, [], lastSample, circular⟩) :
        ChannelBufferElement (DequeBuffer.interface (Fin width → β) asserts)) :=
  ⟨_, dequeSample_related (DequeBuffer.create_related hcap lastSample asserts circular)
    ⟨rfl, fun _ hne => absurd rfl hne⟩, rfl, rfl⟩

theorem pool_created {size : ℕ} (hs : size ≤ 65534) (circular : Bool)
    (initialValue sample : Fin width → β) : Queued size (LockFree.Represents size circular) [] none
      (.create (poolSample sample (BufferLockFree.create size initialValue circular)) :
        ChannelBufferElement (LockFree.ofCapacity (Fin width → β) size)) :=
  ⟨_, poolSample_related (LockFree.create_related hs initialValue circular _) ⟨rfl, rfl⟩, rfl, rfl⟩

/-- Each storage delivers what was written; a new one that was given a data sample is empty. -/
theorem delivers (p : ConnPolicy) (hs : 1 ≤ p.size) (hs' : p.size ≤ 65534) :
    ∃ V, Delivers (p.connection β width) p.unread V ∧
      ∀ default initialValue sample : Fin width → β,
        V [] none ((p.connection β width).dataSample sample
          (buildDataStorage default initialValue p)) := by
  have hunsync := DataObjectUnSync.stores (Fin width → β)
  have hlockFree := DataObjectLockFree.stores β width 2
  have hcap : sizeType p.size = p.size := sizeType_eq (by omega)
  obtain ⟨type, lock, size⟩ := p
  cases type with
  | data =>
    cases lock with
    | unsync => exact ⟨_, DataElement.delivers hunsync, fun _ a => hunsync.create_holds a⟩
    | locked => exact ⟨_, DataElement.delivers hunsync, fun _ a => hunsync.create_holds a⟩
    | lockFree => exact ⟨_, DataElement.delivers hlockFree, fun _ a => hlockFree.create_holds a⟩
  | buffer =>
    cases lock with
    | unsync =>
      exact ⟨_, deque_delivers hs hs' false false false,
        fun a _ => deque_created hcap false false false a⟩
    | locked =>
      exact ⟨_, deque_delivers hs hs' true false true,
        fun _ a => deque_created hcap true false true a⟩
    | lockFree => exact ⟨_, pool_delivers hs hs' false, fun _ a => pool_created hs' false a⟩
  | circularBuffer =>
    cases lock with
    | unsync =>
      exact ⟨_, deque_delivers hs hs' false true false,
        fun a _ => deque_created hcap false true false a⟩
    | locked =>
      exact ⟨_, deque_delivers hs hs' true true true,
        fun _ a => deque_created hcap true true true a⟩
    | lockFree => exact ⟨_, pool_delivers hs hs' true, fun _ a => pool_created hs' true a⟩

end ConnPolicy

end OrocosRtt.Channel
