import OrocosRtt.Buffer.Results
import OrocosRtt.Channel.DataObject
import OrocosRtt.Library.Run
import Mathlib.Data.Fintype.Pi

/-! `setDataSample` shows a connection the size of the data; what a receiver reads afterwards depends on
what the connection held. -/
namespace OrocosRtt.Channel

open Library.Run Library.Queue
open OrocosRtt.Buffer
open OrocosRtt.LockFree (BufferLockFree TsPool AtomicMWSRQueue)

/-! ### Connections -/

/-- A connection whose input is used by one thread; `none` stands for a call that does not return. -/
structure Connection (α : Type) where
  State : Type
  write : α → State → Option State
  read : α → Bool → State → Option (State × FlowStatus × α)
  dataSample : α → State → State
  /-- The number of buffered samples. -/
  size : State → ℤ

variable {α : Type}

/-- A channel element with its data object, used by one thread. -/
structure DataElement (D : DataObjectInterface α) where
  written : Bool
  mread : Bool
  data : D.State

namespace DataElement

variable {D : DataObjectInterface α}

def write (sample : α) (c : DataElement D) : Option (DataElement D) :=
  (D.set sample c.data).map fun data => ⟨true, false, data⟩

def read (sample : α) (copyOldData : Bool) (c : DataElement D) :
    Option (DataElement D × FlowStatus × α) :=
  if c.written then
    if c.mread = false then
      (D.get c.data).map fun r => (⟨true, true, r.1⟩, .newData, r.2)
    else if copyOldData then
      (D.get c.data).map fun r => ({ c with data := r.1 }, .oldData, r.2)
    else some (c, .oldData, sample)
  else some (c, .noData, sample)

end DataElement

def dataConnection (D : DataObjectInterface α) : Connection α where
  State := DataElement D
  write := DataElement.write
  read := DataElement.read
  dataSample := fun sample c => { c with data := D.dataSample sample c.data }
  size := fun _ => 0

def bufferConnection (B : BufferInterface α) (dataSample : α → B.State → B.State)
    (size : B.State → ℤ) : Connection α where
  State := ChannelBufferElement B
  write := fun sample c => (c.write sample true).map Prod.fst
  read := ChannelBufferElement.read
  dataSample := fun sample c => { c with buffer := dataSample sample c.buffer }
  size := fun c => size c.buffer

/-- The deque is resized twice; only the buffer with a lock keeps the sample. -/
def dequeSample (locked : Bool) (sample : α) (b : DequeBuffer α) : DequeBuffer α :=
  { b with buf := [], lastSample := if locked then sample else b.lastSample }

/-- All items of the pool are written, and are owned by the pool again. -/
def poolSample (sample : α) (b : BufferLockFree α) : BufferLockFree α :=
  { b with mpool := b.mpool.clear, value := fun _ => sample }

/-! ### What a connection does not show -/

/-- A call to `setDataSample` in a state that `hidden` allows cannot be noticed from outside. -/
structure Hides (C : Connection α) (hidden : α → C.State → Prop) (E : C.State → C.State → Prop) :
    Prop where
  write : ∀ a s t, E s t → ∃ s' t', C.write a s = some s' ∧ C.write a t = some t' ∧ E s' t'
  read : ∀ a copyOldData s t, E s t → ∃ s' t' r, C.read a copyOldData s = some (s', r) ∧
    C.read a copyOldData t = some (t', r) ∧ E s' t'
  size : ∀ s t, E s t → C.size s = C.size t
  dataSample : ∀ a s t, E s t → hidden a s → E (C.dataSample a s) t

/-- Both elements have announced the same value. -/
def SameData {D : DataObjectInterface α} (V : α → D.State → Prop) (c d : DataElement D) : Prop :=
  ∃ a b, V a c.data ∧ V b d.data ∧ c.written = d.written ∧ c.mread = d.mread ∧
    (c.written = true → a = b)

/-- Nothing was written, or the sample is the value that was written last. -/
def DataElement.hidden {D : DataObjectInterface α} (V : α → D.State → Prop) (sample : α)
    (c : DataElement D) : Prop :=
  c.written = true → V sample c.data

def DataElement.decidableHidden {D : DataObjectInterface α} (V : α → D.State → Prop)
    (hV : ∀ a s, Decidable (V a s)) (sample : α) (c : DataElement D) :
    Decidable (c.hidden V sample) :=
  have := hV sample c.data
  inferInstanceAs (Decidable (_ → _))

theorem SameData.write {D : DataObjectInterface α} {V : α → D.State → Prop} (hD : Stores D V)
    {c d : DataElement D} (h : SameData V c d) (x : α) : ∃ c' d', c.write x = some c' ∧
      d.write x = some d' ∧ SameData V c' d' := by
  obtain ⟨a, b, hc, hd, -⟩ := h
  obtain ⟨s, hs, hv⟩ := hD.set a x c.data hc
  obtain ⟨t, ht, hv'⟩ := hD.set b x d.data hd
  refine ⟨⟨true, false, s⟩, ⟨true, false, t⟩, ?_, ?_, x, x, hv, hv', rfl, rfl, fun _ => rfl⟩
  · rw [DataElement.write, hs, Option.map_some]
  · rw [DataElement.write, ht, Option.map_some]

theorem SameData.read {D : DataObjectInterface α} {V : α → D.State → Prop} (hD : Stores D V)
    {c d : DataElement D} (h : SameData V c d) (x : α) (copyOldData : Bool) :
    ∃ c' d' r, c.read x copyOldData = some (c', r) ∧ d.read x copyOldData = some (d', r) ∧
      SameData V c' d' := by
  obtain ⟨a, b, hc, hd, hwritten, hmread, hsame⟩ := h
  obtain ⟨s, hs, hv⟩ := hD.get a c.data hc
  obtain ⟨t, ht, hv'⟩ := hD.get b d.data hd
  rw [DataElement.read, DataElement.read, ← hwritten, ← hmread, hs, ht]
  cases hw : c.written with
  | false => exact ⟨c, d, (.noData, x), rfl, rfl, a, b, hc, hd, hwritten, hmread, hsame⟩
  | true =>
    obtain rfl := hsame hw
    cases hm : c.mread with
    | false =>
      exact ⟨⟨true, true, s⟩, ⟨true, true, t⟩, (.newData, a), rfl, rfl, a, a, hv, hv', rfl, rfl,
        fun _ => rfl⟩
    | true =>
      cases copyOldData with
      | false => exact ⟨c, d, (.oldData, x), rfl, rfl, a, a, hc, hd, hwritten, hmread, hsame⟩
      | true =>
        exact ⟨⟨true, true, s⟩, ⟨true, true, t⟩, (.oldData, a), rfl, rfl, a, a, hv, hv', rfl, rfl,
          fun _ => rfl⟩

theorem Stores.hides {D : DataObjectInterface α} {V W : α → D.State → Prop} (hD : Stores D V)
    (hW : ∀ a b s, V a s → W b s → a = b) :
    Hides (dataConnection D) (DataElement.hidden W) (SameData V) where
  write := fun x _ _ h => h.write hD x
  read := fun x copyOldData _ _ h => h.read hD x copyOldData
  size := fun _ _ _ => rfl
  dataSample := by
    rintro x c d ⟨a, b, hc, hd, hwritten, hmread, hsame⟩ hhidden
    refine ⟨x, b, hD.dataSample a x c.data hc, hd, hwritten, hmread, fun hw => ?_⟩
    rw [← hsame hw, hW a x c.data hc (hhidden hw)]

/-- A new element has announced nothing. -/
theorem Stores.create_same {D : DataObjectInterface α} {V : α → D.State → Prop} (hD : Stores D V)
    (a : α) : SameData V (⟨false, false, D.create a⟩ : DataElement D) ⟨false, false, D.create a⟩ :=
  ⟨a, a, hD.create a, hD.create a, rfl, rfl, fun _ => rfl⟩

/-- Both buffers hold the same samples, and the same one was read last. -/
def SameQueue {B : BufferInterface α} (capacity : ℕ)
    (R : List α → Option (B.Pointer × α) → B.State → Prop) (c d : ChannelBufferElement B) : Prop :=
  ∃ f : Fifo α capacity, Related R f c ∧ Related R f d

theorem hides_of_implements {B : BufferInterface α} {capacity : ℕ} {circular : Bool}
    {R : List α → Option (B.Pointer × α) → B.State → Prop} (hB : Implements B capacity circular R)
    {dataSample : α → B.State → B.State} {size : B.State → ℤ}
    (hsize : ∀ items h s, R items h s → size s = items.length)
    {hidden : α → ChannelBufferElement B → Prop}
    (hhidden : ∀ a (f : Fifo α capacity) c, Related R f c → hidden a c →
      Related R f { c with buffer := dataSample a c.buffer }) :
    Hides (bufferConnection B dataSample size) hidden (SameQueue capacity R) where
  write := by
    rintro a s t ⟨f, hs, ht⟩
    obtain ⟨s', hs', hrs⟩ := hB.perform (o := .write a true) trivial hs
    obtain ⟨t', ht', hrt⟩ := hB.perform (o := .write a true) trivial ht
    have hfst {c c' : ChannelBufferElement B} {r : Result α}
        (h : c.perform (.write a true) = some (c', r)) :
        (c.write a true).map Prod.fst = some c' := by
      obtain ⟨x, hx, he⟩ := Option.map_eq_some_iff.mp h
      rw [hx, Option.map_some]
      exact congrArg some (congrArg Prod.fst he)
    exact ⟨s', t', hfst hs', hfst ht', _, hrs, hrt⟩
  read := by
    rintro a copyOldData s t ⟨f, hs, ht⟩
    obtain ⟨s', hs', hrs⟩ := hB.perform (o := .read a copyOldData) trivial hs
    obtain ⟨t', ht', hrt⟩ := hB.perform (o := .read a copyOldData) trivial ht
    obtain ⟨⟨s'', r⟩, hx, he⟩ := Option.map_eq_some_iff.mp hs'
    obtain ⟨⟨t'', r'⟩, hx', he'⟩ := Option.map_eq_some_iff.mp ht'
    obtain ⟨rfl, hr⟩ := Prod.mk.inj he
    obtain ⟨rfl, hr'⟩ := Prod.mk.inj he'
    obtain ⟨hstatus, hsample⟩ := Result.flow.inj (hr.trans hr'.symm)
    have hrr : r' = r := Prod.ext hstatus.symm hsample.symm
    rw [hrr] at hx'
    exact ⟨s'', t'', r, hx, hx', _, hrs, hrt⟩
  size := by
    rintro s t ⟨f, ⟨h, hs, -⟩, ⟨h', ht, -⟩⟩
    exact (hsize _ _ _ hs).trans (hsize _ _ _ ht).symm
  dataSample := by
    rintro a s t ⟨f, hs, ht⟩ hok
    exact ⟨f, hhidden a f s hs hok, ht⟩

theorem Related.same {B : BufferInterface α} {capacity : ℕ}
    {R : List α → Option (B.Pointer × α) → B.State → Prop} {f : Fifo α capacity}
    {c : ChannelBufferElement B} (h : Related R f c) : SameQueue capacity R c c :=
  ⟨f, h, h⟩

/-- No sample is waiting, and the one that was read last is kept or the same. -/
def dequeHidden (locked : Bool) (sample : α) (b : DequeBuffer α) (lastSampleP : Option Unit) : Prop :=
  b.buf = [] ∧ (locked = true → lastSampleP ≠ none → b.lastSample = sample)

instance decidableDequeHidden [DecidableEq α] (locked : Bool) (sample : α) (b : DequeBuffer α)
    (lastSampleP : Option Unit) : Decidable (dequeHidden locked sample b lastSampleP) :=
  inferInstanceAs (Decidable (_ ∧ _))

/-- No sample is waiting and none was read, so that no item of the pool is in use. -/
def poolHidden (b : BufferLockFree α) (lastSampleP : Option ℕ) : Prop :=
  b.bufs.count = 0 ∧ lastSampleP = none

instance decidablePoolHidden (b : BufferLockFree α) (lastSampleP : Option ℕ) :
    Decidable (poolHidden b lastSampleP) :=
  inferInstanceAs (Decidable (_ ∧ _))

theorem dequeSample_related {capacity : ℕ} {circular asserts locked : Bool} {sample : α}
    {f : Fifo α capacity} {c : ChannelBufferElement (DequeBuffer.interface α asserts)}
    (h : Related (DequeBuffer.Holds capacity circular) f c)
    (hok : dequeHidden locked sample c.buffer c.lastSampleP) :
    Related (DequeBuffer.Holds capacity circular) f
      { c with buffer := dequeSample locked sample c.buffer } := by
  obtain ⟨held, hholds, hlast, hvalue⟩ := h
  obtain ⟨hempty, hsame⟩ := hok
  refine ⟨held, ⟨hholds.cap, hholds.circular, ?_, hholds.bounded, fun x hx => ?_⟩, hlast, hvalue⟩
  · exact hempty.symm.trans hholds.buf
  · show (if locked then sample else c.buffer.lastSample) = x.2
    have hold := hholds.last x hx
    split
    · next hl =>
      have hsome : c.lastSampleP ≠ none := by
        rw [← hlast, hx]
        exact nofun
      exact (hsame hl hsome).symm.trans hold
    · exact hold

theorem poolSample_related {capacity fuel : ℕ} {circular : Bool} {sample : α} {f : Fifo α capacity}
    {c : ChannelBufferElement (LockFree.interface α fuel)}
    (h : Related (LockFree.Represents capacity circular) f c)
    (hok : poolHidden c.buffer c.lastSampleP) :
    Related (LockFree.Represents capacity circular) f
      { c with buffer := poolSample sample c.buffer } := by
  obtain ⟨held, ⟨queue, free, hholds, hitems⟩, hlast, hvalue⟩ := h
  obtain ⟨hcount, hnone⟩ := hok
  have hqueue : queue = [] := by
    have hlen := hholds.stored.count_eq
    rw [hcount, List.length_map] at hlen
    exact List.length_eq_zero_iff.mp (by omega)
  subst hqueue
  have hheld : held = none := by
    rw [hnone] at hlast
    exact Option.map_eq_none_iff.mp hlast
  subst hheld
  have hpool := hholds.pool
  have hlisted := TsPool.clear_listed (p := c.buffer.mpool) (by omega) hholds.listed.small
    hholds.listed.tag
  rw [hpool] at hlisted
  refine ⟨none, ⟨[], List.range (capacity + 1), ?_, hitems⟩, hlast, hvalue⟩
  exact ⟨hholds.stored, hholds.size, hlisted, hpool, List.Perm.refl _, nofun, hholds.mode⟩

/-! ### The connections of a port -/

inductive StorageType where
  | data
  | buffer
  | circularBuffer
  deriving DecidableEq

inductive LockPolicy where
  | unsync
  | locked
  | lockFree
  deriving DecidableEq

structure ConnPolicy where
  type : StorageType
  lockPolicy : LockPolicy
  size : ℕ

namespace ConnPolicy

variable {β : Type} {width : ℕ}

/-- The storage that `buildDataStorage` chooses. The lock-free data object is for two threads. -/
def connection (β : Type) (width : ℕ) : ConnPolicy → Connection (Fin width → β)
  | ⟨.data, .unsync, _⟩ => dataConnection (DataObjectUnSync _)
  | ⟨.data, .locked, _⟩ => dataConnection (DataObjectLocked _)
  | ⟨.data, .lockFree, _⟩ => dataConnection (DataObjectLockFree.interface β width 2)
  | ⟨.buffer, .unsync, _⟩ | ⟨.circularBuffer, .unsync, _⟩ =>
    bufferConnection (BufferUnSync _) (dequeSample false) (fun b => sizeType b.buf.length)
  | ⟨.buffer, .locked, _⟩ | ⟨.circularBuffer, .locked, _⟩ =>
    bufferConnection (BufferLocked _) (dequeSample true) (fun b => sizeType b.buf.length)
  | ⟨.buffer, .lockFree, size⟩ | ⟨.circularBuffer, .lockFree, size⟩ =>
    bufferConnection (LockFree.ofCapacity _ size) poolSample (fun b => b.bufs.count)

def buildDataStorage (default initialValue : Fin width → β) :
    (p : ConnPolicy) → (p.connection β width).State
  | ⟨.data, .unsync, _⟩ => (⟨false, false, initialValue⟩ : DataElement (DataObjectUnSync _))
  | ⟨.data, .locked, _⟩ => (⟨false, false, initialValue⟩ : DataElement (DataObjectLocked _))
  | ⟨.data, .lockFree, _⟩ =>
    (⟨false, false, LockFree.DataObjectLockFree.create initialValue 2⟩ :
      DataElement (DataObjectLockFree.interface β width 2))
  | ⟨.buffer, .unsync, size⟩ => ChannelBufferElement.create (BufferUnSync.create size default false)
  | ⟨.circularBuffer, .unsync, size⟩ =>
    ChannelBufferElement.create (BufferUnSync.create size default true)
  | ⟨.buffer, .locked, size⟩ =>
    ChannelBufferElement.create (BufferLocked.create size initialValue false)
  | ⟨.circularBuffer, .locked, size⟩ =>
    ChannelBufferElement.create (BufferLocked.create size initialValue true)
  | ⟨.buffer, .lockFree, size⟩ => (.create (BufferLockFree.create size initialValue false) :
    ChannelBufferElement (LockFree.ofCapacity _ size))
  | ⟨.circularBuffer, .lockFree, size⟩ => (.create (BufferLockFree.create size initialValue true) :
    ChannelBufferElement (LockFree.ofCapacity _ size))

/-- What a connection must be like for `setDataSample` not to be noticed. With a data object, nothing
was written or the sample is the last value; with a deque, no sample is waiting, and with a lock the
one that was read last is gone or the same; with a pool, no item is in use. -/
def hidden (sample : Fin width → β) : (p : ConnPolicy) → (p.connection β width).State → Prop
  | ⟨.data, .unsync, _⟩, c => c.hidden (fun a (data : Fin width → β) => data = a) sample
  | ⟨.data, .locked, _⟩, c => c.hidden (fun a (data : Fin width → β) => data = a) sample
  | ⟨.data, .lockFree, _⟩, c =>
    c.hidden (fun a (o : LockFree.DataObjectLockFree β width) => o.data o.readPtr = a) sample
  | ⟨.buffer, .unsync, _⟩, c | ⟨.circularBuffer, .unsync, _⟩, c =>
    dequeHidden false sample c.buffer c.lastSampleP
  | ⟨.buffer, .locked, _⟩, c | ⟨.circularBuffer, .locked, _⟩, c =>
    dequeHidden true sample c.buffer c.lastSampleP
  | ⟨.buffer, .lockFree, _⟩, c | ⟨.circularBuffer, .lockFree, _⟩, c =>
    poolHidden c.buffer c.lastSampleP

instance [DecidableEq β] (sample : Fin width → β) (p : ConnPolicy)
    (c : (p.connection β width).State) : Decidable (hidden sample p c) :=
  match p, c with
  | ⟨.data, .unsync, _⟩, c | ⟨.data, .locked, _⟩, c =>
    (DataElement.decidableHidden (fun a (data : Fin width → β) => data = a)
      (fun a (data : Fin width → β) => decEq data a) sample c :)
  | ⟨.data, .lockFree, _⟩, c =>
    (DataElement.decidableHidden
      (fun a (o : LockFree.DataObjectLockFree β width) => o.data o.readPtr = a)
      (fun a (o : LockFree.DataObjectLockFree β width) => decEq (o.data o.readPtr) a) sample c :)
  | ⟨.buffer, .unsync, _⟩, c | ⟨.circularBuffer, .unsync, _⟩, c =>
    decidableDequeHidden false sample c.buffer c.lastSampleP
  | ⟨.buffer, .locked, _⟩, c | ⟨.circularBuffer, .locked, _⟩, c =>
    decidableDequeHidden true sample c.buffer c.lastSampleP
  | ⟨.buffer, .lockFree, _⟩, c | ⟨.circularBuffer, .lockFree, _⟩, c =>
    decidablePoolHidden c.buffer c.lastSampleP

theorem deque_hides {size : ℕ} (hs : 1 ≤ size) (hs' : size ≤ 65534) (asserts circular locked : Bool) :
    Hides (bufferConnection (DequeBuffer.interface (Fin width → β) asserts) (dequeSample locked)
        (fun b => sizeType b.buf.length))
      (fun sample c => dequeHidden locked sample c.buffer c.lastSampleP)
      (SameQueue size (DequeBuffer.Holds size circular)) := by
  apply hides_of_implements (DequeBuffer.implements hs (by omega) asserts circular)
  · intro items h s hholds
    have hbound := hholds.bounded
    show sizeType s.buf.length = items.length
    rw [hholds.buf, sizeType_eq (by omega)]
  · exact fun _ _ _ h hok => dequeSample_related h hok

theorem pool_hides {size : ℕ} (hs : 1 ≤ size) (hs' : size ≤ 65534) (circular : Bool) :
    Hides (bufferConnection (LockFree.ofCapacity (Fin width → β) size) poolSample
        (fun b => b.bufs.count))
      (fun _ c => poolHidden c.buffer c.lastSampleP)
      (SameQueue size (LockFree.Represents size circular)) := by
  apply hides_of_implements (LockFree.implements hs (by omega) (Nat.le_refl _) circular)
  · rintro items h s ⟨queue, free, hholds, rfl⟩
    show s.bufs.count = ((queue.map s.value).length : ℤ)
    rw [hholds.stored.count_eq, List.length_map, List.length_map]
  · exact fun _ _ _ h hok => poolSample_related h hok

theorem locked_same {size : ℕ} (hs : size ≤ 65534) (initialValue : Fin width → β)
    (circular : Bool) : SameQueue size (DequeBuffer.Holds size circular)
      (.create (BufferLocked.create size initialValue circular) :
        ChannelBufferElement (BufferLocked (Fin width → β)))
      (.create (BufferLocked.create size initialValue circular)) :=
  Related.same (DequeBuffer.create_related (sizeType_eq (by omega)) initialValue true circular)

theorem unsync_same {size : ℕ} (hs : size ≤ 65534) (default : Fin width → β)
    (circular : Bool) : SameQueue size (DequeBuffer.Holds size circular)
      (.create (BufferUnSync.create size default circular) :
        ChannelBufferElement (BufferUnSync (Fin width → β)))
      (.create (BufferUnSync.create size default circular)) :=
  Related.same (DequeBuffer.create_related (sizeType_eq (by omega)) default false circular)

theorem pool_same {size : ℕ} (hs : size ≤ 65534) (initialValue : Fin width → β)
    (circular : Bool) : SameQueue size (LockFree.Represents size circular)
      (.create (BufferLockFree.create size initialValue circular) :
        ChannelBufferElement (LockFree.ofCapacity (Fin width → β) size))
      (.create (BufferLockFree.create size initialValue circular)) :=
  Related.same (LockFree.create_related hs initialValue circular _)

/-- Each storage hides the calls that `hidden` allows. -/
theorem hides (p : ConnPolicy) (hs : 1 ≤ p.size) (hs' : p.size ≤ 65534) :
    ∃ E, Hides (p.connection β width) (fun sample c => hidden sample p c) E ∧
      ∀ default initialValue : Fin width → β,
        E (buildDataStorage default initialValue p) (buildDataStorage default initialValue p) := by
  have hunsync := DataObjectUnSync.stores (Fin width → β)
  have hlockFree := DataObjectLockFree.stores β width 2
  have hequal (a b s : Fin width → β) (h : s = a) (h' : s = b) : a = b := h.symm.trans h'
  obtain ⟨type, lock, size⟩ := p
  cases type with
  | data =>
    cases lock with
    | unsync => exact ⟨_, hunsync.hides hequal, fun _ a => hunsync.create_same a⟩
    | locked => exact ⟨_, hunsync.hides hequal, fun _ a => hunsync.create_same a⟩
    | lockFree =>
      have hread (a b : Fin width → β) (o : LockFree.DataObjectLockFree β width) (h : o.AtRest a)
          (h' : o.data o.readPtr = b) : a = b := h.value.symm.trans h'
      exact ⟨_, hlockFree.hides hread, fun _ a => hlockFree.create_same a⟩
  | buffer =>
    cases lock with
    | unsync => exact ⟨_, deque_hides hs hs' false false false, fun a _ => unsync_same hs' a false⟩
    | locked => exact ⟨_, deque_hides hs hs' true false true, fun _ a => locked_same hs' a false⟩
    | lockFree => exact ⟨_, pool_hides hs hs' false, fun _ a => pool_same hs' a false⟩
  | circularBuffer =>
    cases lock with
    | unsync => exact ⟨_, deque_hides hs hs' false true false, fun a _ => unsync_same hs' a true⟩
    | locked => exact ⟨_, deque_hides hs hs' true true true, fun _ a => locked_same hs' a true⟩
    | lockFree => exact ⟨_, pool_hides hs hs' true, fun _ a => pool_same hs' a true⟩

end ConnPolicy

/-! ### The port -/

/-- An output port with a connection for each index; a connection whose call did not return is
`none`. -/
structure OutputPort (ι α : Type) (C : ι → Connection α) where
  hasLastWrittenValue : Bool
  hasInitialSample : Bool
  keepsNextWrittenValue : Bool
  keepsLastWrittenValue : Bool
  sample : α
  channels : (i : ι) → Option (C i).State

/-- Calls to the port, and to the input port at the end of a connection. -/
inductive Call (ι α : Type) where
  | write (sample : α)
  | setDataSample (sample : α)
  | read (i : ι) (sample : α) (copyOldData : Bool)

/-- What a call shows: the result of a read, and how many samples each connection has buffered. -/
structure Observation (ι α : Type) where
  read : Option (FlowStatus × α)
  sizes : ι → Option ℤ

namespace OutputPort

variable {ι : Type} [DecidableEq ι] {C : ι → Connection α}

def setDataSample (sample : α) (p : OutputPort ι α C) : OutputPort ι α C :=
  { p with
    sample := sample
    hasInitialSample := true
    hasLastWrittenValue := false
    channels := fun i => (p.channels i).map ((C i).dataSample sample) }

def write (sample : α) (p : OutputPort ι α C) : OutputPort ι α C :=
  let keeps := p.keepsLastWrittenValue || p.keepsNextWrittenValue
  { p with
    keepsNextWrittenValue := if keeps then false else p.keepsNextWrittenValue
    hasInitialSample := if keeps then true else p.hasInitialSample
    sample := if keeps then sample else p.sample
    hasLastWrittenValue := p.keepsLastWrittenValue
    channels := fun i => (p.channels i).bind ((C i).write sample) }

/-- A read at the end of a connection. -/
def read (i : ι) (sample : α) (copyOldData : Bool) (p : OutputPort ι α C) : OutputPort ι α C :=
  let channel := ((p.channels i).bind ((C i).read sample copyOldData)).map Prod.fst
  { p with channels := Function.update p.channels i channel }

def step (p : OutputPort ι α C) (c : Call ι α) : OutputPort ι α C :=
  match c with
  | .write sample => p.write sample
  | .setDataSample sample => p.setDataSample sample
  | .read i sample copyOldData => p.read i sample copyOldData

def observation (p : OutputPort ι α C) (c : Call ι α) : Observation ι α where
  read := match c with
    | .read i sample copyOldData =>
      ((p.channels i).bind ((C i).read sample copyOldData)).map Prod.snd
    | .write _ | .setDataSample _ => none
  sizes := fun i => ((p.step c).channels i).map (C i).size

/-- What all calls show, apart from those to `setDataSample`. -/
def observations (p : OutputPort ι α C) : List (Call ι α) → List (Observation ι α)
  | [] => []
  | .setDataSample sample :: cs => (p.setDataSample sample).observations cs
  | c :: cs => p.observation c :: (p.step c).observations cs

end OutputPort

/-- The calls without those to `setDataSample`. -/
def Call.visible {ι : Type} : Call ι α → Bool
  | .setDataSample _ => false
  | .write _ | .read .. => true

namespace OutputPort

variable {ι : Type}

section Same

variable {C : ι → Connection α} {hidden : (i : ι) → α → (C i).State → Prop}
  {E : (i : ι) → (C i).State → (C i).State → Prop}

/-- The ports have connections that cannot be told apart, and that all have returned. -/
def Same (E : (i : ι) → (C i).State → (C i).State → Prop) (p q : OutputPort ι α C) : Prop :=
  ∀ i, ∃ s t, p.channels i = some s ∧ q.channels i = some t ∧ E i s t

/-- The calls to `setDataSample` come when they cannot be noticed. -/
def unnoticed (hidden : (i : ι) → α → (C i).State → Prop) (p : OutputPort ι α C) (c : Call ι α) :
    Prop :=
  match c with
  | .setDataSample sample => ∀ i, ∀ s ∈ p.channels i, hidden i sample s
  | .write _ | .read .. => True

theorem Same.setDataSample (hC : ∀ i, Hides (C i) (hidden i) (E i)) {p q : OutputPort ι α C}
    (h : Same E p q) {sample : α} (hok : p.unnoticed hidden (.setDataSample sample)) :
    Same E (p.setDataSample sample) q := by
  intro i
  obtain ⟨s, t, hs, ht, hE⟩ := h i
  refine ⟨(C i).dataSample sample s, t, ?_, ht, (hC i).dataSample sample s t hE (hok i s hs)⟩
  show (p.channels i).map _ = _
  rw [hs, Option.map_some]

end Same

variable [DecidableEq ι]

section Run

variable {C : ι → Connection α}

variable {hidden : (i : ι) → α → (C i).State → Prop}
  {E : (i : ι) → (C i).State → (C i).State → Prop}

theorem Same.step (hC : ∀ i, Hides (C i) (hidden i) (E i)) {p q : OutputPort ι α C}
    (h : Same E p q) (c : Call ι α) (hc : c.visible = true) :
    p.observation c = q.observation c ∧ Same E (p.step c) (q.step c) := by
  cases c with
  | setDataSample sample => cases hc
  | write sample =>
    have hstep (i : ι) : ∃ s t, (p.step (.write sample)).channels i = some s ∧
        (q.step (.write sample)).channels i = some t ∧ E i s t := by
      obtain ⟨s, t, hs, ht, hE⟩ := h i
      obtain ⟨s', t', hs', ht', hE'⟩ := (hC i).write sample s t hE
      refine ⟨s', t', ?_, ?_, hE'⟩
      · show (p.channels i).bind _ = _
        rw [hs, Option.bind_some, hs']
      · show (q.channels i).bind _ = _
        rw [ht, Option.bind_some, ht']
    refine ⟨?_, hstep⟩
    rw [observation, observation, Observation.mk.injEq]
    refine ⟨rfl, funext fun i => ?_⟩
    obtain ⟨s, t, hs, ht, hE⟩ := hstep i
    rw [hs, ht, Option.map_some, Option.map_some, (hC i).size s t hE]
  | read i sample copyOldData =>
    obtain ⟨s, t, hs, ht, hE⟩ := h i
    obtain ⟨s', t', r, hs', ht', hE'⟩ := (hC i).read sample copyOldData s t hE
    have hread {p : OutputPort ι α C} {s s' : (C i).State} (hs : p.channels i = some s)
        (hs' : (C i).read sample copyOldData s = some (s', r)) :
        (p.channels i).bind ((C i).read sample copyOldData) = some (s', r) := by
      rw [hs, Option.bind_some, hs']
    have hstep (j : ι) : ∃ s t, (p.step (.read i sample copyOldData)).channels j = some s ∧
        (q.step (.read i sample copyOldData)).channels j = some t ∧ E j s t := by
      simp only [OutputPort.step, OutputPort.read, hread hs hs', hread ht ht', Option.map_some]
      by_cases hj : j = i
      · subst hj
        exact ⟨s', t', Function.update_self .., Function.update_self .., hE'⟩
      · rw [Function.update_of_ne hj, Function.update_of_ne hj]
        exact h j
    refine ⟨?_, hstep⟩
    rw [observation, observation, Observation.mk.injEq]
    refine ⟨?_, funext fun j => ?_⟩
    · show ((p.channels i).bind _).map _ = ((q.channels i).bind _).map _
      rw [hread hs hs', hread ht ht', Option.map_some, Option.map_some]
    · obtain ⟨s, t, hs, ht, hE⟩ := hstep j
      rw [hs, ht, Option.map_some, Option.map_some, (hC j).size s t hE]

theorem Same.observations (hC : ∀ i, Hides (C i) (hidden i) (E i)) {p q : OutputPort ι α C}
    (h : Same E p q) {cs : List (Call ι α)}
    (hok : Along OutputPort.step (unnoticed hidden) p cs) :
    p.observations cs = q.observations (cs.filter Call.visible) ∧
      Same E (run OutputPort.step p cs) (run OutputPort.step q (cs.filter Call.visible)) := by
  induction cs generalizing p q with
  | nil => exact ⟨rfl, h⟩
  | cons c cs ih =>
    obtain ⟨hfirst, hrest⟩ := hok
    cases c with
    | setDataSample sample => exact ih (h.setDataSample hC hfirst) hrest
    | write sample =>
      obtain ⟨hobs, hsame⟩ := h.step hC (.write sample) rfl
      obtain ⟨hall, hend⟩ := ih hsame hrest
      exact ⟨congrArg₂ List.cons hobs hall, hend⟩
    | read i sample copyOldData =>
      obtain ⟨hobs, hsame⟩ := h.step hC (.read i sample copyOldData) rfl
      obtain ⟨hall, hend⟩ := ih hsame hrest
      exact ⟨congrArg₂ List.cons hobs hall, hend⟩

end Run

variable {β : Type} {width : ℕ}

/-- A new port with new connections. -/
def create (keepLastWrittenValue : Bool) (default initialValue : Fin width → β)
    (policy : ι → ConnPolicy) :
    OutputPort ι (Fin width → β) fun i => (policy i).connection β width where
  hasLastWrittenValue := false
  hasInitialSample := false
  keepsNextWrittenValue := false
  keepsLastWrittenValue := keepLastWrittenValue
  sample := initialValue
  channels := fun i => some ((policy i).buildDataStorage default initialValue)

/-- With any number of connections of any kinds: calls to `setDataSample` that come when no connection
shows them change neither what is read nor how many samples are buffered, and all calls return. -/
theorem setDataSample_unnoticed {policy : ι → ConnPolicy}
    (hs : ∀ i, 1 ≤ (policy i).size ∧ (policy i).size ≤ 65534) (keepLastWrittenValue : Bool)
    (default initialValue : Fin width → β) {cs : List (Call ι (Fin width → β))}
    (hok : Along OutputPort.step (unnoticed fun i sample => (policy i).hidden sample)
      (create keepLastWrittenValue default initialValue policy) cs) :
    let p := create keepLastWrittenValue default initialValue policy
    p.observations cs = p.observations (cs.filter Call.visible) ∧
      ∀ i, ((run OutputPort.step p cs).channels i).isSome := by
  intro p
  choose E hE hstart using fun i => @ConnPolicy.hides β width (policy i) (hs i).1 (hs i).2
  have hsame : Same E p p := fun i => ⟨_, _, rfl, rfl, hstart i default initialValue⟩
  obtain ⟨hobs, hend⟩ := hsame.observations hE hok
  refine ⟨hobs, fun i => ?_⟩
  obtain ⟨s, -, hs, -⟩ := hend i
  rw [hs]
  rfl

instance {C : ι → Connection α} {hidden : (i : ι) → α → (C i).State → Prop} [Fintype ι]
    [∀ i a s, Decidable (hidden i a s)] (p : OutputPort ι α C) (c : Call ι α) :
    Decidable (p.unnoticed hidden c) :=
  match c with
  | .setDataSample sample =>
    inferInstanceAs (Decidable (∀ i, ∀ s ∈ p.channels i, hidden i sample s))
  | .write _ | .read .. => .isTrue trivial

theorem setDataSample_unnoticed_repeated :
    let sample (n : ℕ) : Fin 1 → ℕ := fun _ => n
    let policy (i : Fin 2) : ConnPolicy :=
      if i = 0 then ⟨.data, .lockFree, 1⟩ else ⟨.circularBuffer, .locked, 2⟩
    let cs : List (Call (Fin 2) (Fin 1 → ℕ)) := [.setDataSample (sample 9), .write (sample 1),
      .read 0 (sample 0) true, .read 1 (sample 0) true, .setDataSample (sample 1),
      .read 0 (sample 0) true, .read 1 (sample 0) true]
    let p := create true (sample 0) (sample 0) policy
    p.observations cs = p.observations (cs.filter Call.visible) ∧
      ∀ i, ((run OutputPort.step p cs).channels i).isSome :=
  setDataSample_unnoticed (by decide) true _ _ (by decide)

/-- A sample that was written and not yet read is replaced, dropped, and replaced. -/
theorem setDataSample_noticed :
    let sample (n : ℕ) : Fin 1 → ℕ := fun _ => n
    let policy (i : Fin 3) : ConnPolicy :=
      if i = 0 then ⟨.data, .unsync, 1⟩ else if i = 1 then ⟨.buffer, .locked, 2⟩
      else ⟨.buffer, .lockFree, 2⟩
    let cs : List (Call (Fin 3) (Fin 1 → ℕ)) := [.write (sample 1), .setDataSample (sample 9),
      .read 0 (sample 0) true, .read 1 (sample 0) true, .read 2 (sample 0) true]
    let p := create true (sample 0) (sample 0) policy
    (p.observations cs).map Observation.read =
        [none, some (.newData, sample 9), some (.noData, sample 0), some (.newData, sample 9)] ∧
      (p.observations (cs.filter Call.visible)).map Observation.read =
        [none, some (.newData, sample 1), some (.newData, sample 1), some (.newData, sample 1)] := by
  decide

end OutputPort

end OrocosRtt.Channel
