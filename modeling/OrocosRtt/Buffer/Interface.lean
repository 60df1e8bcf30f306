import OrocosRtt.Library.Queue
import Mathlib.Data.Int.Order.Basic

/-! The buffers of a connection, used directly or through a channel element, and the bounded queue
that they are for. -/
namespace OrocosRtt.Buffer

open Library.Queue

inductive FlowStatus where
  | noData
  | oldData
  | newData
  deriving DecidableEq

/-- What a buffer does for a single thread; `none` stands for a call that does not return. -/
structure BufferInterface (α : Type) where
  State : Type
  /-- `value_t*` -/
  Pointer : Type
  push : α → State → Option (State × Bool)
  pushAll : List α → State → Option (State × ℤ)
  pop : State → Option (State × Option α)
  popAll : State → Option (State × ℤ × List α)
  popWithoutRelease : State → Option (State × Option Pointer)
  release : Pointer → State → Option State
  clear : State → Option State
  /-- `*p` -/
  deref : Pointer → State → α

variable {α : Type}

/-- A channel element with its buffer; `lastSampleP` is the sample that was read last. -/
structure ChannelBufferElement (B : BufferInterface α) where
  buffer : B.State
  lastSampleP : Option B.Pointer

namespace ChannelBufferElement

variable {B : BufferInterface α}

/-- `signalled` is what `signal()` returns. -/
def write (sample : α) (signalled : Bool) (c : ChannelBufferElement B) :
    Option (ChannelBufferElement B × Bool) := do
  let (buffer, pushed) ← B.push sample c.buffer
  return ({ c with buffer }, if pushed then signalled else true)

def releaseLast (lastSampleP : Option B.Pointer) (buffer : B.State) : Option B.State :=
  match lastSampleP with
  | some last => B.release last buffer
  | none => some buffer

def read (sample : α) (copyOldData : Bool) (c : ChannelBufferElement B) :
    Option (ChannelBufferElement B × FlowStatus × α) := do
  let (buffer, newSampleP) ← B.popWithoutRelease c.buffer
  match newSampleP with
  | some new =>
    let buffer ← releaseLast c.lastSampleP buffer
    return (⟨buffer, some new⟩, .newData, B.deref new buffer)
  | none =>
    match c.lastSampleP with
    | some last =>
      return (⟨buffer, some last⟩, .oldData, if copyOldData then B.deref last buffer else sample)
    | none => return (⟨buffer, none⟩, .noData, sample)

def clear (c : ChannelBufferElement B) : Option (ChannelBufferElement B) := do
  let buffer ← releaseLast c.lastSampleP c.buffer
  let buffer ← B.clear buffer
  return ⟨buffer, none⟩

end ChannelBufferElement

/-- Calls to a channel element, and calls to its buffer itself. An argument that is written to is
given with the value it had. -/
inductive Operation (α : Type) where
  | write (sample : α) (signalled : Bool)
  | read (sample : α) (copyOldData : Bool)
  | clear
  | push (item : α)
  | pop (item : α)
  | pushAll (items : List α)
  | popAll
  | clearBuffer

inductive Result (α : Type) where
  | done (success : Bool)
  | flow (status : FlowStatus) (sample : α)
  | popped (success : Bool) (item : α)
  | count (n : ℤ)
  | items (n : ℤ) (items : List α)
  | cleared
  deriving DecidableEq

def ChannelBufferElement.perform {B : BufferInterface α} (c : ChannelBufferElement B)
    (o : Operation α) : Option (ChannelBufferElement B × Result α) :=
  match o with
  | .write sample signalled => (c.write sample signalled).map fun r => (r.1, .done r.2)
  | .read sample copyOldData => (c.read sample copyOldData).map fun r => (r.1, .flow r.2.1 r.2.2)
  | .clear => c.clear.map fun c => (c, .cleared)
  | .push item => (B.push item c.buffer).map fun r => ({ c with buffer := r.1 }, .done r.2)
  | .pop item =>
    (B.pop c.buffer).map fun r =>
      ({ c with buffer := r.1 }, .popped r.2.isSome (r.2.getD item))
  | .pushAll items => (B.pushAll items c.buffer).map fun r => ({ c with buffer := r.1 }, .count r.2)
  | .popAll =>
    (B.popAll c.buffer).map fun r => ({ c with buffer := r.1 }, .items r.2.1 r.2.2)
  | .clearBuffer => (B.clear c.buffer).map fun b => ({ c with buffer := b }, .cleared)

/-- The results of a sequence of calls. -/
def ChannelBufferElement.results {B : BufferInterface α} (c : ChannelBufferElement B) :
    List (Operation α) → Option (List (Result α))
  | [] => some []
  | o :: os => do
    let (c', r) ← c.perform o
    let rs ← c'.results os
    return r :: rs

/-! ### The bounded queue -/

/-- A bounded queue of samples, with the sample that was read last. -/
structure Fifo (α : Type) (capacity : ℕ) where
  queue : BoundedQueue α capacity
  last : Option α

namespace Fifo

variable {capacity : ℕ}

/-- When the queue is full, a circular one drops the oldest sample and any other the new one. -/
def perform (circular : Bool) (f : Fifo α capacity) (o : Operation α) :
    Fifo α capacity × Result α :=
  match o with
  | .write sample signalled =>
    let r := f.queue.offer circular sample
    ({ f with queue := r.1 }, .done (if r.2 then signalled else true))
  | .read sample copyOldData =>
    match f.queue.pop with
    | some (a, queue) => (⟨queue, some a⟩, .flow .newData a)
    | none =>
      match f.last with
      | some a => (f, .flow .oldData (if copyOldData then a else sample))
      | none => (f, .flow .noData sample)
  | .clear => (⟨.empty, none⟩, .cleared)
  | .push item =>
    let r := f.queue.offer circular item
    ({ f with queue := r.1 }, .done r.2)
  | .pop item =>
    match f.queue.pop with
    | some (a, queue) => ({ f with queue }, .popped true a)
    | none => (f, .popped false item)
  | .pushAll items =>
    let r := f.queue.offerAll circular items
    ({ f with queue := r.1 }, .count r.2)
  | .popAll => ({ f with queue := .empty }, .items f.queue.items.length f.queue.items)
  | .clearBuffer => ({ f with queue := .empty }, .cleared)

def results (circular : Bool) (f : Fifo α capacity) : List (Operation α) → List (Result α)
  | [] => []
  | o :: os => (f.perform circular o).2 :: (f.perform circular o).1.results circular os

end Fifo

/-! ### Implementations of the queue -/

/-- The length of a batch for a circular buffer is an `int`. -/
def Operation.fits (circular : Bool) : Operation α → Prop
  | .pushAll items => circular = true → items.length < 2147483648
  | .write .. | .read .. | .clear | .push _ | .pop _ | .popAll | .clearBuffer => True

/-- The buffer does what the queue does. `R items held s` says that the state `s` holds the items,
and the sample that was popped without release. -/
structure Implements (B : BufferInterface α) (capacity : ℕ) (circular : Bool)
    (R : List α → Option (B.Pointer × α) → B.State → Prop) : Prop where
  push : ∀ (q : BoundedQueue α capacity) h s a, R q.items h s →
    ∃ s', B.push a s = some (s', (q.offer circular a).2) ∧ R (q.offer circular a).1.items h s'
  pushAll : ∀ (q : BoundedQueue α capacity) h s (as : List α),
    (circular = true → as.length < 2147483648) → R q.items h s → ∃ s', B.pushAll as s = some (s', ((q.offerAll circular as).2 : ℤ)) ∧
      R (q.offerAll circular as).1.items h s'
  pop : ∀ h s a as, R (a :: as) h s → ∃ s', B.pop s = some (s', some a) ∧ R as h s'
  pop_nil : ∀ h s, R [] h s → B.pop s = some (s, none)
  popAll : ∀ h s items, R items h s →
    ∃ s', B.popAll s = some (s', (items.length : ℤ), items) ∧ R [] h s'
  take : ∀ h s a as, R (a :: as) h s → ∃ s' p s'', B.popWithoutRelease s = some (s', some p) ∧
    ChannelBufferElement.releaseLast (h.map Prod.fst) s' = some s'' ∧ R as (some (p, a)) s''
  take_nil : ∀ h s, R [] h s → B.popWithoutRelease s = some (s, none)
  deref : ∀ p a items s, R items (some (p, a)) s → B.deref p s = a
  releaseLast : ∀ h s items, R items h s →
    ∃ s', ChannelBufferElement.releaseLast (h.map Prod.fst) s = some s' ∧ R items none s'
  clear : ∀ h s items, R items h s → ∃ s', B.clear s = some s' ∧ R [] h s'

variable {B : BufferInterface α} {capacity : ℕ} {circular : Bool}
  {R : List α → Option (B.Pointer × α) → B.State → Prop}

/-- The element's buffer holds the samples of the queue, and the element the one read last. -/
def Related (R : List α → Option (B.Pointer × α) → B.State → Prop) (f : Fifo α capacity)
    (c : ChannelBufferElement B) : Prop :=
  ∃ h, R f.queue.items h c.buffer ∧ h.map Prod.fst = c.lastSampleP ∧ h.map Prod.snd = f.last

theorem Implements.perform (hB : Implements B capacity circular R) {f : Fifo α capacity}
    {c : ChannelBufferElement B} {o : Operation α} (hf : o.fits circular) (h : Related R f c) :
    ∃ c', c.perform o = some (c', (f.perform circular o).2) ∧
      Related R (f.perform circular o).1 c' := by
  obtain ⟨held, hr, hlast, hvalue⟩ := h
  cases o with
  | write sample signalled =>
    obtain ⟨s, hs, hr'⟩ := hB.push f.queue held c.buffer sample hr
    refine ⟨{ c with buffer := s }, ?_, held, hr', hlast, hvalue⟩
    simp [ChannelBufferElement.perform, ChannelBufferElement.write, hs, Fifo.perform]
  | push item =>
    obtain ⟨s, hs, hr'⟩ := hB.push f.queue held c.buffer item hr
    refine ⟨{ c with buffer := s }, ?_, held, hr', hlast, hvalue⟩
    simp [ChannelBufferElement.perform, hs, Fifo.perform]
  | pushAll items =>
    obtain ⟨s, hs, hr'⟩ := hB.pushAll f.queue held c.buffer items hf hr
    refine ⟨{ c with buffer := s }, ?_, held, hr', hlast, hvalue⟩
    simp [ChannelBufferElement.perform, hs, Fifo.perform]
  | popAll =>
    obtain ⟨s, hs, hr'⟩ := hB.popAll held c.buffer f.queue.items hr
    refine ⟨{ c with buffer := s }, ?_, held, hr', hlast, hvalue⟩
    simp [ChannelBufferElement.perform, hs, Fifo.perform]
  | clearBuffer =>
    obtain ⟨s, hs, hr'⟩ := hB.clear held c.buffer f.queue.items hr
    refine ⟨{ c with buffer := s }, ?_, held, hr', hlast, hvalue⟩
    simp [ChannelBufferElement.perform, hs, Fifo.perform]
  | clear =>
    obtain ⟨s, hs, hr'⟩ := hB.releaseLast held c.buffer f.queue.items hr
    obtain ⟨s', hs', hr''⟩ := hB.clear none s f.queue.items hr'
    rw [hlast] at hs
    refine ⟨⟨s', none⟩, ?_, none, hr'', rfl, rfl⟩
    simp [ChannelBufferElement.perform, ChannelBufferElement.clear, hs, hs', Fifo.perform]
  | pop item =>
    cases hi : f.queue.items with
    | nil =>
      rw [hi] at hr
      have hs := hB.pop_nil held c.buffer hr
      have hpop := BoundedQueue.pop_nil hi
      refine ⟨c, ?_, held, ?_, hlast, ?_⟩
      · simp [ChannelBufferElement.perform, hs, Fifo.perform, hpop]
      · simpa [Fifo.perform, hpop, hi] using hr
      · simpa [Fifo.perform, hpop] using hvalue
    | cons a as =>
      rw [hi] at hr
      obtain ⟨s, hs, hr'⟩ := hB.pop held c.buffer a as hr
      obtain ⟨q, hpop, hq⟩ := BoundedQueue.pop_cons hi
      refine ⟨{ c with buffer := s }, ?_, held, ?_, hlast, ?_⟩
      · simp [ChannelBufferElement.perform, hs, Fifo.perform, hpop]
      · simpa [Fifo.perform, hpop, hq] using hr'
      · simpa [Fifo.perform, hpop] using hvalue
  | read sample copyOldData =>
    cases hi : f.queue.items with
    | nil =>
      rw [hi] at hr
      have hs := hB.take_nil held c.buffer hr
      have hpop := BoundedQueue.pop_nil hi
      cases held with
      | none =>
        have hl : c.lastSampleP = none := hlast.symm
        have hv : f.last = none := hvalue.symm
        refine ⟨⟨c.buffer, none⟩, ?_, none, ?_, rfl, ?_⟩
        · simp [ChannelBufferElement.perform, ChannelBufferElement.read, hs, hl, Fifo.perform, hpop,
            hv]
        · simpa [Fifo.perform, hpop, hv, hi] using hr
        · simp [Fifo.perform, hpop, hv]
      | some held =>
        have hl : c.lastSampleP = some held.1 := hlast.symm
        have hv : f.last = some held.2 := hvalue.symm
        have hd := hB.deref held.1 held.2 [] c.buffer hr
        refine ⟨⟨c.buffer, some held.1⟩, ?_, some held, ?_, rfl, ?_⟩
        · simp [ChannelBufferElement.perform, ChannelBufferElement.read, hs, hl, Fifo.perform, hpop,
            hv, hd]
        · simpa [Fifo.perform, hpop, hv, hi] using hr
        · simp [Fifo.perform, hpop, hv]
    | cons a as =>
      rw [hi] at hr
      obtain ⟨s, p, s', hs, hs', hr'⟩ := hB.take held c.buffer a as hr
      obtain ⟨q, hpop, hq⟩ := BoundedQueue.pop_cons hi
      rw [hlast] at hs'
      have hd := hB.deref p a as s' hr'
      refine ⟨⟨s', some p⟩, ?_, some (p, a), ?_, rfl, ?_⟩
      · simp [ChannelBufferElement.perform, ChannelBufferElement.read, hs, hs', hd, Fifo.perform,
          hpop]
      · simpa [Fifo.perform, hpop, hq] using hr'
      · simp [Fifo.perform, hpop]

/-- The results of a buffer are those of the queue. -/
theorem Implements.results (hB : Implements B capacity circular R) {ops : List (Operation α)}
    (hf : ∀ o ∈ ops, o.fits circular) {f : Fifo α capacity} {c : ChannelBufferElement B}
    (h : Related R f c) : c.results ops = some (f.results circular ops) := by
  induction ops generalizing f c with
  | nil => rfl
  | cons o ops ih =>
    obtain ⟨c', hc, hr⟩ := hB.perform (hf o List.mem_cons_self) h
    have hrest := ih (fun o ho => hf o (List.mem_cons_of_mem _ ho)) hr
    simp [ChannelBufferElement.results, Fifo.results, hc, hrest]

end OrocosRtt.Buffer
