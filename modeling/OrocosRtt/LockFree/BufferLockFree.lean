import OrocosRtt.LockFree.AtomicMWSRQueue
import OrocosRtt.LockFree.TsPool

/-! The lock-free buffer: a queue of pointers to the items of a pool. -/
namespace OrocosRtt.LockFree

/-- The items are known by their index in the pool. -/
structure BufferLockFree (α : Type) where
  bufs : AtomicMWSRQueue ℕ
  mpool : TsPool
  /-- The values of the items. -/
  value : ℕ → α
  mcircular : Bool

namespace BufferLockFree

variable {α : Type}

def create (bufsize : ℕ) (initialValue : α) (circular : Bool) : BufferLockFree α where
  bufs := AtomicMWSRQueue.create bufsize
  mpool := TsPool.create (bufsize + 1)
  value := fun _ => initialValue
  mcircular := circular

open Library.Run (within)
open AtomicMWSRQueue (Enqueuing Dequeuing enqueue dequeue)
open TsPool (Allocating Deallocating allocate deallocate)

/-- Where a thread is in `Push`. -/
inductive Pushing (α : Type) where
  | size (item : α)
  | allocate (item : α) (a : Allocating)
  /-- The pool is empty: the oldest item is written again. -/
  | recycle (item : α) (d : Dequeuing ℕ)
  | write (item : α) (mitem : ℕ)
  | enqueue (mitem : ℕ) (e : Enqueuing ℕ)
  | giveBack (d : Deallocating)
  /-- `bufs.dequeue(itmp)` in the loop that makes room. -/
  | drop (mitem : ℕ) (itmp : Option ℕ) (d : Dequeuing ℕ)
  | free (mitem itmp : ℕ) (d : Deallocating)
  | retry (mitem : ℕ) (itmp : Option ℕ) (e : Enqueuing ℕ)
  deriving DecidableEq

def withBufs (b : BufferLockFree α) (q : AtomicMWSRQueue ℕ) : BufferLockFree α := { b with bufs := q }

def withPool (b : BufferLockFree α) (p : TsPool) : BufferLockFree α := { b with mpool := p }

/-- `Push` after `mpool.allocate()`. -/
def allocated (item : α) (mitem : Option ℕ) (b : BufferLockFree α) :
    BufferLockFree α × (Pushing α ⊕ Bool) :=
  match mitem with
  | some mitem => (b, .inl (.write item mitem))
  | none => (b, if b.mcircular then .inl (.recycle item .load) else .inr false)

/-- `Push` after `bufs.dequeue(mitem)`. -/
def recycled (item : α) (mitem : Option ℕ) (b : BufferLockFree α) :
    BufferLockFree α × (Pushing α ⊕ Bool) :=
  match mitem with
  | some mitem => (b, .inl (.write item mitem))
  | none => (b, .inr false)

/-- `Push` after the first `bufs.enqueue(mitem)`. -/
def enqueued (mitem : ℕ) (done : Bool) (b : BufferLockFree α) :
    BufferLockFree α × (Pushing α ⊕ Bool) :=
  if done then (b, .inr true)
  else if b.mcircular then (b, .inl (.drop mitem none .load))
  else (b, .inl (.giveBack (.load mitem)))

/-- `Push` after `bufs.dequeue(itmp)`: without a result `itmp` is still what it was, and to deallocate
null does nothing. -/
def dropped (mitem : ℕ) (itmp r : Option ℕ) (b : BufferLockFree α) :
    BufferLockFree α × (Pushing α ⊕ Bool) :=
  match r.or itmp with
  | some itmp => (b, .inl (.free mitem itmp (.load itmp)))
  | none => (b, .inl (.retry mitem none (.load mitem)))

/-- `Push` after `bufs.enqueue(mitem)` at the end of the loop. -/
def retried (mitem : ℕ) (itmp : Option ℕ) (done : Bool) (b : BufferLockFree α) :
    BufferLockFree α × (Pushing α ⊕ Bool) :=
  if done then (b, .inr true) else (b, .inl (.drop mitem itmp .load))

/-- A turn in `Push`. -/
def push (e : Pushing α) (b : BufferLockFree α) : BufferLockFree α × (Pushing α ⊕ Bool) :=
  match e with
  | .size item =>
    if (b.bufs.capacity : ℤ) = b.bufs.count ∧ b.mcircular = false then (b, .inr false)
    else (b, .inl (.allocate item .load))
  | .allocate item a => within b.withPool (.allocate item) (allocated item) (allocate a b.mpool)
  | .recycle item d => within b.withBufs (.recycle item) (recycled item) (dequeue d b.bufs)
  | .write item mitem =>
    ({ b with value := Function.update b.value mitem item }, .inl (.enqueue mitem (.load mitem)))
  | .enqueue mitem e => within b.withBufs (.enqueue mitem) (enqueued mitem) (enqueue e b.bufs)
  | .giveBack d => within b.withPool .giveBack (fun _ b => (b, .inr false)) (deallocate d b.mpool)
  | .drop mitem itmp d =>
    within b.withBufs (.drop mitem itmp) (dropped mitem itmp) (dequeue d b.bufs)
  | .free mitem itmp d =>
    within b.withPool (.free mitem itmp)
      (fun _ b => (b, .inl (.retry mitem (some itmp) (.load mitem)))) (deallocate d b.mpool)
  | .retry mitem itmp e =>
    within b.withBufs (.retry mitem itmp) (retried mitem itmp) (enqueue e b.bufs)

/-- Where a thread is in `Pop`, `PopWithoutRelease`, `Release`, `clear` or `Pop` of a batch. -/
inductive Popping (α : Type) where
  | pop (d : Dequeuing ℕ)
  | popRead (ipop : ℕ)
  | popFree (item : α) (d : Deallocating)
  | popWithoutRelease (d : Dequeuing ℕ)
  | release (d : Deallocating)
  | clear (d : Dequeuing ℕ)
  | clearFree (d : Deallocating)
  | popAll (items : List α) (d : Dequeuing ℕ)
  | popAllRead (items : List α) (ipop : ℕ)
  | popAllFree (items : List α) (d : Deallocating)
  deriving DecidableEq

/-- What these calls return. -/
inductive Popped (α : Type) where
  | item (item : Option α)
  | pointer (ipop : Option ℕ)
  | released
  | cleared
  | items (items : List α)
  deriving DecidableEq

/-- `Pop` after `bufs.dequeue(ipop)`. -/
def popped (ipop : Option ℕ) (b : BufferLockFree α) : BufferLockFree α × (Popping α ⊕ Popped α) :=
  match ipop with
  | some ipop => (b, .inl (.popRead ipop))
  | none => (b, .inr (.item none))

/-- `clear` after `bufs.dequeue(item)`. -/
def cleared (item : Option ℕ) (b : BufferLockFree α) : BufferLockFree α × (Popping α ⊕ Popped α) :=
  match item with
  | some item => (b, .inl (.clearFree (.load item)))
  | none => (b, .inr .cleared)

/-- `Pop` of a batch after `bufs.dequeue(ipop)`. -/
def poppedAll (items : List α) (ipop : Option ℕ) (b : BufferLockFree α) :
    BufferLockFree α × (Popping α ⊕ Popped α) :=
  match ipop with
  | some ipop => (b, .inl (.popAllRead items ipop))
  | none => (b, .inr (.items items))

/-- A turn in one of these calls. -/
def pop (e : Popping α) (b : BufferLockFree α) : BufferLockFree α × (Popping α ⊕ Popped α) :=
  match e with
  | .pop d => within b.withBufs .pop popped (dequeue d b.bufs)
  | .popRead ipop => (b, .inl (.popFree (b.value ipop) (.load ipop)))
  | .popFree item d =>
    within b.withPool (.popFree item) (fun _ b => (b, .inr (.item (some item))))
      (deallocate d b.mpool)
  | .popWithoutRelease d =>
    within b.withBufs .popWithoutRelease (fun ipop b => (b, .inr (.pointer ipop)))
      (dequeue d b.bufs)
  | .release d => within b.withPool .release (fun _ b => (b, .inr .released)) (deallocate d b.mpool)
  | .clear d => within b.withBufs .clear cleared (dequeue d b.bufs)
  | .clearFree d =>
    within b.withPool .clearFree (fun _ b => (b, .inl (.clear .load))) (deallocate d b.mpool)
  | .popAll items d => within b.withBufs (.popAll items) (poppedAll items) (dequeue d b.bufs)
  | .popAllRead items ipop =>
    (b, .inl (.popAllFree (items ++ [b.value ipop]) (.load ipop)))
  | .popAllFree items d =>
    within b.withPool (.popAllFree items) (fun _ b => (b, .inl (.popAll items .load)))
      (deallocate d b.mpool)

end BufferLockFree
end OrocosRtt.LockFree
