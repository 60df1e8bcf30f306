import OrocosRtt.Buffer.Interface
import Mathlib.Data.Int.DivMod

/-! The two buffers that keep their samples in a deque: one with a lock and one without. -/
namespace OrocosRtt.Buffer

open Library.Queue

variable {α : Type}

/-- Conversion to `size_type`, which is `int`. -/
def sizeType (n : ℕ) : ℤ := (n : ℤ).bmod (4294967296)

theorem sizeType_eq {n : ℕ} (h : n < 2147483648) : sizeType n = n := by
  apply Int.bmod_eq_of_le_mul_two <;> omega

/-- The members of `BufferLocked` and `BufferUnSync`. -/
structure DequeBuffer (α : Type) where
  cap : ℤ
  buf : List α
  lastSample : α
  mcircular : Bool

namespace DequeBuffer

def push (item : α) (b : DequeBuffer α) : DequeBuffer α × Bool :=
  if b.cap = sizeType b.buf.length then
    if !b.mcircular then (b, false)
    else ({ b with buf := b.buf.tail ++ [item] }, true)
  else ({ b with buf := b.buf ++ [item] }, true)

/-- The loop that drops excess elements from the front. -/
def dropExcess (cap : ℤ) (n : ℕ) : List α → List α
  | [] => []
  | a :: buf => if cap < sizeType ((a :: buf).length + n) then dropExcess cap n buf else a :: buf

/-- The loop that appends elements until the buffer is full, and how many it took. -/
def fill (cap : ℤ) : List α → List α → List α × ℕ
  | buf, [] => (buf, 0)
  | buf, a :: items =>
    if sizeType buf.length ≠ cap then
      ((fill cap (buf ++ [a]) items).1, (fill cap (buf ++ [a]) items).2 + 1)
    else (buf, 0)

/-- What a circular buffer drops for a batch: its elements that stay, and where in the batch the
first one is that is taken. A failed assertion does not return. -/
def makeRoom (items : List α) (b : DequeBuffer α) : Option (List α × ℕ) :=
  if b.mcircular = true ∧ b.cap ≤ sizeType items.length then
    some ([], items.length - b.cap.toNat)
  else if b.mcircular = true ∧ b.cap < sizeType (b.buf.length + items.length) then
    if sizeType items.length < b.cap then some (dropExcess b.cap items.length b.buf, 0) else none
  else some (b.buf, 0)

/-- `Push` of a batch. With `asserts`, a circular buffer must have taken all elements. -/
def pushAll (asserts : Bool) (items : List α) (b : DequeBuffer α) : Option (DequeBuffer α × ℤ) :=
  (b.makeRoom items).bind fun r =>
    let (buf, taken) := fill b.cap r.1 (items.drop r.2)
    if asserts = true ∧ b.mcircular = true ∧ sizeType (r.2 + taken) ≠ sizeType items.length then none
    else some ({ b with buf := buf }, sizeType (r.2 + taken))

def pop (b : DequeBuffer α) : DequeBuffer α × Option α :=
  match b.buf with
  | [] => (b, none)
  | a :: buf => ({ b with buf }, some a)

def popAll (b : DequeBuffer α) : DequeBuffer α × ℤ × List α :=
  ({ b with buf := [] }, sizeType b.buf.length, b.buf)

/-- The pointer that is returned points to `lastSample`. -/
def popWithoutRelease (b : DequeBuffer α) : DequeBuffer α × Option Unit :=
  match b.buf with
  | [] => (b, none)
  | a :: buf => ({ b with buf, lastSample := a }, some ())

def clear (b : DequeBuffer α) : DequeBuffer α := { b with buf := [] }

def interface (α : Type) (asserts : Bool) : BufferInterface α where
  State := DequeBuffer α
  Pointer := Unit
  push := fun item b => some (b.push item)
  pushAll := fun items b => b.pushAll asserts items
  pop := fun b => some b.pop
  popAll := fun b => some b.popAll
  popWithoutRelease := fun b => some b.popWithoutRelease
  release := fun _ b => some b
  clear := fun b => some b.clear
  deref := fun _ b => b.lastSample

end DequeBuffer

/-- A buffer whose calls lock a mutex. -/
abbrev BufferLocked (α : Type) : BufferInterface α := DequeBuffer.interface α true

/-- A buffer for one thread at a time. -/
abbrev BufferUnSync (α : Type) : BufferInterface α := DequeBuffer.interface α false

def BufferLocked.create (size : ℕ) (initialValue : α) (circular : Bool) : (BufferLocked α).State :=
  { cap := sizeType size, buf := [], lastSample := initialValue, mcircular := circular : DequeBuffer α }

/-- The last sample is `T()` here. -/
def BufferUnSync.create (size : ℕ) (default : α) (circular : Bool) : (BufferUnSync α).State :=
  { cap := sizeType size, buf := [], lastSample := default, mcircular := circular : DequeBuffer α }

namespace DequeBuffer

/-! ### A deque of bounded length -/

theorem fill_eq {capacity : ℕ} (hc : capacity < 2147483648) (items : List α) {buf : List α}
    (hb : buf.length ≤ capacity) : fill capacity buf items =
      (buf ++ items.take (capacity - buf.length), min items.length (capacity - buf.length)) := by
  induction items generalizing buf with
  | nil => simp [fill]
  | cons a items ih =>
    rw [fill, sizeType_eq (by omega)]
    by_cases hfull : buf.length = capacity
    · simp [hfull]
    · have hroom : capacity - buf.length = capacity - (buf ++ [a]).length + 1 := by
        rw [List.length_append, List.length_singleton]
        omega
      have hlen : (buf ++ [a]).length ≤ capacity := by
        rw [List.length_append, List.length_singleton]
        omega
      have hne : (buf.length : ℤ) ≠ capacity := by exact_mod_cast hfull
      rw [if_pos hne, ih hlen, hroom, List.take_succ_cons, List.length_cons, List.append_assoc,
        List.singleton_append]
      congr 1
      omega

theorem dropExcess_eq {capacity n : ℕ} (hc : capacity < 65536) (hn : n ≤ capacity) {buf : List α}
    (hb : buf.length ≤ capacity) :
    dropExcess capacity n buf = buf.drop (buf.length + n - capacity) := by
  induction buf with
  | nil =>
    rw [List.drop_nil]
    rfl
  | cons a buf ih =>
    rw [List.length_cons] at hb
    rw [dropExcess, List.length_cons, sizeType_eq (by omega)]
    by_cases hmore : capacity < buf.length + 1 + n
    · have hstep : buf.length + 1 + n - capacity = buf.length + n - capacity + 1 := by omega
      rw [if_pos (by exact_mod_cast hmore), ih (by omega), hstep, List.drop_succ_cons]
    · have hzero : buf.length + 1 + n - capacity = 0 := by omega
      rw [if_neg (by exact_mod_cast hmore), hzero, List.drop_zero]

/-- The deque holds the items, and `lastSample` the one that was popped without release. -/
structure Holds (capacity : ℕ) (circular : Bool) (items : List α) (h : Option (Unit × α))
    (b : DequeBuffer α) : Prop where
  cap : b.cap = capacity
  circular : b.mcircular = circular
  buf : b.buf = items
  bounded : items.length ≤ capacity
  last : ∀ x, h = some x → b.lastSample = x.2

theorem Holds.with_buf {capacity : ℕ} {circular : Bool} {items items' : List α}
    {h : Option (Unit × α)} {b : DequeBuffer α} (hb : b.Holds capacity circular items h)
    (hl : items'.length ≤ capacity) : Holds capacity circular items' h { b with buf := items' } :=
  ⟨hb.cap, hb.circular, rfl, hl, hb.last⟩

/-- A circular buffer keeps as much as it has room for, of its own elements and of the batch. -/
theorem makeRoom_circular {capacity : ℕ} (hc : capacity < 65536) {b : DequeBuffer α}
    {items : List α} {h : Option (Unit × α)} (hb : b.Holds capacity true items h) {as : List α}
    (has : as.length < 2147483648) : ∃ buf itl, b.makeRoom as = some (buf, itl) ∧
      itl ≤ as.length ∧ buf.length + (as.length - itl) ≤ capacity ∧
      buf ++ as.drop itl = (items ++ as).drop (items.length + as.length - capacity) := by
  have hbound := hb.bounded
  simp only [makeRoom, hb.cap, hb.circular, hb.buf, true_and, sizeType_eq has, Int.toNat_natCast]
  by_cases hlarge : capacity ≤ as.length
  · refine ⟨[], as.length - capacity, ?_, by omega, ?_, ?_⟩
    · rw [if_pos (by exact_mod_cast hlarge)]
    · rw [List.length_nil]
      omega
    · have hsum : items.length + as.length - capacity = items.length + (as.length - capacity) := by
        omega
      rw [hsum, List.drop_append, List.drop_eq_nil_of_le (Nat.le_add_right ..),
        Nat.add_sub_cancel_left]
  · have hsmall : items.length + as.length < 2147483648 := by omega
    rw [if_neg (by exact_mod_cast hlarge), sizeType_eq hsmall]
    by_cases hmore : capacity < items.length + as.length
    · refine ⟨items.drop (items.length + as.length - capacity), 0, ?_, Nat.zero_le _, ?_, ?_⟩
      · rw [if_pos (by exact_mod_cast hmore), if_pos (by exact_mod_cast Nat.lt_of_not_le hlarge),
          dropExcess_eq hc (by omega) hbound]
      · rw [List.length_drop]
        omega
      · rw [List.drop_zero, List.drop_append_of_le_length (by omega)]
    · refine ⟨items, 0, ?_, Nat.zero_le _, by omega, ?_⟩
      · rw [if_neg (by exact_mod_cast hmore)]
      · have hzero : items.length + as.length - capacity = 0 := by omega
        rw [hzero, List.drop_zero, List.drop_zero]

/-- A circular buffer takes all of a batch. -/
theorem pushAll_circular {capacity : ℕ} (hc : capacity < 65536) (asserts : Bool)
    {b : DequeBuffer α} {items : List α} {h : Option (Unit × α)} (hb : b.Holds capacity true items h)
    {as : List α} (has : as.length < 2147483648) :
    b.pushAll asserts as = some ({ b with
      buf := (items ++ as).drop (items.length + as.length - capacity) }, (as.length : ℤ)) := by
  obtain ⟨buf, itl, hroom, hitl, hlen, hall⟩ := makeRoom_circular hc hb has
  have htake : (as.drop itl).take (capacity - buf.length) = as.drop itl := by
    apply List.take_of_length_le
    rw [List.length_drop]
    omega
  have hcount : itl + min (as.drop itl).length (capacity - buf.length) = as.length := by
    rw [List.length_drop]
    omega
  have hfill := fill_eq (by omega : capacity < 2147483648) (as.drop itl)
    (by omega : buf.length ≤ capacity)
  rw [htake, hall] at hfill
  simp only [pushAll, hroom, Option.bind_some, hb.cap, hfill, hcount, ne_eq, not_true_eq_false,
    and_false, if_false, sizeType_eq has]

/-- Any other buffer takes what fits. -/
theorem pushAll_refusing {capacity : ℕ} (hc : capacity < 65536) (asserts : Bool)
    {b : DequeBuffer α} {items : List α} {h : Option (Unit × α)}
    (hb : b.Holds capacity false items h) (as : List α) :
    b.pushAll asserts as = some ({ b with buf := items ++ as.take (capacity - items.length) },
      ((min as.length (capacity - items.length) : ℕ) : ℤ)) := by
  have hroom : b.makeRoom as = some (items, 0) := by
    simp [makeRoom, hb.circular, hb.buf]
  have hcount : min as.length (capacity - items.length) < 2147483648 := by omega
  simp only [pushAll, hroom, Option.bind_some, hb.cap, hb.circular, List.drop_zero,
    fill_eq (by omega : capacity < 2147483648) _ hb.bounded, Bool.false_eq_true, false_and, and_false,
    if_false, Nat.zero_add, sizeType_eq hcount]

theorem push_eq {capacity : ℕ} {circular : Bool} (hc : 1 ≤ capacity) (hc' : capacity < 65536)
    {b : DequeBuffer α} {q : BoundedQueue α capacity} {h : Option (Unit × α)}
    (hb : b.Holds capacity circular q.items h) (a : α) :
    b.push a = ({ b with buf := (q.offer circular a).1.items }, (q.offer circular a).2) := by
  have hbound := q.bounded
  obtain ⟨cap, buf, lastSample, mcircular⟩ := b
  obtain rfl : cap = capacity := hb.cap
  obtain rfl : mcircular = circular := hb.circular
  obtain rfl : buf = q.items := hb.buf
  simp only [push, sizeType_eq (by omega : q.items.length < 2147483648)]
  cases hf : q.isFull with
  | true =>
    have hfull : q.items.length = capacity := by simpa [BoundedQueue.isFull] using hf
    rw [if_pos (by exact_mod_cast hfull.symm)]
    cases mcircular with
    | false => simp [BoundedQueue.offer, q.push_full hf, hf]
    | true =>
      have hdrop : (q.items ++ [a]).drop (q.items.length + 1 - capacity) = q.items.tail ++ [a] := by
        have hone : q.items.length + 1 - capacity = 1 := by omega
        rw [hone, List.drop_append_of_le_length (by omega), List.drop_one]
      simp [BoundedQueue.offer, BoundedQueue.pushOver_items, hdrop]
  | false =>
    have hroom := q.not_full_iff.mp hf
    rw [if_neg (by exact_mod_cast Ne.symm (Nat.ne_of_lt hroom))]
    cases mcircular with
    | false => simp [BoundedQueue.offer, q.push_items hf, hf]
    | true =>
      have hzero : q.items.length + 1 - capacity = 0 := by omega
      simp [BoundedQueue.offer, BoundedQueue.pushOver_items, hzero]

/-- Both deque buffers are bounded queues. -/
theorem implements {capacity : ℕ} (hc : 1 ≤ capacity) (hc' : capacity < 65536) (asserts circular : Bool) :
    Implements (interface α asserts) capacity circular (Holds capacity circular) where
  push := fun q h s a hs =>
    ⟨_, congrArg some (push_eq hc hc' hs a), hs.with_buf (q.offer circular a).1.bounded⟩
  pushAll := by
    intro q h s as has hs
    cases circular with
    | true =>
      obtain ⟨hitems, hcount⟩ := q.offerAll_circular as
      refine ⟨_, ?_, hs.with_buf (q.offerAll true as).1.bounded⟩
      rw [hitems, hcount]
      exact pushAll_circular hc' asserts hs (has rfl)
    | false =>
      obtain ⟨hitems, hcount⟩ := q.offerAll_refusing as
      refine ⟨_, ?_, hs.with_buf (q.offerAll false as).1.bounded⟩
      rw [hitems, hcount]
      exact pushAll_refusing hc' asserts hs as
  pop := by
    intro h s a as hs
    have hl : as.length ≤ capacity := Nat.le_of_succ_le hs.bounded
    refine ⟨{ s with buf := as }, ?_, hs.with_buf hl⟩
    simp [interface, pop, hs.buf]
  pop_nil := by
    intro h s hs
    simp [interface, pop, hs.buf]
  popAll := by
    intro h s items hs
    have hl := hs.bounded
    refine ⟨{ s with buf := [] }, ?_, hs.with_buf (Nat.zero_le _)⟩
    simp [interface, popAll, hs.buf, sizeType_eq (by omega : items.length < 2147483648)]
  take := by
    intro h s a as hs
    have hl : as.length ≤ capacity := Nat.le_of_succ_le hs.bounded
    refine ⟨{ s with buf := as, lastSample := a }, (), { s with buf := as, lastSample := a }, ?_, ?_,
      hs.cap, hs.circular, rfl, hl, ?_⟩
    · simp [interface, popWithoutRelease, hs.buf]
    · cases h <;> rfl
    · rintro _ ⟨⟩
      rfl
  take_nil := by
    intro h s hs
    simp [interface, popWithoutRelease, hs.buf]
  deref := fun p a items s hs => hs.last _ rfl
  releaseLast := by
    intro h s items hs
    refine ⟨s, ?_, hs.cap, hs.circular, hs.buf, hs.bounded, nofun⟩
    cases h <;> rfl
  clear := fun h s items hs => ⟨{ s with buf := [] }, rfl, hs.with_buf (Nat.zero_le _)⟩

end DequeBuffer
end OrocosRtt.Buffer
