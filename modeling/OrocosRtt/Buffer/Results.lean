import OrocosRtt.Buffer.LockFree

/-! What the three buffers return: the same as the bounded queue, unless a circular one is given a
batch whose length is no `int`. -/
namespace OrocosRtt.Buffer

open Library.Queue
open OrocosRtt.LockFree (BufferLockFree TsPool AtomicMWSRQueue)

variable {α : Type}

/-- The channel element of a new buffer. -/
def ChannelBufferElement.create {B : BufferInterface α} (buffer : B.State) : ChannelBufferElement B :=
  ⟨buffer, none⟩

def Fifo.create (α : Type) (capacity : ℕ) : Fifo α capacity := ⟨.empty, none⟩

namespace LockFree

/-- The buffer for a thread that runs alone, with enough turns for any call. -/
abbrev ofCapacity (α : Type) (capacity : ℕ) : BufferInterface α :=
  interface α (9 * capacity + 17)

theorem create_related {capacity : ℕ} (hc : capacity ≤ 65534) (initialValue : α) (circular : Bool)
    (fuel : ℕ) : Related (Represents capacity circular) (Fifo.create α capacity)
      (.create (BufferLockFree.create capacity initialValue circular) :
        ChannelBufferElement (interface α fuel)) := by
  have hlisted : (TsPool.create (capacity + 1)).Listed (List.range (capacity + 1)) :=
    TsPool.create_listed (Nat.succ_pos capacity) (by omega)
  refine ⟨none, ⟨[], List.range (capacity + 1), ?_, rfl⟩, rfl, rfl⟩
  exact ⟨AtomicMWSRQueue.create_stored hc, rfl, hlisted, rfl, List.Perm.refl _, nofun, rfl⟩

end LockFree

theorem DequeBuffer.create_related {capacity : ℕ} {cap : ℤ} (hcap : cap = capacity) (lastSample : α)
    (asserts circular : Bool) : Related (Holds capacity circular) (Fifo.create α capacity)
      (.create ⟨cap, [], lastSample, circular⟩ : ChannelBufferElement (interface α asserts)) :=
  ⟨none, ⟨hcap, rfl, rfl, Nat.zero_le _, nofun⟩, rfl, rfl⟩

theorem sizeType_lt (n : ℕ) : sizeType n < 2147483648 :=
  Int.bmod_lt (by decide)

/-- A buffer that counts with an `int` cannot return the count of a larger batch. -/
theorem fits_of_results {B : BufferInterface α}
    (hB : ∀ as s s' n, B.pushAll as s = some (s', n) → n < 2147483648) {capacity : ℕ}
    {circular : Bool} {ops : List (Operation α)} {f : Fifo α capacity} {c : ChannelBufferElement B}
    (h : c.results ops = some (f.results circular ops)) : ∀ o ∈ ops, o.fits circular := by
  induction ops generalizing f c with
  | nil => exact fun _ => nofun
  | cons o ops ih =>
    simp only [ChannelBufferElement.results, Fifo.results, Option.bind_eq_bind,
      Option.bind_eq_some_iff, Option.pure_def, Option.some.injEq, List.cons.injEq] at h
    obtain ⟨⟨c', r⟩, hperform, rs, hrest, hr, rfl⟩ := h
    intro o' ho'
    rcases List.mem_cons.mp ho' with rfl | hmem
    · cases o' with
      | pushAll items =>
        rintro rfl
        obtain ⟨s', hs'⟩ := Option.map_eq_some_iff.mp hperform
        obtain ⟨hpush, hresult⟩ := hs'
        have hcount : r = .count (f.queue.offerAll true items).2 := hr
        rw [(f.queue.offerAll_circular items).2] at hcount
        rw [hcount] at hresult
        obtain ⟨-, hn⟩ := Prod.mk.inj hresult
        have hlt := hB items c.buffer s'.1 s'.2 hpush
        have hlen := Result.count.inj hn
        omega
      | write | read | clear | push | pop | popAll | clearBuffer => trivial
    · exact ih hrest o' hmem

theorem DequeBuffer.pushAll_lt {asserts : Bool} {as : List α} {b b' : DequeBuffer α} {n : ℤ}
    (h : b.pushAll asserts as = some (b', n)) : n < 2147483648 := by
  obtain ⟨r, -, hr⟩ := Option.bind_eq_some_iff.mp h
  simp only at hr
  split at hr
  · cases hr
  · obtain ⟨-, rfl⟩ := Prod.mk.inj (Option.some.inj hr)
    exact sizeType_lt _

theorem results_eq_iff {capacity : ℕ} (hc : 1 ≤ capacity) (hc' : capacity ≤ 65534)
    (initialValue default : α) (circular : Bool) (ops : List (Operation α)) :
    let expected := (Fifo.create α capacity).results circular ops
    (.create (BufferLockFree.create capacity initialValue circular) :
        ChannelBufferElement (LockFree.ofCapacity α capacity)).results ops = some expected ∧
      (.create (BufferLocked.create capacity initialValue circular) :
        ChannelBufferElement (BufferLocked α)).results ops = some expected ∧
      (.create (BufferUnSync.create capacity default circular) :
        ChannelBufferElement (BufferUnSync α)).results ops = some expected ↔
      ∀ o ∈ ops, o.fits circular := by
  constructor
  · rintro ⟨-, -, h⟩
    exact fits_of_results (fun _ _ _ _ => DequeBuffer.pushAll_lt) h
  · intro hf
    have hcap : sizeType capacity = capacity := sizeType_eq (by omega)
    refine ⟨?_, ?_, ?_⟩
    · exact (LockFree.implements hc (by omega) (Nat.le_refl _) circular).results hf
        (LockFree.create_related hc' initialValue circular _)
    · exact (DequeBuffer.implements hc (by omega) true circular).results hf
        (DequeBuffer.create_related hcap initialValue true circular)
    · exact (DequeBuffer.implements hc (by omega) false circular).results hf
        (DequeBuffer.create_related hcap default false circular)

theorem results_eq_of_small_batches :
    let ops : List (Operation ℕ) :=
      [.write 1 true, .pushAll [2, 3], .read 0 true, .pop 0, .read 0 true]
    let expected := (Fifo.create ℕ 2).results true ops
    ((.create (BufferLockFree.create 2 0 true) :
        ChannelBufferElement (LockFree.ofCapacity ℕ 2)).results ops = some expected ∧
      (.create (BufferLocked.create 2 0 true) :
        ChannelBufferElement (BufferLocked ℕ)).results ops = some expected ∧
      (.create (BufferUnSync.create 2 0 true) :
        ChannelBufferElement (BufferUnSync ℕ)).results ops = some expected ↔
      ∀ o ∈ ops, o.fits true) ∧
    expected = [.done true, .count 2, .flow .newData 2, .popped true 3, .flow .oldData 2] := by
  intro ops expected
  exact ⟨results_eq_iff (by decide) (by decide) 0 0 true ops, by decide⟩

/-- The length of the batch becomes negative, and the buffer makes no room for it. -/
theorem DequeBuffer.pushAll_negative {a : α} {as : List α} (hlen : (a :: as).length = 2147483648)
    (asserts : Bool) (lastSample : α) :
    (⟨1, [], lastSample, true⟩ : DequeBuffer α).pushAll asserts (a :: as) =
      if asserts then none else some (⟨1, [a], lastSample, true⟩, 1) := by
  have hsize : sizeType 2147483648 = -2147483648 := by decide
  have hroom : (⟨1, [], lastSample, true⟩ : DequeBuffer α).makeRoom (a :: as) = some ([], 0) := by
    simp only [makeRoom, List.length_nil, Nat.zero_add, hlen, hsize]
    rfl
  have hfill : fill 1 [] (a :: as) = ([a], 1) := by
    have hempty : ([] : List α).length ≤ 1 := Nat.zero_le 1
    have h := fill_eq (by decide : 1 < 2147483648) (a :: as) hempty
    rw [hlen] at h
    exact h
  have hone : sizeType 1 = 1 := by decide
  simp only [pushAll, hroom, Option.bind_some, List.drop_zero, hfill, Nat.zero_add, hlen, hsize, hone]
  cases asserts <;> rfl

theorem Fifo.pushAll_pop {a b : α} {as : List α} (hlast : as.getLast? = some b) (item : α) :
    (Fifo.create α 1).results true [.pushAll (a :: as), .pop item] =
      [.count (as.length + 1), .popped true b] := by
  obtain ⟨hitems, hcount⟩ := (BoundedQueue.empty : BoundedQueue α 1).offerAll_circular (a :: as)
  obtain ⟨init, rfl⟩ := List.getLast?_eq_some_iff.mp hlast
  have hkept : ((BoundedQueue.empty : BoundedQueue α 1).offerAll true (a :: (init ++ [b]))).1.items =
      [b] := by
    rw [hitems]
    simp
  obtain ⟨q, hpop, -⟩ := BoundedQueue.pop_cons hkept
  simp [Fifo.results, Fifo.perform, Fifo.create, hcount, hpop]

theorem DequeBuffer.results_negative {a : α} {as : List α} (hlen : (a :: as).length = 2147483648)
    (asserts : Bool) (lastSample item : α) :
    (.create ⟨1, [], lastSample, true⟩ : ChannelBufferElement (interface α asserts)).results
        [.pushAll (a :: as), .pop item] =
      if asserts then none else some [.count 1, .popped true a] := by
  have hpush := pushAll_negative hlen asserts lastSample
  have hinterface : (interface α asserts).pushAll = fun items b => b.pushAll asserts items := rfl
  simp only [ChannelBufferElement.results, ChannelBufferElement.perform,
    ChannelBufferElement.create, hinterface, hpush]
  cases asserts <;> rfl

theorem large_batch {as : List ℕ} (hlen : as.length = 2147483647) (hlast : as.getLast? = some 2) :
    let ops : List (Operation ℕ) := [.pushAll (1 :: as), .pop 0]
    (Fifo.create ℕ 1).results true ops = [.count 2147483648, .popped true 2] ∧
      (.create (BufferUnSync.create 1 0 true) : ChannelBufferElement (BufferUnSync ℕ)).results ops =
        some [.count 1, .popped true 1] ∧
      (.create (BufferLocked.create 1 0 true) : ChannelBufferElement (BufferLocked ℕ)).results ops =
        none := by
  have hmore : (1 :: as).length = 2147483648 := by rw [List.length_cons, hlen]
  have hsize : sizeType 1 = 1 := by decide
  intro ops
  refine ⟨?_, ?_, ?_⟩
  · have hfifo := Fifo.pushAll_pop (a := 1) hlast 0
    have hcount : ((2147483647 : ℕ) : ℤ) + 1 = 2147483648 := by omega
    rw [hlen, hcount] at hfifo
    exact hfifo
  · have hunsync := DequeBuffer.results_negative hmore false 0 0
    rw [BufferUnSync.create, hsize]
    exact hunsync
  · have hlocked := DequeBuffer.results_negative hmore true 0 0
    rw [BufferLocked.create, hsize]
    exact hlocked

/-- A batch of 2147483648 elements for a circular buffer of capacity 1: the queue keeps the last one,
but one buffer keeps the first one and another one fails an assertion. -/
theorem large_batch_keeps_oldest :
    let ops : List (Operation ℕ) := [.pushAll (1 :: List.replicate 2147483647 2), .pop 0]
    (Fifo.create ℕ 1).results true ops = [.count 2147483648, .popped true 2] ∧
      (.create (BufferUnSync.create 1 0 true) : ChannelBufferElement (BufferUnSync ℕ)).results ops =
        some [.count 1, .popped true 1] ∧
      (.create (BufferLocked.create 1 0 true) : ChannelBufferElement (BufferLocked ℕ)).results ops =
        none :=
  large_batch List.length_replicate (List.getLast?_replicate.trans (if_neg (by decide)))

end OrocosRtt.Buffer
