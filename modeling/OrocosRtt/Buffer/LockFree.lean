import OrocosRtt.Buffer.Deque
import OrocosRtt.LockFree.BufferLockFree

/-! The lock-free buffer in a single thread: it is the same bounded queue as the buffers that keep
their samples in a deque. -/
namespace OrocosRtt.Buffer

open Library.Queue Library.Run
open OrocosRtt.LockFree (AtomicMWSRQueue TsPool BufferLockFree)
open OrocosRtt.LockFree.AtomicMWSRQueue (Cell)

variable {α : Type}

namespace LockFree

open OrocosRtt.LockFree.BufferLockFree

/-- The loop of `Push` of a batch, and how many elements it left. -/
def pushLoop (fuel : ℕ) : List α → BufferLockFree α → Option (BufferLockFree α × ℕ)
  | [], b => some (b, 0)
  | item :: items, b =>
    (finish push fuel (.size item) b).bind fun r =>
      if r.2 then pushLoop fuel items r.1 else some (r.1, items.length + 1)

def pushAll (fuel : ℕ) (items : List α) (b : BufferLockFree α) : Option (BufferLockFree α × ℤ) :=
  (pushLoop fuel items b).map fun r => (r.1, (sizeType items.length - r.2).bmod 4294967296)

/-- The buffer for a thread that runs alone. -/
def interface (α : Type) (fuel : ℕ) : BufferInterface α where
  State := BufferLockFree α
  Pointer := ℕ
  push := fun item b => finish push fuel (.size item) b
  pushAll := pushAll fuel
  pop := fun b => (finish pop fuel (.pop .load) b).bind fun
    | (b, .item item) => some (b, item)
    | _ => none
  popAll := fun b => (finish pop fuel (.popAll [] .load) b).bind fun
    | (b, .items items) => some (b, sizeType items.length, items)
    | _ => none
  popWithoutRelease := fun b => (finish pop fuel (.popWithoutRelease .load) b).bind fun
    | (b, .pointer ipop) => some (b, ipop)
    | _ => none
  release := fun item b => (finish pop fuel (.release (.load item)) b).map Prod.fst
  clear := fun b => (finish pop fuel (.clear .load) b).map Prod.fst
  deref := fun i b => b.value i

/-- The pool's items are in the queue, in the hand of the reader, or free. -/
structure Holds (capacity : ℕ) (circular : Bool) (queue : List ℕ) (h : Option (ℕ × α))
    (free : List ℕ) (b : BufferLockFree α) : Prop where
  stored : b.bufs.Stored (queue.map fun i => (⟨i, .written⟩ : Cell ℕ Unit))
  size : b.bufs.size = capacity + 1
  listed : b.mpool.Listed free
  pool : b.mpool.capacity = capacity + 1
  all : (queue ++ ((h.map Prod.fst).toList ++ free)).Perm (List.range (capacity + 1))
  held : ∀ i a, h = some (i, a) → b.value i = a
  mode : b.mcircular = circular

namespace Holds

variable {capacity : ℕ} {circular : Bool} {h : Option (ℕ × α)} {queue free : List ℕ}
  {b : BufferLockFree α}

theorem nodup (hb : Holds capacity circular queue h free b) :
    (queue ++ ((h.map Prod.fst).toList ++ free)).Nodup :=
  hb.all.nodup_iff.mpr List.nodup_range

theorem lt (hb : Holds capacity circular queue h free b) {i : ℕ}
    (hi : i ∈ queue ++ ((h.map Prod.fst).toList ++ free)) : i < b.mpool.capacity := by
  rw [hb.pool]
  exact List.mem_range.mp (hb.all.mem_iff.mp hi)

theorem count (hb : Holds capacity circular queue h free b) :
    queue.length + ((h.map Prod.fst).toList.length + free.length) = capacity + 1 := by
  have hl := hb.all.length_eq
  simpa only [List.length_append, List.length_range] using hl

theorem held_le (h : Option (ℕ × α)) : (h.map Prod.fst).toList.length ≤ 1 := by
  cases h with
  | none => exact Nat.zero_le _
  | some => exact Nat.le_refl _

theorem length (hb : Holds capacity circular queue h free b) : queue.length ≤ capacity := by
  have hl := hb.stored.length
  rw [List.length_map, hb.size] at hl
  omega

end Holds

/-! ### The calls -/

section Within

variable {E E' R R' : Type} (turn : E → BufferLockFree α → BufferLockFree α × (E ⊕ R))
  {b : BufferLockFree α} {n m : ℕ} {e : E'} {r : R'} {x : BufferLockFree α × R}

/-- A call to the queue within a call to the buffer. -/
theorem finish_bufs {inner : E' → AtomicMWSRQueue ℕ → AtomicMWSRQueue ℕ × (E' ⊕ R')} (f : E' → E)
    (next : R' → BufferLockFree α → BufferLockFree α × (E ⊕ R))
    (hturn : ∀ e b, turn (f e) b = within b.withBufs f next (inner e b.bufs))
    {q : AtomicMWSRQueue ℕ} (h : finish inner n e b.bufs = some (q, r))
    (hnext : finishFrom turn m (next r (b.withBufs q)) = some x) :
    finish turn (m + n) (f e) b = some x :=
  finish_within (fun e s => hturn e (b.withBufs s)) h hnext

/-- A call to the pool within a call to the buffer. -/
theorem finish_pool {inner : E' → TsPool → TsPool × (E' ⊕ R')} (f : E' → E)
    (next : R' → BufferLockFree α → BufferLockFree α × (E ⊕ R))
    (hturn : ∀ e b, turn (f e) b = within b.withPool f next (inner e b.mpool))
    {p : TsPool} (h : finish inner n e b.mpool = some (p, r))
    (hnext : finishFrom turn m (next r (b.withPool p)) = some x) :
    finish turn (m + n) (f e) b = some x :=
  finish_within (fun e s => hturn e (b.withPool s)) h hnext

end Within

section Calls

variable {capacity : ℕ} {circular : Bool} {h : Option (ℕ × α)} {queue free : List ℕ}
  {b : BufferLockFree α}

/-- An item of the pool is written and enqueued. -/
theorem push_write (item : α) (mitem : ℕ)
    (hstored : b.bufs.Stored (queue.map fun i => (⟨i, .written⟩ : Cell ℕ Unit)))
    (hroom : queue.length < capacity) (hsize : b.bufs.size = capacity + 1) :
    ∃ q, finish push 4 (.write item mitem) b =
        some (⟨q, b.mpool, Function.update b.value mitem item, b.mcircular⟩, true) ∧
      q.Stored ((queue ++ [mitem]).map fun i => (⟨i, .written⟩ : Cell ℕ Unit)) ∧
      q.size = capacity + 1 := by
  obtain ⟨q, hq, hq', hs⟩ := AtomicMWSRQueue.enqueue_alone hstored
    (by rw [List.length_map]; omega) mitem
  refine ⟨q, ?_, by rwa [List.map_append], hs.trans hsize⟩
  rw [finish_on rfl]
  exact finish_bufs push (b := { b with value := Function.update b.value mitem item }) (m := 0)
    (.enqueue mitem) (enqueued mitem) (fun _ _ => rfl) hq rfl

theorem Holds.not_full (hb : Holds capacity circular queue h free b)
    (hroom : queue.length < capacity ∨ circular = true) :
    ¬ ((b.bufs.capacity : ℤ) = b.bufs.count ∧ b.mcircular = false) := by
  rintro ⟨hcount, hmode⟩
  rw [hb.stored.count_eq, List.length_map, AtomicMWSRQueue.capacity, hb.size] at hcount
  have hc := hb.mode.symm.trans hmode
  rcases hroom with hroom | hmode'
  · have : queue.length = capacity := by exact_mod_cast hcount.symm
    omega
  · rw [hc] at hmode'
    cases hmode'

/-- The buffer after an item of the pool was written and enqueued. -/
theorem Holds.written (hb : Holds capacity circular queue h free b) (item : α)
    {kept free' : List ℕ} {i : ℕ} {q : AtomicMWSRQueue ℕ} {p : TsPool}
    (hq : q.Stored ((kept ++ [i]).map fun i => (⟨i, .written⟩ : Cell ℕ Unit)))
    (hsize : q.size = capacity + 1) (hp : p.Listed free') (hpool : p.capacity = capacity + 1)
    (hall : (kept ++ [i] ++ ((h.map Prod.fst).toList ++ free')).Perm (List.range (capacity + 1))) :
    Holds capacity circular (kept ++ [i]) h free'
        ⟨q, p, Function.update b.value i item, b.mcircular⟩ ∧
      (kept ++ [i]).map (Function.update b.value i item) = kept.map b.value ++ [item] := by
  have hnodup : (kept ++ [i] ++ ((h.map Prod.fst).toList ++ free')).Nodup :=
    hall.nodup_iff.mpr List.nodup_range
  have hkept : i ∉ kept := by
    intro hi
    have hd := (List.nodup_append.mp (List.nodup_append.mp hnodup).1).2.2
    exact hd i hi i (List.mem_singleton_self i) rfl
  refine ⟨⟨hq, hsize, hp, hpool, hall, ?_, hb.mode⟩, ?_⟩
  · rintro j a rfl
    have hne : j ≠ i := by
      rintro rfl
      have hd := (List.nodup_append.mp hnodup).2.2
      exact hd j (List.mem_append_right _ (List.mem_singleton_self j)) j List.mem_cons_self rfl
    show Function.update b.value i item j = a
    rw [Function.update_of_ne hne]
    exact hb.held j a rfl
  · rw [List.map_append, List.map_singleton, Function.update_self]
    congr 1
    apply List.map_congr_left
    intro j hj
    have hne : j ≠ i := fun he => hkept (he ▸ hj)
    exact Function.update_of_ne hne ..

/-- There is room in the queue, and so there is an item in the pool. -/
theorem push_room (hb : Holds capacity circular queue h free b) (hroom : queue.length < capacity)
    (item : α) : ∃ b' queue' free', finish push 8 (.size item) b = some (b', true) ∧
      Holds capacity circular queue' h free' b' ∧
      queue'.map b'.value = queue.map b.value ++ [item] := by
  obtain ⟨i, free', rfl⟩ : ∃ i free', free = i :: free' := by
    apply List.exists_cons_of_ne_nil
    rintro rfl
    have := hb.count
    have := Holds.held_le h
    simp only [List.length_nil] at *
    omega
  obtain ⟨p, hp, hlisted, hpool⟩ := TsPool.allocate_alone hb.listed
  obtain ⟨q, hq, hstored, hsize⟩ := push_write item i (b := b.withPool p)
    hb.stored hroom hb.size
  have hall : (queue ++ [i] ++ ((h.map Prod.fst).toList ++ free')).Perm
      (List.range (capacity + 1)) := by
    refine List.Perm.trans ?_ hb.all
    rw [List.perm_iff_count]
    intro a
    simp only [List.count_append, List.count_cons, List.count_nil]
    omega
  obtain ⟨hb', hmap⟩ := hb.written item hstored hsize hlisted (hpool.trans hb.pool) hall
  refine ⟨_, _, _, ?_, hb', hmap⟩
  have hstart : push (.size item) b = (b, .inl (.allocate item .load)) :=
    if_neg (hb.not_full (.inl hroom))
  rw [finish_on hstart]
  exact finish_pool push (m := 4) (.allocate item) (allocated item) (fun _ _ => rfl) hp hq

/-- The queue is full and there is a spare item: the oldest one goes back to the pool. -/
theorem push_full_spare {i j : ℕ} (hb : Holds capacity true (j :: queue) h (i :: free) b)
    (hfull : queue.length + 1 = capacity) (item : α) :
    ∃ b' queue' free', finish push 17 (.size item) b = some (b', true) ∧
      Holds capacity true queue' h free' b' ∧ queue'.map b'.value = queue.map b.value ++ [item] := by
  obtain ⟨p, hp, hlisted, hpool⟩ := TsPool.allocate_alone hb.listed
  have hnofit := AtomicMWSRQueue.enqueue_alone_full hb.stored
    (by rw [List.length_map, hb.size, List.length_cons, hfull]) i
  obtain ⟨q, hq, hstored, hsize⟩ := AtomicMWSRQueue.dequeue_alone hb.stored
  have hj : j ∉ free ∧ j < p.capacity := by
    have hnodup := hb.nodup
    rw [List.cons_append, List.nodup_cons] at hnodup
    refine ⟨fun hmem => hnodup.1 ?_, hpool ▸ hb.lt List.mem_cons_self⟩
    exact List.mem_append_right _ (List.mem_append_right _ (List.mem_cons_of_mem _ hmem))
  obtain ⟨p', hp', hlisted', hpool'⟩ := TsPool.deallocate_alone hlisted hj.1 hj.2
  obtain ⟨q', hq', hstored', hsize'⟩ := AtomicMWSRQueue.enqueue_alone hstored
    (by rw [List.length_map, hsize, hb.size]; omega) i
  have hall : (queue ++ [i] ++ ((h.map Prod.fst).toList ++ (j :: free))).Perm
      (List.range (capacity + 1)) := by
    refine List.Perm.trans ?_ hb.all
    rw [List.perm_iff_count]
    intro a
    simp only [List.count_append, List.count_cons, List.count_nil]
    omega
  obtain ⟨hb', hmap⟩ := hb.written item (by rwa [List.map_append])
    (hsize'.trans (hsize.trans hb.size)) hlisted' (hpool'.trans (hpool.trans hb.pool)) hall
  refine ⟨_, _, _, ?_, hb', hmap⟩
  set v := Function.update b.value i item
  have hstart : push (.size item) b = (b, .inl (.allocate item .load)) :=
    if_neg (hb.not_full (.inr rfl))
  have hmode : b.mcircular = true := hb.mode
  rw [finish_on hstart]
  refine finish_pool push (m := 13) (.allocate item) (allocated item) (fun _ _ => rfl) hp ?_
  show finish push 13 (.write item i) _ = _
  rw [finish_on rfl]
  have hnofit' : finishFrom push 11 (enqueued i false ⟨b.bufs, p, v, b.mcircular⟩) =
      some (⟨q', p', v, b.mcircular⟩, true) := by
    rw [hmode]
    show finish push 11 (.drop i none .load) ⟨b.bufs, p, v, true⟩ = _
    refine finish_bufs push (b := ⟨b.bufs, p, v, true⟩) (m := 6) (.drop i none) (dropped i none)
      (fun _ _ => rfl) hq ?_
    show finish push 6 (.free i j (.load j)) ⟨q, p, v, true⟩ = _
    refine finish_pool push (b := ⟨q, p, v, true⟩) (m := 3) (.free i j)
      (fun _ b => (b, .inl (.retry i (some j) (.load i)))) (fun _ _ => rfl) hp' ?_
    show finish push 3 (.retry i (some j) (.load i)) ⟨q, p', v, true⟩ = _
    exact finish_bufs push (b := ⟨q, p', v, true⟩) (m := 0) (.retry i (some j)) (retried i (some j))
      (fun _ _ => rfl) hq' rfl
  exact finish_bufs push (b := ⟨b.bufs, p, v, b.mcircular⟩) (m := 11) (.enqueue i) (enqueued i)
    (fun _ _ => rfl) hnofit hnofit'

/-- The queue is full and the pool is empty: the oldest item is written again. -/
theorem push_full_recycle {j : ℕ} (hb : Holds capacity true (j :: queue) h [] b)
    (hfull : queue.length + 1 = capacity) (item : α) :
    ∃ b' queue' free', finish push 11 (.size item) b = some (b', true) ∧
      Holds capacity true queue' h free' b' ∧ queue'.map b'.value = queue.map b.value ++ [item] := by
  have hnone := TsPool.allocate_alone_empty hb.listed
  obtain ⟨q, hq, hstored, hsize⟩ := AtomicMWSRQueue.dequeue_alone hb.stored
  obtain ⟨q', hq', hstored', hsize'⟩ := push_write item j (b := b.withBufs q)
    hstored (by omega) (hsize.trans hb.size)
  have hall : (queue ++ [j] ++ ((h.map Prod.fst).toList ++ [])).Perm (List.range (capacity + 1)) := by
    refine List.Perm.trans ?_ hb.all
    rw [List.perm_iff_count]
    intro a
    simp only [List.count_append, List.count_cons, List.count_nil]
    omega
  obtain ⟨hb', hmap⟩ := hb.written item hstored' hsize' hb.listed hb.pool hall
  refine ⟨_, _, _, ?_, hb', hmap⟩
  have hstart : push (.size item) b = (b, .inl (.allocate item .load)) :=
    if_neg (hb.not_full (.inr rfl))
  have hempty : finishFrom push 9 (allocated item none b) =
      some (⟨q', b.mpool, Function.update b.value j item, b.mcircular⟩, true) := by
    have hallocated : allocated item none b = (b, .inl (.recycle item .load)) := by
      simp [allocated, hb.mode]
    rw [hallocated]
    exact finish_bufs push (b := b) (m := 4) (.recycle item) (recycled item) (fun _ _ => rfl) hq hq'
  rw [finish_on hstart]
  exact finish_pool push (b := b) (m := 9) (.allocate item) (allocated item) (fun _ _ => rfl) hnone
    hempty

/-- `Push` of an item does what the bounded queue does. -/
theorem push_alone {n : ℕ} (hn : 17 ≤ n) (hc : 1 ≤ capacity) (q : BoundedQueue α capacity)
    (hb : Holds capacity circular queue h free b) (hq : queue.map b.value = q.items) (item : α) :
    ∃ b' queue' free', finish push n (.size item) b = some (b', (q.offer circular item).2) ∧
      Holds capacity circular queue' h free' b' ∧
      queue'.map b'.value = (q.offer circular item).1.items := by
  have hlen : q.items.length = queue.length := by rw [← hq, List.length_map]
  have hfuel {k : ℕ} (hk : k ≤ 17) {x : BufferLockFree α × Bool}
      (hx : finish push k (.size item) b = some x) : finish push n (.size item) b = some x := by
    obtain ⟨d, rfl⟩ := Nat.exists_eq_add_of_le (hk.trans hn)
    exact finish_mono hx
  cases hf : q.isFull with
  | false =>
    have hroom := q.not_full_iff.mp hf
    obtain ⟨b', queue', free', hx, hb', hmap⟩ := push_room hb (hlen ▸ hroom) item
    have hoffer : q.offer circular item = ((q.offer circular item).1, true) := by
      cases circular <;> simp [BoundedQueue.offer, hf]
    refine ⟨b', queue', free', ?_, hb', ?_⟩
    · rw [hoffer]
      exact hfuel (by omega) hx
    · rw [hmap, hq]
      cases circular with
      | false => simp [BoundedQueue.offer, q.push_items hf]
      | true =>
        have hzero : q.items.length + 1 - capacity = 0 := by omega
        simp [BoundedQueue.offer, BoundedQueue.pushOver_items, hzero]
  | true =>
    have hfull : queue.length = capacity := by
      rw [← hlen]
      simpa [BoundedQueue.isFull] using hf
    cases circular with
    | false =>
      refine ⟨b, queue, free, ?_, hb, ?_⟩
      · have hcond : (b.bufs.capacity : ℤ) = b.bufs.count ∧ b.mcircular = false := by
          refine ⟨?_, hb.mode⟩
          rw [hb.stored.count_eq, List.length_map, AtomicMWSRQueue.capacity, hb.size, hfull]
          rfl
        have hdone : push (.size item) b = (b, .inr false) := if_pos hcond
        have hoffer : (q.offer false item).2 = false := by simp [BoundedQueue.offer, hf]
        rw [hoffer]
        exact hfuel (k := 1) (by omega) (finish_done hdone)
      · simp [BoundedQueue.offer, q.push_full hf, hq]
    | true =>
      obtain ⟨j, rest, rfl⟩ : ∃ j rest, queue = j :: rest := by
        apply List.exists_cons_of_ne_nil
        rintro rfl
        rw [List.length_nil] at hfull
        omega
      have hitems : (q.offer true item).1.items = rest.map b.value ++ [item] := by
        have hone : q.items.length + 1 - capacity = 1 := by omega
        show (q.items ++ [item]).drop (q.items.length + 1 - capacity) = _
        rw [hone, ← hq]
        rfl
      cases free with
      | nil =>
        obtain ⟨b', queue', free', hx, hb', hmap⟩ := push_full_recycle hb hfull item
        exact ⟨b', queue', free', hfuel (by omega) hx, hb', hmap.trans hitems.symm⟩
      | cons i free =>
        obtain ⟨b', queue', free', hx, hb', hmap⟩ := push_full_spare hb hfull item
        exact ⟨b', queue', free', hfuel (by omega) hx, hb', hmap.trans hitems.symm⟩

/-- `Push` of a batch does what the bounded queue does. -/
theorem pushLoop_alone {n : ℕ} (hn : 17 ≤ n) (hc : 1 ≤ capacity) (q : BoundedQueue α capacity)
    (hb : Holds capacity circular queue h free b) (hq : queue.map b.value = q.items)
    (as : List α) : ∃ b' queue' free', pushLoop n as b =
        some (b', as.length - (q.offerAll circular as).2) ∧
      Holds capacity circular queue' h free' b' ∧
      queue'.map b'.value = (q.offerAll circular as).1.items ∧
      (q.offerAll circular as).2 ≤ as.length := by
  induction as generalizing q queue free b with
  | nil => exact ⟨b, queue, free, rfl, hb, hq, Nat.le_refl _⟩
  | cons a as ih =>
    obtain ⟨b', queue', free', hx, hb', hmap⟩ := push_alone hn hc q hb hq a
    rw [pushLoop, hx, Option.bind_some]
    cases hr : (q.offer circular a).2 with
    | true =>
      obtain ⟨b'', queue'', free'', hloop, hb'', hmap', hle⟩ := ih (q.offer circular a).1 hb' hmap
      rw [BoundedQueue.offerAll_taken hr]
      refine ⟨b'', queue'', free'', ?_, hb'', hmap', Nat.succ_le_succ hle⟩
      simp only [if_true]
      rw [hloop, List.length_cons, Nat.add_sub_add_right]
    | false =>
      rw [BoundedQueue.offer_refused hr] at hmap
      rw [BoundedQueue.offerAll_refused hr]
      exact ⟨b', queue', free', rfl, hb', hmap, Nat.zero_le _⟩

/-- The first item leaves the queue. -/
theorem Holds.dequeued {i : ℕ} (hb : Holds capacity circular (i :: queue) h free b) :
    ∃ q, finish AtomicMWSRQueue.dequeue 5 .load b.bufs = some (q, some i) ∧
      q.Stored (queue.map fun i => (⟨i, .written⟩ : Cell ℕ Unit)) ∧ q.size = capacity + 1 := by
  obtain ⟨q, hq, hstored, hsize⟩ := AtomicMWSRQueue.dequeue_alone hb.stored
  exact ⟨q, hq, hstored, hsize.trans hb.size⟩

/-- An item that has left the queue goes back to the pool. -/
theorem Holds.freed {i : ℕ} {q : AtomicMWSRQueue ℕ}
    (hb : Holds capacity circular (i :: queue) h free b)
    (hq : q.Stored (queue.map fun i => (⟨i, .written⟩ : Cell ℕ Unit))) (hsize : q.size = capacity + 1) :
    ∃ p, finish TsPool.deallocate 3 (.load i) b.mpool = some (p, ()) ∧
      Holds capacity circular queue h (i :: free) ((b.withBufs q).withPool p) := by
  have hnodup := hb.nodup
  rw [List.cons_append, List.nodup_cons] at hnodup
  have hi : i ∉ free := fun hmem =>
    hnodup.1 (List.mem_append_right _ (List.mem_append_right _ hmem))
  obtain ⟨p, hp, hlisted, hpool⟩ := TsPool.deallocate_alone hb.listed hi (hb.lt List.mem_cons_self)
  refine ⟨p, hp, hq, hsize, hlisted, hpool.trans hb.pool, ?_, hb.held, hb.mode⟩
  refine List.Perm.trans ?_ hb.all
  rw [List.perm_iff_count]
  intro a
  simp only [List.count_append, List.count_cons]
  omega

theorem pop_alone {i : ℕ} (hb : Holds capacity circular (i :: queue) h free b) :
    ∃ b', finish pop 9 (.pop .load) b = some (b', .item (some (b.value i))) ∧
      Holds capacity circular queue h (i :: free) b' ∧ b'.value = b.value := by
  obtain ⟨q, hq, hstored, hsize⟩ := hb.dequeued
  obtain ⟨p, hp, hb'⟩ := hb.freed hstored hsize
  refine ⟨_, ?_, hb', rfl⟩
  refine finish_bufs pop (b := b) (m := 4) .pop popped (fun _ _ => rfl) hq ?_
  show finish pop 4 (.popRead i) (b.withBufs q) = _
  rw [finish_on rfl]
  exact finish_pool pop (b := b.withBufs q) (m := 0) (.popFree (b.value i))
    (fun _ b' => (b', .inr (.item (some (b.value i))))) (fun _ _ => rfl) hp rfl

theorem pop_alone_empty (hb : Holds capacity circular [] h free b) :
    finish pop 2 (.pop .load) b = some (b, .item none) :=
  finish_bufs pop (b := b) (m := 0) .pop popped (fun _ _ => rfl)
    (AtomicMWSRQueue.dequeue_alone_empty hb.stored) rfl

theorem clear_alone (hb : Holds capacity circular queue h free b) :
    ∃ b' free', finish pop (8 * queue.length + 2) (.clear .load) b = some (b', .cleared) ∧
      Holds capacity circular [] h free' b' := by
  induction queue generalizing b free with
  | nil =>
    exact ⟨b, free, finish_bufs pop (b := b) (m := 0) .clear cleared (fun _ _ => rfl)
      (AtomicMWSRQueue.dequeue_alone_empty hb.stored) rfl, hb⟩
  | cons i queue ih =>
    obtain ⟨q, hq, hstored, hsize⟩ := hb.dequeued
    obtain ⟨p, hp, hb'⟩ := hb.freed hstored hsize
    obtain ⟨b'', free'', hclear, hb''⟩ := ih hb'
    refine ⟨b'', free'', ?_, hb''⟩
    have hfuel : 8 * (i :: queue).length + 2 = 8 * queue.length + 2 + 3 + 5 := by
      rw [List.length_cons]
      omega
    rw [hfuel]
    refine finish_bufs pop (b := b) .clear cleared (fun _ _ => rfl) hq ?_
    exact finish_pool pop (b := b.withBufs q) .clearFree (fun _ b => (b, .inl (.clear .load)))
      (fun _ _ => rfl) hp hclear

theorem popAll_alone (hb : Holds capacity circular queue h free b) (items : List α) :
    ∃ b' free', finish pop (9 * queue.length + 2) (.popAll items .load) b =
        some (b', .items (items ++ queue.map b.value)) ∧ Holds capacity circular [] h free' b' := by
  induction queue generalizing b free items with
  | nil =>
    refine ⟨b, free, ?_, hb⟩
    rw [List.map_nil, List.append_nil]
    exact finish_bufs pop (b := b) (m := 0) (.popAll items) (poppedAll items) (fun _ _ => rfl)
      (AtomicMWSRQueue.dequeue_alone_empty hb.stored) rfl
  | cons i queue ih =>
    obtain ⟨q, hq, hstored, hsize⟩ := hb.dequeued
    obtain ⟨p, hp, hb'⟩ := hb.freed hstored hsize
    obtain ⟨b'', free'', hall, hb''⟩ := ih hb' (items ++ [b.value i])
    refine ⟨b'', free'', ?_, hb''⟩
    have hfuel : 9 * (i :: queue).length + 2 = 9 * queue.length + 2 + 3 + 1 + 5 := by
      rw [List.length_cons]
      omega
    rw [hfuel]
    refine finish_bufs pop (b := b) (.popAll items) (poppedAll items) (fun _ _ => rfl) hq ?_
    show finish pop _ (.popAllRead items i) (b.withBufs q) = _
    have hitems : items ++ (i :: queue).map b.value =
        items ++ [b.value i] ++ queue.map b.value := List.append_cons ..
    rw [finish_on rfl, hitems]
    exact finish_pool pop (b := b.withBufs q) (m := 9 * queue.length + 2)
      (.popAllFree (items ++ [b.value i]))
      (fun _ b' => (b', .inl (.popAll (items ++ [b.value i]) .load))) (fun _ _ => rfl) hp hall

/-- The sample in the hand of the reader goes back to the pool. -/
theorem release_alone {i : ℕ} {a : α} (hb : Holds capacity circular queue (some (i, a)) free b) :
    ∃ b', finish pop 3 (.release (.load i)) b = some (b', .released) ∧
      Holds capacity circular queue none (i :: free) b' ∧ b'.value = b.value := by
  have hmem : i ∈ queue ++ (((some (i, a)).map Prod.fst).toList ++ free) :=
    List.mem_append_right _ List.mem_cons_self
  have hnodup := (List.nodup_append.mp hb.nodup).2.1
  obtain ⟨p, hp, hlisted, hpool⟩ := TsPool.deallocate_alone hb.listed (List.nodup_cons.mp hnodup).1
    (hb.lt hmem)
  refine ⟨b.withPool p, ?_,
    ⟨hb.stored, hb.size, hlisted, hpool.trans hb.pool, hb.all, nofun, hb.mode⟩, rfl⟩
  exact finish_pool pop (b := b) (m := 0) .release (fun _ b => (b, .inr .released))
    (fun _ _ => rfl) hp rfl

theorem finish_enough {E R : Type} {turn : E → BufferLockFree α → BufferLockFree α × (E ⊕ R)}
    {k n : ℕ} (hk : k ≤ n) {e : E} {x : BufferLockFree α × R} (hx : finish turn k e b = some x) :
    finish turn n e b = some x := by
  obtain ⟨d, rfl⟩ := Nat.exists_eq_add_of_le hk
  exact finish_mono hx

/-- The first sample is taken, and the one that was in the hand of the reader goes back. -/
theorem take_alone {n : ℕ} (hn : 5 ≤ n) {i : ℕ} (hb : Holds capacity circular (i :: queue) h free b) :
    ∃ b' b'' free', finish pop n (.popWithoutRelease .load) b = some (b', .pointer (some i)) ∧
      ChannelBufferElement.releaseLast (B := interface α n) (h.map Prod.fst) b' = some b'' ∧
      Holds capacity circular queue (some (i, b.value i)) free' b'' ∧ b''.value = b.value := by
  obtain ⟨q, hq, hstored, hsize⟩ := hb.dequeued
  have htake : finish pop 5 (.popWithoutRelease .load) b =
      some (b.withBufs q, .pointer (some i)) :=
    finish_bufs pop (b := b) (m := 0) .popWithoutRelease (fun ipop b => (b, .inr (.pointer ipop)))
      (fun _ _ => rfl) hq rfl
  cases h with
  | none =>
    refine ⟨b.withBufs q, b.withBufs q, free, finish_enough hn htake, rfl,
      ⟨hstored, hsize, hb.listed, hb.pool, ?_, ?_, hb.mode⟩, rfl⟩
    · refine List.Perm.trans ?_ hb.all
      rw [List.perm_iff_count]
      intro a
      simp only [Option.map_some, Option.map_none, Option.toList_some, Option.toList_none,
        List.count_append, List.count_cons, List.count_nil]
      omega
    · rintro _ _ ⟨⟩
      rfl
  | some held =>
    obtain ⟨j, a⟩ := held
    have hmem : j ∈ i :: queue ++ (((some (j, a)).map Prod.fst).toList ++ free) :=
      List.mem_append_right _ List.mem_cons_self
    have hnodup := (List.nodup_append.mp hb.nodup).2.1
    obtain ⟨p, hp, hlisted, hpool⟩ := TsPool.deallocate_alone hb.listed
      (List.nodup_cons.mp hnodup).1 (hb.lt hmem)
    have hrelease : finish pop 3 (.release (.load j)) (b.withBufs q) =
        some ((b.withBufs q).withPool p, .released) :=
      finish_pool pop (b := b.withBufs q) (m := 0) .release (fun _ b => (b, .inr .released))
        (fun _ _ => rfl) hp rfl
    refine ⟨b.withBufs q, (b.withBufs q).withPool p, j :: free, finish_enough hn htake, ?_,
      ⟨hstored, hsize, hlisted, hpool.trans hb.pool, ?_, ?_, hb.mode⟩, rfl⟩
    · show (finish pop n (.release (.load j)) (b.withBufs q)).map Prod.fst = _
      rw [finish_enough (by omega) hrelease]
      rfl
    · refine List.Perm.trans ?_ hb.all
      rw [List.perm_iff_count]
      intro c
      simp only [Option.map_some, Option.toList_some, List.count_append, List.count_cons,
        List.count_nil]
      omega
    · rintro _ _ ⟨⟩
      rfl

theorem take_alone_empty (hb : Holds capacity circular [] h free b) :
    finish pop 2 (.popWithoutRelease .load) b = some (b, .pointer none) :=
  finish_bufs pop (b := b) (m := 0) .popWithoutRelease (fun ipop b => (b, .inr (.pointer ipop)))
    (fun _ _ => rfl) (AtomicMWSRQueue.dequeue_alone_empty hb.stored) rfl

end Calls

/-- The items of the queue are written in the pool. -/
def Represents (capacity : ℕ) (circular : Bool) (items : List α) (h : Option (ℕ × α))
    (b : BufferLockFree α) : Prop :=
  ∃ queue free, Holds capacity circular queue h free b ∧ queue.map b.value = items

/-- The lock-free buffer is a bounded queue; a call takes at most `9 * capacity + 17` turns. -/
theorem implements {capacity fuel : ℕ} (hc : 1 ≤ capacity) (hc' : capacity < 65536)
    (hfuel : 9 * capacity + 17 ≤ fuel) (circular : Bool) :
    Implements (interface α fuel) capacity circular (Represents capacity circular) where
  push := by
    rintro q h s a ⟨queue, free, hs, hq⟩
    obtain ⟨b, queue', free', hx, hb, hmap⟩ := push_alone (n := fuel) (by omega) hc q hs hq a
    exact ⟨b, hx, queue', free', hb, hmap⟩
  pushAll := by
    rintro q h s as has ⟨queue, free, hs, hq⟩
    obtain ⟨b, queue', free', hx, hb, hmap, hle⟩ :=
      pushLoop_alone (n := fuel) (by omega) hc q hs hq as
    refine ⟨b, ?_, queue', free', hb, hmap⟩
    have hsmall : (q.offerAll circular as).2 < 2147483648 := by
      cases circular with
      | true => exact Nat.lt_of_le_of_lt hle (has rfl)
      | false =>
        have hcount := (q.offerAll_refusing as).2
        omega
    have hleft : (as.length : ℤ) - ((as.length - (q.offerAll circular as).2 : ℕ) : ℤ) =
        ((q.offerAll circular as).2 : ℕ) := by
      omega
    have hcount :=
      calc (sizeType as.length - ((as.length - (q.offerAll circular as).2 : ℕ) : ℤ)).bmod 4294967296
          = ((as.length : ℤ) - ((as.length - (q.offerAll circular as).2 : ℕ) : ℤ)).bmod 4294967296 :=
            Int.bmod_sub_bmod
        _ = sizeType (q.offerAll circular as).2 := congrArg (Int.bmod · 4294967296) hleft
        _ = (q.offerAll circular as).2 := sizeType_eq hsmall
    show (pushLoop fuel as s).map
      (fun r => (r.1, (sizeType as.length - r.2).bmod 4294967296)) = _
    rw [hx, Option.map_some, hcount]
    rfl
  pop := by
    rintro h s a as ⟨queue, free, hs, hq⟩
    obtain ⟨i, rest, rfl⟩ : ∃ i rest, queue = i :: rest :=
      List.exists_cons_of_ne_nil (by rintro rfl; cases hq)
    obtain ⟨ha, has⟩ := List.cons.inj hq
    obtain ⟨b, hx, hb, hvalue⟩ := pop_alone hs
    refine ⟨b, ?_, rest, _, hb, by rw [hvalue]; exact has⟩
    simp only [interface, finish_enough (by omega : 9 ≤ fuel) hx, Option.bind_some, ha]
  pop_nil := by
    rintro h s ⟨queue, free, hs, hq⟩
    obtain rfl := List.map_eq_nil_iff.mp hq
    simp only [interface, finish_enough (by omega : 2 ≤ fuel) (pop_alone_empty hs), Option.bind_some]
  popAll := by
    rintro h s items ⟨queue, free, hs, rfl⟩
    have hlen := hs.length
    obtain ⟨b, free', hx, hb⟩ := popAll_alone hs []
    refine ⟨b, ?_, [], free', hb, rfl⟩
    have hsmall : (queue.map s.value).length < 2147483648 := by
      rw [List.length_map]
      omega
    simp only [interface, finish_enough (by omega : 9 * queue.length + 2 ≤ fuel) hx,
      Option.bind_some, List.nil_append, sizeType_eq hsmall]
  take := by
    rintro h s a as ⟨queue, free, hs, hq⟩
    obtain ⟨i, rest, rfl⟩ : ∃ i rest, queue = i :: rest :=
      List.exists_cons_of_ne_nil (by rintro rfl; cases hq)
    obtain ⟨ha, has⟩ := List.cons.inj hq
    obtain ⟨b, b', free', hx, hrelease, hb, hvalue⟩ := take_alone (n := fuel) (by omega) hs
    refine ⟨b, i, b', ?_, hrelease, rest, free', ?_, by rw [hvalue]; exact has⟩
    · simp only [interface, hx, Option.bind_some]
    · rwa [ha] at hb
  take_nil := by
    rintro h s ⟨queue, free, hs, hq⟩
    obtain rfl := List.map_eq_nil_iff.mp hq
    simp only [interface, finish_enough (by omega : 2 ≤ fuel) (take_alone_empty hs),
      Option.bind_some]
  deref := by
    rintro p a items s ⟨queue, free, hs, -⟩
    exact hs.held p a rfl
  releaseLast := by
    rintro h s items ⟨queue, free, hs, hq⟩
    cases h with
    | none => exact ⟨s, rfl, queue, free, hs, hq⟩
    | some held =>
      obtain ⟨b, hx, hb, hvalue⟩ := release_alone hs
      refine ⟨b, ?_, queue, _, hb, by rw [hvalue]; exact hq⟩
      show (finish pop fuel (.release (.load held.1)) s).map Prod.fst = _
      rw [finish_enough (by omega) hx]
      rfl
  clear := by
    rintro h s items ⟨queue, free, hs, -⟩
    have hlen := hs.length
    obtain ⟨b, free', hx, hb⟩ := clear_alone hs
    refine ⟨b, ?_, [], free', hb, rfl⟩
    show (finish pop fuel (.clear .load) s).map Prod.fst = _
    rw [finish_enough (by omega) hx]
    rfl

end LockFree
end OrocosRtt.Buffer
