import Mathlib.Data.List.Basic
import Mathlib.Data.List.Perm.Basic

/-! Queues of bounded capacity: what does not fit is refused. -/
namespace Library.Queue

/-- A queue, oldest item first, that never holds more than `capacity` items. -/
structure BoundedQueue (α : Type*) (capacity : ℕ) where
  items : List α
  bounded : items.length ≤ capacity

variable {α : Type*} {capacity : ℕ}

namespace BoundedQueue

def empty : BoundedQueue α capacity := ⟨[], Nat.zero_le _⟩

def isFull (q : BoundedQueue α capacity) : Bool := q.items.length = capacity

/-- Adds an item at the end; the queue stays as it is when it is full. -/
def push (q : BoundedQueue α capacity) (a : α) : BoundedQueue α capacity :=
  if h : q.items.length < capacity then
    ⟨q.items ++ [a], by rw [List.length_append, List.length_singleton]; omega⟩
  else q

/-- Takes the oldest item. -/
def pop (q : BoundedQueue α capacity) : Option (α × BoundedQueue α capacity) :=
  match q with
  | ⟨[], _⟩ => none
  | ⟨a :: as, h⟩ => some (a, ⟨as, by rw [List.length_cons] at h; omega⟩)

@[simp] theorem empty_items : (empty : BoundedQueue α capacity).items = [] := rfl

theorem not_full_iff (q : BoundedQueue α capacity) :
    q.isFull = false ↔ q.items.length < capacity := by
  have := q.bounded
  simp only [isFull, decide_eq_false_iff_not]
  omega

theorem push_items {q : BoundedQueue α capacity} (h : q.isFull = false) (a : α) :
    (q.push a).items = q.items ++ [a] := by
  have := q.not_full_iff.mp h
  simp [push, this]

theorem push_full {q : BoundedQueue α capacity} (h : q.isFull = true) (a : α) :
    q.push a = q := by
  have hl : ¬ q.items.length < capacity := by
    simp only [isFull, decide_eq_true_eq] at h
    omega
  simp [push, hl]

theorem pop_nil {q : BoundedQueue α capacity} (h : q.items = []) : q.pop = none := by
  cases q with
  | mk items bounded =>
    cases h
    rfl

theorem pop_cons {q : BoundedQueue α capacity} {a : α} {as : List α} (h : q.items = a :: as) :
    ∃ r : BoundedQueue α capacity, q.pop = some (a, r) ∧ r.items = as := by
  cases q with
  | mk items bounded =>
    cases h
    exact ⟨_, rfl, rfl⟩

/-- Adds an item at the end; when there is no room, the oldest items leave. -/
def pushOver (q : BoundedQueue α capacity) (a : α) : BoundedQueue α capacity :=
  ⟨(q.items ++ [a]).drop (q.items.length + 1 - capacity), by
    rw [List.length_drop, List.length_append, List.length_singleton]; omega⟩

/-- Adds an item if the queue takes it: a circular one always does. -/
def offer (circular : Bool) (q : BoundedQueue α capacity) (a : α) : BoundedQueue α capacity × Bool :=
  if circular then (q.pushOver a, true) else (q.push a, !q.isFull)

/-- Adds the items one after the other, up to the first one that is refused, and counts them. -/
def offerAll (circular : Bool) (q : BoundedQueue α capacity) : List α → BoundedQueue α capacity × ℕ
  | [] => (q, 0)
  | a :: as =>
    match q.offer circular a with
    | (q', true) => ((q'.offerAll circular as).1, (q'.offerAll circular as).2 + 1)
    | (_, false) => (q, 0)

theorem pushOver_items (q : BoundedQueue α capacity) (a : α) :
    (q.pushOver a).items = (q.items ++ [a]).drop (q.items.length + 1 - capacity) := rfl

theorem offerAll_taken {circular : Bool} {q : BoundedQueue α capacity} {a : α}
    (h : (q.offer circular a).2 = true) (as : List α) : q.offerAll circular (a :: as) =
      (((q.offer circular a).1.offerAll circular as).1,
        ((q.offer circular a).1.offerAll circular as).2 + 1) := by
  have ho : q.offer circular a = ((q.offer circular a).1, true) := by rw [← h]
  simp only [offerAll]
  rw [ho]

theorem offerAll_refused {circular : Bool} {q : BoundedQueue α capacity} {a : α}
    (h : (q.offer circular a).2 = false) (as : List α) :
    q.offerAll circular (a :: as) = (q, 0) := by
  have ho : q.offer circular a = ((q.offer circular a).1, false) := by rw [← h]
  simp only [offerAll]
  rw [ho]

theorem offer_refused {circular : Bool} {q : BoundedQueue α capacity} {a : α}
    (h : (q.offer circular a).2 = false) : (q.offer circular a).1 = q := by
  cases circular with
  | true => cases h
  | false =>
    have hf : q.isFull = true := by simpa [offer] using h
    exact q.push_full hf a

/-- A circular queue keeps the newest items. -/
theorem offerAll_circular (q : BoundedQueue α capacity) (as : List α) :
    (q.offerAll true as).1.items = (q.items ++ as).drop (q.items.length + as.length - capacity) ∧
      (q.offerAll true as).2 = as.length := by
  induction as generalizing q with
  | nil =>
    have hzero : q.items.length - capacity = 0 := Nat.sub_eq_zero_of_le q.bounded
    simp [offerAll, hzero]
  | cons a as ih =>
    obtain ⟨hitems, hcount⟩ := ih (q.pushOver a)
    have hb := q.bounded
    refine ⟨?_, by simp [offerAll, offer, hcount]⟩
    show ((q.pushOver a).offerAll true as).1.items = _
    rw [hitems, pushOver_items, List.length_drop, List.length_append, List.length_singleton,
      List.length_cons]
    have hsplit : q.items ++ a :: as = (q.items ++ [a]) ++ as := by
      rw [List.append_assoc, List.singleton_append]
    have hmore : ((q.items ++ [a]).drop (q.items.length + 1 - capacity)) ++ as =
        ((q.items ++ [a]) ++ as).drop (q.items.length + 1 - capacity) := by
      refine (List.drop_append_of_le_length ?_).symm
      rw [List.length_append, List.length_singleton]
      omega
    rw [hmore, List.drop_drop, hsplit]
    congr 1
    omega

/-- Any other queue keeps the oldest items, and refuses what does not fit. -/
theorem offerAll_refusing (q : BoundedQueue α capacity) (as : List α) :
    (q.offerAll false as).1.items = q.items ++ as.take (capacity - q.items.length) ∧
      (q.offerAll false as).2 = min as.length (capacity - q.items.length) := by
  induction as generalizing q with
  | nil => simp [offerAll]
  | cons a as ih =>
    cases hf : q.isFull with
    | true =>
      have hfull : capacity - q.items.length = 0 := by
        simp only [isFull, decide_eq_true_eq] at hf
        omega
      simp [offerAll, offer, hf, hfull]
    | false =>
      obtain ⟨hitems, hcount⟩ := ih (q.push a)
      have hroom := q.not_full_iff.mp hf
      have hpush := q.push_items hf a
      have hstep : capacity - q.items.length = capacity - (q.push a).items.length + 1 := by
        rw [hpush, List.length_append, List.length_singleton]
        omega
      simp only [offerAll, offer, hf, Bool.false_eq_true, if_false, Bool.not_false]
      rw [hitems, hcount, hstep, hpush, List.take_succ_cons, List.append_assoc, List.length_cons,
        List.singleton_append]
      exact ⟨rfl, by omega⟩

variable [DecidableEq α]

/-- Takes `n` items off the front, one after the other, and puts them back at the end, up
to the first `a`, which stays out. False when the queue ran empty before. -/
def rotateOut (a : α) : ℕ → BoundedQueue α capacity → Bool × BoundedQueue α capacity
  | 0, q => (true, q)
  | n + 1, q =>
    match q.pop with
    | none => (false, q)
    | some (b, q) => if a = b then (true, q) else rotateOut a n (q.push b)

theorem rotateOut_spec (a : α) : ∀ (xs ys : List α) (q : BoundedQueue α capacity),
    q.items = xs ++ ys →
    (q.rotateOut a xs.length).1 = true ∧
      (a ∈ xs → (q.rotateOut a xs.length).2.items.Perm ((xs ++ ys).erase a)) ∧
      (a ∉ xs → (q.rotateOut a xs.length).2.items = ys ++ xs) := by
  intro xs
  induction xs with
  | nil => intro ys q h; exact ⟨rfl, by simp, fun _ => by simpa [rotateOut] using h⟩
  | cons x xs ih =>
    intro ys q h
    obtain ⟨r, hpop, hr⟩ : ∃ r, q.pop = some (x, r) ∧ r.items = xs ++ ys := pop_cons h
    rw [List.length_cons]
    unfold rotateOut
    rw [hpop]
    dsimp only
    by_cases hx : a = x
    · subst hx
      rw [if_pos rfl]
      refine ⟨rfl, fun _ => ?_, fun hn => absurd List.mem_cons_self hn⟩
      rw [hr, List.cons_append, List.erase_cons_head]
    · rw [if_neg hx]
      -- the item just taken has left room for itself
      have hroom : r.isFull = false := by
        rw [not_full_iff, hr]
        have := q.bounded
        rw [h, List.cons_append, List.length_cons] at this
        omega
      have hpush : (r.push x).items = xs ++ (ys ++ [x]) := by
        rw [push_items hroom, hr, List.append_assoc]
      obtain ⟨hdone, hmem, hnot⟩ := ih (ys ++ [x]) (r.push x) hpush
      refine ⟨hdone, fun ha => ?_, fun ha => ?_⟩
      · have hxs : a ∈ xs := by
          rcases List.mem_cons.mp ha with hc | hc
          · exact absurd hc hx
          · exact hc
        apply (hmem hxs).trans
        apply List.Perm.erase
        rw [← List.append_assoc]
        exact (List.perm_append_singleton x (xs ++ ys))
      · rw [hnot (fun hc => ha (List.mem_cons_of_mem x hc)), List.append_assoc]
        rfl

/-- Rotating through the whole queue takes `a` out, or leaves the queue as it was. -/
theorem rotateOut_perm (a : α) (q : BoundedQueue α capacity) :
    (q.rotateOut a q.items.length).1 = true ∧
      (q.rotateOut a q.items.length).2.items.Perm (q.items.erase a) := by
  obtain ⟨hdone, hmem, hnot⟩ := rotateOut_spec a q.items [] q (by simp)
  refine ⟨hdone, ?_⟩
  by_cases ha : a ∈ q.items
  · simpa using hmem ha
  · rw [hnot ha, List.erase_of_not_mem ha]
    simp

end BoundedQueue
end Library.Queue
