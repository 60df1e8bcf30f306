import OrocosRtt.LockFree.Indexes
import OrocosRtt.Library.Interleaving
import OrocosRtt.Library.Ring
import Mathlib.Data.List.Basic

/-! The queue with many writers and a single reader: a writer reserves a slot by advancing the
write index, and fills it afterwards; the reader clears a slot before it advances the read
index. -/
namespace OrocosRtt.LockFree

open Library

/-- A queue of pointers; null is `none`. -/
structure AtomicMWSRQueue (α : Type) where
  /-- `_size` -/
  size : ℕ
  /-- `_buf` -/
  buf : ℕ → Option α
  /-- `_indxes` -/
  indxes : Indexes

namespace AtomicMWSRQueue

variable {α τ : Type}

def create (capacity : ℕ) : AtomicMWSRQueue α where
  size := capacity + 1
  buf := fun _ => none
  indxes := ⟨0, 0⟩

/-- `++_index; if (_index >= _size) _index = 0;` on an unsigned short. -/
def advance (size i : ℕ) : ℕ :=
  let i := (i + 1) % 65536
  if size ≤ i then 0 else i

/-- `size()` -/
def count (q : AtomicMWSRQueue α) : ℤ :=
  let c := (q.indxes.w : ℤ) - q.indxes.r
  if 0 ≤ c then c else c + q.size

def capacity (q : AtomicMWSRQueue α) : ℕ := q.size - 1

/-- Where a thread is in `enqueue`, before the next access to what is shared. -/
inductive Enqueuing (α : Type) where
  | load (value : α)
  | cas (oldval : Indexes) (value : α)
  | write (loc : ℕ) (value : α)
  deriving DecidableEq

def Enqueuing.value : Enqueuing α → α
  | .load value | .cas _ value | .write _ value => value

/-- Where a thread is in `dequeue`. -/
inductive Dequeuing (α : Type) where
  | load
  | read (oldval : Indexes)
  | clear (oldval : Indexes) (result : α)
  | reload (result : α)
  | cas (oldval : Indexes) (result : α)
  deriving DecidableEq

/-- `enqueue` of a value that is not null. -/
def enqueue (e : Enqueuing α) (q : AtomicMWSRQueue α) : AtomicMWSRQueue α × (Enqueuing α ⊕ Bool) :=
  match e with
  | .load value =>
    if q.indxes.full q.size then (q, .inr false) else (q, .inl (.cas q.indxes value))
  | .cas oldval value =>
    if q.indxes = oldval then
      ({ q with indxes := { oldval with w := advance q.size oldval.w } },
        .inl (.write oldval.w value))
    else (q, .inl (.load value))
  | .write loc value => ({ q with buf := Function.update q.buf loc (some value) }, .inr true)

def dequeue (d : Dequeuing α) (q : AtomicMWSRQueue α) :
    AtomicMWSRQueue α × (Dequeuing α ⊕ Option α) :=
  match d with
  | .load => (q, .inl (.read q.indxes))
  | .read oldval =>
    match q.buf oldval.r with
    | none => (q, .inr none)
    | some result => (q, .inl (.clear oldval result))
  | .clear oldval result =>
    ({ q with buf := Function.update q.buf oldval.r none }, .inl (.reload result))
  | .reload result => (q, .inl (.cas q.indxes result))
  | .cas oldval result =>
    if q.indxes = oldval then
      ({ q with indxes := { oldval with r := advance q.size oldval.r } }, .inr (some result))
    else (q, .inl (.reload result))

/-! ### The slots from the read to the write index -/

/-- A slot is reserved by a thread, then it is written, and at last it is cleared. -/
inductive Stage (τ : Type) where
  | reserved (t : τ)
  | written
  | cleared
  deriving DecidableEq

structure Cell (α τ : Type) where
  value : α
  stage : Stage τ

def Cell.content (c : Cell α τ) : Option α :=
  match c.stage with
  | .written => some c.value
  | .reserved _ | .cleared => none

/-- The slot that is `j` after the read index. -/
abbrev slot (q : AtomicMWSRQueue α) (j : ℕ) : ℕ := Ring.slot q.size q.indxes.r j

/-- The cells of the queue, first the next one to be read. -/
structure Stored (q : AtomicMWSRQueue α) (cells : List (Cell α τ)) : Prop where
  small : q.size ≤ 65535
  laid : Ring.Laid q.size q.buf q.indxes.r q.indxes.w (cells.map Cell.content)

theorem create_stored {n : ℕ} (h : n ≤ 65534) :
    (create n : AtomicMWSRQueue α).Stored ([] : List (Cell α τ)) := by
  refine ⟨?_, .empty (Nat.succ_pos n)⟩
  show n + 1 ≤ 65535
  omega

theorem advance_eq {size i : ℕ} (hs : size ≤ 65535) (hi : i < size) :
    advance size i = (i + 1) % size := by
  have hlt : (i + 1) % 65536 = i + 1 := Nat.mod_eq_of_lt (by omega)
  simp only [advance, hlt]
  split
  · have he : i + 1 = size := by omega
    rw [he, Nat.mod_self]
  · rw [Nat.mod_eq_of_lt (by omega)]

namespace Stored

variable {q : AtomicMWSRQueue α} {cells : List (Cell α τ)}

theorem read (h : q.Stored cells) : q.indxes.r < q.size := h.laid.read

theorem length (h : q.Stored cells) : cells.length < q.size := by
  have hl := h.laid.length
  rwa [List.length_map] at hl

theorem content (h : q.Stored cells) (j : ℕ) (hj : j < q.size) :
    q.buf (q.slot j) = cells[j]?.bind Cell.content := by
  rw [h.laid.content j hj, List.getElem?_map]
  cases cells[j]? <;> rfl

theorem write (h : q.Stored cells) : q.indxes.w = q.slot cells.length := by
  have hw := h.laid.write
  rwa [List.length_map] at hw

/-- The queue is full when all slots but one are in use. -/
theorem full_iff (h : q.Stored cells) : q.indxes.full q.size ↔ cells.length + 1 = q.size := by
  have hf := h.laid.full_iff
  rwa [List.length_map] at hf

theorem count_eq (h : q.Stored cells) : q.count = cells.length := by
  have hd := h.laid.distance
  rwa [List.length_map] at hd

/-- A slot is reserved behind the others. -/
theorem reserve (h : q.Stored cells) (hf : ¬ q.indxes.full q.size) (value : α) (t : τ) :
    Stored { q with indxes := { q.indxes with w := advance q.size q.indxes.w } }
      (cells ++ [⟨value, .reserved t⟩]) := by
  have hl := h.length
  have hfull := mt h.full_iff.mpr hf
  refine ⟨h.small, ?_⟩
  have hpush := h.laid.push (by rw [List.length_map]; omega)
  rw [← advance_eq h.small h.laid.write_lt] at hpush
  rw [List.map_append]
  exact hpush

/-- The content of a slot in use is changed. -/
theorem update (h : q.Stored cells) {j : ℕ} (hj : j < cells.length) (c : Cell α τ) :
    Stored { q with buf := Function.update q.buf (q.slot j) c.content } (cells.set j c) := by
  refine ⟨h.small, ?_⟩
  rw [List.map_set]
  exact h.laid.set (by rwa [List.length_map]) c.content

/-- The first slot, which was cleared, is given up. -/
theorem release {c : Cell α τ} (h : q.Stored (c :: cells)) (hc : c.content = none) :
    Stored { q with indxes := { q.indxes with r := advance q.size q.indxes.r } } cells := by
  refine ⟨h.small, ?_⟩
  have hlaid := h.laid
  rw [List.map_cons, hc] at hlaid
  have hpop := hlaid.pop
  rw [← advance_eq h.small h.read] at hpop
  exact hpop

end Stored

/-! ### Threads at the queue -/

/-- The slot that a thread has reserved and is going to write, with the value. -/
def Enqueuing.pending : Enqueuing α → Option (ℕ × α)
  | .write loc value => some (loc, value)
  | .load _ | .cas .. => none

/-- The value that the reader has cleared, before it advances the read index. -/
def Dequeuing.pending : Dequeuing α → Option α
  | .reload result | .cas _ result => some result
  | .load | .read _ | .clear .. => none

/-- An attempt to reserve was made when there was room. -/
def Enqueuing.Knows (q : AtomicMWSRQueue α) : Enqueuing α → Prop
  | .cas oldval _ => ¬ oldval.full q.size
  | .load _ | .write .. => True

/-- What was loaded is still there for the only reader. -/
def Dequeuing.Knows (q : AtomicMWSRQueue α) (cells : List (Cell α τ)) : Dequeuing α → Prop
  | .read oldval => oldval.r = q.indxes.r
  | .clear oldval result => oldval.r = q.indxes.r ∧ cells[0]? = some ⟨result, .written⟩
  | .load | .reload _ | .cas .. => True

/-- The thread has reserved the slot it is going to write, and no other one. -/
structure Fills (q : AtomicMWSRQueue α) (cells : List (Cell α τ)) (t : τ) (o : Option (ℕ × α)) :
    Prop where
  cell : ∀ loc v, o = some (loc, v) → ∃ j, cells[j]? = some ⟨v, .reserved t⟩ ∧ loc = q.slot j
  only : ∀ j v, cells[j]? = some ⟨v, .reserved t⟩ → o = some (q.slot j, v)

/-- Only the first slot may be cleared, and only by the reader. -/
def Clears (cells : List (Cell α τ)) (o : Option α) : Prop :=
  ∀ j v, cells[j]? = some ⟨v, .cleared⟩ ↔ j = 0 ∧ o = some v

/-- The first `d` slots are given up; those that `t` has reserved stay. -/
structure Moves (t : τ) (d : ℕ) (q q' : AtomicMWSRQueue α) (cells cells' : List (Cell α τ)) :
    Prop where
  slot : ∀ j, q'.slot j = q.slot (j + d)
  kept : ∀ j v, cells'[j]? = some ⟨v, .reserved t⟩ ↔ cells[j + d]? = some ⟨v, .reserved t⟩
  lost : ∀ j v, j < d → cells[j]? ≠ some ⟨v, .reserved t⟩

theorem Moves.refl (t : τ) (q : AtomicMWSRQueue α) (cells : List (Cell α τ)) :
    Moves t 0 q q cells cells :=
  ⟨fun _ => rfl, fun _ _ => Iff.rfl, fun _ _ h => absurd h (Nat.not_lt_zero _)⟩

theorem Fills.moves {q q' : AtomicMWSRQueue α} {cells cells' : List (Cell α τ)} {t : τ} {d : ℕ}
    {o : Option (ℕ × α)} (h : Fills q cells t o) (hm : Moves t d q q' cells cells') :
    Fills q' cells' t o := by
  constructor
  · intro loc v ho
    obtain ⟨j, hj, rfl⟩ := h.cell loc v ho
    have hd : d ≤ j := Nat.le_of_not_lt fun hlt => hm.lost j v hlt hj
    refine ⟨j - d, (hm.kept _ v).mpr ?_, ?_⟩
    · rwa [Nat.sub_add_cancel hd]
    · rw [hm.slot, Nat.sub_add_cancel hd]
  · intro j v hj
    rw [hm.slot]
    exact h.only _ v ((hm.kept j v).mp hj)

/-- A thread in `enqueue`: `q'` and `r` are what its turn leads to. Others find what they have
reserved, and the reader finds the first slot, as it was. -/
structure Enqueued (t : τ) (q q' : AtomicMWSRQueue α) (cells cells' : List (Cell α τ))
    (r : Enqueuing α ⊕ Bool) : Prop where
  stored : q'.Stored cells'
  size : q'.size = q.size
  read : q'.indxes.r = q.indxes.r
  fills : Fills q' cells' t (r.elim Enqueuing.pending fun _ => none)
  knows : ∀ e, r = .inl e → e.Knows q'
  others : ∀ u, u ≠ t → Moves u 0 q q' cells cells'
  cleared : ∀ (j : ℕ) (v : α), cells'[j]? = some ⟨v, .cleared⟩ ↔ cells[j]? = some ⟨v, .cleared⟩
  written : ∀ (j : ℕ) (v : α), cells[j]? = some ⟨v, .written⟩ → cells'[j]? = some ⟨v, .written⟩

theorem Enqueued.unchanged {t : τ} {q : AtomicMWSRQueue α} {cells : List (Cell α τ)}
    {r : Enqueuing α ⊕ Bool} (h : q.Stored cells) (hf : Fills q cells t none)
    (hr : (r.elim Enqueuing.pending fun _ => none) = none)
    (hk : ∀ e, r = .inl e → e.Knows q) : Enqueued t q q cells cells r :=
  ⟨h, rfl, rfl, by rw [hr]; exact hf, hk, fun u _ => .refl u q cells, fun _ _ => Iff.rfl,
    fun _ _ h => h⟩

/-- The value for which a turn of `enqueue` has reserved a slot. -/
def reservedBy : Enqueuing α → Enqueuing α ⊕ Bool → List α
  | .cas _ value, .inl (.write ..) => [value]
  | _, _ => []

/-- What a turn of `enqueue` writes. -/
def writtenBy : Enqueuing α → List α
  | .write _ value => [value]
  | .load _ | .cas .. => []

theorem contents_set {cells : List (Cell α τ)} {j : ℕ} {c c' : Cell α τ} {value : α}
    (hj : cells[j]? = some c) (hc : c.content = none) (hc' : c'.content = some value) :
    ((cells.set j c').filterMap Cell.content).Perm (value :: cells.filterMap Cell.content) := by
  induction cells generalizing j with
  | nil => cases hj
  | cons a cells ih =>
    cases j with
    | zero =>
      obtain rfl : a = c := Option.some.inj hj
      rw [List.set_cons_zero, List.filterMap_cons_some hc', List.filterMap_cons_none hc]
    | succ j =>
      rw [List.set_cons_succ]
      have hrest := ih hj
      cases ha : a.content with
      | none =>
        rw [List.filterMap_cons_none ha, List.filterMap_cons_none ha]
        exact hrest
      | some b =>
        rw [List.filterMap_cons_some ha, List.filterMap_cons_some ha]
        exact (hrest.cons b).trans (List.Perm.swap value b _)

/-- A thread in `enqueue` reserves a slot behind the others, then it writes the slot. -/
theorem enqueue_turn {t : τ} {q : AtomicMWSRQueue α} {cells : List (Cell α τ)} {e : Enqueuing α}
    (h : q.Stored cells) (hf : Fills q cells t e.pending) (hk : e.Knows q) :
    ∃ cells', Enqueued t q (enqueue e q).1 cells cells' (enqueue e q).2 ∧
      cells'.map Cell.value = cells.map Cell.value ++ reservedBy e (enqueue e q).2 ∧
      (cells'.filterMap Cell.content).Perm (writtenBy e ++ cells.filterMap Cell.content) := by
  cases e with
  | load value =>
    simp only [enqueue]
    split
    · exact ⟨cells, .unchanged h hf rfl nofun, (List.append_nil _).symm, .refl _⟩
    · next hn =>
      refine ⟨cells, .unchanged h hf rfl ?_, (List.append_nil _).symm, .refl _⟩
      rintro _ ⟨⟩
      exact hn
  | cas oldval value =>
    have hk : ¬ oldval.full q.size := hk
    simp only [enqueue]
    split
    · next he =>
      subst he
      have hl := h.length
      have hnone (j : ℕ) (c : Cell α τ) (hc : (cells ++ [⟨value, .reserved t⟩])[j]? = some c) :
          cells[j]? = some c ∨ j = cells.length ∧ c = ⟨value, .reserved t⟩ := by
        rw [List.getElem?_append] at hc
        split at hc
        · exact .inl hc
        · next hj =>
          have hz : j - cells.length = 0 := by
            by_contra hne
            have hout : [Cell.mk value (.reserved t)].length ≤ j - cells.length :=
              Nat.pos_of_ne_zero hne
            rw [List.getElem?_eq_none hout] at hc
            cases hc
          rw [hz] at hc
          exact .inr ⟨by omega, (Option.some.inj hc).symm⟩
      have hsome (j : ℕ) (c : Cell α τ) (hc : cells[j]? = some c) :
          (cells ++ [⟨value, .reserved t⟩])[j]? = some c := by
        rw [List.getElem?_append_left (List.getElem?_eq_some_iff.mp hc).1]
        exact hc
      refine ⟨cells ++ [⟨value, .reserved t⟩], ⟨h.reserve hk value t, rfl, rfl, ⟨?_, ?_⟩, ?_,
        fun u hu => ⟨fun _ => rfl, fun j v => ⟨fun hj => ?_, hsome j _⟩,
          fun _ _ hj => absurd hj (Nat.not_lt_zero _)⟩, fun j v => ⟨fun hj => ?_, hsome j _⟩,
        fun j v hj => hsome j _ hj⟩, by simp [reservedBy], ?_⟩
      · rintro loc v ⟨⟩
        refine ⟨cells.length, by simp, ?_⟩
        exact h.write
      · intro j v hj
        rcases hnone j _ hj with hj | ⟨rfl, hc⟩
        · cases hf.only j v hj
        · cases hc
          exact congrArg (fun loc => some (loc, value)) h.write
      · rintro _ ⟨⟩
        trivial
      · exact (hnone j _ hj).resolve_right fun ⟨_, hc⟩ => hu (by cases hc; rfl)
      · exact (hnone j _ hj).resolve_right fun ⟨_, hc⟩ => by cases hc
      · rw [List.filterMap_append]
        exact .of_eq (List.append_nil _)
    · refine ⟨cells, .unchanged h hf rfl ?_, (List.append_nil _).symm, .refl _⟩
      rintro _ ⟨⟩
      trivial
  | write loc value =>
    obtain ⟨j, hj, rfl⟩ := hf.cell loc value rfl
    obtain ⟨hlt, hcell⟩ := List.getElem?_eq_some_iff.mp hj
    have hother (i : ℕ) (c : Cell α τ) (hc : c ≠ ⟨value, .written⟩) (hc' : c ≠ ⟨value, .reserved t⟩) :
        (cells.set j ⟨value, .written⟩)[i]? = some c ↔ cells[i]? = some c := by
      by_cases hij : i = j
      · subst hij
        rw [List.getElem?_set_self hlt, hj]
        simp [Ne.symm hc, Ne.symm hc']
      · rw [List.getElem?_set_ne (Ne.symm hij)]
    refine ⟨cells.set j ⟨value, .written⟩, ⟨h.update hlt ⟨value, .written⟩, rfl, rfl, ⟨nofun, ?_⟩,
      nofun, fun u hu => ⟨fun _ => rfl, fun i v => ?_, fun _ _ hi => absurd hi (Nat.not_lt_zero _)⟩,
      fun i v => hother i _ nofun nofun, fun i v hi => ?_⟩, ?_, contents_set hj rfl rfl⟩
    · intro i v hi
      by_cases hij : i = j
      · subst hij
        rw [List.getElem?_set_self hlt] at hi
        cases hi
      · rw [List.getElem?_set_ne (Ne.symm hij)] at hi
        have hw := hf.only i v hi
        have hs : q.slot j = q.slot i := congrArg Prod.fst (Option.some.inj hw)
        have hi' := (List.getElem?_eq_some_iff.mp hi).1
        have hl := h.length
        exact absurd (Ring.slot_inj (by omega) (by omega) hs).symm hij
    · refine hother i _ nofun fun hc => hu ?_
      cases hc
      rfl
    · by_cases hij : i = j
      · subst hij
        rw [hj] at hi
        cases hi
      · rwa [List.getElem?_set_ne (Ne.symm hij)]
    · rw [List.map_set]
      show _ = cells.map Cell.value ++ []
      rw [List.append_nil]
      have hv : (cells.map Cell.value)[j]? = some value := by
        rw [List.getElem?_map, hj]
        rfl
      apply List.ext_getElem?
      intro i
      by_cases hij : j = i
      · subst hij
        rw [List.getElem?_set_self (by rwa [List.length_map]), hv]
      · rw [List.getElem?_set_ne hij]

/-- The slot that a thread in `dequeue` is going to clear is the first one, and it still holds what
the thread has read. -/
def Dequeuing.Found (q : AtomicMWSRQueue α) (cells : List (Cell α τ)) : Dequeuing α → Prop
  | .clear oldval result => oldval.r = q.indxes.r ∧ cells[0]? = some ⟨result, .written⟩
  | .load | .read _ | .reload _ | .cas .. => True

theorem Dequeuing.Knows.found {q : AtomicMWSRQueue α} {cells : List (Cell α τ)} {d : Dequeuing α}
    (h : d.Knows q cells) : d.Found q cells := by
  cases d with
  | clear => exact h
  | load | read | reload | cas => trivial

theorem first_written {cells : List (Cell α τ)} {result : α}
    (h : some result = cells[0]?.bind Cell.content) : cells[0]? = some ⟨result, .written⟩ := by
  obtain ⟨⟨value, stage⟩, hcell, hv⟩ := Option.bind_eq_some_iff.mp h.symm
  cases stage with
  | written =>
    cases hv
    exact hcell
  | reserved | cleared => cases hv

/-- What the first slot held, once it is cleared, after a turn of a thread in `dequeue`. -/
def clearedAfter (o : Option α) : Dequeuing α → Dequeuing α ⊕ Option α → Option α
  | .clear _ result, _ => some result
  | .cas .., .inr _ => none
  | _, _ => o

/-- What a turn of `dequeue` clears. -/
def clearedBy : Dequeuing α → List α
  | .clear _ result => [result]
  | .load | .read _ | .reload _ | .cas .. => []

/-- A thread in `dequeue`: what its turn leads to, with a value when it is over and found one.
It gives up at most the first slot, which no thread has reserved. -/
structure Dequeued (o : Option α) (q q' : AtomicMWSRQueue α) (cells cells' : List (Cell α τ))
    (d : Dequeuing α) (r : Dequeuing α ⊕ Option α) : Prop where
  stored : q'.Stored cells'
  size : q'.size = q.size
  clears : Clears cells' (clearedAfter o d r)
  pending : ∀ d' v, r = .inl d' → d'.pending = some v → clearedAfter o d r = some v
  others : ∃ k, ∀ u, Moves u k q q' cells cells'
  knows : d.Knows q cells → ∀ d', r = .inl d' → d'.Knows q' cells'
  values : cells.map Cell.value = r.elim (fun _ => []) Option.toList ++ cells'.map Cell.value
  contents : cells.filterMap Cell.content = clearedBy d ++ cells'.filterMap Cell.content

theorem Dequeued.unchanged {o : Option α} {q : AtomicMWSRQueue α} {cells : List (Cell α τ)}
    {d : Dequeuing α} {r : Dequeuing α ⊕ Option α} (h : q.Stored cells) (hc : Clears cells o)
    (ho : clearedAfter o d r = o) (hp : ∀ d' v, r = .inl d' → d'.pending = some v → o = some v)
    (hk : d.Knows q cells → ∀ d', r = .inl d' → d'.Knows q cells)
    (hd : clearedBy d = []) (hr : r.elim (fun _ => []) Option.toList = []) :
    Dequeued o q q cells cells d r := by
  refine ⟨h, rfl, ?_, ?_, ⟨0, fun u => .refl u q cells⟩, hk, ?_, ?_⟩
  · rwa [ho]
  · rwa [ho]
  · rw [hr, List.nil_append]
  · rw [hd, List.nil_append]

/-- A thread reads the first slot, clears it if it was written, and gives it up. What the slot
held, once it is cleared, is `o`. -/
theorem dequeue_shared {o : Option α} {q : AtomicMWSRQueue α} {cells : List (Cell α τ)}
    {d : Dequeuing α} (h : q.Stored cells) (hc : Clears cells o)
    (ho : ∀ v, d.pending = some v → o = some v) (hd : d.Found q cells) :
    ∃ cells', Dequeued o q (dequeue d q).1 cells cells' d (dequeue d q).2 := by
  have hr := h.read
  have hfirst : q.slot 0 = q.indxes.r := Ring.slot_zero hr
  cases d with
  | load =>
    refine ⟨cells, .unchanged h hc rfl ?_ ?_ rfl rfl⟩
    · rintro _ _ ⟨⟩ ⟨⟩
    · rintro - _ ⟨⟩
      exact rfl
  | read oldval =>
    have hcontent := h.content 0 (by omega)
    simp only [dequeue]
    cases hb : q.buf oldval.r with
    | none => exact ⟨cells, .unchanged h hc rfl (by simp) (by simp) rfl rfl⟩
    | some result =>
      refine ⟨cells, .unchanged h hc rfl ?_ ?_ rfl rfl⟩
      · rintro _ _ ⟨⟩ ⟨⟩
      · rintro hk _ ⟨⟩
        have hold : oldval.r = q.indxes.r := hk
        rw [hfirst, ← hold, hb] at hcontent
        exact ⟨hold, first_written hcontent⟩
  | clear oldval result =>
    obtain ⟨hold, hcell⟩ := hd
    obtain ⟨hlt, -⟩ := List.getElem?_eq_some_iff.mp hcell
    obtain ⟨rest, rfl⟩ : ∃ rest, cells = ⟨result, .written⟩ :: rest := by
      cases cells with
      | nil => cases hcell
      | cons c rest => exact ⟨rest, by rw [Option.some.inj hcell]⟩
    have hu := h.update hlt ⟨result, .cleared⟩
    rw [hfirst, ← hold] at hu
    have hclears : Clears (⟨result, .cleared⟩ :: rest : List (Cell α τ)) (some result) := by
      intro j v
      cases j with
      | zero =>
        rw [List.getElem?_cons_zero]
        constructor
        · rintro ⟨⟩
          exact ⟨rfl, rfl⟩
        · rintro ⟨-, ⟨⟩⟩
          rfl
      | succ j =>
        apply iff_of_false
        · intro hj
          exact absurd ((hc (j + 1) v).mp hj).1 (Nat.succ_ne_zero j)
        · intro hj
          exact absurd hj.1 (Nat.succ_ne_zero j)
    have hmoves (u : τ) : Moves u 0 q (dequeue (.clear oldval result) q).1
        (⟨result, .written⟩ :: rest) (⟨result, .cleared⟩ :: rest) := by
      refine ⟨fun _ => rfl, fun j v => ?_, fun _ _ hj => absurd hj (Nat.not_lt_zero _)⟩
      cases j with
      | zero => exact iff_of_false (by simp) (by simp)
      | succ j => exact Iff.rfl
    refine ⟨⟨result, .cleared⟩ :: rest, hu, rfl, hclears, ?_, ⟨0, hmoves⟩, ?_, rfl, rfl⟩
    · rintro _ _ ⟨⟩ ⟨⟩
      rfl
    · rintro - _ ⟨⟩
      trivial
  | reload result =>
    refine ⟨cells, .unchanged h hc rfl ?_ ?_ rfl rfl⟩
    · rintro _ v ⟨⟩ hv
      exact ho v hv
    · rintro - _ ⟨⟩
      trivial
  | cas oldval result =>
    obtain rfl := ho result rfl
    simp only [dequeue]
    split
    · next he =>
      subst he
      obtain ⟨rest, rfl⟩ : ∃ rest, cells = ⟨result, .cleared⟩ :: rest := by
        have hcell := (hc 0 result).mpr ⟨rfl, rfl⟩
        cases cells with
        | nil => cases hcell
        | cons c rest => exact ⟨rest, by rw [Option.some.inj hcell]⟩
      have hclears : Clears rest none := by
        intro j v
        apply iff_of_false
        · intro hj
          exact absurd ((hc (j + 1) v).mp hj).1 (Nat.succ_ne_zero j)
        · exact fun hj => absurd hj.2 (by simp)
      have hmoves (u : τ) : Moves u 1 q
          { q with indxes := { q.indxes with r := advance q.size q.indxes.r } }
          (⟨result, .cleared⟩ :: rest) rest := by
        refine ⟨fun j => ?_, fun j v => Iff.rfl, fun j v hj => ?_⟩
        · show (advance q.size q.indxes.r + j) % q.size = (q.indxes.r + (j + 1)) % q.size
          rw [advance_eq h.small hr, Nat.mod_add_mod, Nat.add_assoc, Nat.add_comm 1 j]
        · obtain rfl : j = 0 := by omega
          simp
      exact ⟨rest, h.release rfl, rfl, hclears, by simp, ⟨1, hmoves⟩, by simp, rfl, rfl⟩
    · refine ⟨cells, .unchanged h hc rfl ?_ ?_ rfl rfl⟩
      · rintro _ v ⟨⟩ hv
        exact hv
      · rintro - _ ⟨⟩
        trivial

/-- For the only reader what is cleared is its own. -/
theorem Dequeued.own {q q' : AtomicMWSRQueue α} {cells cells' : List (Cell α τ)} {d : Dequeuing α}
    {r : Dequeuing α ⊕ Option α} (h : Dequeued d.pending q q' cells cells' d r)
    (hr : r = (dequeue d q).2) : Clears cells' (r.elim Dequeuing.pending fun _ => none) := by
  have hc := h.clears
  subst hr
  cases d with
  | load | clear | reload => exact hc
  | read oldval =>
    simp only [dequeue] at hc ⊢
    cases hb : q.buf oldval.r with
    | none | some =>
      rw [hb] at hc
      exact hc
  | cas oldval result =>
    simp only [dequeue] at hc ⊢
    split at hc <;> simp_all [clearedAfter, Dequeuing.pending]

/-- Nothing the reader relies on is changed by a thread in `enqueue`. -/
theorem Enqueued.knows_reader {t : τ} {q q' : AtomicMWSRQueue α} {cells cells' : List (Cell α τ)}
    {r : Enqueuing α ⊕ Bool} {d : Dequeuing α} (he : Enqueued t q q' cells cells' r)
    (hk : d.Knows q cells) : d.Knows q' cells' := by
  cases d with
  | read oldval => exact hk.trans he.read.symm
  | clear oldval result => exact ⟨hk.1.trans he.read.symm, he.written _ _ hk.2⟩
  | load | reload | cas => trivial

theorem Enqueued.clears {t : τ} {q q' : AtomicMWSRQueue α} {cells cells' : List (Cell α τ)}
    {r : Enqueuing α ⊕ Bool} {o : Option α} (he : Enqueued t q q' cells cells' r)
    (hc : Clears cells o) : Clears cells' o :=
  fun j v => (he.cleared j v).trans (hc j v)

theorem Enqueuing.Knows.size {q q' : AtomicMWSRQueue α} {e : Enqueuing α} (h : e.Knows q)
    (hs : q'.size = q.size) : e.Knows q' := by
  cases e with
  | cas oldval value =>
    show ¬ oldval.full q'.size
    rw [hs]
    exact h
  | load | write => trivial

/-! ### A thread alone at the queue -/

theorem enqueue_alone {q : AtomicMWSRQueue α} {cells : List (Cell α τ)} (h : q.Stored cells)
    (hroom : cells.length + 1 < q.size) (value : α) :
    ∃ q', Run.finish enqueue 3 (.load value) q = some (q', true) ∧
      q'.Stored (cells ++ [⟨value, .written⟩]) ∧ q'.size = q.size := by
  have hfull : ¬ q.indxes.full q.size := by
    intro hf
    have := h.full_iff.mp hf
    omega
  have hpush := h.laid.push (by rwa [List.length_map])
  rw [← advance_eq h.small h.laid.write_lt] at hpush
  have hset := hpush.set (j := cells.length) (by simp) (some value)
  have hcells : (cells.map Cell.content ++ [none]).set cells.length (some value) =
      (cells ++ [(⟨value, .written⟩ : Cell α τ)]).map Cell.content := by
    simp [Cell.content]
  have hw : Ring.slot q.size q.indxes.r cells.length = q.indxes.w := h.write.symm
  rw [hcells, hw] at hset
  refine ⟨⟨q.size, Function.update q.buf q.indxes.w (some value),
    { q.indxes with w := advance q.size q.indxes.w }⟩, ?_, ⟨h.small, hset⟩, rfl⟩
  simp [Run.finish, enqueue, hfull]

theorem enqueue_alone_full {q : AtomicMWSRQueue α} {cells : List (Cell α τ)} (h : q.Stored cells)
    (hfull : cells.length + 1 = q.size) (value : α) :
    Run.finish enqueue 1 (.load value) q = some (q, false) := by
  have hf : q.indxes.full q.size := h.full_iff.mpr hfull
  simp [Run.finish, enqueue, hf]

theorem dequeue_alone {q : AtomicMWSRQueue α} {cells : List (Cell α τ)} {value : α}
    (h : q.Stored (⟨value, .written⟩ :: cells)) :
    ∃ q', Run.finish dequeue 5 .load q = some (q', some value) ∧ q'.Stored cells ∧
      q'.size = q.size := by
  have hfirst : q.buf q.indxes.r = some value := by
    have hc := h.content 0 (Nat.zero_lt_of_lt h.read)
    rwa [slot, Ring.slot_zero h.read] at hc
  have hset := (h.laid.set (j := 0) (Nat.zero_lt_succ _) none).pop
  rw [Ring.slot_zero h.read, ← advance_eq h.small h.read] at hset
  refine ⟨⟨q.size, Function.update q.buf q.indxes.r none,
    { q.indxes with r := advance q.size q.indxes.r }⟩, ?_, ⟨h.small, hset⟩, rfl⟩
  simp [Run.finish, dequeue, hfirst]

theorem dequeue_alone_empty {q : AtomicMWSRQueue α} (h : q.Stored ([] : List (Cell α τ))) :
    Run.finish dequeue 2 .load q = some (q, none) := by
  have hfirst : q.buf q.indxes.r = none := by
    have hc := h.content 0 (Nat.zero_lt_of_lt h.read)
    rwa [slot, Ring.slot_zero h.read] at hc
  simp [Run.finish, dequeue, hfirst]

/-! ### Any number of writers and one reader -/

/-- The queue, with the values in the order in which their slots were reserved, and those that
`dequeue` returned. -/
structure Traced (α : Type) where
  queue : AtomicMWSRQueue α
  reserved : List α
  dequeued : List α

inductive Activity (α : Type) where
  | idle
  | enqueuing (e : Enqueuing α)
  | dequeuing (d : Dequeuing α)
  deriving DecidableEq

/-- The threads `some t` enqueue, `none` dequeues. A writer at rest is given a value, and
`enqueue` refuses null. -/
def turn (t : Option τ) (value : Option α) (s : Traced α) (a : Activity α) :
    Traced α × Activity α :=
  match a with
  | .idle =>
    match t, value with
    | none, _ => (s, .dequeuing .load)
    | some _, some value => (s, .enqueuing (.load value))
    | some _, none => (s, .idle)
  | .enqueuing e =>
    let r := enqueue e s.queue
    (⟨r.1, s.reserved ++ reservedBy e r.2, s.dequeued⟩, r.2.elim .enqueuing fun _ => .idle)
  | .dequeuing d =>
    let r := dequeue d s.queue
    (⟨r.1, s.reserved, s.dequeued ++ r.2.elim (fun _ => []) Option.toList⟩,
      r.2.elim .dequeuing fun _ => .idle)

/-- What the slots hold, from the read index on. -/
def stored (q : AtomicMWSRQueue α) : List α :=
  (List.range q.size).filterMap fun j => q.buf (q.slot j)

theorem filterMap_range {β : Type} (f : α → Option β) (l : List α) (n : ℕ) (h : l.length ≤ n) :
    (List.range n).filterMap (fun j => l[j]?.bind f) = l.filterMap f := by
  induction l generalizing n with
  | nil => simp
  | cons a l ih =>
    obtain ⟨n, rfl⟩ := Nat.exists_eq_succ_of_ne_zero (Nat.ne_of_gt (Nat.zero_lt_of_lt h))
    have hl : l.length ≤ n := Nat.le_of_succ_le_succ h
    rw [List.range_succ_eq_map, List.filterMap_cons, List.filterMap_map, List.filterMap_cons]
    have htail : (fun j => (a :: l)[j]?.bind f) ∘ Nat.succ = fun j => l[j]?.bind f := rfl
    rw [htail, ih n hl]
    rfl

theorem Stored.stored_eq {q : AtomicMWSRQueue α} {cells : List (Cell α τ)} (h : q.Stored cells) :
    q.stored = cells.filterMap Cell.content := by
  have hl := h.length
  rw [← filterMap_range Cell.content cells q.size (by omega)]
  refine List.filterMap_congr fun j hj => ?_
  exact h.content j (List.mem_range.mp hj)

open Library.Interleaving

/-- Each thread does what its place in the system is for. -/
def Plays (cells : List (Cell α τ)) (t : Option τ) (s : Traced α) (a : Activity α) : Prop :=
  match t, a with
  | some t, .idle => Fills s.queue cells t none
  | some t, .enqueuing e => Fills s.queue cells t e.pending ∧ e.Knows s.queue
  | some _, .dequeuing _ => False
  | none, .idle => Clears cells none
  | none, .dequeuing d => Clears cells d.pending ∧ d.Knows s.queue cells
  | none, .enqueuing _ => False

/-- The values whose slots are in use are those that were reserved and not dequeued. -/
structure Accounts (cells : List (Cell α τ)) (s : Traced α) : Prop where
  stored : s.queue.Stored cells
  reserved : s.reserved = s.dequeued ++ cells.map Cell.value

/-- The queue with nothing enqueued yet. -/
def start (n : ℕ) : System (Traced α) (Option τ) (Activity α) where
  shared := ⟨create n, [], []⟩
  locals := fun _ => .idle

theorem start_holds {n : ℕ} (h : n ≤ 65534) :
    Holds Accounts Plays [] (start n : System (Traced α) (Option τ) (Activity α)) := by
  refine ⟨⟨create_stored h, rfl⟩, fun t => ?_⟩
  cases t with
  | some t => exact ⟨nofun, nofun⟩
  | none => exact fun j v => iff_of_false nofun fun hj => nomatch hj.2

/-- What a writer's turn keeps. -/
theorem Plays.enqueued {t : τ} {u : Option τ} {cells cells' : List (Cell α τ)} {s s' : Traced α}
    {r : Enqueuing α ⊕ Bool} {a : Activity α} (h : Plays cells u s a) (hu : u ≠ some t)
    (he : Enqueued t s.queue s'.queue cells cells' r) : Plays cells' u s' a := by
  cases u with
  | some u =>
    have hmove := he.others u fun hut => hu (congrArg some hut)
    cases a with
    | idle => exact Fills.moves h hmove
    | enqueuing e => exact ⟨h.1.moves hmove, h.2.size he.size⟩
    | dequeuing d => exact h
  | none =>
    cases a with
    | idle => exact he.clears h
    | dequeuing d => exact ⟨he.clears h.1, he.knows_reader h.2⟩
    | enqueuing e => exact h

/-- What the reader's turn keeps. -/
theorem Plays.dequeued {u : τ} {cells cells' : List (Cell α τ)} {s s' : Traced α} {o : Option α}
    {d : Dequeuing α} {r : Dequeuing α ⊕ Option α} {a : Activity α} (h : Plays cells (some u) s a)
    (hd : Dequeued o s.queue s'.queue cells cells' d r) : Plays cells' (some u) s' a := by
  obtain ⟨k, hk⟩ := hd.others
  cases a with
  | idle => exact Fills.moves h (hk u)
  | enqueuing e => exact ⟨h.1.moves (hk u), h.2.size hd.size⟩
  | dequeuing d => exact h

section Run

variable [DecidableEq τ]

theorem holds_step {cells : List (Cell α τ)} {m : System (Traced α) (Option τ) (Activity α)}
    (t : Option τ) (o : Option α) (h : Holds Accounts Plays cells m) :
    ∃ cells', Holds Accounts Plays cells' (m.step turn (t, o)) := by
  have ht := h.locals t
  obtain ⟨hs, hres⟩ := h.shared
  have hothers : ∀ u, u ≠ t → Plays cells u m.shared (m.locals u) := fun u _ => h.locals u
  cases ha : m.locals t with
  | idle =>
    rw [ha] at ht
    refine ⟨cells, ?_⟩
    cases t with
    | none =>
      apply Holds.step <;> rw [ha]
      · exact ⟨hs, hres⟩
      · exact ⟨ht, trivial⟩
      · exact hothers
    | some t =>
      cases o with
      | none =>
        apply Holds.step <;> rw [ha]
        · exact ⟨hs, hres⟩
        · exact ht
        · exact hothers
      | some value =>
        apply Holds.step <;> rw [ha]
        · exact ⟨hs, hres⟩
        · exact ⟨ht, trivial⟩
        · exact hothers
  | enqueuing e =>
    rw [ha] at ht
    cases t with
    | none => exact ht.elim
    | some t =>
      obtain ⟨cells', he, hvalues, -⟩ := enqueue_turn hs ht.1 ht.2
      refine ⟨cells', ?_⟩
      apply Holds.step <;> rw [ha]
      · refine ⟨he.stored, ?_⟩
        show m.shared.reserved ++ _ = m.shared.dequeued ++ _
        rw [hvalues, hres, List.append_assoc]
      · have hf := he.fills
        have hk := he.knows
        simp only [turn]
        cases hr : (enqueue e m.shared.queue).2 with
        | inl e' =>
          rw [hr] at hf
          exact ⟨hf, hk e' hr⟩
        | inr b =>
          rw [hr] at hf
          exact hf
      · exact fun u hu => (h.locals u).enqueued hu he
  | dequeuing d =>
    rw [ha] at ht
    cases t with
    | some t => exact ht.elim
    | none =>
      obtain ⟨cells', hd⟩ := dequeue_shared hs ht.1 (fun _ h => h) ht.2.found
      refine ⟨cells', ?_⟩
      apply Holds.step <;> rw [ha]
      · refine ⟨hd.stored, ?_⟩
        show m.shared.reserved = m.shared.dequeued ++ _ ++ _
        rw [hres, hd.values, List.append_assoc]
      · have hc := hd.own rfl
        have hk := hd.knows ht.2
        simp only [turn]
        cases hr : (dequeue d m.shared.queue).2 with
        | inl d' =>
          rw [hr] at hc
          exact ⟨hc, hk d' hr⟩
        | inr v =>
          rw [hr] at hc
          exact hc
      · intro u hu
        obtain ⟨u, rfl⟩ := Option.ne_none_iff_exists'.mp hu
        exact (h.locals (some u)).dequeued hd

end Run

end AtomicMWSRQueue
end OrocosRtt.LockFree
