import OrocosRtt.LockFree.Indexes
import OrocosRtt.Library.Interleaving
import OrocosRtt.Library.Queue
import OrocosRtt.Library.Ring

/-! The queue with many writers and many readers: a thread first advances an index over a slot,
and then fills the slot if it is empty, or empties it if it is not. Values in slots that a reader
has passed too early are found by a scan over all slots. -/
namespace OrocosRtt.LockFree

open Library.Queue

/-- A queue of pointers; null is `none`. -/
structure AtomicQueue (α : Type) where
  /-- `_size` -/
  size : ℕ
  /-- `_buf` -/
  buf : ℕ → Option α
  /-- `_indxes` -/
  indxes : Indexes

namespace AtomicQueue

variable {α τ : Type}

def create (capacity : ℕ) : AtomicQueue α where
  size := capacity + 1
  buf := fun _ => none
  indxes := ⟨0, 0⟩

/-- `++_index; if (_index == _size) _index = 0;` on an unsigned short. -/
def advance (size i : ℕ) : ℕ :=
  let i := (i + 1) % 65536
  if i = size then 0 else i

/-- Where a thread is in `enqueue`, before the next access to what is shared. -/
inductive Enqueuing (α : Type) where
  | load (value : α)
  | casIndex (oldval : Indexes) (value : α)
  | casSlot (loc : ℕ) (value : α)
  deriving DecidableEq

def Enqueuing.value : Enqueuing α → α
  | .load value | .casIndex _ value | .casSlot _ value => value

/-- Where a thread is in `dequeue`. -/
inductive Dequeuing (α : Type) where
  | load
  | casIndex (oldval : Indexes)
  | recover
  | scanUp (start r : ℕ)
  | scanDown (start r : ℕ)
  | read (loc : ℕ)
  | casSlot (loc : ℕ) (result : α)
  deriving DecidableEq

/-- `propose_w`, and `enqueue` of a value that is not null. -/
def enqueue (e : Enqueuing α) (q : AtomicQueue α) : AtomicQueue α × (Enqueuing α ⊕ Bool) :=
  match e with
  | .load value =>
    if q.indxes.full q.size then (q, .inr false) else (q, .inl (.casIndex q.indxes value))
  | .casIndex oldval value =>
    if q.indxes = oldval then
      ({ q with indxes := { oldval with w := advance q.size oldval.w } },
        .inl (.casSlot oldval.w value))
    else (q, .inl (.load value))
  | .casSlot loc value =>
    match q.buf loc with
    | none => ({ q with buf := Function.update q.buf loc (some value) }, .inr true)
    | some _ => (q, .inl (.load value))

/-- `propose_r`, `recover_r` and `dequeue`. -/
def dequeue [DecidableEq α] (d : Dequeuing α) (q : AtomicQueue α) :
    AtomicQueue α × (Dequeuing α ⊕ Option α) :=
  match d with
  | .load =>
    if q.indxes.w = q.indxes.r then (q, .inl .recover) else (q, .inl (.casIndex q.indxes))
  | .casIndex oldval =>
    if q.indxes = oldval then
      ({ q with indxes := { oldval with r := advance q.size oldval.r } }, .inl (.read oldval.r))
    else (q, .inl .load)
  | .recover => (q, .inl (.scanUp q.indxes.r q.indxes.r))
  | .scanUp start r =>
    if r = q.size then (q, .inl (.scanDown start 0))
    else
      match q.buf r with
      | some _ => (q, .inl (.read r))
      | none => (q, .inl (.scanUp start ((r + 1) % 65536)))
  | .scanDown start r =>
    if r = start then (q, .inr none)
    else
      match q.buf r with
      | some _ => (q, .inl (.read r))
      | none => (q, .inl (.scanDown start ((r + 1) % 65536)))
  | .read loc =>
    match q.buf loc with
    | none => (q, .inl .load)
    | some result => (q, .inl (.casSlot loc result))
  | .casSlot loc result =>
    if q.buf loc = some result then
      ({ q with buf := Function.update q.buf loc none }, .inr (some result))
    else (q, .inl .load)

/-- What the slots hold, in the order of the array. -/
def stored (q : AtomicQueue α) : List α := (List.range q.size).filterMap q.buf

/-! ### Any number of threads -/

/-- A call that is over, with its result. -/
inductive Event (α : Type) where
  | enqueued (value : Option α) (done : Bool)
  | dequeued (result : Option α)
  deriving DecidableEq

/-- The queue, with the calls that are over. -/
structure Traced (α : Type) where
  queue : AtomicQueue α
  log : List (Event α)

inductive Call (α : Type) where
  | enqueue (value : Option α)
  | dequeue
  deriving DecidableEq

inductive Activity (α : Type) where
  | idle
  | enqueuing (e : Enqueuing α)
  | dequeuing (d : Dequeuing α)
  deriving DecidableEq

/-- A thread at rest makes the call; `enqueue` refuses null. -/
def turn [DecidableEq α] (_ : τ) (c : Call α) (s : Traced α) (a : Activity α) :
    Traced α × Activity α :=
  match a with
  | .idle =>
    match c with
    | .enqueue none => ({ s with log := s.log ++ [.enqueued none false] }, .idle)
    | .enqueue (some value) => (s, .enqueuing (.load value))
    | .dequeue => (s, .dequeuing .load)
  | .enqueuing e =>
    let r := enqueue e s.queue
    (⟨r.1, s.log ++ r.2.elim (fun _ => []) fun done => [.enqueued (some e.value) done]⟩,
      r.2.elim .enqueuing fun _ => .idle)
  | .dequeuing d =>
    let r := dequeue d s.queue
    (⟨r.1, s.log ++ r.2.elim (fun _ => []) fun result => [.dequeued result]⟩,
      r.2.elim .dequeuing fun _ => .idle)

/-- The queue with nothing enqueued yet. -/
def start (n : ℕ) : Library.Interleaving.System (Traced α) τ (Activity α) where
  shared := ⟨create n, []⟩
  locals := fun _ => .idle

/-- The values that were enqueued. -/
def enqueued (log : List (Event α)) : List α :=
  log.filterMap fun
    | .enqueued value true => value
    | .enqueued _ false | .dequeued _ => none

/-- The values that were dequeued. -/
def dequeued (log : List (Event α)) : List α :=
  log.filterMap fun
    | .dequeued result => result
    | .enqueued .. => none

/-- A bounded queue takes the call, if it gives the same result. -/
def Event.serve [DecidableEq α] {n : ℕ} (q : BoundedQueue α n) (e : Event α) :
    Option (BoundedQueue α n) :=
  match e with
  | .enqueued none done => if done then none else some q
  | .enqueued (some value) done => if done = !q.isFull then some (q.push value) else none
  | .dequeued none =>
    match q.pop with
    | none => some q
    | some _ => none
  | .dequeued (some result) =>
    match q.pop with
    | none => none
    | some (a, rest) => if a = result then some rest else none

/-! ### Nothing is lost and nothing comes out twice -/

theorem filterMap_update_perm {f : ℕ → Option α} {l : List ℕ} {i : ℕ} {v : α} (hl : l.Nodup)
    (hi : i ∈ l) (hf : f i = none) :
    (l.filterMap (Function.update f i (some v))).Perm (v :: l.filterMap f) := by
  induction l with
  | nil => cases hi
  | cons j l ih =>
    obtain ⟨hj, hl⟩ := List.nodup_cons.mp hl
    by_cases he : j = i
    · subst he
      have hrest : l.filterMap (Function.update f j (some v)) = l.filterMap f := by
        apply List.filterMap_congr
        intro k hk
        have hne : k ≠ j := fun he => hj (he ▸ hk)
        exact Function.update_of_ne hne ..
      rw [List.filterMap_cons_some (Function.update_self ..), List.filterMap_cons_none hf, hrest]
    · have hil : i ∈ l := (List.mem_cons.mp hi).resolve_left (Ne.symm he)
      have hfj : Function.update f i (some v) j = f j := Function.update_of_ne he ..
      cases hv : f j with
      | none =>
        rw [List.filterMap_cons_none (hfj.trans hv), List.filterMap_cons_none hv]
        exact ih hl hil
      | some a =>
        rw [List.filterMap_cons_some (hfj.trans hv), List.filterMap_cons_some hv]
        exact ((ih hl hil).cons a).trans (List.Perm.swap v a _)

theorem stored_fill {q : AtomicQueue α} {i : ℕ} (hi : i < q.size) (hf : q.buf i = none) (v : α) :
    (stored { q with buf := Function.update q.buf i (some v) }).Perm (v :: q.stored) :=
  filterMap_update_perm List.nodup_range (List.mem_range.mpr hi) hf

theorem stored_clear {q : AtomicQueue α} {i : ℕ} {v : α} (hi : i < q.size)
    (hf : q.buf i = some v) :
    q.stored.Perm (v :: stored { q with buf := Function.update q.buf i none }) := by
  have hfill := stored_fill (q := { q with buf := Function.update q.buf i none }) hi
    (Function.update_self ..) v
  have hback : Function.update (Function.update q.buf i none) i (some v) = q.buf := by
    rw [Function.update_idem, ← hf, Function.update_eq_self]
  simp only [hback] at hfill
  exact hfill

/-- Indexes that name slots of the array. -/
def Within (size : ℕ) (i : Indexes) : Prop := i.w < size ∧ i.r < size

theorem advance_lt {size i : ℕ} (hs : size ≤ 65535) (hi : i < size) : advance size i < size := by
  have hlt : (i + 1) % 65536 = i + 1 := Nat.mod_eq_of_lt (by omega)
  simp only [advance, hlt]
  split <;> omega

def Enqueuing.Within (size : ℕ) : Enqueuing α → Prop
  | .load _ => True
  | .casIndex oldval _ => AtomicQueue.Within size oldval
  | .casSlot loc _ => loc < size

def Dequeuing.Within (size : ℕ) : Dequeuing α → Prop
  | .load | .recover => True
  | .casIndex oldval => AtomicQueue.Within size oldval
  | .scanUp start r => start < size ∧ r ≤ size
  | .scanDown start r => start < size ∧ r ≤ start
  | .read loc | .casSlot loc _ => loc < size

/-- What a turn in `enqueue` leads to. -/
structure Enqueued (value : α) (q q' : AtomicQueue α) (r : Enqueuing α ⊕ Bool) : Prop where
  size : q'.size = q.size
  within : Within q.size q'.indxes
  going : ∀ e, r = .inl e → e.Within q.size
  stored : q'.stored.Perm (r.elim (fun _ => []) (fun done => if done then [value] else []) ++ q.stored)

/-- What a turn in `dequeue` leads to. -/
structure Dequeued (q q' : AtomicQueue α) (r : Dequeuing α ⊕ Option α) : Prop where
  size : q'.size = q.size
  within : Within q.size q'.indxes
  going : ∀ d, r = .inl d → d.Within q.size
  stored : q.stored.Perm (r.elim (fun _ => []) Option.toList ++ q'.stored)

theorem Enqueued.goes_on {value : α} {q : AtomicQueue α} {e : Enqueuing α}
    (hq : Within q.size q.indxes) (he : e.Within q.size) : Enqueued value q q (.inl e) := by
  refine ⟨rfl, hq, ?_, .refl _⟩
  rintro _ ⟨⟩
  exact he

theorem Dequeued.goes_on {q : AtomicQueue α} {d : Dequeuing α} (hq : Within q.size q.indxes)
    (hd : d.Within q.size) : Dequeued q q (.inl d) := by
  refine ⟨rfl, hq, ?_, .refl _⟩
  rintro _ ⟨⟩
  exact hd

theorem enqueue_turn {q : AtomicQueue α} {e : Enqueuing α} (hs : q.size ≤ 65535)
    (hq : Within q.size q.indxes) (he : e.Within q.size) :
    Enqueued e.value q (enqueue e q).1 (enqueue e q).2 := by
  cases e with
  | load value =>
    simp only [enqueue]
    split
    · exact ⟨rfl, hq, by simp, .refl _⟩
    · exact .goes_on hq hq
  | casIndex oldval value =>
    simp only [enqueue]
    split
    · refine ⟨rfl, ⟨advance_lt hs he.1, he.2⟩, ?_, .refl _⟩
      rintro _ ⟨⟩
      exact he.1
    · exact .goes_on hq trivial
  | casSlot loc value =>
    simp only [enqueue]
    split
    · next hb => exact ⟨rfl, hq, by simp, stored_fill he hb value⟩
    · exact .goes_on hq trivial

theorem dequeue_turn [DecidableEq α] {q : AtomicQueue α} {d : Dequeuing α} (hs : q.size ≤ 65535)
    (hq : Within q.size q.indxes) (hd : d.Within q.size) :
    Dequeued q (dequeue d q).1 (dequeue d q).2 := by
  have hstep {r : ℕ} (h : r < q.size) : (r + 1) % 65536 = r + 1 := Nat.mod_eq_of_lt (by omega)
  cases d with
  | load =>
    simp only [dequeue]
    split
    · exact .goes_on hq trivial
    · exact .goes_on hq hq
  | casIndex oldval =>
    simp only [dequeue]
    split
    · refine ⟨rfl, ⟨hd.1, advance_lt hs hd.2⟩, ?_, .refl _⟩
      rintro _ ⟨⟩
      exact hd.2
    · exact .goes_on hq trivial
  | recover =>
    exact .goes_on hq ⟨hq.2, hq.2.le⟩
  | scanUp start r =>
    obtain ⟨hstart, hr⟩ := hd
    simp only [dequeue]
    split
    · exact .goes_on hq ⟨hstart, Nat.zero_le _⟩
    · next hne =>
      have hlt : r < q.size := by omega
      split
      · exact .goes_on hq hlt
      · refine .goes_on hq ?_
        rw [hstep hlt]
        exact ⟨hstart, hlt⟩
  | scanDown start r =>
    obtain ⟨hstart, hr⟩ := hd
    simp only [dequeue]
    split
    · exact ⟨rfl, hq, by simp, .refl _⟩
    · next hne =>
      have hlt : r < start := by omega
      split
      · exact .goes_on hq (hlt.trans hstart)
      · refine .goes_on hq ?_
        rw [hstep (hlt.trans hstart)]
        exact ⟨hstart, hlt⟩
  | read loc =>
    simp only [dequeue]
    split
    · exact .goes_on hq trivial
    · exact .goes_on hq hd
  | casSlot loc result =>
    simp only [dequeue]
    split
    · next hb => exact ⟨rfl, hq, by simp, stored_clear hd hb⟩
    · exact .goes_on hq trivial

open Library.Interleaving

/-- Wherever the thread is, it works at slots of the array. -/
def Activity.Within (size : ℕ) : Activity α → Prop
  | .idle => True
  | .enqueuing e => e.Within size
  | .dequeuing d => d.Within size

/-- What was enqueued is what was dequeued and what is stored. -/
structure Balanced (n : ℕ) (s : Traced α) : Prop where
  size : s.queue.size = n + 1
  within : Within (n + 1) s.queue.indxes
  perm : (enqueued s.log).Perm (dequeued s.log ++ s.queue.stored)

theorem start_stored (n : ℕ) : (create n : AtomicQueue α).stored = [] :=
  List.filterMap_eq_nil_iff.mpr fun _ _ => rfl

theorem start_holds (n : ℕ) :
    Holds (fun _ : Unit => Balanced n) (fun _ _ _ a => a.Within (n + 1)) ()
      (start n : System (Traced α) τ (Activity α)) := by
  refine ⟨⟨rfl, ⟨Nat.succ_pos n, Nat.succ_pos n⟩, ?_⟩, fun _ => trivial⟩
  show ([] : List α).Perm ([] ++ (create n).stored)
  rw [start_stored]
  rfl

theorem enqueued_append (log log' : List (Event α)) :
    enqueued (log ++ log') = enqueued log ++ enqueued log' := List.filterMap_append

theorem dequeued_append (log log' : List (Event α)) :
    dequeued (log ++ log') = dequeued log ++ dequeued log' := List.filterMap_append

theorem Balanced.enqueuing {n : ℕ} {s : Traced α} {e : Enqueuing α} (h : Balanced n s)
    {r : AtomicQueue α × (Enqueuing α ⊕ Bool)} (he : Enqueued e.value s.queue r.1 r.2) :
    Balanced n
      ⟨r.1, s.log ++ r.2.elim (fun _ => []) fun done => [.enqueued (some e.value) done]⟩ := by
  obtain ⟨hsize, hwithin, hperm⟩ := h
  have hstored := he.stored
  refine ⟨he.size.trans hsize, hsize ▸ he.within, ?_⟩
  show List.Perm (enqueued _) (dequeued _ ++ r.1.stored)
  rw [enqueued_append, dequeued_append]
  cases hr : r.2 with
  | inl e' =>
    rw [hr] at hstored
    simpa [enqueued, dequeued] using hperm.trans (hstored.symm.append_left _)
  | inr done =>
    rw [hr] at hstored
    cases done with
    | false => simpa [enqueued, dequeued] using hperm.trans (hstored.symm.append_left _)
    | true =>
      have hnew : (s.queue.stored ++ [e.value]).Perm r.1.stored :=
        List.perm_append_comm.trans hstored.symm
      have hall := hperm.append_right [e.value]
      rw [List.append_assoc] at hall
      simpa [enqueued, dequeued] using hall.trans (hnew.append_left _)

theorem Balanced.dequeuing {n : ℕ} {s : Traced α} (h : Balanced n s)
    {r : AtomicQueue α × (Dequeuing α ⊕ Option α)} (hd : Dequeued s.queue r.1 r.2) :
    Balanced n ⟨r.1, s.log ++ r.2.elim (fun _ => []) fun result => [.dequeued result]⟩ := by
  obtain ⟨hsize, hwithin, hperm⟩ := h
  have hstored := hd.stored
  refine ⟨hd.size.trans hsize, hsize ▸ hd.within, ?_⟩
  show List.Perm (enqueued _) (dequeued _ ++ r.1.stored)
  rw [enqueued_append, dequeued_append]
  cases hr : r.2 with
  | inl d' =>
    rw [hr] at hstored
    simpa [enqueued, dequeued] using hperm.trans (hstored.append_left _)
  | inr result =>
    rw [hr] at hstored
    cases result with
    | none => simpa [enqueued, dequeued] using hperm.trans (hstored.append_left _)
    | some v => simpa [enqueued, dequeued] using hperm.trans (hstored.append_left _)

section Run

variable [DecidableEq α] [DecidableEq τ] {n : ℕ}

theorem holds_step (hn : n ≤ 65534) {m : System (Traced α) τ (Activity α)} (t : τ) (c : Call α)
    (h : Holds (fun _ : Unit => Balanced n) (fun _ _ _ a => a.Within (n + 1)) () m) :
    Holds (fun _ : Unit => Balanced n) (fun _ _ _ a => a.Within (n + 1)) ()
      (m.step turn (t, c)) := by
  have ht := h.locals t
  have hb := h.shared
  have hothers : ∀ u, u ≠ t → (m.locals u).Within (n + 1) := fun u _ => h.locals u
  have hsize : m.shared.queue.size ≤ 65535 := by
    rw [hb.size]
    omega
  cases ha : m.locals t with
  | idle =>
    cases c with
    | enqueue value =>
      cases value with
      | none =>
        refine .step ?_ ?_ hothers <;> rw [ha]
        · refine ⟨hb.size, hb.within, ?_⟩
          simpa [turn, enqueued, dequeued] using hb.perm
        · trivial
      | some value =>
        refine .step ?_ ?_ hothers <;> rw [ha]
        · exact hb
        · trivial
    | dequeue =>
      refine .step ?_ ?_ hothers <;> rw [ha]
      · exact hb
      · trivial
  | enqueuing e =>
    rw [ha] at ht
    have he := enqueue_turn hsize (hb.size ▸ hb.within) (hb.size ▸ ht)
    have hgoing := he.going
    refine .step ?_ ?_ hothers <;> rw [ha]
    · exact hb.enqueuing he
    · simp only [turn]
      cases hr : (enqueue e m.shared.queue).2 with
      | inl e' => exact hb.size ▸ hgoing e' hr
      | inr done => trivial
  | dequeuing d =>
    rw [ha] at ht
    have hd := dequeue_turn hsize (hb.size ▸ hb.within) (hb.size ▸ ht)
    have hgoing := hd.going
    refine .step ?_ ?_ hothers <;> rw [ha]
    · exact hb.dequeuing hd
    · simp only [turn]
      cases hr : (dequeue d m.shared.queue).2 with
      | inl d' => exact hb.size ▸ hgoing d' hr
      | inr result => trivial

end Run

/-! ### A reader that runs alone -/

theorem advance_eq {size i : ℕ} (hs : size ≤ 65535) (hi : i < size) :
    advance size i = (i + 1) % size := by
  have hlt : (i + 1) % 65536 = i + 1 := Nat.mod_eq_of_lt (by omega)
  simp only [advance, hlt]
  split
  · next he => rw [he, Nat.mod_self]
  · rw [Nat.mod_eq_of_lt (by omega)]

section Alone

variable [DecidableEq α] {t : τ} {c : Call α} {log : List (Event α)} {empty : Prop}
  {q : AtomicQueue α}

end Alone

/-! ### Calls that do not overlap -/

/-- Nobody else is in a call. -/
def apart (m : System (Traced α) τ (Activity α)) (e : τ × Call α) : Prop :=
  ∀ u, u ≠ e.1 → m.locals u = .idle

/-- The slots from the read to the write index hold the values. -/
abbrev Plain (q : AtomicQueue α) (l : List α) : Prop :=
  Library.Ring.Laid q.size q.buf q.indxes.r q.indxes.w (l.map some)

/-- The values follow behind a slot that the read index has passed already. -/
structure Passed (q : AtomicQueue α) (loc : ℕ) (a : α) (rest : List α) : Prop where
  here : q.buf loc = some a
  rest : Library.Ring.Laid q.size (Function.update q.buf loc none) q.indxes.r q.indxes.w
    (rest.map some)

/-- The queue holds the values `l`, up to what the only thread in a call has done. -/
def Shape (q : AtomicQueue α) (l : List α) : Activity α → Prop
  | .idle | .enqueuing (.load _) | .dequeuing .load => q.Plain l
  | .enqueuing (.casIndex oldval _) => q.Plain l ∧ oldval = q.indxes ∧ l.length + 1 < q.size
  | .enqueuing (.casSlot loc _) =>
    Library.Ring.Laid q.size q.buf q.indxes.r q.indxes.w (l.map some ++ [none]) ∧
      loc = Library.Ring.slot q.size q.indxes.r l.length
  | .dequeuing (.casIndex oldval) => q.Plain l ∧ oldval = q.indxes ∧ l ≠ []
  | .dequeuing (.read loc) => ∃ a rest, l = a :: rest ∧ q.Passed loc a rest
  | .dequeuing (.casSlot loc result) => ∃ rest, l = result :: rest ∧ q.Passed loc result rest
  | .dequeuing .recover => q.Plain l ∧ l = []
  | .dequeuing (.scanUp start r) => q.Plain l ∧ l = [] ∧ start < q.size ∧ r ≤ q.size
  | .dequeuing (.scanDown start r) => q.Plain l ∧ l = [] ∧ start < q.size ∧ r ≤ start

theorem Plain.full_iff {q : AtomicQueue α} {l : List α} (h : q.Plain l) :
    q.indxes.full q.size ↔ l.length + 1 = q.size := by
  have hf := Library.Ring.Laid.full_iff h
  rwa [List.length_map] at hf

/-- A bounded queue has served the calls that are over. -/
structure Serial (n : ℕ) (m : System (Traced α) τ (Activity α)) [DecidableEq α]
    (b : BoundedQueue α n) : Prop where
  size : m.shared.queue.size = n + 1
  served : m.shared.log.foldlM Event.serve .empty = some b
  shape : ∀ t, (∀ u, u ≠ t → m.locals u = .idle) → Shape m.shared.queue b.items (m.locals t)

section Serial

variable [DecidableEq α] [DecidableEq τ] {n : ℕ}

/-- The call of one thread goes on, or is over and the others are still at rest. -/
theorem Serial.step {m : System (Traced α) τ (Activity α)} {b' : BoundedQueue α n} {t : τ}
    {c : Call α} (hok : apart m (t, c)) {s : Traced α} {a : Activity α}
    (hturn : turn t c m.shared (m.locals t) = (s, a)) (hsize : s.queue.size = n + 1)
    (hserved : s.log.foldlM Event.serve .empty = some b') (ha : Shape s.queue b'.items a) :
    Serial n (m.step turn (t, c)) b' := by
  have hshared : (m.step turn (t, c)).shared = s := congrArg Prod.fst hturn
  have hself : (m.step turn (t, c)).locals t = a :=
    (System.step_self m t c).trans (congrArg Prod.snd hturn)
  refine ⟨hshared ▸ hsize, hshared ▸ hserved, fun u hu => ?_⟩
  rw [hshared]
  by_cases he : u = t
  · rw [he, hself]
    exact ha
  · -- `t` has come to rest, and `u` was at rest
    have ht : a = .idle := hself.symm.trans (hu t (Ne.symm he))
    rw [System.step_other m c he, hok u he]
    rwa [ht] at ha

end Serial

end AtomicQueue
end OrocosRtt.LockFree
