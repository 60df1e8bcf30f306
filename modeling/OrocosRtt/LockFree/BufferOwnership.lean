import OrocosRtt.LockFree.BufferLockFree
import OrocosRtt.Library.Interleaving

/-! Threads that push into the buffer and one that pops: each item of the pool is free, stored in
the queue, or in the hand of one thread. -/
namespace OrocosRtt.LockFree.BufferLockFree

open Library.Interleaving
open Library.Run (within)
open AtomicMWSRQueue (Cell Stored Enqueuing Dequeuing enqueue dequeue Fills Clears Moves)
open TsPool (Allocating Deallocating Listed Evolves Chain allocate deallocate)

variable {α τ : Type}

/-! ### The threads -/

/-- The buffer, with the values of the items in the order in which they were enqueued, and those
of the items that were dequeued. -/
structure Traced (α : Type) where
  buffer : BufferLockFree α
  put : List α
  taken : List α

/-- What a thread at rest does next. -/
inductive Order (α : Type) where
  | push (item : α)
  | pop
  | popWithoutRelease
  | release (item : ℕ)
  | clear
  | popAll

inductive Activity (α : Type) where
  | idle
  | pushing (e : Pushing α)
  | popping (e : Popping α)
  deriving DecidableEq

/-- A thread, with the items that `PopWithoutRelease` gave it. -/
structure User (α : Type) where
  activity : Activity α
  kept : List ℕ
  deriving DecidableEq

/-- What a call to the queue or the pool is about to do. -/
inductive Part where
  | rest
  | allocating (a : Allocating)
  | deallocating (d : Deallocating)
  | enqueuing (e : Enqueuing ℕ)
  | dequeuing (d : Dequeuing ℕ)

def Pushing.part : Pushing α → Part
  | .size _ | .write .. => .rest
  | .allocate _ a => .allocating a
  | .recycle _ d | .drop _ _ d => .dequeuing d
  | .enqueue _ e | .retry _ _ e => .enqueuing e
  | .giveBack d | .free _ _ d => .deallocating d

def Popping.part : Popping α → Part
  | .pop d | .popWithoutRelease d | .clear d | .popAll _ d => .dequeuing d
  | .popRead _ | .popAllRead .. => .rest
  | .popFree _ d | .release d | .clearFree d | .popAllFree _ d => .deallocating d

def Activity.part : Activity α → Part
  | .idle => .rest
  | .pushing e => e.part
  | .popping e => e.part

/-- The items in the hand of a thread, the one that the call is about apart. -/
def Activity.others : Activity α → List ℕ
  | .pushing (.write _ mitem) | .pushing (.drop mitem _ _) | .pushing (.free mitem _ _) => [mitem]
  | .popping (.popRead ipop) | .popping (.popAllRead _ ipop) => [ipop]
  | _ => []

/-- The item that a call has in hand. A slot that was cleared is given up later. -/
def Part.item : Part → List ℕ
  | .rest | .allocating _ => []
  | .deallocating d => [d.item]
  | .enqueuing e => [e.value]
  | .dequeuing d => d.pending.toList

/-- The items in the hand of a thread. -/
def User.held (u : User α) : List ℕ := u.activity.part.item ++ (u.activity.others ++ u.kept)

/-- What a turn enqueues. -/
def Part.puts (q : AtomicMWSRQueue ℕ) : Part → List ℕ
  | .enqueuing e => AtomicMWSRQueue.reservedBy e (enqueue e q).2
  | .rest | .allocating _ | .deallocating _ | .dequeuing _ => []

/-- What a turn has dequeued. -/
def Part.takes (q : AtomicMWSRQueue ℕ) : Part → List ℕ
  | .dequeuing d => (dequeue d q).2.elim (fun _ => []) Option.toList
  | .rest | .allocating _ | .deallocating _ | .enqueuing _ => []

/-- The trace after a turn that leaves the buffer as `b`. -/
def Traced.after (s : Traced α) (p : Part) (b : BufferLockFree α) : Traced α where
  buffer := b
  put := s.put ++ (p.puts s.buffer.bufs).map s.buffer.value
  taken := s.taken ++ (p.takes s.buffer.bufs).map s.buffer.value

/-- Only one thread pops, and it releases only what it was given. -/
def begin (t : Option τ) (o : Order α) (kept : List ℕ) : User α :=
  match t, o with
  | _, .push item => ⟨.pushing (.size item), kept⟩
  | some _, _ => ⟨.idle, kept⟩
  | none, .pop => ⟨.popping (.pop .load), kept⟩
  | none, .popWithoutRelease => ⟨.popping (.popWithoutRelease .load), kept⟩
  | none, .release item =>
    if item ∈ kept then ⟨.popping (.release (.load item)), kept.erase item⟩ else ⟨.idle, kept⟩
  | none, .clear => ⟨.popping (.clear .load), kept⟩
  | none, .popAll => ⟨.popping (.popAll [] .load), kept⟩

/-- The thread after a turn in one of the calls that pop. -/
def Popped.user (kept : List ℕ) : Popped α → User α
  | .pointer (some ipop) => ⟨.idle, ipop :: kept⟩
  | .pointer none | .item _ | .released | .cleared | .items _ => ⟨.idle, kept⟩

/-- Any thread may push, `none` pops. -/
def turn (t : Option τ) (o : Order α) (s : Traced α) (u : User α) : Traced α × User α :=
  match u.activity with
  | .idle => (s, begin t o u.kept)
  | .pushing e =>
    let r := push e s.buffer
    (s.after e.part r.1, r.2.elim (fun e => ⟨.pushing e, u.kept⟩) fun _ => ⟨.idle, u.kept⟩)
  | .popping e =>
    let r := pop e s.buffer
    (s.after e.part r.1, r.2.elim (fun e => ⟨.popping e, u.kept⟩) (·.user u.kept))

/-- The buffer with nothing in it. -/
def start (n : ℕ) (initialValue : α) (circular : Bool) :
    System (Traced α) (Option τ) (User α) where
  shared := ⟨create n initialValue circular, [], []⟩
  locals := fun _ => ⟨.idle, []⟩

/-! ### Who owns what -/

inductive Place (τ : Type) where
  | pool
  | queue
  | thread (t : Option τ)
  deriving DecidableEq

/-- The free items, the cells of the queue, the thread that has cleared the first slot with the item
that was in it, and where each item is. -/
structure Ledger (τ : Type) where
  free : List ℕ
  cells : List (Cell ℕ (Option τ))
  taker : Option (Option τ × ℕ)
  place : ℕ → Option (Place τ)

/-- The pool and the queue hold what is placed there, and the values of the items in the queue
are those that were enqueued and not dequeued. -/
structure Accounts (n : ℕ) (g : Ledger τ) (s : Traced α) : Prop where
  stored : s.buffer.bufs.Stored g.cells
  listed : s.buffer.mpool.Listed g.free
  capacity : s.buffer.mpool.capacity = n
  values : (g.cells.map Cell.value).Nodup
  pool : ∀ i, i ∈ g.free ↔ g.place i = some .pool
  queue : ∀ i, i ∈ g.cells.filterMap Cell.content ↔ g.place i = some .queue
  reserved : ∀ i t, ⟨i, .reserved t⟩ ∈ g.cells → g.place i = some (.thread t)
  cleared : Clears g.cells (g.taker.map Prod.snd)
  taker : ∀ t i, g.taker = some (t, i) → g.place i = some (.thread t)
  inside : ∀ i, g.place i ≠ none ↔ i < n
  trace : s.put = s.taken ++ (g.cells.map Cell.value).map s.buffer.value

/-- The slot that a call is about to write. -/
def Part.slot : Part → Option (ℕ × ℕ)
  | .enqueuing e => e.pending
  | .rest | .allocating _ | .deallocating _ | .dequeuing _ => none

/-- The item that a call has cleared in the first slot. -/
def Part.cleared : Part → Option ℕ
  | .dequeuing d => d.pending
  | .rest | .allocating _ | .deallocating _ | .enqueuing _ => none

/-- What a thread knows. When the buffer is not circular, only one thread dequeues. -/
def Part.Knows (g : Ledger τ) (t : Option τ) (b : BufferLockFree α) : Part → Prop
  | .rest => True
  | .allocating a => a.Knows b.mpool
  | .deallocating d => d.Knows b.mpool
  | .enqueuing e => e.Knows b.bufs
  | .dequeuing d => b.mcircular = false → t = none ∧ d.Knows b.bufs g.cells

/-- A thread has in hand what is placed at it. -/
structure Plays (g : Ledger τ) (t : Option τ) (b : BufferLockFree α) (p : Part) (others : List ℕ) :
    Prop where
  nodup : (p.item ++ others).Nodup
  mem_iff : ∀ i, i ∈ p.item ++ others ↔ g.place i = some (.thread t)
  fills : Fills b.bufs g.cells t p.slot
  taker : ∀ i, p.cleared = some i ↔ g.taker = some (t, i)
  knows : p.Knows g t b

/-- What the turn of another thread leaves alone. -/
structure Spares (g g' : Ledger τ) (t : Option τ) (b b' : BufferLockFree α) : Prop where
  place : ∀ i, g'.place i = some (.thread t) ↔ g.place i = some (.thread t)
  moves : ∃ d, Moves t d b.bufs b'.bufs g.cells g'.cells
  taker : ∀ i, g'.taker = some (t, i) ↔ g.taker = some (t, i)
  size : b'.bufs.size = b.bufs.size
  evolves : Evolves b.mpool b'.mpool fun i => g.place i = some (.thread t)
  mode : b'.mcircular = b.mcircular
  reader : b.mcircular = false → t = none → ∀ d : Dequeuing ℕ,
    d.Knows b.bufs g.cells → d.Knows b'.bufs g'.cells

theorem Plays.spared {g g' : Ledger τ} {t : Option τ} {b b' : BufferLockFree α} {p : Part}
    {others : List ℕ} (h : Plays g t b p others) (hs : Spares g g' t b b') :
    Plays g' t b' p others := by
  obtain ⟨d, hmoves⟩ := hs.moves
  constructor
  · exact h.nodup
  · exact fun i => (h.mem_iff i).trans (hs.place i).symm
  · exact h.fills.moves hmoves
  · exact fun i => (h.taker i).trans (hs.taker i).symm
  · have hk := h.knows
    cases p with
    | rest => trivial
    | allocating a => exact Allocating.Knows.evolves hk hs.evolves
    | deallocating d =>
      apply Deallocating.Knows.evolves hk hs.evolves
      exact (h.mem_iff d.item).mp List.mem_cons_self
    | enqueuing e => exact Enqueuing.Knows.size hk hs.size
    | dequeuing d =>
      intro hmode
      rw [hs.mode] at hmode
      obtain ⟨ht, hd⟩ := hk hmode
      exact ⟨ht, hs.reader hmode ht d hd⟩

theorem Spares.of_eq {g : Ledger τ} {t : Option τ} {b b' : BufferLockFree α} (hq : b'.bufs = b.bufs)
    (hp : b'.mpool = b.mpool) (hm : b'.mcircular = b.mcircular) : Spares g g t b b' := by
  constructor
  · exact fun _ => Iff.rfl
  · rw [hq]
    exact ⟨0, .refl t _ _⟩
  · exact fun _ => Iff.rfl
  · rw [hq]
  · rw [hp]
    exact .refl _ _
  · exact hm
  · rw [hq]
    exact fun _ _ _ hd => hd

/-- What a turn of a thread leads to. -/
structure Lands (n : ℕ) (g g' : Ledger τ) (t : Option τ) (b : BufferLockFree α) (s' : Traced α)
    (p : Part) (others : List ℕ) : Prop where
  accounts : Accounts n g' s'
  plays : Plays g' t s'.buffer p others
  spares : ∀ u, u ≠ t → Spares g g' u b s'.buffer

section Turns

variable {n : ℕ} {g : Ledger τ} {t : Option τ} {s : Traced α} {others : List ℕ}

theorem Accounts.value_place (hs : Accounts n g s) {c : Cell ℕ (Option τ)} (hc : c ∈ g.cells) :
    g.place c.value = some .queue ∨
      (∃ u, c.stage = .reserved u ∧ g.place c.value = some (.thread u)) ∨
      ∃ u, g.taker = some (u, c.value) ∧ g.place c.value = some (.thread u) := by
  obtain ⟨i, stage⟩ := c
  cases stage with
  | written => exact .inl ((hs.queue i).mp (List.mem_filterMap.mpr ⟨_, hc, rfl⟩))
  | reserved u => exact .inr (.inl ⟨u, rfl, hs.reserved i u hc⟩)
  | cleared =>
    obtain ⟨j, hj⟩ := List.mem_iff_getElem?.mp hc
    obtain ⟨-, htaker⟩ := (hs.cleared j i).mp hj
    obtain ⟨⟨u, v⟩, hu, rfl⟩ := Option.map_eq_some_iff.mp htaker
    exact .inr (.inr ⟨u, hu, hs.taker u v hu⟩)

/-- What a thread has in hand is in no cell, when it has reserved and cleared none. -/
theorem Plays.not_mem_cells {p : Part} (hs : Accounts n g s) (h : Plays g t s.buffer p others)
    (hslot : p.slot = none) (hcleared : p.cleared = none) {i : ℕ} (hi : i ∈ p.item ++ others) :
    i ∉ g.cells.map Cell.value := by
  intro hmem
  obtain ⟨c, hc, rfl⟩ := List.mem_map.mp hmem
  have hplace := (h.mem_iff c.value).mp hi
  rcases hs.value_place hc with hq | ⟨u, hstage, hu⟩ | ⟨u, htaker, hu⟩
  · rw [hplace] at hq
    cases hq
  · rw [hplace] at hu
    cases hu
    obtain ⟨j, hj⟩ := List.mem_iff_getElem?.mp hc
    obtain ⟨v, stage⟩ := c
    obtain rfl : stage = .reserved t := hstage
    have hpending := h.fills.only j v hj
    rw [hslot] at hpending
    cases hpending
  · rw [hplace] at hu
    cases hu
    have hp := (h.taker c.value).mpr htaker
    rw [hcleared] at hp
    cases hp

theorem mem_values {cells : List (Cell ℕ (Option τ))} {i : ℕ}
    (h : i ∈ cells.filterMap Cell.content) : i ∈ cells.map Cell.value := by
  obtain ⟨⟨v, stage⟩, hc, hv⟩ := List.mem_filterMap.mp h
  cases stage with
  | written =>
    cases hv
    exact List.mem_map_of_mem hc
  | reserved | cleared => cases hv

theorem Accounts.taker_mem (hs : Accounts n g s) {u : Option τ} {i : ℕ}
    (h : g.taker = some (u, i)) : i ∈ g.cells.map Cell.value := by
  have ho : g.taker.map Prod.snd = some i := by rw [h, Option.map_some]
  have hcell := (hs.cleared 0 i).mpr ⟨rfl, ho⟩
  exact List.mem_map.mpr ⟨_, List.mem_of_getElem? hcell, rfl⟩

theorem Accounts.free_not_mem_cells (hs : Accounts n g s) {i : ℕ} (hi : g.place i = some .pool) :
    i ∉ g.cells.map Cell.value := by
  intro hmem
  obtain ⟨c, hc, rfl⟩ := List.mem_map.mp hmem
  rcases hs.value_place hc with hq | ⟨u, -, hu⟩ | ⟨u, -, hu⟩
  · rw [hi] at hq
    cases hq
  · rw [hi] at hu
    cases hu
  · rw [hi] at hu
    cases hu

/-! ### A turn at the pool -/

/-- An item that is in no cell changes hands between a thread and the pool. -/
theorem Accounts.exchanged (hs : Accounts n g s) {i : ℕ} {place : ℕ → Option (Place τ)}
    {free : List ℕ} {p : TsPool} (hi : i ∉ g.cells.map Cell.value) (hin : i < n)
    (hplace : place i ≠ none ∧ place i ≠ some .queue) (hother : ∀ j, j ≠ i → place j = g.place j)
    (hl : p.Listed free) (hc : p.capacity = s.buffer.mpool.capacity)
    (hfree : ∀ j, j ∈ free ↔ place j = some .pool) :
    Accounts n { g with free, place } { s with buffer := s.buffer.withPool p } := by
  have hkept (j : ℕ) (hj : j ∈ g.cells.map Cell.value) : place j = g.place j := by
    apply hother
    rintro rfl
    exact hi hj
  constructor
  · exact hs.stored
  · exact hl
  · exact hc.trans hs.capacity
  · exact hs.values
  · exact hfree
  · intro j
    show _ ↔ place j = some .queue
    by_cases hji : j = i
    · subst hji
      apply iff_of_false
      · exact fun hj => hi (mem_values hj)
      · exact hplace.2
    · rw [hother j hji]
      exact hs.queue j
  · intro j u hj
    exact (hkept j (List.mem_map.mpr ⟨_, hj, rfl⟩)).trans (hs.reserved j u hj)
  · exact hs.cleared
  · intro u j hj
    exact (hkept j (hs.taker_mem hj)).trans (hs.taker u j hj)
  · intro j
    show place j ≠ none ↔ j < n
    by_cases hji : j = i
    · subst hji
      exact iff_of_true hplace.1 hin
    · rw [hother j hji]
      exact hs.inside j
  · exact hs.trace

theorem Accounts.withPool (hs : Accounts n g s) {p : TsPool} (hl : p.Listed g.free)
    (hc : p.capacity = s.buffer.mpool.capacity) :
    Accounts n g { s with buffer := s.buffer.withPool p } :=
  ⟨hs.stored, hl, hc.trans hs.capacity, hs.values, hs.pool, hs.queue, hs.reserved, hs.cleared,
    hs.taker, hs.inside, hs.trace⟩

theorem Spares.withPool {u : Option τ} {b : BufferLockFree α} {p : TsPool} {own : ℕ → Prop}
    {free : List ℕ} {place : ℕ → Option (Place τ)} (he : Evolves b.mpool p own)
    (ho : ∀ i, g.place i = some (.thread u) → own i)
    (hplace : ∀ i, place i = some (.thread u) ↔ g.place i = some (.thread u)) :
    Spares g { g with free, place } u b (b.withPool p) :=
  ⟨hplace, ⟨0, .refl u _ _⟩, fun _ => Iff.rfl, rfl, he.mono ho, rfl, fun _ _ _ hd => hd⟩

theorem Traced.after_quiet {p : Part} (hput : p.puts s.buffer.bufs = [])
    (htake : p.takes s.buffer.bufs = []) (b : BufferLockFree α) :
    s.after p b = { s with buffer := b } := by
  rw [Traced.after, hput, htake, List.map_nil, List.append_nil, List.append_nil]

/-- A thread in `allocate` is given the first free item, or goes on. -/
theorem allocate_lands {a : Allocating} (hs : Accounts n g s)
    (h : Plays g t s.buffer (.allocating a) others) (ht : a.timely s.buffer.mpool) :
    let r := allocate a s.buffer.mpool
    ∃ g', Lands n g g' t s.buffer (s.after (.allocating a) (s.buffer.withPool r.1))
      (r.2.elim .allocating fun _ => .rest) (r.2.elim (fun _ => []) Option.toList ++ others) := by
  intro r
  rw [Traced.after_quiet rfl rfl]
  obtain ⟨he, hr⟩ := TsPool.allocate_turn hs.listed h.knows ht fun _ => True
  have hstay (hp : r.1 = s.buffer.mpool) (p : Part) (hitem : p.item = []) (hslot : p.slot = none)
      (hcleared : p.cleared = none) (hk : p.Knows g t (s.buffer.withPool r.1)) :
      Lands n g g t s.buffer { s with buffer := s.buffer.withPool r.1 } p others := by
    constructor
    · rw [hp]
      exact hs.withPool hs.listed rfl
    · constructor
      · rw [hitem]
        exact h.nodup
      · rw [hitem]
        exact h.mem_iff
      · rw [hslot]
        exact h.fills
      · rw [hcleared]
        exact h.taker
      · exact hk
    · exact fun u _ => .withPool he (fun _ _ => trivial) fun _ => Iff.rfl
  cases hout : r.2 with
  | inl a' =>
    rw [hout] at hr
    obtain ⟨hp, hk⟩ := hr
    refine ⟨g, hstay hp (.allocating a') rfl rfl rfl ?_⟩
    show Allocating.Knows r.1 a'
    rw [hp]
    exact hk
  | inr o =>
    rw [hout] at hr
    cases o with
    | none => exact ⟨g, hstay hr.1 .rest rfl rfl rfl trivial⟩
    | some i =>
      obtain ⟨free', hfree, hl⟩ := hr
      have hmem : i ∈ g.free := hfree ▸ List.mem_cons_self
      have hpool : g.place i = some .pool := (hs.pool i).mp hmem
      have hother (j : ℕ) (hj : j ≠ i) :
          Function.update g.place i (some (.thread t)) j = g.place j := Function.update_of_ne hj ..
      have hself : Function.update g.place i (some (.thread t)) i = some (.thread t) :=
        Function.update_self ..
      have hnot : i ∉ others := by
        intro hi
        have hplace := (h.mem_iff i).mp hi
        rw [hpool] at hplace
        cases hplace
      refine ⟨{ g with free := free', place := Function.update g.place i (some (.thread t)) },
        ?_, ?_, fun u hu => ?_⟩
      · apply hs.exchanged (hs.free_not_mem_cells hpool) ((hs.inside i).mp (by simp [hpool])) _ hother
          hl he.capacity
        · intro j
          by_cases hji : j = i
          · subst hji
            rw [hself]
            apply iff_of_false _ nofun
            have hnodup := hs.listed.nodup
            rw [hfree] at hnodup
            exact (List.nodup_cons.mp hnodup).1
          · rw [hother j hji, ← hs.pool j, hfree, List.mem_cons]
            simp [hji]
        · simp
      · refine ⟨List.nodup_cons.mpr ⟨hnot, h.nodup⟩, fun j => ?_, h.fills, h.taker, trivial⟩
        show j ∈ i :: others ↔ Function.update g.place i (some (.thread t)) j = some (.thread t)
        by_cases hji : j = i
        · subst hji
          exact iff_of_true List.mem_cons_self hself
        · rw [hother j hji, ← h.mem_iff j, List.mem_cons]
          simp [hji, Part.item]
      · apply Spares.withPool he (fun _ _ => trivial)
        intro j
        by_cases hji : j = i
        · subst hji
          rw [hself, hpool]
          apply iff_of_false _ nofun
          rintro ⟨⟩
          exact hu rfl
        · rw [hother j hji]

/-- A thread in `deallocate` gives its item back to the pool, or goes on. -/
theorem deallocate_lands {d : Deallocating} (hs : Accounts n g s)
    (h : Plays g t s.buffer (.deallocating d) others) (ht : d.timely s.buffer.mpool) :
    let r := deallocate d s.buffer.mpool
    ∃ g', Lands n g g' t s.buffer (s.after (.deallocating d) (s.buffer.withPool r.1))
      (r.2.elim .deallocating fun _ => .rest) others := by
  intro r
  rw [Traced.after_quiet rfl rfl]
  have hplace : g.place d.item = some (.thread t) := (h.mem_iff d.item).mp List.mem_cons_self
  have hin : d.item < n := (hs.inside d.item).mp (by simp [hplace])
  have hfree : d.item ∉ g.free := by
    intro hf
    have hpool := (hs.pool d.item).mp hf
    rw [hplace] at hpool
    cases hpool
  obtain ⟨hnot, hnodup⟩ := List.nodup_cons.mp h.nodup
  have hothers (u : Option τ) (hu : u ≠ t) (i : ℕ) (hi : g.place i = some (.thread u)) :
      i ≠ d.item := by
    rintro rfl
    rw [hplace] at hi
    cases hi
    exact hu rfl
  obtain ⟨he, hr⟩ := TsPool.deallocate_turn hs.listed h.knows ht hfree (hs.capacity ▸ hin)
  cases hout : r.2 with
  | inl d' =>
    rw [hout] at hr
    obtain ⟨hl, hk, hitem⟩ := hr
    refine ⟨g, hs.withPool hl he.capacity, ⟨?_, ?_, h.fills, h.taker, hk⟩, fun u hu => ?_⟩
    · show (d'.item :: others).Nodup
      rw [hitem]
      exact h.nodup
    · show ∀ i, i ∈ d'.item :: others ↔ _
      rw [hitem]
      exact h.mem_iff
    · exact .withPool he (hothers u hu) fun _ => Iff.rfl
  | inr =>
    rw [hout] at hr
    have hl : r.1.Listed (d.item :: g.free) := hr
    have hother (j : ℕ) (hj : j ≠ d.item) :
        Function.update g.place d.item (some .pool) j = g.place j := Function.update_of_ne hj ..
    have hself : Function.update g.place d.item (some Place.pool) d.item = some .pool :=
      Function.update_self ..
    refine ⟨{ g with free := d.item :: g.free, place := Function.update g.place d.item (some .pool) },
      ?_, ?_, fun u hu => ?_⟩
    · apply hs.exchanged (h.not_mem_cells hs rfl rfl List.mem_cons_self) hin _ hother hl he.capacity
      · intro j
        by_cases hji : j = d.item
        · subst hji
          exact iff_of_true List.mem_cons_self hself
        · rw [hother j hji, ← hs.pool j, List.mem_cons]
          simp [hji]
      · simp
    · refine ⟨hnodup, fun j => ?_, h.fills, h.taker, trivial⟩
      show j ∈ others ↔ Function.update g.place d.item (some .pool) j = some (.thread t)
      by_cases hji : j = d.item
      · subst hji
        rw [hself]
        exact iff_of_false hnot nofun
      · rw [hother j hji, ← h.mem_iff j]
        simp [hji, Part.item]
    · apply Spares.withPool he (hothers u hu)
      intro j
      by_cases hji : j = d.item
      · subst hji
        rw [hself, hplace]
        apply iff_of_false nofun
        rintro ⟨⟩
        exact hu rfl
      · rw [hother j hji]

/-! ### A turn at the queue -/

/-- What a thread in `enqueue` has in hand afterwards: the item, until it is written. -/
def enqueuedItem (e : Enqueuing ℕ) : Enqueuing ℕ ⊕ Bool → List ℕ
  | .inr false => [e.value]
  | .inl _ | .inr true => []

theorem reserved_value (e : Enqueuing ℕ) (q : AtomicMWSRQueue ℕ) :
    AtomicMWSRQueue.reservedBy e (enqueue e q).2 = [] ∨
      AtomicMWSRQueue.reservedBy e (enqueue e q).2 = [e.value] ∧ e.pending = none := by
  cases e with
  | load value | write loc value => exact .inl rfl
  | cas oldval value =>
    simp only [enqueue]
    split
    · exact .inr ⟨rfl, rfl⟩
    · exact .inl rfl

theorem mem_written {e : Enqueuing ℕ} {i : ℕ} (h : i ∈ AtomicMWSRQueue.writtenBy e) :
    i = e.value := by
  cases e with
  | write loc value => exact List.mem_singleton.mp h
  | load | cas => cases h

/-- A call goes on with the same item, and it is over when the item is written. -/
theorem enqueue_next (e : Enqueuing ℕ) (q : AtomicMWSRQueue ℕ) :
    match (enqueue e q).2 with
    | .inl e' => e'.value = e.value ∧ AtomicMWSRQueue.writtenBy e = []
    | .inr false => AtomicMWSRQueue.writtenBy e = []
    | .inr true => AtomicMWSRQueue.writtenBy e = [e.value] := by
  cases e with
  | load value =>
    by_cases hf : q.indxes.full q.size
    · rw [enqueue, if_pos hf]
      rfl
    · rw [enqueue, if_neg hf]
      exact ⟨rfl, rfl⟩
  | cas oldval value =>
    by_cases he : q.indxes = oldval
    · rw [enqueue, if_pos he]
      exact ⟨rfl, rfl⟩
    · rw [enqueue, if_neg he]
      exact ⟨rfl, rfl⟩
  | write loc value => rfl

/-- The places after a turn of `enqueue`. -/
def placeWritten (place : ℕ → Option (Place τ)) (e : Enqueuing ℕ) (i : ℕ) : Option (Place τ) :=
  if i ∈ AtomicMWSRQueue.writtenBy e then some .queue else place i

theorem placeWritten_other {place : ℕ → Option (Place τ)} {e : Enqueuing ℕ} {i : ℕ}
    (h : i ≠ e.value) : placeWritten place e i = place i :=
  if_neg fun hi => h (mem_written hi)

theorem placeWritten_quiet (place : ℕ → Option (Place τ)) {e : Enqueuing ℕ}
    (h : AtomicMWSRQueue.writtenBy e = []) : placeWritten place e = place := by
  funext i
  apply if_neg
  rw [h]
  exact List.not_mem_nil

section Enqueue

variable {e : Enqueuing ℕ} {q : AtomicMWSRQueue ℕ} {cells : List (Cell ℕ (Option τ))}

theorem Accounts.enqueued (hs : Accounts n g s) (h : Plays g t s.buffer (.enqueuing e) others)
    (he : AtomicMWSRQueue.Enqueued t s.buffer.bufs q g.cells cells (enqueue e s.buffer.bufs).2)
    (hvalues : cells.map Cell.value = g.cells.map Cell.value ++
      AtomicMWSRQueue.reservedBy e (enqueue e s.buffer.bufs).2)
    (hcontents : (cells.filterMap Cell.content).Perm
      (AtomicMWSRQueue.writtenBy e ++ g.cells.filterMap Cell.content)) :
    Accounts n { g with cells, place := placeWritten g.place e }
      (s.after (.enqueuing e) (s.buffer.withBufs q)) := by
  have hmine : g.place e.value = some (.thread t) := (h.mem_iff e.value).mp List.mem_cons_self
  constructor
  · exact he.stored
  · exact hs.listed
  · exact hs.capacity
  · show (cells.map Cell.value).Nodup
    rw [hvalues]
    rcases reserved_value e s.buffer.bufs with hnone | ⟨hone, hpending⟩
    · rw [hnone, List.append_nil]
      exact hs.values
    · rw [hone, List.nodup_append]
      refine ⟨hs.values, List.nodup_singleton _, ?_⟩
      rintro i hi j hj rfl
      obtain rfl := List.mem_singleton.mp hj
      exact h.not_mem_cells hs hpending rfl List.mem_cons_self hi
  · intro i
    show _ ↔ placeWritten g.place e i = some .pool
    by_cases hi : i ∈ AtomicMWSRQueue.writtenBy e
    · rw [placeWritten, if_pos hi, mem_written hi]
      apply iff_of_false _ nofun
      intro hfree
      have hpool := (hs.pool e.value).mp hfree
      rw [hmine] at hpool
      cases hpool
    · rw [placeWritten, if_neg hi]
      exact hs.pool i
  · intro i
    show _ ↔ placeWritten g.place e i = some .queue
    rw [hcontents.mem_iff, List.mem_append]
    by_cases hi : i ∈ AtomicMWSRQueue.writtenBy e
    · rw [placeWritten, if_pos hi]
      exact iff_of_true (.inl hi) rfl
    · rw [placeWritten, if_neg hi, ← hs.queue i]
      exact or_iff_right hi
  · intro i u hi
    show placeWritten g.place e i = some (.thread u)
    obtain ⟨j, hj⟩ := List.mem_iff_getElem?.mp hi
    by_cases hu : u = t
    · subst hu
      have hpending := he.fills.only j i hj
      have hnext := enqueue_next e s.buffer.bufs
      cases hr : (enqueue e s.buffer.bufs).2 with
      | inl e' =>
        rw [hr] at hpending hnext
        obtain rfl : i = e.value := by
          rw [← hnext.1]
          cases e' with
          | write loc value =>
            cases hpending
            rfl
          | load | cas => cases hpending
        rw [placeWritten_quiet _ hnext.2]
        exact hmine
      | inr done =>
        rw [hr] at hpending
        cases hpending
    · have hold := ((he.others u hu).kept j i).mp hj
      have hplace := hs.reserved i u (List.mem_of_getElem? hold)
      rw [placeWritten_other, hplace]
      rintro rfl
      rw [hmine] at hplace
      cases hplace
      exact hu rfl
  · exact he.clears hs.cleared
  · intro u i hi
    show placeWritten g.place e i = some (.thread u)
    have hplace := hs.taker u i hi
    rw [placeWritten_other, hplace]
    rintro rfl
    rw [hmine] at hplace
    cases hplace
    cases (h.taker e.value).mpr hi
  · intro i
    show placeWritten g.place e i ≠ none ↔ i < n
    by_cases hi : i ∈ AtomicMWSRQueue.writtenBy e
    · rw [placeWritten, if_pos hi, mem_written hi]
      apply iff_of_true nofun
      apply (hs.inside e.value).mp
      rw [hmine]
      exact nofun
    · rw [placeWritten, if_neg hi]
      exact hs.inside i
  · show s.put ++ _ = (s.taken ++ []) ++ (cells.map Cell.value).map s.buffer.value
    rw [hs.trace, hvalues, List.append_nil, List.map_append, List.append_assoc]
    rfl

/-- A thread in `enqueue` reserves a slot for its item, writes the slot, and goes on until then. -/
theorem enqueue_lands (hs : Accounts n g s) (h : Plays g t s.buffer (.enqueuing e) others) :
    let r := enqueue e s.buffer.bufs
    ∃ g', Lands n g g' t s.buffer (s.after (.enqueuing e) (s.buffer.withBufs r.1))
      (r.2.elim .enqueuing fun _ => .rest) (enqueuedItem e r.2 ++ others) := by
  intro r
  obtain ⟨cells, he, hvalues, hcontents⟩ :=
    AtomicMWSRQueue.enqueue_turn hs.stored h.fills h.knows
  have hmine : g.place e.value = some (.thread t) := (h.mem_iff e.value).mp List.mem_cons_self
  have hnext := enqueue_next e s.buffer.bufs
  have hfills := he.fills
  refine ⟨{ g with cells, place := placeWritten g.place e }, hs.enqueued h he hvalues hcontents, ?_,
    fun u hu => ?_⟩
  · cases hr : r.2 with
    | inl e' =>
      rw [hr] at hnext hfills
      have hplace := placeWritten_quiet g.place hnext.2
      refine ⟨?_, ?_, hfills, h.taker, he.knows e' hr⟩
      · show (e'.value :: others).Nodup
        rw [hnext.1]
        exact h.nodup
      · show ∀ i, i ∈ e'.value :: others ↔ placeWritten g.place e i = _
        rw [hnext.1, hplace]
        exact h.mem_iff
    | inr done =>
      rw [hr] at hnext hfills
      cases done with
      | false =>
        have hplace := placeWritten_quiet g.place hnext
        refine ⟨h.nodup, ?_, hfills, h.taker, trivial⟩
        show ∀ i, i ∈ e.value :: others ↔ placeWritten g.place e i = _
        rw [hplace]
        exact h.mem_iff
      | true =>
        obtain ⟨hnot, hnodup⟩ := List.nodup_cons.mp h.nodup
        refine ⟨hnodup, fun i => ?_, hfills, h.taker, trivial⟩
        show i ∈ others ↔ placeWritten g.place e i = some (.thread t)
        by_cases hi : i = e.value
        · subst hi
          rw [placeWritten, hnext, if_pos (List.mem_singleton_self _)]
          exact iff_of_false hnot nofun
        · rw [placeWritten_other hi, ← h.mem_iff i]
          simp [hi, Part.item]
  · constructor
    · intro i
      show placeWritten g.place e i = _ ↔ _
      by_cases hi : i ∈ AtomicMWSRQueue.writtenBy e
      · rw [placeWritten, if_pos hi, mem_written hi, hmine]
        apply iff_of_false nofun
        rintro ⟨⟩
        exact hu rfl
      · rw [placeWritten, if_neg hi]
    · exact ⟨0, he.others u hu⟩
    · exact fun _ => Iff.rfl
    · exact he.size
    · exact .refl _ _
    · rfl
    · exact fun _ _ d hd => he.knows_reader hd

end Enqueue

/-- The slot that is going to be cleared still holds what was read, and it is the first one. -/
def current (q : AtomicMWSRQueue ℕ) : Dequeuing ℕ → Prop
  | .clear oldval result => q.indxes.r = oldval.r ∧ q.buf oldval.r = some result
  | .load | .read _ | .reload _ | .cas .. => True

theorem found_of_current {q : AtomicMWSRQueue ℕ} {cells : List (Cell ℕ (Option τ))} {d : Dequeuing ℕ}
    (hq : q.Stored cells) (h : current q d) : d.Found q cells := by
  cases d with
  | clear oldval result =>
    obtain ⟨hr, hb⟩ := h
    have hcontent := hq.content 0 (Nat.zero_lt_of_lt hq.read)
    rw [AtomicMWSRQueue.slot, Library.Ring.slot_zero hq.read, hr, hb] at hcontent
    exact ⟨hr.symm, AtomicMWSRQueue.first_written hcontent⟩
  | load | read | reload | cas => trivial

/-- A call has in hand what it had before, and what it clears. -/
theorem dequeue_pending (d : Dequeuing ℕ) (q : AtomicMWSRQueue ℕ) :
    ((dequeue d q).2.elim Dequeuing.pending id).toList =
      AtomicMWSRQueue.clearedBy d ++ d.pending.toList := by
  cases d with
  | load | clear | reload => rfl
  | read oldval =>
    rw [dequeue]
    cases q.buf oldval.r with
    | none | some => rfl
  | cas oldval result =>
    by_cases he : q.indxes = oldval
    · rw [dequeue, if_pos he]
      rfl
    · rw [dequeue, if_neg he]
      rfl

/-- Who has cleared the first slot, after a turn of `dequeue`. -/
def takerAfter (t : Option τ) (taker : Option (Option τ × ℕ)) :
    Dequeuing ℕ → Dequeuing ℕ ⊕ Option ℕ → Option (Option τ × ℕ)
  | .clear _ result, _ => some (t, result)
  | .cas .., .inr _ => none
  | _, _ => taker

theorem takerAfter_snd (t : Option τ) (taker : Option (Option τ × ℕ)) (d : Dequeuing ℕ)
    (r : Dequeuing ℕ ⊕ Option ℕ) : (takerAfter t taker d r).map Prod.snd =
      AtomicMWSRQueue.clearedAfter (taker.map Prod.snd) d r := by
  cases d <;> cases r <;> rfl

/-- The places after a turn of `dequeue`. -/
def placeCleared (place : ℕ → Option (Place τ)) (t : Option τ) (d : Dequeuing ℕ) (i : ℕ) :
    Option (Place τ) :=
  if i ∈ AtomicMWSRQueue.clearedBy d then some (.thread t) else place i

theorem contents_sublist (cells : List (Cell ℕ (Option τ))) :
    (cells.filterMap Cell.content).Sublist (cells.map Cell.value) := by
  induction cells with
  | nil => exact .slnil
  | cons c cells ih =>
    obtain ⟨i, stage⟩ := c
    cases stage with
    | written => exact ih.cons_cons i
    | reserved u => exact ih.cons i
    | cleared => exact ih.cons i

section Dequeue

variable {d : Dequeuing ℕ} {q : AtomicMWSRQueue ℕ} {cells : List (Cell ℕ (Option τ))}

/-- What a turn clears was in the queue. -/
theorem Accounts.cleared_queue (hs : Accounts n g s) (hf : d.Found s.buffer.bufs g.cells) {i : ℕ}
    (hi : i ∈ AtomicMWSRQueue.clearedBy d) : g.place i = some .queue ∧ g.taker = none := by
  cases d with
  | clear oldval result =>
    obtain rfl := List.mem_singleton.mp hi
    have hcell := hf.2
    constructor
    · exact (hs.queue i).mp (List.mem_filterMap.mpr ⟨_, List.mem_of_getElem? hcell, rfl⟩)
    · cases ht : g.taker with
      | none => rfl
      | some x =>
        have hclear := (hs.cleared 0 x.2).mpr ⟨rfl, by rw [ht]; rfl⟩
        rw [hcell] at hclear
        cases hclear
  | load | read | reload | cas => cases hi

theorem Accounts.dequeued (hs : Accounts n g s) (hf : d.Found s.buffer.bufs g.cells)
    (hd : AtomicMWSRQueue.Dequeued (g.taker.map Prod.snd) s.buffer.bufs q g.cells cells d
      (dequeue d s.buffer.bufs).2) (t : Option τ) :
    Accounts n
      { g with
        cells
        taker := takerAfter t g.taker d (dequeue d s.buffer.bufs).2
        place := placeCleared g.place t d }
      (s.after (.dequeuing d) (s.buffer.withBufs q)) := by
  have hnodup : (AtomicMWSRQueue.clearedBy d ++ cells.filterMap Cell.content).Nodup :=
    hd.contents ▸ hs.values.sublist (contents_sublist g.cells)
  have hsame (i : ℕ) (P : Place τ) (hi : g.place i = some P) (hP : P ≠ .queue) :
      placeCleared g.place t d i = some P := by
    rw [placeCleared, if_neg, hi]
    intro hmem
    rw [(hs.cleared_queue hf hmem).1] at hi
    exact hP (Option.some.inj hi).symm
  constructor
  · exact hd.stored
  · exact hs.listed
  · exact hs.capacity
  · have hvalues := hs.values
    rw [hd.values] at hvalues
    exact (List.nodup_append.mp hvalues).2.1
  · intro i
    show i ∈ g.free ↔ placeCleared g.place t d i = some .pool
    rw [hs.pool i]
    constructor
    · intro hi
      exact hsame i _ hi nofun
    · intro hi
      rw [placeCleared] at hi
      split at hi
      · cases hi
      · exact hi
  · intro i
    show i ∈ cells.filterMap Cell.content ↔ placeCleared g.place t d i = some .queue
    have hqueue := hs.queue i
    rw [hd.contents, List.mem_append] at hqueue
    by_cases hi : i ∈ AtomicMWSRQueue.clearedBy d
    · rw [placeCleared, if_pos hi]
      apply iff_of_false _ nofun
      intro hmem
      exact (List.nodup_append.mp hnodup).2.2 i hi i hmem rfl
    · rw [placeCleared, if_neg hi, ← hqueue]
      exact (or_iff_right hi).symm
  · intro i u hi
    obtain ⟨j, hj⟩ := List.mem_iff_getElem?.mp hi
    obtain ⟨k, hmoves⟩ := hd.others
    have hold := ((hmoves u).kept j i).mp hj
    exact hsame i _ (hs.reserved i u (List.mem_of_getElem? hold)) nofun
  · show Clears cells (Option.map Prod.snd (takerAfter t g.taker d (dequeue d s.buffer.bufs).2))
    rw [takerAfter_snd]
    exact hd.clears
  · intro u i hi
    show placeCleared g.place t d i = some (.thread u)
    cases d with
    | clear oldval result =>
      cases hi
      exact if_pos (List.mem_singleton_self i)
    | load | read | reload => exact hsame i _ (hs.taker u i hi) nofun
    | cas oldval result =>
      cases hr : (dequeue (.cas oldval result) s.buffer.bufs).2 with
      | inl d' =>
        simp only [hr, takerAfter] at hi
        exact hsame i _ (hs.taker u i hi) nofun
      | inr o =>
        simp only [hr, takerAfter] at hi
        cases hi
  · intro i
    show placeCleared g.place t d i ≠ none ↔ i < n
    by_cases hi : i ∈ AtomicMWSRQueue.clearedBy d
    · rw [placeCleared, if_pos hi]
      apply iff_of_true nofun
      apply (hs.inside i).mp
      rw [(hs.cleared_queue hf hi).1]
      exact nofun
    · rw [placeCleared, if_neg hi]
      exact hs.inside i
  · show s.put ++ [] = _
    rw [List.append_nil, hs.trace, hd.values, List.map_append, ← List.append_assoc]
    rfl

/-- What a thread has cleared, after a turn of `dequeue`. -/
theorem Plays.takerAfter_iff (h : Plays g t s.buffer (.dequeuing d) others) (i : ℕ) :
    ((dequeue d s.buffer.bufs).2.elim Part.dequeuing fun _ => Part.rest).cleared = some i ↔
      takerAfter t g.taker d (dequeue d s.buffer.bufs).2 = some (t, i) := by
  have htaker := h.taker i
  cases d with
  | load => exact htaker
  | read oldval =>
    cases hb : s.buffer.bufs.buf oldval.r with
    | none | some =>
      rw [dequeue, hb]
      exact htaker
  | clear oldval result =>
    show some result = some i ↔ some (t, result) = some (t, i)
    simp
  | reload result => exact htaker
  | cas oldval result =>
    by_cases he : s.buffer.bufs.indxes = oldval
    · rw [dequeue, if_pos he]
      exact iff_of_false (Option.some_ne_none i).symm (Option.some_ne_none (t, i)).symm
    · rw [dequeue, if_neg he]
      exact htaker

/-- A turn of `dequeue` does not concern what another thread has cleared. -/
theorem Plays.takerAfter_other (hs : Accounts n g s) (h : Plays g t s.buffer (.dequeuing d) others)
    (hf : d.Found s.buffer.bufs g.cells) {u : Option τ} (hu : u ≠ t) (i : ℕ) :
    takerAfter t g.taker d (dequeue d s.buffer.bufs).2 = some (u, i) ↔ g.taker = some (u, i) := by
  cases d with
  | load | read | reload => exact Iff.rfl
  | clear oldval result =>
    rw [(hs.cleared_queue hf (List.mem_singleton_self result)).2]
    apply iff_of_false _ (Option.some_ne_none _).symm
    rintro ⟨⟩
    exact hu rfl
  | cas oldval result =>
    have htaker : g.taker = some (t, result) := (h.taker result).mp rfl
    by_cases he : s.buffer.bufs.indxes = oldval
    · rw [dequeue, if_pos he, htaker]
      apply iff_of_false (Option.some_ne_none (u, i)).symm
      rintro ⟨⟩
      exact hu rfl
    · rw [dequeue, if_neg he]
      rfl

/-- A thread in `dequeue` clears the first slot, gives it up with its item in hand, and goes on until
then. -/
theorem dequeue_lands (hs : Accounts n g s) (h : Plays g t s.buffer (.dequeuing d) others)
    (hd : s.buffer.mcircular = true → current s.buffer.bufs d) :
    let r := dequeue d s.buffer.bufs
    ∃ g', Lands n g g' t s.buffer (s.after (.dequeuing d) (s.buffer.withBufs r.1))
      (r.2.elim .dequeuing fun _ => .rest) (r.2.elim (fun _ => []) Option.toList ++ others) := by
  intro r
  have hf : d.Found s.buffer.bufs g.cells := by
    cases hm : s.buffer.mcircular with
    | true => exact found_of_current hs.stored (hd hm)
    | false => exact (h.knows hm).2.found
  have hown : ∀ v, d.pending = some v → g.taker.map Prod.snd = some v := by
    intro v hv
    rw [(h.taker v).mp hv, Option.map_some]
  obtain ⟨cells, hdeq⟩ := AtomicMWSRQueue.dequeue_shared hs.stored hs.cleared hown hf
  refine ⟨_, hs.dequeued hf hdeq t, ?_, fun u hu => ?_⟩
  · have hitems : (r.2.elim Part.dequeuing fun _ => .rest).item ++
        (r.2.elim (fun _ => []) Option.toList ++ others) =
          AtomicMWSRQueue.clearedBy d ++ (d.pending.toList ++ others) := by
      have hpending := dequeue_pending d s.buffer.bufs
      rw [← List.append_assoc, ← List.append_assoc, ← hpending]
      cases hr : (dequeue d s.buffer.bufs).2 with
      | inl d' | inr o => simp [Part.item]
    constructor
    · rw [hitems, List.nodup_append]
      refine ⟨?_, h.nodup, ?_⟩
      · cases d <;> simp [AtomicMWSRQueue.clearedBy]
      · rintro i hi j hj rfl
        have hplace := (h.mem_iff i).mp hj
        rw [(hs.cleared_queue hf hi).1] at hplace
        cases hplace
    · intro i
      show _ ↔ placeCleared g.place t d i = some (.thread t)
      rw [hitems, List.mem_append]
      by_cases hi : i ∈ AtomicMWSRQueue.clearedBy d
      · rw [placeCleared, if_pos hi]
        exact iff_of_true (.inl hi) rfl
      · rw [placeCleared, if_neg hi, ← h.mem_iff i]
        exact or_iff_right hi
    · obtain ⟨k, hmoves⟩ := hdeq.others
      have hslot : (r.2.elim Part.dequeuing fun _ => .rest).slot = none := by
        cases r.2 <;> rfl
      rw [hslot]
      exact Fills.moves h.fills (hmoves t)
    · exact h.takerAfter_iff
    · cases hr : r.2 with
      | inl d' =>
        intro hm
        obtain ⟨ht, hk⟩ := h.knows hm
        exact ⟨ht, hdeq.knows hk d' hr⟩
      | inr o => trivial
  · constructor
    · intro i
      show placeCleared g.place t d i = some (.thread u) ↔ g.place i = some (.thread u)
      by_cases hi : i ∈ AtomicMWSRQueue.clearedBy d
      · rw [placeCleared, if_pos hi, (hs.cleared_queue hf hi).1]
        apply iff_of_false _ nofun
        rintro ⟨⟩
        exact hu rfl
      · rw [placeCleared, if_neg hi]
    · obtain ⟨k, hmoves⟩ := hdeq.others
      exact ⟨k, hmoves u⟩
    · exact h.takerAfter_other hs hf hu
    · exact hdeq.size
    · exact .refl _ _
    · rfl
    · intro hm hun
      exact absurd (hun.trans (h.knows hm).1.symm) hu

end Dequeue

/-! ### A turn of a thread -/

theorem Lands.refl {p : Part} (hs : Accounts n g s) (h : Plays g t s.buffer p others) :
    Lands n g g t s.buffer s p others :=
  ⟨hs, h, fun _ _ => .of_eq rfl rfl rfl⟩

/-- The next call to the queue or the pool begins with an item that is in hand. -/
theorem Plays.begin {b : BufferLockFree α} {p : Part} (h : Plays g t b .rest (p.item ++ others))
    (hslot : p.slot = none) (hcleared : p.cleared = none) (hk : p.Knows g t b) :
    Plays g t b p others := by
  constructor
  · exact h.nodup
  · exact h.mem_iff
  · rw [hslot]
    exact h.fills
  · rw [hcleared]
    exact h.taker
  · exact hk

theorem Lands.begin {g' : Ledger τ} {b : BufferLockFree α} {s' : Traced α} {p : Part}
    (h : Lands n g g' t b s' .rest (p.item ++ others)) (hslot : p.slot = none)
    (hcleared : p.cleared = none) (hk : p.Knows g' t s'.buffer) : Lands n g g' t b s' p others :=
  ⟨h.accounts, h.plays.begin hslot hcleared hk, h.spares⟩

/-- An item in hand is written. -/
theorem write_lands (hs : Accounts n g s) {mitem : ℕ} (h : Plays g t s.buffer .rest (mitem :: others))
    (item : α) : Lands n g g t s.buffer
      { s with buffer := { s.buffer with value := Function.update s.buffer.value mitem item } }
      .rest (mitem :: others) := by
  have hnot := h.not_mem_cells hs rfl rfl List.mem_cons_self
  have hvalues : (g.cells.map Cell.value).map (Function.update s.buffer.value mitem item) =
      (g.cells.map Cell.value).map s.buffer.value := by
    apply List.map_congr_left
    intro i hi
    apply Function.update_of_ne
    rintro rfl
    exact hnot hi
  constructor
  · refine ⟨hs.stored, hs.listed, hs.capacity, hs.values, hs.pool, hs.queue, hs.reserved, hs.cleared,
      hs.taker, hs.inside, ?_⟩
    show s.put = s.taken ++ _
    rw [hvalues]
    exact hs.trace
  · exact ⟨h.nodup, h.mem_iff, h.fills, h.taker, trivial⟩
  · exact fun u _ => .of_eq rfl rfl rfl

/-- Which threads are where in their calls, and for which item. -/
def Activity.Fits (t : Option τ) (b : BufferLockFree α) : Activity α → Prop
  | .pushing (.enqueue mitem e) => e.value = mitem
  | .pushing (.retry mitem _ e) => e.value = mitem ∧ b.mcircular = true
  | .pushing (.drop ..) | .pushing (.free ..) => b.mcircular = true
  | .popping _ => t = none
  | _ => True

theorem Activity.Fits.mode {b b' : BufferLockFree α} {a : Activity α} (h : a.Fits t b)
    (hb : b'.mcircular = b.mcircular) : a.Fits t b' := by
  cases a with
  | idle => trivial
  | popping e => exact h
  | pushing e =>
    cases e with
    | size | allocate | recycle | write | giveBack => trivial
    | enqueue => exact h
    | drop | free => exact hb.trans h
    | retry => exact ⟨h.1, hb.trans h.2⟩

/-- The shared state and the thread after its turn. -/
def Reaches (n : ℕ) (g : Ledger τ) (t : Option τ) (b : BufferLockFree α) (x : Traced α × User α) :
    Prop :=
  ∃ g', Lands n g g' t b x.1 x.2.activity.part (x.2.activity.others ++ x.2.kept) ∧
    x.2.activity.Fits t x.1.buffer

/-- Fewer updates of the head than the tag can count come between a load and a CAS. -/
def Part.timely (p : TsPool) : Part → Prop
  | .allocating a => a.timely p
  | .deallocating d => d.timely p
  | .rest | .enqueuing _ | .dequeuing _ => True

def Part.current (q : AtomicMWSRQueue ℕ) : Part → Prop
  | .dequeuing d => BufferLockFree.current q d
  | .rest | .enqueuing _ | .allocating _ | .deallocating _ => True

/-- The loop that makes room finds an item each time, once it has found one. -/
def Activity.recovers (q : AtomicMWSRQueue ℕ) : Activity α → Prop
  | .pushing (.drop _ (some _) (.read oldval)) => q.buf oldval.r ≠ none
  | _ => True

theorem dequeue_none {d : Dequeuing ℕ} {q : AtomicMWSRQueue ℕ} (h : (dequeue d q).2 = .inr none) :
    ∃ oldval, d = .read oldval ∧ q.buf oldval.r = none := by
  cases d with
  | load | clear | reload => cases h
  | read oldval =>
    cases hb : q.buf oldval.r with
    | none => exact ⟨oldval, rfl, hb⟩
    | some result =>
      rw [dequeue, hb] at h
      cases h
  | cas oldval result =>
    by_cases he : q.indxes = oldval
    · rw [dequeue, if_pos he] at h
      cases h
    · rw [dequeue, if_neg he] at h
      cases h

section Push

variable {kept : List ℕ}

theorem push_reaches {e : Pushing α} (hs : Accounts n g s)
    (h : Plays g t s.buffer e.part ((Activity.pushing e).others ++ kept))
    (hfits : (Activity.pushing e).Fits t s.buffer) (htimely : e.part.timely s.buffer.mpool)
    (hok : s.buffer.mcircular = true →
      e.part.current s.buffer.bufs ∧ (Activity.pushing e).recovers s.buffer.bufs) :
    Reaches n g t s.buffer (s.after e.part (push e s.buffer).1,
      (push e s.buffer).2.elim (fun e => ⟨.pushing e, kept⟩) fun _ => ⟨.idle, kept⟩) := by
  cases e with
  | size item =>
    have hquiet : s.after (Pushing.size item).part s.buffer = s := Traced.after_quiet rfl rfl _
    rw [push]
    split
    · rw [hquiet]
      exact ⟨g, .refl hs h, trivial⟩
    · rw [hquiet]
      exact ⟨g, (Lands.refl hs h).begin rfl rfl trivial, trivial⟩
  | allocate item a =>
    obtain ⟨g', hl⟩ := allocate_lands hs h htimely
    rw [push]
    generalize allocate a s.buffer.mpool = r at hl
    obtain ⟨p, a' | i⟩ := r
    · exact ⟨g', hl, trivial⟩
    · cases i with
      | some i => exact ⟨g', hl, trivial⟩
      | none =>
        simp only [within, allocated]
        cases hm : s.buffer.mcircular with
        | true =>
          rw [show (s.buffer.withPool p).mcircular = true from hm]
          refine ⟨g', hl.begin rfl rfl ?_, trivial⟩
          intro hnot
          exact absurd (hm.symm.trans hnot) nofun
        | false =>
          rw [show (s.buffer.withPool p).mcircular = false from hm]
          exact ⟨g', hl, trivial⟩
  | recycle item d =>
    obtain ⟨g', hl⟩ := dequeue_lands hs h fun hm => (hok hm).1
    rw [push]
    generalize dequeue d s.buffer.bufs = r at hl
    obtain ⟨q, d' | i⟩ := r
    · exact ⟨g', hl, trivial⟩
    · cases i with
      | some i => exact ⟨g', hl, trivial⟩
      | none => exact ⟨g', hl, trivial⟩
  | write item mitem =>
    have hquiet : s.after (Pushing.write item mitem).part
        { s.buffer with value := Function.update s.buffer.value mitem item } =
          { s with buffer := { s.buffer with value := Function.update s.buffer.value mitem item } } :=
      Traced.after_quiet rfl rfl _
    have hl := write_lands hs h item
    rw [push]
    simp only
    rw [hquiet]
    exact ⟨g, hl.begin rfl rfl trivial, rfl⟩
  | enqueue mitem e =>
    obtain rfl : e.value = mitem := hfits
    obtain ⟨g', hl⟩ := enqueue_lands hs h
    have hnext := enqueue_next e s.buffer.bufs
    rw [push]
    generalize enqueue e s.buffer.bufs = r at hl hnext
    obtain ⟨q, e' | done⟩ := r
    · exact ⟨g', hl, hnext.1⟩
    · cases done with
      | true => exact ⟨g', hl, trivial⟩
      | false =>
        simp only [within, enqueued]
        cases hm : s.buffer.mcircular with
        | true =>
          rw [show (s.buffer.withBufs q).mcircular = true from hm]
          refine ⟨g', hl.begin rfl rfl ?_, hm⟩
          intro hnot
          exact absurd (hm.symm.trans hnot) nofun
        | false =>
          rw [show (s.buffer.withBufs q).mcircular = false from hm]
          exact ⟨g', hl.begin rfl rfl trivial, trivial⟩
  | giveBack d =>
    obtain ⟨g', hl⟩ := deallocate_lands hs h htimely
    rw [push]
    generalize deallocate d s.buffer.mpool = r at hl
    obtain ⟨p, d' | _⟩ := r
    · exact ⟨g', hl, trivial⟩
    · exact ⟨g', hl, trivial⟩
  | drop mitem itmp d =>
    have hm : s.buffer.mcircular = true := hfits
    obtain ⟨hcurrent, hrecovers⟩ := hok hm
    obtain ⟨g', hl⟩ := dequeue_lands hs h fun _ => hcurrent
    have hnone : ∀ i, itmp = some i → (dequeue d s.buffer.bufs).2 ≠ .inr none := by
      rintro i rfl hd
      obtain ⟨oldval, rfl, hb⟩ := dequeue_none hd
      exact hrecovers hb
    rw [push]
    generalize dequeue d s.buffer.bufs = r at hl hnone
    obtain ⟨q, d' | i⟩ := r
    · exact ⟨g', hl, hm⟩
    · cases i with
      | some i => exact ⟨g', hl.begin rfl rfl trivial, hm⟩
      | none =>
        cases itmp with
        | some i => exact absurd rfl (hnone i rfl)
        | none => exact ⟨g', hl.begin rfl rfl trivial, rfl, hm⟩
  | free mitem itmp d =>
    obtain ⟨g', hl⟩ := deallocate_lands hs h htimely
    rw [push]
    generalize deallocate d s.buffer.mpool = r at hl
    obtain ⟨p, d' | _⟩ := r
    · exact ⟨g', hl, hfits⟩
    · exact ⟨g', hl.begin rfl rfl trivial, rfl, hfits⟩
  | retry mitem itmp e =>
    obtain ⟨rfl, hm⟩ : e.value = mitem ∧ s.buffer.mcircular = true := hfits
    obtain ⟨g', hl⟩ := enqueue_lands hs h
    have hnext := enqueue_next e s.buffer.bufs
    rw [push]
    generalize enqueue e s.buffer.bufs = r at hl hnext
    obtain ⟨q, e' | done⟩ := r
    · exact ⟨g', hl, hnext.1, hm⟩
    · cases done with
      | true => exact ⟨g', hl, trivial⟩
      | false =>
        refine ⟨g', hl.begin rfl rfl ?_, hm⟩
        intro hnot
        exact absurd (hm.symm.trans hnot) nofun

theorem pop_reaches {e : Popping α} (hs : Accounts n g s)
    (h : Plays g t s.buffer e.part ((Activity.popping e).others ++ kept)) (hfits : t = none)
    (htimely : e.part.timely s.buffer.mpool)
    (hok : s.buffer.mcircular = true → e.part.current s.buffer.bufs) :
    Reaches n g t s.buffer (s.after e.part (pop e s.buffer).1,
      (pop e s.buffer).2.elim (fun e => ⟨.popping e, kept⟩) (·.user kept)) := by
  cases e with
  | pop d =>
    obtain ⟨g', hl⟩ := dequeue_lands hs h hok
    rw [pop]
    generalize dequeue d s.buffer.bufs = r at hl
    obtain ⟨q, d' | i⟩ := r
    · exact ⟨g', hl, hfits⟩
    · cases i with
      | some i => exact ⟨g', hl, hfits⟩
      | none => exact ⟨g', hl, trivial⟩
  | popRead ipop =>
    have hquiet : s.after (Popping.popRead ipop : Popping α).part s.buffer = s :=
      Traced.after_quiet rfl rfl _
    rw [pop]
    simp only
    rw [hquiet]
    exact ⟨g, (Lands.refl hs h).begin rfl rfl trivial, hfits⟩
  | popFree item d =>
    obtain ⟨g', hl⟩ := deallocate_lands hs h htimely
    rw [pop]
    generalize deallocate d s.buffer.mpool = r at hl
    obtain ⟨p, d' | _⟩ := r
    · exact ⟨g', hl, hfits⟩
    · exact ⟨g', hl, trivial⟩
  | popWithoutRelease d =>
    obtain ⟨g', hl⟩ := dequeue_lands hs h hok
    rw [pop]
    generalize dequeue d s.buffer.bufs = r at hl
    obtain ⟨q, d' | i⟩ := r
    · exact ⟨g', hl, hfits⟩
    · cases i with
      | some i => exact ⟨g', hl, trivial⟩
      | none => exact ⟨g', hl, trivial⟩
  | release d =>
    obtain ⟨g', hl⟩ := deallocate_lands hs h htimely
    rw [pop]
    generalize deallocate d s.buffer.mpool = r at hl
    obtain ⟨p, d' | _⟩ := r
    · exact ⟨g', hl, hfits⟩
    · exact ⟨g', hl, trivial⟩
  | clear d =>
    obtain ⟨g', hl⟩ := dequeue_lands hs h hok
    rw [pop]
    generalize dequeue d s.buffer.bufs = r at hl
    obtain ⟨q, d' | i⟩ := r
    · exact ⟨g', hl, hfits⟩
    · cases i with
      | some i => exact ⟨g', hl.begin rfl rfl trivial, hfits⟩
      | none => exact ⟨g', hl, trivial⟩
  | clearFree d =>
    obtain ⟨g', hl⟩ := deallocate_lands hs h htimely
    rw [pop]
    generalize deallocate d s.buffer.mpool = r at hl
    obtain ⟨p, d' | _⟩ := r
    · exact ⟨g', hl, hfits⟩
    · exact ⟨g', hl.begin rfl rfl fun _ => ⟨hfits, trivial⟩, hfits⟩
  | popAll items d =>
    obtain ⟨g', hl⟩ := dequeue_lands hs h hok
    rw [pop]
    generalize dequeue d s.buffer.bufs = r at hl
    obtain ⟨q, d' | i⟩ := r
    · exact ⟨g', hl, hfits⟩
    · cases i with
      | some i => exact ⟨g', hl, hfits⟩
      | none => exact ⟨g', hl, trivial⟩
  | popAllRead items ipop =>
    have hquiet : s.after (Popping.popAllRead items ipop : Popping α).part s.buffer = s :=
      Traced.after_quiet rfl rfl _
    rw [pop]
    simp only
    rw [hquiet]
    exact ⟨g, (Lands.refl hs h).begin rfl rfl trivial, hfits⟩
  | popAllFree items d =>
    obtain ⟨g', hl⟩ := deallocate_lands hs h htimely
    rw [pop]
    generalize deallocate d s.buffer.mpool = r at hl
    obtain ⟨p, d' | _⟩ := r
    · exact ⟨g', hl, hfits⟩
    · exact ⟨g', hl.begin rfl rfl fun _ => ⟨hfits, trivial⟩, hfits⟩

end Push

theorem Plays.perm {b : BufferLockFree α} {p : Part} {others' : List ℕ}
    (h : Plays g t b p others) (hp : others.Perm others') : Plays g t b p others' := by
  constructor
  · exact (hp.append_left p.item).nodup_iff.mp h.nodup
  · exact fun i => ((hp.append_left p.item).mem_iff.symm).trans (h.mem_iff i)
  · exact h.fills
  · exact h.taker
  · exact h.knows

theorem begin_reaches (hs : Accounts n g s) {kept : List ℕ} (h : Plays g t s.buffer .rest kept)
    (o : Order α) : Reaches n g t s.buffer (s, begin t o kept) := by
  have hidle : Reaches n g t s.buffer (s, ⟨.idle, kept⟩) := ⟨g, .refl hs h, trivial⟩
  have hknows (b : BufferLockFree α) : (t = none) → (Part.dequeuing .load).Knows g t b :=
    fun ht _ => ⟨ht, trivial⟩
  cases o with
  | push item => exact ⟨g, .refl hs h, trivial⟩
  | pop =>
    cases t with
    | some t => exact hidle
    | none => exact ⟨g, (Lands.refl hs h).begin rfl rfl (hknows _ rfl), rfl⟩
  | popWithoutRelease =>
    cases t with
    | some t => exact hidle
    | none => exact ⟨g, (Lands.refl hs h).begin rfl rfl (hknows _ rfl), rfl⟩
  | clear =>
    cases t with
    | some t => exact hidle
    | none => exact ⟨g, (Lands.refl hs h).begin rfl rfl (hknows _ rfl), rfl⟩
  | popAll =>
    cases t with
    | some t => exact hidle
    | none => exact ⟨g, (Lands.refl hs h).begin rfl rfl (hknows _ rfl), rfl⟩
  | release item =>
    cases t with
    | some t => exact hidle
    | none =>
      by_cases hi : item ∈ kept
      · rw [begin, if_pos hi]
        have hperm := h.perm (kept.perm_cons_erase hi)
        exact ⟨g, (Lands.refl hs hperm).begin rfl rfl trivial, rfl⟩
      · rw [begin, if_neg hi]
        exact hidle

end Turns

/-! ### Runs -/

/-- No tag wraps; and in a circular buffer no thread clears a slot that another one has taken since,
and the loop that makes room frees no item twice. -/
def orderly (m : System (Traced α) (Option τ) (User α)) (e : Option τ × Order α) : Prop :=
  let b := m.shared.buffer
  let a := (m.locals e.1).activity
  a.part.timely b.mpool ∧
    (b.mcircular = true → a.part.current b.bufs ∧ a.recovers b.bufs)

instance (p : TsPool) (a : Part) : Decidable (a.timely p) :=
  match a with
  | .allocating a => inferInstanceAs (Decidable (a.timely p))
  | .deallocating d => inferInstanceAs (Decidable (d.timely p))
  | .rest | .enqueuing _ | .dequeuing _ => .isTrue trivial

instance (q : AtomicMWSRQueue ℕ) (a : Part) : Decidable (a.current q) :=
  match a with
  | .dequeuing (.clear ..) => inferInstanceAs (Decidable (_ ∧ _))
  | .dequeuing .load | .dequeuing (.read _) | .dequeuing (.reload _) | .dequeuing (.cas ..) =>
    .isTrue trivial
  | .rest | .enqueuing _ | .allocating _ | .deallocating _ => .isTrue trivial

instance (q : AtomicMWSRQueue ℕ) (a : Activity α) : Decidable (a.recovers q) := by
  unfold Activity.recovers
  split <;> infer_instance

instance (m : System (Traced α) (Option τ) (User α)) (e : Option τ × Order α) :
    Decidable (orderly m e) :=
  inferInstanceAs (Decidable (_ ∧ (_ → _)))

/-- The threads play their parts. -/
def Locals (g : Ledger τ) (t : Option τ) (s : Traced α) (u : User α) : Prop :=
  Plays g t s.buffer u.activity.part (u.activity.others ++ u.kept) ∧ u.activity.Fits t s.buffer

/-- The lists of items at a place. -/
def itemsAt (m : System (Traced α) (Option τ) (User α)) (free : List ℕ) : Place τ → List ℕ
  | .pool => free
  | .queue => m.shared.buffer.bufs.stored
  | .thread t => (m.locals t).held

theorem start_holds {n : ℕ} (hn : n ≤ 65534) (initialValue : α) (circular : Bool) :
    Holds (Accounts (n + 1)) Locals
      ⟨List.range (n + 1), [], none, fun i => if i < n + 1 then some .pool else none⟩
      (start n initialValue circular : System (Traced α) (Option τ) (User α)) := by
  constructor
  · constructor
    · exact AtomicMWSRQueue.create_stored hn
    · exact TsPool.create_listed (Nat.succ_pos n) (by omega)
    · rfl
    · exact List.nodup_nil
    · simp
    · simp
    · exact nofun
    · exact fun j v => iff_of_false nofun fun hj => nomatch hj.2
    · exact nofun
    · simp
    · rfl
  · intro t
    refine ⟨⟨List.nodup_nil, fun i => ?_, ⟨nofun, nofun⟩, fun i => iff_of_false nofun nofun, trivial⟩,
      trivial⟩
    apply iff_of_false List.not_mem_nil
    show ¬ (if i < n + 1 then some Place.pool else none) = some (.thread t)
    split <;> exact nofun

variable [DecidableEq τ]

theorem holds_step {n : ℕ} {g : Ledger τ} {m : System (Traced α) (Option τ) (User α)} {t : Option τ}
    {o : Order α} (h : Holds (Accounts n) Locals g m) (hok : orderly m (t, o)) :
    ∃ g', Holds (Accounts n) Locals g' (m.step turn (t, o)) := by
  obtain ⟨hplays, hfits⟩ := h.locals t
  obtain ⟨htimely, hcircular⟩ := hok
  have hreach : Reaches n g t m.shared.buffer (turn t o m.shared (m.locals t)) := by
    rw [turn]
    cases ha : (m.locals t).activity with
    | idle =>
      rw [ha] at hplays
      exact begin_reaches h.shared hplays o
    | pushing e =>
      simp only [ha] at hplays hfits htimely hcircular
      exact push_reaches h.shared hplays hfits htimely hcircular
    | popping e =>
      simp only [ha] at hplays hfits htimely hcircular
      exact pop_reaches h.shared hplays hfits htimely fun hm => (hcircular hm).1
  obtain ⟨g', hlands, hfits'⟩ := hreach
  refine ⟨g', .step hlands.accounts ⟨hlands.plays, hfits'⟩ fun u hu => ?_⟩
  have hspares := hlands.spares u hu
  exact ⟨(h.locals u).1.spared hspares, (h.locals u).2.mode hspares.mode⟩

/-- In every orderly run of any number of threads that push and one that pops: each item of the pool
is in exactly one place and only once there, and the values that were dequeued are the first ones
of those that were enqueued. -/
theorem one_place {n : ℕ} (hn : n ≤ 65534) (initialValue : α) (circular : Bool)
    {es : List (Option τ × Order α)}
    (hok : (start n initialValue circular : System (Traced α) (Option τ) (User α)).Schedule turn
      orderly es) :
    let m : System (Traced α) (Option τ) (User α) := (start n initialValue circular).run turn es
    ∃ free, Chain m.shared.buffer.mpool.next m.shared.buffer.mpool.head.index free ∧
      (∀ p, (itemsAt m free p).Nodup ∧ ∀ i ∈ itemsAt m free p, i < n + 1) ∧
      (∀ i, i < n + 1 → ∃! p, i ∈ itemsAt m free p) ∧ m.shared.taken <+: m.shared.put := by
  intro m
  obtain ⟨g, hm⟩ : ∃ g, Holds (Accounts (n + 1)) Locals g m :=
    holds_run (fun g m t o hg ho => holds_step hg ho) ⟨_, start_holds hn initialValue circular⟩ hok
  have hs := hm.shared
  have hstored := hs.stored.stored_eq
  have hplace (p : Place τ) (i : ℕ) : i ∈ itemsAt m g.free p ↔ g.place i = some p := by
    cases p with
    | pool => exact hs.pool i
    | queue =>
      show i ∈ m.shared.buffer.bufs.stored ↔ _
      rw [hstored]
      exact hs.queue i
    | thread t => exact (hm.locals t).1.mem_iff i
  refine ⟨g.free, hs.listed.chain, fun p => ⟨?_, fun i hi => ?_⟩, fun i hi => ?_, ?_⟩
  · cases p with
    | pool => exact hs.listed.nodup
    | queue =>
      show m.shared.buffer.bufs.stored.Nodup
      rw [hstored]
      exact hs.values.sublist (contents_sublist g.cells)
    | thread t => exact (hm.locals t).1.nodup
  · apply (hs.inside i).mp
    rw [(hplace p i).mp hi]
    exact nofun
  · obtain ⟨p, hp⟩ := Option.ne_none_iff_exists'.mp ((hs.inside i).mpr hi)
    refine ⟨p, (hplace p i).mpr hp, fun p' hp' => ?_⟩
    exact Option.some.inj (((hplace p' i).mp hp').symm.trans hp)
  · exact ⟨_, hs.trace.symm⟩

theorem one_place_full :
    let m : System (Traced ℕ) (Option Bool) (User ℕ) := (start 1 0 true).run turn
      (List.replicate 9 (some false, .push 1) ++ List.replicate 17 (some false, .push 2) ++
        List.replicate 5 (none, .pop))
    ∃ free, Chain m.shared.buffer.mpool.next m.shared.buffer.mpool.head.index free ∧
      (∀ p, (itemsAt m free p).Nodup ∧ ∀ i ∈ itemsAt m free p, i < 2) ∧
      (∀ i, i < 2 → ∃! p, i ∈ itemsAt m free p) ∧ m.shared.taken <+: m.shared.put :=
  one_place (by decide) 0 true (by decide)

/-- A thread that makes room and the thread that pops have read the same slot of a full circular
buffer: both take its item, and both give it back to the pool. -/
theorem item_taken_twice :
    let m : System (Traced ℕ) (Option Bool) (User ℕ) := (start 1 0 true).run turn
      (List.replicate 9 (some false, .push 1) ++ List.replicate 9 (some false, .push 2) ++
        List.replicate 3 (none, .pop) ++ [(some false, .push 2), (none, .pop)])
    let m' : System (Traced ℕ) (Option Bool) (User ℕ) :=
      m.run turn (List.replicate 7 (none, .pop) ++ List.replicate 9 (some false, .push 2))
    (0 ∈ (m.locals (some false)).held ∧ 0 ∈ (m.locals none).held) ∧
      m'.shared.put = [1] ∧ m'.shared.taken = [1, 1] ∧
      m'.shared.buffer.mpool.head.index = 0 ∧ (m'.shared.buffer.mpool.next 0).index = 0 := by
  decide

end OrocosRtt.LockFree.BufferLockFree
