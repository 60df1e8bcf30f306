import OrocosRtt.Library.Interleaving
import Mathlib.Data.List.Perm.Subperm

/-! The memory pool for several threads: its free items are a list that starts at a head with a
tag. The tag counts the updates of the head, so that a thread notices them. -/
namespace OrocosRtt.LockFree

/-- `Pointer_t`: two shorts that are read and written as one word. -/
structure Pointer where
  tag : ℕ
  index : ℕ
  deriving DecidableEq

/-- An item is known by its index. -/
structure TsPool where
  capacity : ℕ
  /-- `pool[i].next` -/
  next : ℕ → Pointer
  /-- `head.next` -/
  head : Pointer
  /-- How often the head was updated, for the statements about runs. -/
  updates : ℕ

namespace TsPool

/-- `(unsigned short) -1` -/
def null : ℕ := 65535

/-- `unsigned short` arithmetic on a tag. -/
def nextTag (tag : ℕ) : ℕ := (tag + 1) % 65536

/-- All items are owned by the pool again; the tags stay. -/
def clear (p : TsPool) : TsPool :=
  { p with
    next := fun i =>
      if i + 1 = p.capacity then ⟨(p.next i).tag, null⟩
      else if i < p.capacity then ⟨(p.next i).tag, (i + 1) % 65536⟩
      else p.next i
    head := ⟨p.head.tag, 0⟩ }

def create (ssize : ℕ) : TsPool :=
  clear { capacity := ssize, next := fun _ => ⟨0, 0⟩, head := ⟨0, 0⟩, updates := 0 }

/-- Where a thread is in `allocate`, before the next access to what is shared. -/
inductive Allocating where
  | load
  | readNext (oldval : Pointer) (since : ℕ)
  | cas (oldval newval : Pointer) (since : ℕ)
  deriving DecidableEq

/-- Where a thread is in `deallocate` of an item. -/
inductive Deallocating where
  | load (item : ℕ)
  | writeNext (item : ℕ) (oldval : Pointer) (since : ℕ)
  | cas (item : ℕ) (oldval : Pointer) (since : ℕ)
  deriving DecidableEq

/-- `os::CAS(&head.next.value, oldval.value, newval.value)` -/
def casHead (oldval newval : Pointer) (p : TsPool) : Bool × TsPool :=
  if p.head = oldval then (true, { p with head := newval, updates := p.updates + 1 })
  else (false, p)

def allocate (a : Allocating) (p : TsPool) : TsPool × (Allocating ⊕ Option ℕ) :=
  match a with
  | .load =>
    if p.head.index = null then (p, .inr none)
    else (p, .inl (.readNext p.head p.updates))
  | .readNext oldval since =>
    (p, .inl (.cas oldval ⟨nextTag oldval.tag, (p.next oldval.index).index⟩ since))
  | .cas oldval newval _ =>
    match p.casHead oldval newval with
    | (true, p) => (p, .inr (some oldval.index))
    | (false, p) => (p, .inl .load)

def deallocate (d : Deallocating) (p : TsPool) : TsPool × (Deallocating ⊕ Unit) :=
  match d with
  | .load item => (p, .inl (.writeNext item p.head p.updates))
  | .writeNext item oldval since =>
    ({ p with next := Function.update p.next item oldval }, .inl (.cas item oldval since))
  | .cas item oldval _ =>
    match p.casHead oldval ⟨nextTag oldval.tag, item⟩ with
    | (true, p) => (p, .inr ())
    | (false, p) => (p, .inl (.load item))

/-- The item that is being deallocated. -/
def Deallocating.item : Deallocating → ℕ
  | .load i | .writeNext i _ _ | .cas i _ _ => i

/-- Fewer updates of the head than the tag can count come between the load and a CAS. -/
def Allocating.timely (p : TsPool) : Allocating → Prop
  | .cas _ _ since => p.updates < since + 65536
  | _ => True

def Deallocating.timely (p : TsPool) : Deallocating → Prop
  | .cas _ _ since => p.updates < since + 65536
  | _ => True

instance (p : TsPool) (a : Allocating) : Decidable (a.timely p) :=
  match a with
  | .cas .. => inferInstanceAs (Decidable (_ < _))
  | .load | .readNext .. => .isTrue trivial

instance (p : TsPool) (d : Deallocating) : Decidable (d.timely p) :=
  match d with
  | .cas .. => inferInstanceAs (Decidable (_ < _))
  | .load _ | .writeNext .. => .isTrue trivial

/-! ### The free list -/

/-- Following `next` from `i` one meets the items of the list, and then the end. -/
def Chain (next : ℕ → Pointer) : ℕ → List ℕ → Prop
  | i, [] => i = null
  | i, a :: l => i = a ∧ a ≠ null ∧ Chain next (next a).index l

theorem Chain.congr {next next' : ℕ → Pointer} {l : List ℕ} {i : ℕ} (h : Chain next i l)
    (he : ∀ a ∈ l, next' a = next a) : Chain next' i l := by
  induction l generalizing i with
  | nil => exact h
  | cons a l ih =>
    obtain ⟨hi, ha, hl⟩ := h
    refine ⟨hi, ha, ?_⟩
    rw [he a List.mem_cons_self]
    exact ih hl fun b hb => he b (List.mem_cons_of_mem _ hb)

/-- The pool with its free items, first the head. -/
structure Listed (p : TsPool) (free : List ℕ) : Prop where
  chain : Chain p.next p.head.index free
  nodup : free.Nodup
  bound : ∀ i ∈ free, i < p.capacity
  tag : p.head.tag = p.updates % 65536
  small : p.capacity ≤ 65535

/-- A head that was loaded when `since` updates had been made. -/
structure Loaded (p : TsPool) (oldval : Pointer) (since : ℕ) : Prop where
  before : since ≤ p.updates
  tag : oldval.tag = since % 65536
  head : since = p.updates → oldval = p.head

/-- What a thread in `allocate` knows. -/
def Allocating.Knows (p : TsPool) : Allocating → Prop
  | .load => True
  | .readNext oldval since => Loaded p oldval since ∧ oldval.index ≠ null
  | .cas oldval newval since => Loaded p oldval since ∧ oldval.index ≠ null ∧
      newval.tag = nextTag oldval.tag ∧
      (since = p.updates → newval.index = (p.next oldval.index).index)

/-- What a thread in `deallocate` knows. -/
def Deallocating.Knows (p : TsPool) : Deallocating → Prop
  | .load _ => True
  | .writeNext _ oldval since => Loaded p oldval since
  | .cas item oldval since => Loaded p oldval since ∧ p.next item = oldval

/-- What the turns of other threads may do to the pool, as a thread that deallocates `own`
sees it. -/
structure Evolves (p p' : TsPool) (own : ℕ → Prop) : Prop where
  capacity : p'.capacity = p.capacity
  updates : p.updates ≤ p'.updates
  head : p'.updates = p.updates → p'.head = p.head
  next : p'.updates = p.updates → p.head.index ≠ null → p'.next p.head.index = p.next p.head.index
  own : ∀ i, own i → p'.next i = p.next i

theorem Evolves.refl (p : TsPool) (own : ℕ → Prop) : Evolves p p own :=
  ⟨rfl, Nat.le_refl _, fun _ => rfl, fun _ _ => rfl, fun _ _ => rfl⟩

theorem Evolves.mono {p p' : TsPool} {own own' : ℕ → Prop} (h : Evolves p p' own)
    (ho : ∀ i, own' i → own i) : Evolves p p' own' :=
  ⟨h.capacity, h.updates, h.head, h.next, fun i hi => h.own i (ho i hi)⟩

theorem Loaded.evolves {p p' : TsPool} {own : ℕ → Prop} {oldval : Pointer} {since : ℕ}
    (h : Loaded p oldval since) (he : Evolves p p' own) : Loaded p' oldval since := by
  have hle := he.updates
  refine ⟨Nat.le_trans h.before hle, h.tag, fun hs => ?_⟩
  have hb := h.before
  have hu : p'.updates = p.updates := by omega
  rw [he.head hu]
  exact h.head (hs.trans hu)

theorem Allocating.Knows.evolves {p p' : TsPool} {own : ℕ → Prop} {a : Allocating}
    (h : a.Knows p) (he : Evolves p p' own) : a.Knows p' := by
  cases a with
  | load => trivial
  | readNext oldval since => exact ⟨h.1.evolves he, h.2⟩
  | cas oldval newval since =>
    obtain ⟨hl, hn, ht, hi⟩ := h
    refine ⟨hl.evolves he, hn, ht, fun hs => ?_⟩
    have hle := he.updates
    have hb := hl.before
    have hu : p'.updates = p.updates := by omega
    have hh := hl.head (hs.trans hu)
    rw [hi (hs.trans hu), hh, he.next hu (hh ▸ hn)]

theorem Deallocating.Knows.evolves {p p' : TsPool} {own : ℕ → Prop} {d : Deallocating}
    (h : d.Knows p) (he : Evolves p p' own) (ho : own d.item) : d.Knows p' := by
  cases d with
  | load => trivial
  | writeNext item oldval since => exact Loaded.evolves h he
  | cas item oldval since => exact ⟨h.1.evolves he, (he.own item ho).trans h.2⟩

/-- A head that is still there was not updated in between. -/
theorem Loaded.current {p : TsPool} {oldval : Pointer} {since : ℕ} {free : List ℕ}
    (h : Loaded p oldval since) (hp : p.Listed free) (ht : p.updates < since + 65536)
    (he : p.head = oldval) : since = p.updates := by
  have htag : since % 65536 = p.updates % 65536 := by
    rw [← h.tag, ← hp.tag, he]
  have hb := h.before
  omega

/-! ### Turns -/

/-- A thread in `allocate` takes the first of the free items, or leaves them alone. -/
theorem allocate_turn {p : TsPool} {free : List ℕ} {a : Allocating} (hp : p.Listed free)
    (ha : a.Knows p) (ht : a.timely p) (own : ℕ → Prop) :
    Evolves p (allocate a p).1 own ∧
      match (allocate a p).2 with
      | .inl a' => (allocate a p).1 = p ∧ a'.Knows p
      | .inr none => (allocate a p).1 = p ∧ free = []
      | .inr (some i) => ∃ free', free = i :: free' ∧ (allocate a p).1.Listed free' := by
  cases a with
  | load =>
    simp only [allocate]
    split
    · next hn =>
      refine ⟨.refl p own, rfl, ?_⟩
      cases free with
      | nil => rfl
      | cons i free => exact absurd hn (hp.chain.1 ▸ hp.chain.2.1)
    · next hn => exact ⟨.refl p own, rfl, ⟨Nat.le_refl _, hp.tag, fun _ => rfl⟩, hn⟩
  | readNext oldval since => exact ⟨.refl p own, rfl, ha.1, ha.2, rfl, fun _ => rfl⟩
  | cas oldval newval since =>
    obtain ⟨hl, hn, htag, hi⟩ := ha
    simp only [allocate, casHead]
    split
    · next p' he =>
      split at he
      · next hh =>
        obtain rfl := (Prod.mk.inj he).2
        have hs := hl.current hp ht hh
        refine ⟨⟨rfl, Nat.le_succ _, fun hu => ?_, fun hu => ?_, fun _ _ => rfl⟩, ?_⟩
        · exact absurd hu (Nat.succ_ne_self _)
        · exact absurd hu (Nat.succ_ne_self _)
        · cases hf : free with
          | nil =>
            have hc := hp.chain
            rw [hf, Chain, hh] at hc
            exact absurd hc hn
          | cons i free' =>
            have hc := hp.chain
            have hd := hp.nodup
            rw [hf] at hc hd
            obtain ⟨hfirst, -, hrest⟩ := hc
            have hoi : oldval.index = i := by rw [← hh]; exact hfirst
            refine ⟨free', by rw [hoi], ⟨?_, (List.nodup_cons.mp hd).2, fun j hj => ?_, ?_,
              hp.small⟩⟩
            · show Chain p.next newval.index free'
              rw [hi hs, hoi]
              exact hrest
            · exact hp.bound j (hf ▸ List.mem_cons_of_mem _ hj)
            · show newval.tag = (p.updates + 1) % 65536
              rw [htag, nextTag, hl.tag, hs]
              omega
      · cases he
    · next p' he =>
      split at he
      · cases he
      · obtain rfl := (Prod.mk.inj he).2
        exact ⟨.refl p own, rfl, trivial⟩

/-- A thread in `deallocate` puts its item before the free ones. Only the item's own `next`
is written until then. -/
theorem deallocate_turn {p : TsPool} {free : List ℕ} {d : Deallocating} (hp : p.Listed free)
    (hd : d.Knows p) (ht : d.timely p) (hfree : d.item ∉ free) (hb : d.item < p.capacity) :
    Evolves p (deallocate d p).1 (· ≠ d.item) ∧
      match (deallocate d p).2 with
      | .inl d' => (deallocate d p).1.Listed free ∧ d'.Knows (deallocate d p).1 ∧ d'.item = d.item
      | .inr () => (deallocate d p).1.Listed (d.item :: free) := by
  cases d with
  | load item => exact ⟨.refl p _, hp, ⟨Nat.le_refl _, hp.tag, fun _ => rfl⟩, rfl⟩
  | writeNext item oldval since =>
    have hfree : item ∉ free := hfree
    have hother : ∀ i, i ≠ item → Function.update p.next item oldval i = p.next i :=
      fun i hi => Function.update_of_ne hi ..
    have hhead : p.head.index ≠ null → p.head.index ≠ item := by
      rintro hn rfl
      cases hf : free with
      | nil =>
        have hc := hp.chain
        rw [hf] at hc
        exact hn hc
      | cons i free' =>
        have hc := hp.chain
        rw [hf] at hc
        exact hfree (hf ▸ hc.1 ▸ List.mem_cons_self)
    refine ⟨⟨rfl, Nat.le_refl _, fun _ => rfl, fun _ hn => hother _ (hhead hn), hother⟩, ?_, ⟨?_, ?_⟩, rfl⟩
    · refine ⟨hp.chain.congr fun a ha => hother a ?_, hp.nodup, hp.bound, hp.tag, hp.small⟩
      rintro rfl
      exact hfree ha
    · exact ⟨hd.before, hd.tag, hd.head⟩
    · exact Function.update_self ..
  | cas item oldval since =>
    obtain ⟨hl, hnext⟩ := hd
    have hb : item < p.capacity := hb
    have hfree : item ∉ free := hfree
    have hsmall := hp.small
    simp only [deallocate, casHead]
    split
    · next p' he =>
      split at he
      · next hh =>
        obtain rfl := (Prod.mk.inj he).2
        have hs := hl.current hp ht hh
        refine ⟨⟨rfl, Nat.le_succ _, fun hu => ?_, fun hu => ?_, fun _ _ => rfl⟩, ?_⟩
        · exact absurd hu (Nat.succ_ne_self _)
        · exact absurd hu (Nat.succ_ne_self _)
        · refine ⟨⟨rfl, ?_, ?_⟩, List.nodup_cons.mpr ⟨hfree, hp.nodup⟩, fun j hj => ?_, ?_, hp.small⟩
          · show item ≠ 65535
            omega
          · show Chain p.next (p.next item).index free
            rw [hnext, ← hh]
            exact hp.chain
          · rcases List.mem_cons.mp hj with rfl | hj
            · exact hb
            · exact hp.bound j hj
          · show nextTag oldval.tag = (p.updates + 1) % 65536
            rw [nextTag, hl.tag, hs]
            omega
      · cases he
    · next p' he =>
      split at he
      · cases he
      · obtain rfl := (Prod.mk.inj he).2
        exact ⟨.refl p _, hp, trivial, rfl⟩

/-! ### A thread alone at the pool -/

theorem allocate_alone {p : TsPool} {i : ℕ} {free : List ℕ} (hp : p.Listed (i :: free)) :
    ∃ p', Library.Run.finish allocate 3 .load p = some (p', some i) ∧ p'.Listed free ∧
      p'.capacity = p.capacity := by
  obtain ⟨hhead, hnull, hnext⟩ := hp.chain
  have hn : p.head.index ≠ null := hhead ▸ hnull
  have hknows : Allocating.Knows p
      (.cas p.head ⟨nextTag p.head.tag, (p.next p.head.index).index⟩ p.updates) :=
    ⟨⟨Nat.le_refl _, hp.tag, fun _ => rfl⟩, hn, rfl, fun _ => rfl⟩
  have htimely : Allocating.timely p
      (.cas p.head ⟨nextTag p.head.tag, (p.next p.head.index).index⟩ p.updates) := by
    show p.updates < p.updates + 65536
    omega
  have hturn := (allocate_turn hp hknows htimely fun _ => False).2
  simp only [allocate, casHead, if_true] at hturn
  obtain ⟨free', hfree, hlisted⟩ := hturn
  cases hfree
  refine ⟨_, ?_, hlisted, rfl⟩
  simp [Library.Run.finish, allocate, casHead, hn]

theorem allocate_alone_empty {p : TsPool} (hp : p.Listed []) :
    Library.Run.finish allocate 1 .load p = some (p, none) := by
  have hn : p.head.index = null := hp.chain
  simp [Library.Run.finish, allocate, hn]

theorem deallocate_alone {p : TsPool} {i : ℕ} {free : List ℕ} (hp : p.Listed free)
    (hi : i ∉ free) (hb : i < p.capacity) :
    ∃ p', Library.Run.finish deallocate 3 (.load i) p = some (p', ()) ∧ p'.Listed (i :: free) ∧
      p'.capacity = p.capacity := by
  obtain ⟨-, hwritten, hknows, -⟩ := deallocate_turn (d := .writeNext i p.head p.updates) hp
    ⟨Nat.le_refl _, hp.tag, fun _ => rfl⟩ trivial hi hb
  have htimely : Deallocating.timely { p with next := Function.update p.next i p.head }
      (.cas i p.head p.updates) := by
    show p.updates < p.updates + 65536
    omega
  have hturn := (deallocate_turn hwritten hknows htimely hi hb).2
  simp only [deallocate, casHead, if_true] at hturn
  refine ⟨_, ?_, hturn, rfl⟩
  simp [Library.Run.finish, deallocate, casHead]

/-! ### A new pool -/

theorem clear_chain {p : TsPool} (hs : p.capacity ≤ 65535) (k i : ℕ) (hi : i + (k + 1) = p.capacity) :
    Chain p.clear.next i (List.range' i (k + 1)) := by
  induction k generalizing i with
  | zero =>
    have hlast : (p.clear.next i).index = null := by simp [clear, hi]
    refine ⟨rfl, ?_, hlast⟩
    rw [null]
    omega
  | succ k ih =>
    have hnext : (p.clear.next i).index = i + 1 := by
      have h₁ : ¬ i + 1 = p.capacity := by omega
      have h₂ : i < p.capacity := by omega
      simp only [clear, if_neg h₁, if_pos h₂]
      omega
    refine ⟨rfl, ?_, ?_⟩
    · rw [null]
      omega
    · rw [hnext]
      exact ih (i + 1) (by omega)

/-- A pool that is cleared has all items in its list, whatever the list was before. -/
theorem clear_listed {p : TsPool} (h : 0 < p.capacity) (hs : p.capacity ≤ 65535)
    (htag : p.head.tag = p.updates % 65536) : p.clear.Listed (List.range p.capacity) := by
  obtain ⟨k, hk⟩ := Nat.exists_eq_succ_of_ne_zero (Nat.ne_of_gt h)
  have hc : Chain p.clear.next 0 (List.range' 0 (k + 1)) :=
    clear_chain hs k 0 (by rw [Nat.zero_add, hk])
  rw [List.range_eq_range', hk]
  refine ⟨hc, List.nodup_range', fun i hi => ?_, htag, hs⟩
  have hlt := (List.mem_range'_1.mp hi).2
  show i < p.capacity
  omega

theorem create_listed {n : ℕ} (h : 0 < n) (hs : n ≤ 65535) :
    (create n).Listed (List.range n) :=
  clear_listed (p := ⟨n, fun _ => ⟨0, 0⟩, ⟨0, 0⟩, 0⟩) h hs rfl

/-- The loop of `size`, for at most `fuel` rounds. -/
def sizeFrom (next : ℕ → Pointer) : ℕ → ℕ → ℕ
  | 0, _ => 0
  | fuel + 1, i => if i = null then 0 else sizeFrom next fuel (next i).index + 1

/-- Only meant for a pool at rest. -/
def size (p : TsPool) : ℕ := sizeFrom p.next (p.capacity + 1) p.head.index

theorem Chain.sizeFrom {next : ℕ → Pointer} {l : List ℕ} {i fuel : ℕ} (h : Chain next i l)
    (hf : l.length < fuel) : TsPool.sizeFrom next fuel i = l.length := by
  induction l generalizing i fuel with
  | nil =>
    obtain ⟨k, rfl⟩ := Nat.exists_eq_succ_of_ne_zero (Nat.ne_of_gt hf)
    have hi : i = null := h
    simp [TsPool.sizeFrom, hi]
  | cons a l ih =>
    obtain ⟨k, rfl⟩ := Nat.exists_eq_succ_of_ne_zero (Nat.ne_of_gt (Nat.zero_lt_of_lt hf))
    obtain ⟨rfl, hn, hl⟩ := h
    have hk : l.length < k := by
      rw [List.length_cons] at hf
      omega
    simp [TsPool.sizeFrom, hn, ih hl hk]

theorem Listed.length_le {p : TsPool} {free : List ℕ} (h : p.Listed free) :
    free.length ≤ p.capacity := by
  have hsub : free ⊆ List.range p.capacity := fun i hi => List.mem_range.mpr (h.bound i hi)
  have hle := (h.nodup.subperm hsub).length_le
  rwa [List.length_range] at hle

theorem Listed.size {p : TsPool} {free : List ℕ} (h : p.Listed free) : p.size = free.length :=
  h.chain.sizeFrom (Nat.lt_succ_of_le h.length_le)

/-! ### Threads that use a pool -/

/-- What a thread is doing. -/
inductive Activity where
  | idle
  | allocating (a : Allocating)
  | deallocating (d : Deallocating)
  deriving DecidableEq

/-- A thread, with the items it was handed and did not deallocate yet. -/
structure User where
  activity : Activity
  held : List ℕ
  deriving DecidableEq

inductive Request where
  | allocate
  | deallocate (item : ℕ)
  deriving DecidableEq

/-- A thread deallocates only what it holds. -/
def turn {τ : Type} (_ : τ) (o : Request) (p : TsPool) (u : User) : TsPool × User :=
  match u.activity with
  | .idle =>
    match o with
    | .allocate => (p, { u with activity := .allocating .load })
    | .deallocate i =>
      if i ∈ u.held then (p, ⟨.deallocating (.load i), u.held.erase i⟩) else (p, u)
  | .allocating a =>
    match allocate a p with
    | (p, .inl a) => (p, { u with activity := .allocating a })
    | (p, .inr none) => (p, { u with activity := .idle })
    | (p, .inr (some i)) => (p, ⟨.idle, i :: u.held⟩)
  | .deallocating d =>
    match deallocate d p with
    | (p, .inl d) => (p, { u with activity := .deallocating d })
    | (p, .inr ()) => (p, { u with activity := .idle })

/-- The items of a thread: those it holds, and the one it is deallocating. -/
def User.items (u : User) : List ℕ :=
  match u.activity with
  | .deallocating d => d.item :: u.held
  | _ => u.held

open Library.Interleaving

variable {τ : Type}

/-- Fewer updates of the head than the tag can count come between a load and its CAS. -/
def timely (m : System TsPool τ User) (e : τ × Request) : Prop :=
  match (m.locals e.1).activity with
  | .idle => True
  | .allocating a => a.timely m.shared
  | .deallocating d => d.timely m.shared

instance (m : System TsPool τ User) (e : τ × Request) : Decidable (timely m e) := by
  unfold timely
  split <;> infer_instance

/-- The pool with nothing handed out yet. -/
def fresh (n : ℕ) : System TsPool τ User where
  shared := create n
  locals := fun _ => ⟨.idle, []⟩

/-- The free items, and who has the others. -/
structure Shared (free : List ℕ) (place : ℕ → Option τ) (p : TsPool) : Prop where
  listed : p.Listed free
  free_iff : ∀ i, i < p.capacity → (i ∈ free ↔ place i = none)

/-- A thread has what is placed at it, and knows what its next step is about. -/
structure Has (place : ℕ → Option τ) (t : τ) (p : TsPool) (u : User) : Prop where
  nodup : u.items.Nodup
  mem_iff : ∀ i, i ∈ u.items ↔ place i = some t ∧ i < p.capacity
  knows : match u.activity with
    | .idle => True
    | .allocating a => a.Knows p
    | .deallocating d => d.Knows p

theorem Has.evolves {place place' : ℕ → Option τ} {t : τ} {p p' : TsPool} {u : User}
    {own : ℕ → Prop} (h : Has place t p u) (he : Evolves p p' own)
    (hp : ∀ i, place' i = some t ↔ place i = some t) (ho : ∀ i, place i = some t → own i) :
    Has place' t p' u := by
  refine ⟨h.nodup, fun i => ?_, ?_⟩
  · rw [h.mem_iff, hp, he.capacity]
  · have hk := h.knows
    have hm := h.mem_iff
    cases ha : u.activity with
    | idle => trivial
    | allocating a =>
      rw [ha] at hk
      exact Allocating.Knows.evolves hk he
    | deallocating d =>
      rw [ha] at hk
      have hd : d.item ∈ u.items := by simp [User.items, ha]
      exact Deallocating.Knows.evolves hk he (ho _ ((hm _).mp hd).1)

theorem fresh_holds {n : ℕ} (h : 0 < n) (hs : n ≤ 65535) :
    Shared (List.range n) (fun _ => (none : Option τ)) (fresh n : System TsPool τ User).shared ∧
      ∀ t, Has (fun _ => none) t (fresh n : System TsPool τ User).shared
        ((fresh n : System TsPool τ User).locals t) := by
  refine ⟨⟨create_listed h hs, fun i hi => ?_⟩, fun t => ⟨List.nodup_nil, fun i => ?_, trivial⟩⟩
  · exact iff_of_true (List.mem_range.mpr hi) rfl
  · simp [User.items, fresh]

/-- The turn of one thread, and what it changes for the others. -/
theorem turn_holds {free : List ℕ} {place : ℕ → Option τ} {m : System TsPool τ User} {t : τ}
    {o : Request} (hs : Shared free place m.shared) (hu : Has place t m.shared (m.locals t))
    (hok : timely m (t, o)) :
    ∃ free' place', Shared free' place' (turn t o m.shared (m.locals t)).1 ∧
      Has place' t (turn t o m.shared (m.locals t)).1 (turn t o m.shared (m.locals t)).2 ∧
      ∃ own, Evolves m.shared (turn t o m.shared (m.locals t)).1 own ∧
        (∀ u, u ≠ t → ∀ i, place' i = some u ↔ place i = some u) ∧
        ∀ i u, u ≠ t → place i = some u → own i := by
  obtain ⟨hnodup, hmem, hknows⟩ := hu
  have hstay : ∃ own, Evolves m.shared m.shared own ∧
      (∀ u, u ≠ t → ∀ i, place i = some u ↔ place i = some u) ∧
      ∀ i u, u ≠ t → place i = some u → own i :=
    ⟨fun _ => True, .refl _ _, fun _ _ _ => Iff.rfl, fun _ _ _ _ => trivial⟩
  unfold timely at hok
  unfold turn
  cases ha : (m.locals t).activity with
  | idle =>
    simp only [User.items, ha] at hnodup hmem
    cases o with
    | allocate =>
      exact ⟨free, place, hs, ⟨hnodup, hmem, trivial⟩, hstay⟩
    | deallocate i =>
      by_cases hi : i ∈ (m.locals t).held
      · simp only [if_pos hi]
        have hperm := (m.locals t).held.perm_cons_erase hi
        refine ⟨free, place, hs, ⟨?_, fun j => ?_, trivial⟩, hstay⟩
        · exact hperm.nodup_iff.mp hnodup
        · exact (hperm.mem_iff.symm).trans (hmem j)
      · simp only [if_neg hi]
        refine ⟨free, place, hs, ⟨?_, ?_, ?_⟩, hstay⟩
        · simpa only [User.items, ha] using hnodup
        · simpa only [User.items, ha] using hmem
        · rw [ha]
          trivial
  | allocating a =>
    rw [ha] at hknows hok
    simp only [User.items, ha] at hnodup hmem
    obtain ⟨he, hr⟩ := allocate_turn hs.listed hknows hok (fun _ => True)
    dsimp only
    generalize hq : allocate a m.shared = q at he hr
    obtain ⟨p', r⟩ := q
    match r with
    | .inl a' =>
      obtain ⟨rfl, hk⟩ : p' = m.shared ∧ a'.Knows m.shared := hr
      exact ⟨free, place, hs, ⟨hnodup, hmem, hk⟩, hstay⟩
    | .inr none =>
      obtain ⟨rfl, -⟩ : p' = m.shared ∧ free = [] := hr
      exact ⟨free, place, hs, ⟨hnodup, hmem, trivial⟩, hstay⟩
    | .inr (some i) =>
      obtain ⟨free', rfl, hl⟩ : ∃ free', free = i :: free' ∧ p'.Listed free' := hr
      have hib : i < m.shared.capacity := hs.listed.bound i List.mem_cons_self
      have hcap : p'.capacity = m.shared.capacity := he.capacity
      have hi : place i = none := (hs.free_iff i hib).mp List.mem_cons_self
      have hnot : i ∉ (m.locals t).held := fun hm => by
        rw [((hmem i).mp hm).1] at hi
        cases hi
      refine ⟨free', Function.update place i (some t), ⟨hl, fun j hj => ?_⟩,
        ⟨List.nodup_cons.mpr ⟨hnot, hnodup⟩, fun j => ?_, trivial⟩, fun _ => True, he,
        fun u hu j => ?_, fun _ _ _ _ => trivial⟩
      · by_cases hji : j = i
        · subst hji
          simpa using (List.nodup_cons.mp hs.listed.nodup).1
        · rw [Function.update_of_ne hji, ← hs.free_iff j (hcap ▸ hj), List.mem_cons]
          simp [hji]
      · by_cases hji : j = i
        · subst hji
          simpa [User.items, hcap] using hib
        · rw [Function.update_of_ne hji, hcap, ← hmem j]
          simp [User.items, hji]
      · by_cases hji : j = i
        · subst hji
          simp [hi, Ne.symm hu]
        · rw [Function.update_of_ne hji]
  | deallocating d =>
    rw [ha] at hknows hok
    simp only [User.items, ha] at hnodup hmem
    obtain ⟨hd, hdb⟩ := (hmem d.item).mp List.mem_cons_self
    have hfree : d.item ∉ free := fun hf => by
      rw [(hs.free_iff d.item hdb).mp hf] at hd
      cases hd
    obtain ⟨he, hr⟩ := deallocate_turn hs.listed hknows hok hfree hdb
    have hothers : ∀ i u, u ≠ t → place i = some u → i ≠ d.item := by
      rintro i u hu hi rfl
      exact hu (Option.some.inj (hi.symm.trans hd))
    dsimp only
    generalize hq : deallocate d m.shared = q at he hr
    obtain ⟨p', r⟩ := q
    have hcap : p'.capacity = m.shared.capacity := he.capacity
    match r with
    | .inl d' =>
      obtain ⟨hl, hk, hi⟩ : p'.Listed free ∧ d'.Knows p' ∧ d'.item = d.item := hr
      refine ⟨free, place, ⟨hl, fun j hj => hs.free_iff j (hcap ▸ hj)⟩, ⟨?_, fun j => ?_, hk⟩,
        _, he, fun _ _ _ => Iff.rfl, hothers⟩
      · simpa only [User.items, hi] using hnodup
      · rw [hcap, ← hmem j]
        simp only [User.items, hi]
    | .inr () =>
      have hl : p'.Listed (d.item :: free) := hr
      refine ⟨d.item :: free, Function.update place d.item none, ⟨hl, fun j hj => ?_⟩,
        ⟨(List.nodup_cons.mp hnodup).2, fun j => ?_, trivial⟩, _, he, fun u hu j => ?_, hothers⟩
      · by_cases hji : j = d.item
        · simp [hji]
        · rw [Function.update_of_ne hji, ← hs.free_iff j (hcap ▸ hj), List.mem_cons]
          simp [hji]
      · by_cases hji : j = d.item
        · subst hji
          simpa [User.items] using (List.nodup_cons.mp hnodup).1
        · rw [Function.update_of_ne hji, hcap, ← hmem j]
          simp [User.items, hji]
      · by_cases hji : j = d.item
        · subst hji
          simp [hd, Ne.symm hu]
        · rw [Function.update_of_ne hji]

section Run

variable [DecidableEq τ]

/-- In every run of threads that allocate and deallocate, with fewer updates of the head between
a load and its CAS than the tag can count: the free list ends, each item is in it once or has
exactly one thread that holds it, and `size` is its length. -/
theorem free_or_held {n : ℕ} (h : 0 < n) (hs : n ≤ 65535) {es : List (τ × Request)}
    (hok : (fresh n : System TsPool τ User).Schedule turn timely es) :
    let m := (fresh n : System TsPool τ User).run turn es
    ∃ free, Chain m.shared.next m.shared.head.index free ∧ free.Nodup ∧
      m.shared.size = free.length ∧ (∀ t, (m.locals t).items.Nodup) ∧
      (∀ i ∈ free, i < n ∧ ∀ t, i ∉ (m.locals t).items) ∧
      ∀ i, i < n → i ∉ free → ∃! t, i ∈ (m.locals t).items := by
  intro m
  have hinv : ∃ g : List ℕ × (ℕ → Option τ), Holds (fun g p => Shared g.1 g.2 p ∧ p.capacity = n)
      (fun g t p u => Has g.2 t p u) g m := by
    apply holds_run _ _ hok
    · rintro ⟨free, place⟩ m t o ⟨⟨hsh, hcap⟩, hl⟩ ho
      obtain ⟨free', place', hs', ht', own, he, hp, hown⟩ := turn_holds hsh (hl t) ho
      refine ⟨(free', place'), .step ⟨hs', he.capacity.trans hcap⟩ ht' fun u hu => ?_⟩
      exact (hl u).evolves he (hp u hu) fun i hi => hown i u hu hi
    · have hf := fresh_holds (τ := τ) h hs
      exact ⟨(List.range n, fun _ => none), ⟨hf.1, rfl⟩, hf.2⟩
  obtain ⟨⟨free, place⟩, ⟨hsh, hcap⟩, hl⟩ := hinv
  have hmem : ∀ t i, i ∈ (m.locals t).items ↔ place i = some t ∧ i < n :=
    fun t i => hcap ▸ (hl t).mem_iff i
  refine ⟨free, hsh.listed.chain, hsh.listed.nodup, hsh.listed.size, fun t => (hl t).nodup,
    fun i hi => ?_, fun i hi hfree => ?_⟩
  · have hb : i < m.shared.capacity := hsh.listed.bound i hi
    have hp : place i = none := (hsh.free_iff i hb).mp hi
    refine ⟨hcap ▸ hb, fun t ht => ?_⟩
    rw [((hmem t i).mp ht).1] at hp
    cases hp
  · have hp : place i ≠ none := fun hp => hfree ((hsh.free_iff i (Nat.lt_of_lt_of_eq hi hcap.symm)).mpr hp)
    obtain ⟨t, ht⟩ := Option.ne_none_iff_exists'.mp hp
    refine ⟨t, (hmem t i).mpr ⟨ht, hi⟩, fun u hu => ?_⟩
    exact Option.some.inj (((hmem u i).mp hu).1.symm.trans ht)

end Run

theorem free_or_held_two :
    let m := (fresh 2 : System TsPool Bool User).run turn [(false, .allocate), (false, .allocate),
      (true, .allocate), (true, .allocate), (true, .allocate), (true, .allocate),
      (false, .allocate), (false, .allocate), (true, .deallocate 0), (true, .allocate)]
    ∃ free, Chain m.shared.next m.shared.head.index free ∧ free.Nodup ∧
      m.shared.size = free.length ∧ (∀ t, (m.locals t).items.Nodup) ∧
      (∀ i ∈ free, i < 2 ∧ ∀ t, i ∉ (m.locals t).items) ∧
      ∀ i, i < 2 → i ∉ free → ∃! t, i ∈ (m.locals t).items :=
  free_or_held (by decide) (by decide) (by decide)

end TsPool
end OrocosRtt.LockFree
