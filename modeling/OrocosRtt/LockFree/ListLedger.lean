import OrocosRtt.LockFree.ListLockFree

/-! Threads that use the list: what each one uses, and what it knows about that. A turn of a thread
keeps what the others know. -/
namespace OrocosRtt.LockFree.ListLockFree

open Library.Linearize Library.Interleaving

variable {α τ : Type}

/-! ### Where a thread is -/

/-- The buffers that a thread counts, as often as it counts them. -/
def Place.held : Place α → List ℕ
  | .read | .lock _ | .seekRead .. => []
  | .check orig | .unlock orig | .locked orig | .scan orig _ | .dropRef orig _ | .release orig _
  | .traverse orig _ | .seek orig _ | .seekRelease orig _ => [orig]
  | .skip orig b | .clean orig b | .copy orig b _ _ | .extend orig b | .cas orig b
  | .retryOrig orig b | .giveUp orig b => [orig, b]
  | .dropLock orig _ => [orig, orig]
  | .retryNext b | .giveBack b => [b]

/-- The buffer that a thread found empty and did not give back. -/
def Place.claim : Place α → Option ℕ
  | .clean _ b | .copy _ b _ _ | .extend _ b | .cas _ b | .retryOrig _ b | .giveUp _ b
  | .retryNext b | .giveBack b => some b
  | .read | .lock _ | .seekRead .. | .check _ | .unlock _ | .locked _ | .scan .. | .dropRef ..
  | .release .. | .traverse .. | .seek .. | .seekRelease .. | .skip .. | .dropLock .. => none

/-- The buffer that a thread has locked, after it found it active. -/
def Place.locks : Place α → Option ℕ
  | .locked orig | .scan orig _ | .dropRef orig _ | .release orig _ | .traverse orig _
  | .seek orig _ | .seekRelease orig _ | .skip orig _ | .clean orig _ | .copy orig _ _ _
  | .extend orig _ | .cas orig _ | .retryOrig orig _ | .giveUp orig _ | .dropLock orig _ => some orig
  | .read | .lock _ | .seekRead .. | .check _ | .unlock _ | .retryNext _ | .giveBack _ => none

/-- The buffer that a thread is going to read although it does not count it any more. -/
def Place.reads : Place α → Option ℕ
  | .seekRead orig _ => some orig
  | _ => none

/-- The buffer that a thread may still read. -/
def Place.watches : Place α → Option ℕ
  | .seekRead orig _ => some orig
  | p => p.locks

/-- What a thread is doing. -/
inductive Activity (α : Type) where
  | idle
  | running (op : Operation α) (towrite : ℤ) (p : Place α)
  | undefined

def Activity.held : Activity α → List ℕ
  | .running _ _ p => p.held
  | .idle | .undefined => []

def Activity.claim : Activity α → Option ℕ
  | .running _ _ p => p.claim
  | .idle | .undefined => none

def Activity.locks : Activity α → Option ℕ
  | .running _ _ p => p.locks
  | .idle | .undefined => none

def Activity.reads : Activity α → Option ℕ
  | .running _ _ p => p.reads
  | .idle | .undefined => none

def Activity.watches : Activity α → Option ℕ
  | .running _ _ p => p.watches
  | .idle | .undefined => none

/-- A thread counts what it has locked and what it has claimed. -/
theorem Place.claim_held {p : Place α} {b : ℕ} (h : p.claim = some b) : b ∈ p.held := by
  cases p with
  | clean | copy | extend | cas | retryOrig | giveUp | retryNext | giveBack =>
    cases h
    simp [held]
  | read | lock | seekRead | check | unlock | locked | scan | dropRef | release | traverse | seek
  | seekRelease | skip | dropLock => cases h

theorem Place.locks_held {p : Place α} {b : ℕ} (h : p.locks = some b) : b ∈ p.held := by
  cases p with
  | locked | scan | dropRef | release | traverse | seek | seekRelease | skip | clean | copy | extend
  | cas | retryOrig | giveUp | dropLock =>
    cases h
    exact List.mem_cons_self
  | read | lock | seekRead | check | unlock | retryNext | giveBack => cases h

theorem Place.locks_watches {p : Place α} {b : ℕ} (h : p.locks = some b) : p.watches = some b := by
  cases p with
  | seekRead => cases h
  | _ => exact h

theorem Place.watches_held {p : Place α} {b : ℕ} (h : p.watches = some b) (hr : p.reads ≠ some b) :
    b ∈ p.held := by
  have hlocks : p.locks = some b := by
    cases p with
    | seekRead => exact absurd h hr
    | _ => exact h
  exact Place.locks_held hlocks

theorem Activity.claim_held {a : Activity α} {b : ℕ} (h : a.claim = some b) : b ∈ a.held := by
  cases a with
  | running op towrite p => exact Place.claim_held h
  | idle | undefined => cases h

theorem Activity.locks_watches {a : Activity α} {b : ℕ} (h : a.locks = some b) :
    a.watches = some b := by
  cases a with
  | running op towrite p => exact Place.locks_watches h
  | idle | undefined => cases h

theorem Activity.watches_held {a : Activity α} {b : ℕ} (h : a.watches = some b)
    (hr : a.reads ≠ some b) : b ∈ a.held := by
  cases a with
  | running op towrite p => exact Place.watches_held h hr
  | idle | undefined => cases h

theorem inc_balance (l : ListLockFree α) {held held' : List ℕ} {b : ℕ} (h : held'.Perm (b :: held))
    (c : ℕ) : (l.inc b).count c - (held'.count c : ℤ) = l.count c - (held.count c : ℤ) := by
  rw [h.count_eq, List.count_cons]
  by_cases hc : c = b
  · subst hc
    simp only [inc, Function.update_self, beq_self_eq_true, if_true]
    omega
  · simp [inc, Function.update_of_ne hc, Ne.symm hc]

theorem dec_balance (l : ListLockFree α) {held held' : List ℕ} {b : ℕ} (h : held.Perm (b :: held'))
    (c : ℕ) : (l.dec b).count c - (held'.count c : ℤ) = l.count c - (held.count c : ℤ) := by
  rw [h.count_eq, List.count_cons]
  by_cases hc : c = b
  · subst hc
    simp only [dec, Function.update_self, beq_self_eq_true, if_true]
    omega
  · simp [dec, Function.update_of_ne hc, Ne.symm hc]

theorem data_written (l : ListLockFree α) (b : ℕ) (items : List α) :
    (l.write b items).data b = items :=
  Function.update_self ..

theorem sought_end {towrite : ℤ} {orig it : ℕ} {func : α → Bool} {blank : α} {l : ListLockFree α}
    (h : (l.data orig)[it]? = none) : sought (.findIf func blank) towrite orig it l =
      .go towrite (.release orig (.found (some blank))) := by
  simp only [sought, h]

theorem sought_element {towrite : ℤ} {orig it : ℕ} {func : α → Bool} {blank a : α}
    {l : ListLockFree α} (h : (l.data orig)[it]? = some a) :
    sought (.findIf func blank) towrite orig it l =
      .go towrite (if func a then .seekRelease orig it else .seek orig (it + 1)) := by
  simp only [sought, h]
  split <;> rfl

/-- The list, with the calls and returns. -/
structure Traced (α τ : Type) where
  list : ListLockFree α
  history : List (Entry τ (Operation α) (Result α))

/-- `int towrite = items.size()` -/
def Operation.towrite : Operation α → ℤ
  | .appendAll items => toInt items.length
  | .append _ | .erase _ | .clear | .deleteIf _ | .apply | .findIf .. => 0

/-- An `append` of several elements writes no more than these. -/
def Operation.limits (towrite : ℤ) : Operation α → Prop
  | .appendAll items => towrite ≤ items.length
  | .append _ | .erase _ | .clear | .deleteIf _ | .apply | .findIf .. => True

theorem limits_start (op : Operation α) : op.limits op.towrite := by
  cases op with
  | appendAll items =>
    show toInt items.length ≤ items.length
    by_cases h : items.length < 2147483648
    · rw [toInt_eq h]
    · have hle : toInt items.length < (4294967296 + 1) / 2 := Int.bmod_lt (by decide)
      omega
  | append | erase | clear | deleteIf | apply | findIf => trivial

/-- What a turn in an operation leads to. -/
def resume (t : τ) (history : List (Entry τ (Operation α) (Result α))) (op : Operation α) :
    ListLockFree α × Next α → Traced α τ × Activity α
  | (l, .go towrite p) => (⟨l, history⟩, .running op towrite p)
  | (l, .done r) => (⟨l, history ++ [.returned t r]⟩, .idle)
  | (l, .undefined) => (⟨l, history⟩, .undefined)

variable [DecidableEq α]

/-- A thread at rest calls the operation it is given. -/
def turn (t : τ) (op : Operation α) (s : Traced α τ) (a : Activity α) : Traced α τ × Activity α :=
  match a with
  | .idle => (⟨s.list, s.history ++ [.call t op]⟩, .running op op.towrite .read)
  | .running op towrite p => resume t s.history op (advance op towrite p s.list)
  | .undefined => (s, .undefined)

/-! ### What an operation does to a list -/

/-- The elements that are copied, and whether one was left out. -/
def copies (op : Operation α) : List α → List α × Bool :=
  List.foldl (fun r a => if keeps op r.2 a then (r.1 ++ [a], r.2) else (r.1, true)) ([], false)

theorem copies_append (op : Operation α) (l : List α) (a : α) : copies op (l ++ [a]) =
    if keeps op (copies op l).2 a then ((copies op l).1 ++ [a], (copies op l).2)
    else ((copies op l).1, true) := by
  rw [copies, List.foldl_append]
  rfl

theorem copies_all {op : Operation α} (h : ∀ hit a, keeps op hit a = true) (l : List α) :
    copies op l = (l, false) := by
  induction l using List.reverseRecOn with
  | nil => rfl
  | append_singleton l a ih => rw [copies_append, h, if_pos rfl, ih]

theorem copies_erase (item : α) (l : List α) :
    copies (.erase item) l = (l.erase item, decide (item ∈ l)) := by
  induction l using List.reverseRecOn with
  | nil => rfl
  | append_singleton l a ih =>
    rw [copies_append, ih]
    by_cases hl : item ∈ l
    · simp [keeps, hl, List.erase_append_left]
    · by_cases ha : a = item
      · subst ha
        simp [keeps, hl, List.erase_append_right, List.erase_of_not_mem]
      · simp [keeps, hl, ha, List.erase_of_not_mem, Ne.symm ha]

theorem copies_deleteIf (pred : α → Bool) (l : List α) :
    copies (.deleteIf pred) l = (l.filter (fun a => !pred a), l.any pred) := by
  induction l using List.reverseRecOn with
  | nil => rfl
  | append_singleton l a ih =>
    rw [copies_append, ih]
    cases hp : pred a with
    | true => simp [keeps, hp]
    | false => simp [keeps, hp]

/-- The operation does not change the list, and takes effect when the list is found. -/
def settles (capacity : ℕ) (op : Operation α) (items : List α) : Bool :=
  match op with
  | .append _ | .appendAll _ => items.length = capacity
  | .erase item => !decide (item ∈ items)
  | .clear => false
  | .deleteIf pred => !items.any pred
  | .apply | .findIf .. => true

theorem perform_settled {capacity : ℕ} {op : Operation α} {items : List α}
    (h : settles capacity op items = true) : (perform capacity items op).1 = items := by
  cases op with
  | append item =>
    have hl : items.length = capacity := by simpa [settles] using h
    simp [perform, hl]
  | appendAll new =>
    have hl : items.length = capacity := by simpa [settles] using h
    simp [perform, hl]
  | erase item =>
    have hm : item ∉ items := by simpa [settles] using h
    exact List.erase_of_not_mem hm
  | clear => cases h
  | deleteIf pred =>
    have hp : ∀ a ∈ items, pred a = false := by simpa [settles] using h
    apply List.filter_eq_self.mpr
    intro a ha
    rw [hp a ha]
    rfl
  | apply | findIf => rfl

theorem perform_bounded (capacity : ℕ) (items : List α) (op : Operation α)
    (h : items.length ≤ capacity) : (perform capacity items op).1.length ≤ capacity := by
  cases op with
  | append item =>
    rw [perform]
    split
    · exact h
    · next hl =>
      rw [List.length_append, List.length_singleton]
      omega
  | appendAll new =>
    rw [perform, List.length_append, List.length_take]
    omega
  | erase item =>
    exact List.length_erase_le.trans h
  | clear => exact Nat.zero_le _
  | deleteIf pred =>
    exact (List.length_filter_le _ items).trans h
  | apply | findIf => exact h

/-! ### What a thread knows -/

/-- The operation is going to change the list, and writes as much as there is room for. -/
def Ready (capacity : ℕ) (items : List α) (op : Operation α) (towrite : ℤ) : Prop :=
  match op with
  | .append _ => items.length ≠ capacity
  | .appendAll new =>
    items.length ≠ capacity ∧ towrite = (min new.length (capacity - items.length) : ℕ)
  | .erase _ | .clear | .deleteIf _ => True
  | .apply | .findIf .. => False

/-- The operation adds to a copy of the whole list, or to none of it. -/
def Operation.extends : Operation α → Prop
  | .append _ | .appendAll _ | .clear => True
  | .erase _ | .deleteIf _ | .apply | .findIf .. => False

/-- What was copied so far. -/
def Copied (op : Operation α) (orig nextbuf : List α) (it : ℕ) (hit : Bool) : Prop :=
  it ≤ orig.length ∧ (nextbuf, hit) = copies op (orig.take it)

/-- What a thread knows about the buffer that it has locked and the one that it writes. -/
def Place.Knows (l : ListLockFree α) (op : Operation α) (towrite : ℤ) : Place α → Prop
  | .locked orig => (l.data orig).length ≤ l.capacity
  | .scan orig _ | .skip orig _ | .clean orig _ => Ready l.capacity (l.data orig) op towrite
  | .copy orig b it hit => Ready l.capacity (l.data orig) op towrite ∧
    op ≠ .clear ∧ Copied op (l.data orig) (l.data b) it hit
  | .extend orig b => Ready l.capacity (l.data orig) op towrite ∧ op.extends ∧
    (op ≠ .clear → l.data b = l.data orig)
  | .cas orig b => settles l.capacity op (l.data orig) = false ∧
    (l.data b, success op towrite) = perform l.capacity (l.data orig) op
  | .traverse orig items => op = .apply ∧ items = (l.data orig).take items.length
  | .seek orig it => it ≤ (l.data orig).length ∧
    ∃ func blank, op = .findIf func blank ∧ ((l.data orig).take it).find? func = none
  | .read | .lock _ | .check _ | .unlock _ | .retryOrig .. | .retryNext _ | .dropLock .. | .dropRef ..
  | .giveUp .. | .giveBack _ | .release .. | .seekRelease .. | .seekRead .. => True

/-- Whether the operation took effect. -/
def settled (capacity : ℕ) (op : Operation α) (items : List α) :
    Status (Operation α) (Result α) :=
  if settles capacity op items then .done op (perform capacity items op).2 else .called op

theorem settled_true {capacity : ℕ} {op : Operation α} {items : List α}
    (h : settles capacity op items = true) :
    settled capacity op items = .done op (perform capacity items op).2 :=
  if_pos h

theorem settled_false {capacity : ℕ} {op : Operation α} {items : List α}
    (h : settles capacity op items = false) : settled capacity op items = .called op :=
  if_neg (by rw [h]; exact nofun)

def Place.status (l : ListLockFree α) (op : Operation α) :
    Place α → Status (Operation α) (Result α)
  | .read | .lock _ | .check _ | .unlock _ | .retryOrig .. | .retryNext _ | .extend .. | .cas .. =>
    .called op
  | .locked orig | .scan orig _ | .skip orig _ | .clean orig _ | .copy orig _ _ _
  | .traverse orig _ | .seek orig _ => settled l.capacity op (l.data orig)
  | .dropLock _ r | .dropRef _ r | .release _ r => .done op r
  | .giveUp .. | .giveBack _ => .done op (.done false)
  | .seekRelease orig it | .seekRead orig it => .done op (.found (l.data orig)[it]?)

def Activity.status (l : ListLockFree α) : Activity α → Status (Operation α) (Result α)
  | .running op _ p => p.status l op
  | .idle | .undefined => .idle

def Activity.Knows (l : ListLockFree α) : Activity α → Prop
  | .idle => True
  | .running op towrite p => op.limits towrite ∧ p.Knows l op towrite
  | .undefined => False

/-! ### Who uses which buffer -/

/-- The buffers that each thread counts, who has claimed which one, and all that happened. -/
structure Ledger (α τ : Type) where
  held : τ → List ℕ
  claimed : ℕ → Option τ
  log : List (Entry τ (Operation α) (Result α))

/-- A buffer is counted once when it is active, and once for each use of a thread. -/
structure Accounts [Fintype τ] (g : Ledger α τ) (s : Traced α τ) : Prop where
  count : ∀ b, s.list.count b =
    (if s.list.active = b then 0 else -1) + ∑ t, ((g.held t).count b : ℤ)
  active : g.claimed s.list.active = none
  legal : Legal (perform s.list.capacity) [] g.log (s.list.data s.list.active)
  history : g.log.filter Entry.visible = s.history

structure Plays (g : Ledger α τ) (t : τ) (s : Traced α τ) (a : Activity α) : Prop where
  held : g.held t = a.held
  claim : ∀ b, a.claim = some b ↔ g.claimed b = some t
  watches : ∀ b, a.watches = some b → g.claimed b = none
  follows : Follows t g.log (a.status s.list)
  knows : a.Knows s.list

theorem Place.congr {l l' : ListLockFree α} {p : Place α} (op : Operation α) (towrite : ℤ)
    (hc : l'.capacity = l.capacity) (hw : ∀ b, p.watches = some b → l'.data b = l.data b)
    (hb : ∀ b, p.claim = some b → l'.data b = l.data b) :
    p.status l' op = p.status l op ∧ (p.Knows l op towrite → p.Knows l' op towrite) := by
  cases p with
  | read | lock | check | unlock | retryOrig | retryNext | dropLock | dropRef | giveUp | giveBack
  | release => exact ⟨rfl, fun h => h⟩
  | locked orig | scan orig _ | skip orig _ | clean orig _ | traverse orig _ | seek orig _ =>
    have ho := hw orig rfl
    simp only [status, Knows, settled, hc, ho]
    exact ⟨trivial, fun h => h⟩
  | copy orig b | extend orig b | cas orig b =>
    have ho := hw orig rfl
    have hn := hb b rfl
    simp only [status, Knows, settled, hc, ho, hn]
    exact ⟨trivial, fun h => h⟩
  | seekRelease orig it | seekRead orig it =>
    have ho := hw orig rfl
    simp only [status, Knows, ho]
    exact ⟨trivial, fun h => h⟩

theorem Activity.congr {l l' : ListLockFree α} {a : Activity α} (hc : l'.capacity = l.capacity)
    (hw : ∀ b, a.watches = some b → l'.data b = l.data b)
    (hb : ∀ b, a.claim = some b → l'.data b = l.data b) :
    a.status l' = a.status l ∧ (a.Knows l → a.Knows l') := by
  cases a with
  | idle | undefined => exact ⟨rfl, fun h => h⟩
  | running op towrite p =>
    obtain ⟨hstatus, hknows⟩ := Place.congr op towrite hc hw hb
    exact ⟨hstatus, fun h => ⟨h.1, hknows h.2⟩⟩

theorem Plays.watches_ne_claim {g : Ledger α τ} {t : τ} {s : Traced α τ}
    {a : Activity α} (hp : Plays g t s a) {b : ℕ}
    (hw : a.watches = some b) : a.claim ≠ some b := by
  intro hc
  have hmine := (hp.claim b).mp hc
  rw [hp.watches b hw] at hmine
  cases hmine

/-- What is written to the claimed buffer does not change the locked one. -/
theorem Plays.data_write {g : Ledger α τ} {t : τ} {s : Traced α τ} {a : Activity α} {orig b : ℕ}
    (hp : Plays g t s a) (hw : a.watches = some orig) (hc : a.claim = some b) (items : List α) :
    (s.list.write b items).data orig = s.list.data orig := by
  apply Function.update_of_ne
  rintro rfl
  exact hp.watches_ne_claim hw hc

section Steps

variable [Fintype τ] {g : Ledger α τ} {m : System (Traced α τ) τ (Activity α)} {t : τ}

/-- Nobody uses a buffer that is counted as unused. -/
theorem unused (hm : Holds Accounts Plays g m) {b : ℕ} (hb : m.shared.list.count b = -1) :
    m.shared.list.active ≠ b ∧ (∀ u, b ∉ (m.locals u).held) ∧ g.claimed b = none := by
  have hcount := hm.shared.count b
  have hnonneg : ∀ u ∈ Finset.univ, 0 ≤ ((g.held u).count b : ℤ) := fun u _ => by omega
  have hsum := Finset.sum_nonneg hnonneg
  rw [hb] at hcount
  have hactive : m.shared.list.active ≠ b := by
    intro he
    rw [if_pos he] at hcount
    omega
  rw [if_neg hactive] at hcount
  have hzero : ∑ u, ((g.held u).count b : ℤ) = 0 := by omega
  have hnone (u : τ) : b ∉ (m.locals u).held := by
    have hu := (Finset.sum_eq_zero_iff_of_nonneg hnonneg).mp hzero u (Finset.mem_univ u)
    rw [← (hm.locals u).held]
    exact List.count_eq_zero.mp (by exact_mod_cast hu)
  refine ⟨hactive, hnone, ?_⟩
  cases hc : g.claimed b with
  | none => rfl
  | some u => exact absurd (Activity.claim_held (((hm.locals u).claim b).mpr hc)) (hnone u)

/-- Who has claimed a buffer after a turn. -/
def claimedAfter (t : τ) (a a' : Activity α) (claimed : ℕ → Option τ) (b : ℕ) : Option τ :=
  if a'.claim = some b then some t else if a.claim = some b then none else claimed b

/-- A turn of a thread, and what is logged. -/
structure Moves (m : System (Traced α τ) τ (Activity α)) (t : τ) (s' : Traced α τ) (a' : Activity α)
    (log es : List (Entry τ (Operation α) (Result α))) : Prop where
  balance : ∀ b, s'.list.count b - (if s'.list.active = b then 0 else -1) - (a'.held.count b : ℤ) =
    m.shared.list.count b - (if m.shared.list.active = b then 0 else -1) -
      ((m.locals t).held.count b : ℤ)
  capacity : s'.list.capacity = m.shared.list.capacity
  claim : ∀ b, a'.claim = some b → (m.locals t).claim = some b ∨
    m.shared.list.count b = -1 ∧ ∀ u, (m.locals u).reads ≠ some b
  data : ∀ b, (m.locals t).claim ≠ some b → s'.list.data b = m.shared.list.data b
  active : a'.claim ≠ some s'.list.active ∧
    (s'.list.active = m.shared.list.active ∨ (m.locals t).claim = some s'.list.active)
  watches : ∀ b, a'.watches = some b → a'.claim ≠ some b ∧
    ((m.locals t).watches = some b ∨ b = m.shared.list.active)
  legal : Legal (perform s'.list.capacity) [] (log ++ es) (s'.list.data s'.list.active)
  history : s'.history = m.shared.history ++ es.filter Entry.visible
  thread : ∀ e ∈ es, e.thread = t
  follows : Follows t (log ++ es) (a'.status s'.list)
  knows : a'.Knows s'.list

theorem Moves.holds [DecidableEq τ] (hm : Holds Accounts Plays g m) {op : Operation α} {s' : Traced α τ}
    {a' : Activity α} {es : List (Entry τ (Operation α) (Result α))}
    (hturn : turn t op m.shared (m.locals t) = (s', a')) (h : Moves m t s' a' g.log es) :
    ∃ g', Holds Accounts Plays g' (m.step turn (t, op)) := by
  have hs := hm.shared
  have ht := hm.locals t
  let claimed' := claimedAfter t (m.locals t) a' g.claimed
  -- a buffer that is newly claimed was not in use
  have hnew (b : ℕ) (hb : a'.claim = some b) : g.claimed b = some t ∨
      g.claimed b = none ∧ ∀ u, (m.locals u).watches ≠ some b := by
    rcases h.claim b hb with hold | ⟨hcount, hreads⟩
    · exact .inl ((ht.claim b).mp hold)
    · obtain ⟨-, hheld, hfree⟩ := unused hm hcount
      exact .inr ⟨hfree, fun u hu => hheld u (Activity.watches_held hu (hreads u))⟩
  have hothers (u : τ) (hu : u ≠ t) (b : ℕ) : claimed' b = some u ↔ g.claimed b = some u := by
    show claimedAfter t (m.locals t) a' g.claimed b = some u ↔ _
    rw [claimedAfter]
    split
    · next hb =>
      apply iff_of_false
      · rintro ⟨⟩
        exact hu rfl
      · rcases hnew b hb with hold | ⟨hfree, -⟩
        · rw [hold]
          rintro ⟨⟩
          exact hu rfl
        · rw [hfree]
          exact nofun
    · split
      · next hold =>
        rw [(ht.claim b).mp hold]
        apply iff_of_false nofun
        rintro ⟨⟩
        exact hu rfl
      · rfl
  have hnone (b : ℕ) (hb : g.claimed b = none) (hb' : a'.claim ≠ some b) : claimed' b = none := by
    show claimedAfter t (m.locals t) a' g.claimed b = none
    rw [claimedAfter, if_neg hb']
    split
    · rfl
    · exact hb
  refine ⟨⟨Function.update g.held t a'.held, claimed', g.log ++ es⟩, ?_⟩
  have hstep : turn t op m.shared (m.locals t) = (s', a') := hturn
  apply Holds.step <;> rw [hstep]
  · constructor
    · intro b
      have hold := hs.count b
      have hbalance := h.balance b
      have hsum : ∑ u, ((Function.update g.held t a'.held u).count b : ℤ) =
          ∑ u, ((g.held u).count b : ℤ) - ((g.held t).count b : ℤ) + (a'.held.count b : ℤ) := by
        rw [← sum_update]
        apply Finset.sum_congr rfl
        intro u _
        by_cases hu : u = t
        · rw [hu, Function.update_self, Function.update_self]
        · rw [Function.update_of_ne hu, Function.update_of_ne hu]
      rw [ht.held] at hsum
      show s'.list.count b = (if s'.list.active = b then 0 else -1) +
        ∑ u, ((Function.update g.held t a'.held u).count b : ℤ)
      rw [hsum]
      generalize (if s'.list.active = b then (0 : ℤ) else -1) = x at hbalance ⊢
      generalize (if m.shared.list.active = b then (0 : ℤ) else -1) = y at hbalance hold
      omega
    · obtain ⟨hclaim, hactive | hpublished⟩ := h.active
      · rw [hactive]
        rw [hactive] at hclaim
        exact hnone _ hs.active hclaim
      · show claimedAfter t (m.locals t) a' g.claimed _ = none
        rw [claimedAfter, if_neg hclaim, if_pos hpublished]
    · exact h.legal
    · show (g.log ++ es).filter Entry.visible = _
      rw [List.filter_append, hs.history, h.history]
  · constructor
    · exact Function.update_self ..
    · intro b
      show _ ↔ claimedAfter t (m.locals t) a' g.claimed b = some t
      rw [claimedAfter]
      split
      · next hb => exact iff_of_true hb rfl
      · next hb =>
        split
        · exact iff_of_false hb nofun
        · next hold => exact iff_of_false hb fun hc => hold ((ht.claim b).mpr hc)
    · intro b hb
      obtain ⟨hclaim, hw | rfl⟩ := h.watches b hb
      · exact hnone b (ht.watches b hw) hclaim
      · exact hnone _ hs.active hclaim
    · exact h.follows
    · exact h.knows
  · intro u hu
    have hp := hm.locals u
    have hwatch (b : ℕ) (hb : (m.locals u).watches = some b) :
        s'.list.data b = m.shared.list.data b := by
      apply h.data
      intro hc
      have hclaim := (ht.claim b).mp hc
      rw [hp.watches b hb] at hclaim
      cases hclaim
    have hclaim (b : ℕ) (hb : (m.locals u).claim = some b) :
        s'.list.data b = m.shared.list.data b := by
      apply h.data
      intro hc
      have hmine := (ht.claim b).mp hc
      rw [(hp.claim b).mp hb] at hmine
      cases hmine
      exact hu rfl
    obtain ⟨hstatus, hknows⟩ := Activity.congr h.capacity hwatch hclaim
    constructor
    · exact (Function.update_of_ne hu ..).trans hp.held
    · exact fun b => (hp.claim b).trans (hothers u hu b).symm
    · intro b hb
      apply hnone b (hp.watches b hb)
      intro hb'
      rcases hnew b hb' with hold | ⟨-, hno⟩
      · rw [hp.watches b hb] at hold
        cases hold
      · exact hno u hb
    · rw [hstatus]
      exact hp.follows.append fun e he het => hu (het.symm.trans (h.thread e he))
    · exact hknows hp.knows

/-- A turn that logs nothing and does not change the active buffer. -/
theorem Moves.quiet (hm : Holds Accounts Plays g m) {s' : Traced α τ} {a' : Activity α}
    (hbalance : ∀ b, s'.list.count b - (a'.held.count b : ℤ) =
      m.shared.list.count b - ((m.locals t).held.count b : ℤ))
    (hcapacity : s'.list.capacity = m.shared.list.capacity)
    (hactive : s'.list.active = m.shared.list.active)
    (hhistory : s'.history = m.shared.history)
    (hclaim : ∀ b, a'.claim = some b → (m.locals t).claim = some b ∨
      m.shared.list.count b = -1 ∧ ∀ u, (m.locals u).reads ≠ some b)
    (hdata : ∀ b, (m.locals t).claim ≠ some b → s'.list.data b = m.shared.list.data b)
    (hwatches : ∀ b, a'.watches = some b → a'.claim ≠ some b ∧
      ((m.locals t).watches = some b ∨ b = m.shared.list.active))
    (hstatus : a'.status s'.list = (m.locals t).status m.shared.list)
    (hknows : a'.Knows s'.list) : Moves m t s' a' g.log [] := by
  have hs := hm.shared
  have ht := hm.locals t
  have hmine : (m.locals t).claim ≠ some m.shared.list.active := by
    intro hc
    have hclaimed := (ht.claim _).mp hc
    rw [hs.active] at hclaimed
    cases hclaimed
  constructor
  · intro b
    have hb := hbalance b
    rw [hactive]
    omega
  · exact hcapacity
  · exact hclaim
  · exact hdata
  · rw [hactive]
    refine ⟨fun hc => ?_, .inl rfl⟩
    rcases hclaim _ hc with hold | ⟨hcount, -⟩
    · exact hmine hold
    · exact (unused hm hcount).1 rfl
  · exact hwatches
  · rw [List.append_nil, hcapacity, hactive, hdata _ hmine]
    exact hs.legal
  · rw [hhistory]
    exact (List.append_nil _).symm
  · exact fun _ => nofun
  · rw [List.append_nil, hstatus]
    exact ht.follows
  · exact hknows

/-- A turn that only looks at the list. -/
theorem Moves.local (hm : Holds Accounts Plays g m) {a' : Activity α}
    (hheld : a'.held = (m.locals t).held) (hclaim : a'.claim = (m.locals t).claim)
    (hwatches : a'.watches = (m.locals t).watches)
    (hstatus : a'.status m.shared.list = (m.locals t).status m.shared.list)
    (hknows : a'.Knows m.shared.list) : Moves m t m.shared a' g.log [] := by
  apply Moves.quiet hm
  · intro b
    rw [hheld]
  · rfl
  · rfl
  · rfl
  · intro b hb
    exact .inl (hclaim ▸ hb)
  · exact fun _ _ => rfl
  · intro b hb
    rw [hwatches] at hb
    rw [hclaim]
    exact ⟨(hm.locals t).watches_ne_claim hb, .inl hb⟩
  · exact hstatus
  · exact hknows

/-- A thread gives up a use of a buffer. -/
theorem Moves.dec (hm : Holds Accounts Plays g m) {a' : Activity α} {b : ℕ}
    (hheld : (m.locals t).held.Perm (b :: a'.held))
    (hclaim : ∀ c, a'.claim = some c → (m.locals t).claim = some c)
    (hwatches : ∀ c, a'.watches = some c → (m.locals t).watches = some c)
    (hstatus : a'.status m.shared.list = (m.locals t).status m.shared.list)
    (hknows : a'.Knows (m.shared.list.dec b)) :
    Moves m t ⟨m.shared.list.dec b, m.shared.history⟩ a' g.log [] := by
  apply Moves.quiet hm
  · exact dec_balance m.shared.list hheld
  · rfl
  · rfl
  · rfl
  · exact fun c hc => .inl (hclaim c hc)
  · exact fun _ _ => rfl
  · intro c hc
    refine ⟨fun hcl => ?_, .inl (hwatches c hc)⟩
    exact (hm.locals t).watches_ne_claim (hwatches c hc) (hclaim c hcl)
  · exact hstatus.symm ▸ (Activity.congr rfl (fun _ _ => rfl) fun _ _ => rfl).1
  · exact hknows

/-- A thread writes the buffer that it has claimed. -/
theorem Moves.write (hm : Holds Accounts Plays g m) {a' : Activity α} {b : ℕ} {items : List α}
    (hmine : (m.locals t).claim = some b) (hheld : a'.held = (m.locals t).held)
    (hclaim : a'.claim = (m.locals t).claim) (hwatches : a'.watches = (m.locals t).watches)
    (hstatus : a'.status (m.shared.list.write b items) = (m.locals t).status m.shared.list)
    (hknows : a'.Knows (m.shared.list.write b items)) :
    Moves m t ⟨m.shared.list.write b items, m.shared.history⟩ a' g.log [] := by
  apply Moves.quiet hm
  · intro c
    rw [hheld]
    rfl
  · rfl
  · rfl
  · rfl
  · exact fun c hc => .inl (hclaim ▸ hc)
  · intro c hc
    apply Function.update_of_ne
    rintro rfl
    exact hc hmine
  · intro c hc
    rw [hwatches] at hc
    rw [hclaim]
    exact ⟨(hm.locals t).watches_ne_claim hc, .inl hc⟩
  · exact hstatus
  · exact hknows

/-- A call returns, and the thread gives up what it used. -/
theorem Moves.returned (hm : Holds Accounts Plays g m) {op : Operation α} {r : Result α}
    {l : ListLockFree α} (hdone : (m.locals t).status m.shared.list = .done op r)
    (hbalance : ∀ b, l.count b = m.shared.list.count b - ((m.locals t).held.count b : ℤ))
    (hcapacity : l.capacity = m.shared.list.capacity) (hactive : l.active = m.shared.list.active)
    (hdata : l.data = m.shared.list.data) :
    Moves m t ⟨l, m.shared.history ++ [.returned t r]⟩ .idle g.log [.returned t r] := by
  have hs := hm.shared
  have ht := hm.locals t
  constructor
  · intro b
    show l.count b - (if l.active = b then 0 else -1) - (([] : List ℕ).count b : ℤ) = _
    rw [hbalance b, hactive, List.count_nil]
    omega
  · exact hcapacity
  · exact fun _ => nofun
  · intro b _
    show l.data b = _
    rw [hdata]
  · exact ⟨nofun, .inl hactive⟩
  · exact fun _ => nofun
  · show Legal (perform l.capacity) [] _ (l.data l.active)
    rw [hcapacity, hdata, hactive]
    exact hs.legal.visible rfl
  · rfl
  · intro e he
    rw [List.mem_singleton.mp he]
    rfl
  · have hfollows := ht.follows
    rw [hdone] at hfollows
    exact hfollows.returned
  · trivial

end Steps

end OrocosRtt.LockFree.ListLockFree
