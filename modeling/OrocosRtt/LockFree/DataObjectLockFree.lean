import OrocosRtt.Library.Interleaving
import Mathlib.Algebra.BigOperators.Group.Finset.Basic
import Mathlib.Algebra.Order.BigOperators.Group.Finset
import Mathlib.Data.Fintype.Basic

/-! The data object with one writer and readers that count themselves in and out of a buffer. -/
namespace OrocosRtt.LockFree

/-- A ring of buffers of `width` words; the buffers are numbered. -/
structure DataObjectLockFree (β : Type) (width : ℕ) where
  /-- `BUF_LEN` -/
  bufLen : ℕ
  readPtr : ℕ
  writePtr : ℕ
  data : ℕ → Fin width → β
  counter : ℕ → ℤ
  next : ℕ → ℕ

namespace DataObjectLockFree

variable {β κ : Type} {width : ℕ}

/-- The object as it is constructed for `maxThreads` threads. -/
def create (sample : Fin width → β) (maxThreads : ℕ) : DataObjectLockFree β width where
  bufLen := maxThreads + 2
  readPtr := 0
  writePtr := 1
  data := fun _ => sample
  counter := fun _ => 0
  next := fun i => if i = maxThreads + 2 - 1 then 0 else i + 1

/-- Where the writer is in `Set`, before the next access to what is shared. -/
inductive Setting (β : Type) (width : ℕ) where
  | fill (i : ℕ) (push : Fin width → β)
  | count (wrote : ℕ) (push : Fin width → β)
  | compare (wrote : ℕ) (push : Fin width → β)
  | skip (wrote : ℕ) (push : Fin width → β)
  | publish (wrote : ℕ) (push : Fin width → β)
  | advance
  deriving DecidableEq

/-- Where a reader is in `Get`. -/
inductive Getting (β : Type) (width : ℕ) where
  | load (pull : Fin width → β)
  | inc (reading : ℕ) (pull : Fin width → β)
  | check (reading : ℕ) (pull : Fin width → β)
  | dec (reading : ℕ) (pull : Fin width → β)
  | copy (reading i : ℕ) (pull : Fin width → β)
  | release (reading : ℕ) (pull : Fin width → β)
  deriving DecidableEq

/-- `data` with one word of a buffer replaced. -/
def putWord (data : ℕ → Fin width → β) (b : ℕ) (i : Fin width) (v : β) : ℕ → Fin width → β :=
  Function.update data b (Function.update (data b) i v)

/-- A turn in `Set`; the value is copied word by word. -/
def set (e : Setting β width) (o : DataObjectLockFree β width) :
    DataObjectLockFree β width × (Setting β width ⊕ Unit) :=
  match e with
  | .fill i push =>
    if h : i < width then
      ({ o with data := putWord o.data o.writePtr ⟨i, h⟩ (push ⟨i, h⟩) },
        .inl (.fill (i + 1) push))
    else (o, .inl (.count o.writePtr push))
  | .count wrote push =>
    if o.counter (o.next o.writePtr) ≠ 0 then (o, .inl (.skip wrote push))
    else (o, .inl (.compare wrote push))
  | .compare wrote push =>
    if o.next o.writePtr = o.readPtr then (o, .inl (.skip wrote push))
    else (o, .inl (.publish wrote push))
  | .skip wrote push =>
    ({ o with writePtr := o.next o.writePtr },
      if o.next o.writePtr = wrote then .inr () else .inl (.count wrote push))
  | .publish wrote _ => ({ o with readPtr := wrote }, .inl .advance)
  | .advance => ({ o with writePtr := o.next o.writePtr }, .inr ())

/-- A turn in `Get`. -/
def get (e : Getting β width) (o : DataObjectLockFree β width) :
    DataObjectLockFree β width × (Getting β width ⊕ (Fin width → β)) :=
  match e with
  | .load pull => (o, .inl (.inc o.readPtr pull))
  | .inc reading pull =>
    ({ o with counter := Function.update o.counter reading (o.counter reading + 1) },
      .inl (.check reading pull))
  | .check reading pull =>
    if reading ≠ o.readPtr then (o, .inl (.dec reading pull)) else (o, .inl (.copy reading 0 pull))
  | .dec reading pull =>
    ({ o with counter := Function.update o.counter reading (o.counter reading - 1) },
      .inl (.load pull))
  | .copy reading i pull =>
    if h : i < width then
      (o, .inl (.copy reading (i + 1) (Function.update pull ⟨i, h⟩ (o.data reading ⟨i, h⟩))))
    else (o, .inl (.release reading pull))
  | .release reading pull =>
    ({ o with counter := Function.update o.counter reading (o.counter reading - 1) }, .inr pull)

/-! ### One writer and any number of readers -/

/-- A call to `Get` that is over: how many calls to `Set` were over when it began, and how many
had begun when it returned. -/
structure Got (β κ : Type) (width : ℕ) where
  reader : κ
  since : ℕ
  before : ℕ
  pull : Fin width → β

/-- The object, with the values given to `Set` and those that were published, both behind the
initial one. -/
structure Traced (β κ : Type) (width : ℕ) where
  object : DataObjectLockFree β width
  sets : List (Fin width → β)
  completed : ℕ
  published : List (Fin width → β)
  gets : List (Got β κ width)

inductive Activity (β : Type) (width : ℕ) where
  | idle
  | setting (e : Setting β width)
  | getting (since : ℕ) (e : Getting β width)
  deriving DecidableEq

/-- The value that a turn of the writer publishes. -/
def Setting.publishes : Setting β width → List (Fin width → β)
  | .publish _ push => [push]
  | .fill .. | .count .. | .compare .. | .skip .. | .advance => []

/-- The thread `none` calls `Set` with the value, and `some t` calls `Get` for a variable that
has the value. -/
def turn (t : Option κ) (value : Fin width → β) (s : Traced β κ width) (a : Activity β width) :
    Traced β κ width × Activity β width :=
  match t, a with
  | none, .idle => ({ s with sets := s.sets ++ [value] }, .setting (.fill 0 value))
  | none, .setting e =>
    let r := set e s.object
    ({ s with
        object := r.1
        completed := r.2.elim (fun _ => s.completed) fun _ => s.completed + 1
        published := s.published ++ e.publishes },
      r.2.elim .setting fun _ => .idle)
  | some _, .idle => (s, .getting s.completed (.load value))
  | some t, .getting since e =>
    let r := get e s.object
    ({ s with
        object := r.1
        gets := s.gets ++ r.2.elim (fun _ => []) fun pull => [⟨t, since, s.sets.length - 1, pull⟩] },
      r.2.elim (.getting since) fun _ => .idle)
  | none, .getting .. | some _, .setting _ => (s, a)

open Library.Interleaving

/-- The object with its initial value, and nobody in a call. -/
def start (maxThreads : ℕ) (sample : Fin width → β) :
    System (Traced β κ width) (Option κ) (Activity β width) where
  shared := ⟨create sample maxThreads, [sample], 0, [sample], []⟩
  locals := fun _ => .idle

/-! ### Who may touch which buffer -/

/-- The buffer whose counter the reader has incremented. -/
def Getting.holds : Getting β width → Option ℕ
  | .check reading _ | .dec reading _ | .copy reading .. | .release reading _ => some reading
  | .load _ | .inc .. => none

/-- The buffer that was still published after the reader had incremented its counter. -/
def Getting.validated : Getting β width → Option ℕ
  | .copy reading .. | .release reading _ => some reading
  | .load _ | .inc .. | .check .. | .dec .. => none

/-- The buffer the reader has in its hand. -/
def Getting.hand : Getting β width → Option ℕ
  | .inc reading _ | .check reading _ | .dec reading _ | .copy reading .. | .release reading _ =>
    some reading
  | .load _ => none

def Activity.holds : Activity β width → Option ℕ
  | .getting _ e => e.holds
  | .idle | .setting _ => none

def Activity.validated : Activity β width → Option ℕ
  | .getting _ e => e.validated
  | .idle | .setting _ => none

def Activity.hand : Activity β width → Option ℕ
  | .getting _ e => e.hand
  | .idle | .setting _ => none

theorem Getting.holds_of_validated {e : Getting β width} {b : ℕ} (h : e.validated = some b) :
    e.holds = some b := by
  cases e with
  | copy | release => exact h
  | load | inc | check | dec => cases h

theorem Getting.hand_of_holds {e : Getting β width} {b : ℕ} (h : e.holds = some b) :
    e.hand = some b := by
  cases e with
  | check | dec | copy | release => exact h
  | load | inc => cases h

theorem Activity.holds_of_validated {a : Activity β width} {b : ℕ} (h : a.validated = some b) :
    a.holds = some b := by
  cases a with
  | getting since e => exact e.holds_of_validated h
  | idle | setting => cases h

theorem Activity.hand_of_holds {a : Activity β width} {b : ℕ} (h : a.holds = some b) :
    a.hand = some b := by
  cases a with
  | getting since e => exact e.hand_of_holds h
  | idle | setting => cases h

/-- The writer may fill the buffer: it is not published and nobody copies it. -/
def Free (o : DataObjectLockFree β width) (r : κ → Activity β width) (b : ℕ) : Prop :=
  b ≠ o.readPtr ∧ ∀ t, (r t).validated ≠ some b

/-- What the writer knows in `Set`. -/
def Setting.Knows (o : DataObjectLockFree β width) (r : κ → Activity β width) :
    Setting β width → Prop
  | .fill i push => Free o r o.writePtr ∧ ∀ j : Fin width, j < i → o.data o.writePtr j = push j
  | .count wrote push | .skip wrote push => Free o r wrote ∧ o.data wrote = push
  | .compare wrote push =>
    (Free o r wrote ∧ o.data wrote = push) ∧
      (o.next o.writePtr ≠ o.readPtr → Free o r (o.next o.writePtr))
  | .publish wrote push => (Free o r wrote ∧ o.data wrote = push) ∧ Free o r (o.next o.writePtr)
  | .advance => Free o r (o.next o.writePtr)

/-- What a reader knows of the buffer it copies: `number` tells which published value each buffer
holds. -/
def Getting.Knows (number : ℕ → ℕ) (s : Traced β κ width) : Getting β width → Prop
  | .copy reading i pull => s.published[number reading]? = some (s.object.data reading) ∧
    ∀ j : Fin width, j < i → pull j = s.object.data reading j
  | .release reading pull => s.published[number reading]? = some pull
  | .load _ | .inc .. | .check .. | .dec .. => True

def Activity.Writes (o : DataObjectLockFree β width) (r : κ → Activity β width) :
    Activity β width → Prop
  | .idle => Free o r o.writePtr
  | .setting e => e.Knows o r
  | .getting .. => False

def Activity.Reads (number : ℕ → ℕ) (s : Traced β κ width) : Activity β width → Prop
  | .idle => True
  | .getting _ e => e.Knows number s
  | .setting _ => False

/-- The counters tell the readers, the published buffer holds the last published value, and nobody
is in the way of the writer. -/
structure Safe [Fintype κ] (number : ℕ → ℕ) (s : Traced β κ width) (w : Activity β width)
    (r : κ → Activity β width) : Prop where
  counter : ∀ b, s.object.counter b = tally (fun a : Activity β width => a.holds = some b) r
  last : s.published.length = number s.object.readPtr + 1
  here : s.published[number s.object.readPtr]? = some (s.object.data s.object.readPtr)
  writer : w.Writes s.object r
  readers : ∀ t, (r t).Reads number s

/-- What a turn of the reader `t` does: it changes counters only, and what it has validated or has
in its hand anew is the published buffer. -/
structure ReaderTurn (number : ℕ → ℕ) (t : κ) (s s' : Traced β κ width)
    (a a' : Activity β width) : Prop where
  object : s'.object = { s.object with counter := s'.object.counter }
  sets : s'.sets = s.sets
  completed : s'.completed = s.completed
  published : s'.published = s.published
  counter : ∀ b, s'.object.counter b =
    s.object.counter b - (if a.holds = some b then 1 else 0) + if a'.holds = some b then 1 else 0
  validated : ∀ b, a'.validated = some b → a.validated = some b ∨ b = s.object.readPtr
  hand : ∀ b, a'.hand = some b → a.hand = some b ∨ b = s.object.readPtr
  reads : a'.Reads number s'
  since : ∀ since e', a' = .getting since e' →
    a = .idle ∧ since = s.completed ∨ ∃ e, a = .getting since e
  gets : s'.gets = s.gets ∨ ∃ since e b pull, a = .getting since e ∧ e.validated = some b ∧
    s.published[number b]? = some pull ∧
    s'.gets = s.gets ++ [⟨t, since, s.sets.length - 1, pull⟩] ∧ a' = .idle

theorem get_turn {number : ℕ → ℕ} {s : Traced β κ width} {since : ℕ} {e : Getting β width} (t : κ)
    (value : Fin width → β)
    (hhere : s.published[number s.object.readPtr]? = some (s.object.data s.object.readPtr))
    (he : e.Knows number s) :
    ReaderTurn number t s (turn (some t) value s (.getting since e)).1 (.getting since e)
      (turn (some t) value s (.getting since e)).2 := by
  have hsince (e' : Getting β width) : ∀ since' e'', Activity.getting since e' = .getting since' e'' →
      Activity.getting since e = .idle ∧ since' = s.completed ∨
        ∃ d, Activity.getting since e = .getting since' d := by
    rintro _ _ ⟨⟩
    exact .inr ⟨e, rfl⟩
  cases e with
  | load pull =>
    refine ⟨rfl, rfl, rfl, rfl, fun b => ?_, nofun, ?_, trivial, ?_, .inl (List.append_nil _)⟩
    · simp [turn, get, Activity.holds, Getting.holds]
    · rintro b ⟨⟩
      exact .inr rfl
    · exact hsince _
  | inc reading pull =>
    refine ⟨rfl, rfl, rfl, rfl, fun b => ?_, nofun, fun b hb => .inl hb, trivial, hsince _,
      .inl (List.append_nil _)⟩
    by_cases hb : b = reading
    · subst hb
      simp [turn, get, Activity.holds, Getting.holds]
    · simp [turn, get, Activity.holds, Getting.holds, hb, Ne.symm hb]
  | check reading pull =>
    by_cases hr : reading = s.object.readPtr
    · subst hr
      simp only [turn, get, ne_eq, not_true_eq_false, if_false, Sum.elim_inl, List.append_nil]
      refine ⟨rfl, rfl, rfl, rfl, fun b => ?_, ?_, fun b hb => .inl hb, ⟨hhere, nofun⟩, hsince _,
        .inl rfl⟩
      · simp [Activity.holds, Getting.holds]
      · rintro b ⟨⟩
        exact .inr rfl
    · simp only [turn, get, ne_eq, hr, not_false_eq_true, if_true, Sum.elim_inl, List.append_nil]
      refine ⟨rfl, rfl, rfl, rfl, fun b => ?_, nofun, fun b hb => .inl hb, trivial, hsince _,
        .inl rfl⟩
      simp [Activity.holds, Getting.holds]
  | dec reading pull =>
    refine ⟨rfl, rfl, rfl, rfl, fun b => ?_, nofun, nofun, trivial, hsince _,
      .inl (List.append_nil _)⟩
    by_cases hb : b = reading
    · subst hb
      simp [turn, get, Activity.holds, Getting.holds]
    · simp [turn, get, Activity.holds, Getting.holds, hb, Ne.symm hb]
  | copy reading i pull =>
    obtain ⟨hnumber, hcopied⟩ := he
    by_cases hi : i < width
    · simp only [turn, get, hi, dite_true, Sum.elim_inl, List.append_nil]
      refine ⟨rfl, rfl, rfl, rfl, fun b => ?_, fun b hb => .inl hb, fun b hb => .inl hb,
        ⟨hnumber, fun j hj => ?_⟩, hsince _, .inl rfl⟩
      · simp [Activity.holds, Getting.holds]
      · by_cases hji : j = ⟨i, hi⟩
        · rw [hji, Function.update_self]
        · have hne : (j : ℕ) ≠ i := fun h => hji (Fin.ext h)
          rw [Function.update_of_ne hji]
          exact hcopied j (by omega)
    · simp only [turn, get, hi, dite_false, Sum.elim_inl, List.append_nil]
      refine ⟨rfl, rfl, rfl, rfl, fun b => ?_, fun b hb => .inl hb, fun b hb => .inl hb, ?_,
        hsince _, .inl rfl⟩
      · simp [Activity.holds, Getting.holds]
      · have hall : pull = s.object.data reading := funext fun j => hcopied j (by omega)
        show s.published[number reading]? = some pull
        rw [hall]
        exact hnumber
  | release reading pull =>
    refine ⟨rfl, rfl, rfl, rfl, fun b => ?_, nofun, nofun, trivial, nofun,
      .inr ⟨since, _, reading, pull, rfl, rfl, he, rfl, rfl⟩⟩
    by_cases hb : b = reading
    · subst hb
      simp [turn, get, Activity.holds, Getting.holds]
    · simp [turn, get, Activity.holds, Getting.holds, hb, Ne.symm hb]

theorem reader_turn {number : ℕ → ℕ} {s : Traced β κ width} {a : Activity β width} (t : κ)
    (value : Fin width → β)
    (hhere : s.published[number s.object.readPtr]? = some (s.object.data s.object.readPtr))
    (ha : a.Reads number s) :
    ReaderTurn number t s (turn (some t) value s a).1 a (turn (some t) value s a).2 := by
  cases a with
  | idle =>
    refine ⟨rfl, rfl, rfl, rfl, fun b => ?_, nofun, nofun, trivial, ?_, .inl rfl⟩
    · simp [turn, Activity.holds, Getting.holds]
    · rintro _ _ ⟨⟩
      exact .inl ⟨rfl, rfl⟩
  | getting since e => exact get_turn t value hhere ha
  | setting e => exact ha.elim

/-- What the other readers know is about published values and buffers they copy. -/
theorem Activity.Reads.mono {number number' : ℕ → ℕ} {s s' : Traced β κ width}
    {a : Activity β width} (h : a.Reads number s) (hp : s.published <+: s'.published)
    (hb : ∀ b, a.validated = some b → number' b = number b ∧ s'.object.data b = s.object.data b) :
    a.Reads number' s' := by
  have hkeep {k : ℕ} {v : Fin width → β} (hv : s.published[k]? = some v) :
      s'.published[k]? = some v := by
    obtain ⟨rest, hrest⟩ := hp
    rw [← hrest, List.getElem?_append_left (List.getElem?_eq_some_iff.mp hv).1, hv]
  cases a with
  | getting since e =>
    cases e with
    | copy reading i pull =>
      obtain ⟨hn, hd⟩ := hb reading rfl
      show s'.published[number' reading]? = some (s'.object.data reading) ∧ _
      rw [hn, hd]
      exact ⟨hkeep h.1, h.2⟩
    | release reading pull =>
      show s'.published[number' reading]? = some pull
      rw [(hb reading rfl).1]
      exact hkeep h
    | load | inc | check | dec => trivial
  | idle => trivial
  | setting => exact h

theorem Free.reader [DecidableEq κ] {number : ℕ → ℕ} {t : κ} {s s' : Traced β κ width}
    {a' : Activity β width} {r : κ → Activity β width} {b : ℕ} (h : Free s.object r b)
    (ht : ReaderTurn number t s s' (r t) a') : Free s'.object (Function.update r t a') b := by
  rw [ht.object]
  refine ⟨h.1, fun u hu => ?_⟩
  by_cases hut : u = t
  · subst hut
    rw [Function.update_self] at hu
    rcases ht.validated b hu with hv | hv
    · exact h.2 u hv
    · exact h.1 hv
  · rw [Function.update_of_ne hut] at hu
    exact h.2 u hu

/-- No reader disturbs the writer. -/
theorem Activity.Writes.reader [DecidableEq κ] {number : ℕ → ℕ} {t : κ}
    {s s' : Traced β κ width} {w a' : Activity β width} {r : κ → Activity β width}
    (h : w.Writes s.object r) (ht : ReaderTurn number t s s' (r t) a') :
    w.Writes s'.object (Function.update r t a') := by
  have hobj := ht.object
  have hfree {b : ℕ} (hb : Free s.object r b) : Free s'.object (Function.update r t a') b :=
    hb.reader ht
  have hdata : s'.object.data = s.object.data := by rw [hobj]
  have hwrite : s'.object.writePtr = s.object.writePtr := by rw [hobj]
  have hread : s'.object.readPtr = s.object.readPtr := by rw [hobj]
  have hnext : s'.object.next = s.object.next := by rw [hobj]
  cases w with
  | idle =>
    show Free _ _ s'.object.writePtr
    rw [hwrite]
    exact hfree h
  | setting e =>
    cases e with
    | fill i push =>
      show Free _ _ s'.object.writePtr ∧ ∀ j : Fin width, _ → s'.object.data _ j = _
      rw [hdata, hwrite]
      exact ⟨hfree h.1, h.2⟩
    | count wrote push | skip wrote push =>
      show Free _ _ wrote ∧ s'.object.data wrote = push
      rw [hdata]
      exact ⟨hfree h.1, h.2⟩
    | compare wrote push =>
      show (Free _ _ wrote ∧ s'.object.data wrote = push) ∧
        (s'.object.next s'.object.writePtr ≠ s'.object.readPtr → Free _ _ _)
      rw [hdata, hwrite, hread, hnext]
      exact ⟨⟨hfree h.1.1, h.1.2⟩, fun hne => hfree (h.2 hne)⟩
    | publish wrote push =>
      show (Free _ _ wrote ∧ s'.object.data wrote = push) ∧
        Free _ _ (s'.object.next s'.object.writePtr)
      rw [hdata, hwrite, hnext]
      exact ⟨⟨hfree h.1.1, h.1.2⟩, hfree h.2⟩
    | advance =>
      show Free _ _ (s'.object.next s'.object.writePtr)
      rw [hwrite, hnext]
      exact hfree h
  | getting => exact h

section Turns

variable [Fintype κ]

theorem Safe.reader [DecidableEq κ] {number : ℕ → ℕ} {t : κ} {s s' : Traced β κ width} {w a' : Activity β width}
    {r : κ → Activity β width} (h : Safe number s w r)
    (ht : ReaderTurn number t s s' (r t) a') : Safe number s' w (Function.update r t a') := by
  have hobj := ht.object
  have hdata : s'.object.data = s.object.data := by rw [hobj]
  have hread : s'.object.readPtr = s.object.readPtr := by rw [hobj]
  refine ⟨fun b => ?_, ?_, ?_, h.writer.reader ht, fun u => ?_⟩
  · rw [tally_update, ← h.counter b]
    exact ht.counter b
  · rw [ht.published, hread]
    exact h.last
  · rw [ht.published, hread, hdata]
    exact h.here
  · by_cases hut : u = t
    · rw [hut, Function.update_self]
      exact ht.reads
    · rw [Function.update_of_ne hut]
      refine (h.readers u).mono ?_ fun b _ => ⟨rfl, by rw [hdata]⟩
      rw [ht.published]

/-- The scan of the writer did not come round to the buffer it has just written. -/
def Activity.spares (o : DataObjectLockFree β width) : Activity β width → Prop
  | .setting (.publish wrote _) => o.next o.writePtr ≠ wrote
  | .idle | .setting (.fill ..) | .setting (.count ..) | .setting (.compare ..)
  | .setting (.skip ..) | .setting .advance | .getting .. => True

instance (o : DataObjectLockFree β width) (a : Activity β width) : Decidable (a.spares o) :=
  match a with
  | .setting (.publish wrote _) => inferInstanceAs (Decidable (o.next o.writePtr ≠ wrote))
  | .idle | .setting (.fill ..) | .setting (.count ..) | .setting (.compare ..)
  | .setting (.skip ..) | .setting .advance | .getting .. => .isTrue trivial

/-- The writer goes on without a change to what the readers see. -/
theorem Safe.moves {number : ℕ → ℕ} {s s' : Traced β κ width} {w w' : Activity β width}
    {r : κ → Activity β width} (h : Safe number s w r) (hp : s'.published = s.published)
    (hc : s'.object.counter = s.object.counter) (hd : s'.object.data = s.object.data)
    (hr : s'.object.readPtr = s.object.readPtr) (hw : w'.Writes s'.object r) :
    Safe number s' w' r := by
  refine ⟨fun b => ?_, ?_, ?_, hw, fun t => ?_⟩
  · rw [hc]
    exact h.counter b
  · rw [hp, hr]
    exact h.last
  · rw [hp, hr, hd]
    exact h.here
  · refine (h.readers t).mono ?_ fun b _ => ⟨rfl, by rw [hd]⟩
    rw [hp]

/-- A word of the buffer that the writer may fill is written. -/
theorem Safe.fills {number : ℕ → ℕ} {s s' : Traced β κ width} {w w' : Activity β width}
    {r : κ → Activity β width} (h : Safe number s w r) (hfree : Free s.object r s.object.writePtr)
    {i : Fin width} {v : β} (hp : s'.published = s.published)
    (ho : s'.object = { s.object with data := putWord s.object.data s.object.writePtr i v })
    (hw : w'.Writes s'.object r) : Safe number s' w' r := by
  have hdata {b : ℕ} (hb : b ≠ s.object.writePtr) : s'.object.data b = s.object.data b := by
    rw [ho]
    exact Function.update_of_ne hb ..
  have hread : s'.object.readPtr = s.object.readPtr := by rw [ho]
  refine ⟨fun b => ?_, ?_, ?_, hw, fun t => ?_⟩
  · rw [ho]
    exact h.counter b
  · rw [hp, hread]
    exact h.last
  · rw [hp, hread, hdata hfree.1.symm]
    exact h.here
  · refine (h.readers t).mono ?_ fun b hb => ⟨rfl, hdata fun he => hfree.2 t (he ▸ hb)⟩
    rw [hp]

/-- The filled buffer is published. -/
theorem Safe.publishes {number : ℕ → ℕ} {s s' : Traced β κ width} {w w' : Activity β width}
    {r : κ → Activity β width} (h : Safe number s w r) {wrote : ℕ} {push : Fin width → β}
    (hfree : Free s.object r wrote) (hpush : s.object.data wrote = push)
    (hp : s'.published = s.published ++ [push]) (ho : s'.object = { s.object with readPtr := wrote })
    (hw : w'.Writes s'.object r) :
    Safe (Function.update number wrote s.published.length) s' w' r := by
  have hread : s'.object.readPtr = wrote := by rw [ho]
  have hdata : s'.object.data = s.object.data := by rw [ho]
  refine ⟨fun b => ?_, ?_, ?_, hw, fun t => ?_⟩
  · rw [ho]
    exact h.counter b
  · rw [hp, hread, Function.update_self, List.length_append, List.length_singleton]
  · rw [hp, hread, Function.update_self, hdata, hpush, List.getElem?_append_right (Nat.le_refl _),
      Nat.sub_self]
    rfl
  · refine (h.readers t).mono ⟨[push], hp.symm⟩ fun b hb => ⟨?_, by rw [hdata]⟩
    have hne : b ≠ wrote := fun he => hfree.2 t (he ▸ hb)
    exact Function.update_of_ne hne ..

/-- A buffer with a counter of zero is free, unless it is the published one. -/
theorem Safe.free_of_counter {number : ℕ → ℕ} {s : Traced β κ width} {w : Activity β width}
    {r : κ → Activity β width} (h : Safe number s w r) {b : ℕ} (hc : s.object.counter b = 0)
    (hb : b ≠ s.object.readPtr) : Free s.object r b := by
  refine ⟨hb, fun t ht => ?_⟩
  have hnone := tally_eq_zero_iff.mp ((h.counter b).symm.trans hc) t
  exact hnone (Activity.holds_of_validated ht)

/-- A turn of the writer, when it does not publish the buffer it is going to fill next. -/
theorem Safe.writer_turn {number : ℕ → ℕ} {s : Traced β κ width} {w : Activity β width}
    {r : κ → Activity β width} (h : Safe number s w r) (hspare : w.spares s.object)
    (value : Fin width → β) :
    ∃ number', (∀ t b, (r t).validated = some b → number' b = number b) ∧
      Safe number' (turn none value s w).1 (turn none value s w).2 r := by
  have hw := h.writer
  cases w with
  | idle => exact ⟨number, fun _ _ _ => rfl, h.moves rfl rfl rfl rfl ⟨hw, nofun⟩⟩
  | getting => exact hw.elim
  | setting e =>
    cases e with
    | fill i push =>
      obtain ⟨hfree, hfilled⟩ := hw
      refine ⟨number, fun _ _ _ => rfl, ?_⟩
      by_cases hi : i < width
      · simp only [turn, set, hi, dite_true, Sum.elim_inl]
        refine h.fills hfree (List.append_nil _) rfl ⟨hfree, fun j hj => ?_⟩
        show putWord _ _ _ _ _ j = push j
        rw [putWord, Function.update_self]
        by_cases hji : j = ⟨i, hi⟩
        · rw [hji, Function.update_self]
        · have hne : (j : ℕ) ≠ i := fun h => hji (Fin.ext h)
          rw [Function.update_of_ne hji]
          exact hfilled j (by omega)
      · simp only [turn, set, hi, dite_false, Sum.elim_inl]
        refine h.moves (List.append_nil _) rfl rfl rfl ⟨hfree, ?_⟩
        exact funext fun j => hfilled j (by omega)
    | count wrote push =>
      refine ⟨number, fun _ _ _ => rfl, ?_⟩
      by_cases hc : s.object.counter (s.object.next s.object.writePtr) = 0
      · simp only [turn, set, hc, ne_eq, not_true_eq_false, if_false, Sum.elim_inl]
        exact h.moves (List.append_nil _) rfl rfl rfl ⟨hw, fun hb => h.free_of_counter hc hb⟩
      · simp only [turn, set, hc, ne_eq, not_false_eq_true, if_true, Sum.elim_inl]
        exact h.moves (List.append_nil _) rfl rfl rfl hw
    | compare wrote push =>
      refine ⟨number, fun _ _ _ => rfl, ?_⟩
      by_cases hr : s.object.next s.object.writePtr = s.object.readPtr
      · simp only [turn, set, hr, if_true, Sum.elim_inl]
        exact h.moves (List.append_nil _) rfl rfl rfl hw.1
      · simp only [turn, set, hr, if_false, Sum.elim_inl]
        exact h.moves (List.append_nil _) rfl rfl rfl ⟨hw.1, hw.2 hr⟩
    | skip wrote push =>
      refine ⟨number, fun _ _ _ => rfl, ?_⟩
      by_cases he : s.object.next s.object.writePtr = wrote
      · simp only [turn, set, he, if_true, Sum.elim_inr]
        exact h.moves (List.append_nil _) rfl rfl rfl hw.1
      · simp only [turn, set, he, if_false, Sum.elim_inl]
        exact h.moves (List.append_nil _) rfl rfl rfl hw
    | publish wrote push =>
      obtain ⟨⟨hfree, hpush⟩, hnext⟩ := hw
      refine ⟨_, fun t b hb => ?_, h.publishes hfree hpush rfl rfl ⟨hspare, hnext.2⟩⟩
      have hne : b ≠ wrote := fun he => hfree.2 t (he ▸ hb)
      exact Function.update_of_ne hne ..
    | advance => exact ⟨number, fun _ _ _ => rfl, h.moves (List.append_nil _) rfl rfl rfl hw⟩

end Turns

/-! ### Whole runs -/

/-- The value that the writer is about to publish. -/
def Activity.value : Activity β width → Option (Fin width → β)
  | .setting (.fill _ push) | .setting (.count _ push) | .setting (.compare _ push)
  | .setting (.skip _ push) | .setting (.publish _ push) => some push
  | .idle | .setting .advance | .getting .. => none

/-- All values come from calls to `Set`. -/
structure Given (s : Traced β κ width) (w : Activity β width) : Prop where
  value : ∀ v, w.value = some v → v ∈ s.sets
  published : ∀ v ∈ s.published, v ∈ s.sets
  gets : ∀ g ∈ s.gets, g.pull ∈ s.published

/-- What the schedule must not do: publish the buffer that is going to be filled next. -/
def spare (m : System (Traced β κ width) (Option κ) (Activity β width))
    (e : Option κ × (Fin width → β)) : Prop :=
  e.1 = none → (m.locals none).spares m.shared.object

theorem Given.writer_turn {s : Traced β κ width} {w : Activity β width} (h : Given s w)
    (value : Fin width → β) : Given (turn none value s w).1 (turn none value s w).2 := by
  obtain ⟨hvalue, hpub, hgets⟩ := h
  cases w with
  | idle =>
    refine ⟨?_, fun v hv => List.mem_append_left _ (hpub v hv), hgets⟩
    rintro v ⟨⟩
    exact List.mem_append_right _ (List.mem_singleton_self _)
  | getting => exact ⟨hvalue, hpub, hgets⟩
  | setting e =>
    have hgets' {l : List (Fin width → β)} : ∀ g ∈ s.gets, g.pull ∈ s.published ++ l :=
      fun g hg => List.mem_append_left _ (hgets g hg)
    have hpub' {l : List (Fin width → β)} (hl : ∀ v ∈ l, v ∈ s.sets) :
        ∀ v ∈ s.published ++ l, v ∈ s.sets := by
      intro v hv
      rcases List.mem_append.mp hv with hv | hv
      · exact hpub v hv
      · exact hl v hv
    cases e with
    | fill i push =>
      by_cases hi : i < width
      · simp only [turn, set, hi, dite_true, Sum.elim_inl]
        exact ⟨hvalue, hpub' nofun, hgets'⟩
      · simp only [turn, set, hi, dite_false, Sum.elim_inl]
        exact ⟨hvalue, hpub' nofun, hgets'⟩
    | count wrote push =>
      simp only [turn, set]
      split <;> exact ⟨hvalue, hpub' nofun, hgets'⟩
    | compare wrote push =>
      simp only [turn, set]
      split <;> exact ⟨hvalue, hpub' nofun, hgets'⟩
    | skip wrote push =>
      simp only [turn, set]
      split
      · exact ⟨nofun, hpub' nofun, hgets'⟩
      · exact ⟨hvalue, hpub' nofun, hgets'⟩
    | publish wrote push =>
      refine ⟨nofun, hpub' fun v hv => ?_, hgets'⟩
      rw [List.mem_singleton.mp hv]
      exact hvalue push rfl
    | advance => exact ⟨nofun, hpub' nofun, hgets'⟩

theorem Given.reader {number : ℕ → ℕ} {t : κ} {s s' : Traced β κ width} {w a a' : Activity β width}
    (h : Given s w) (ht : ReaderTurn number t s s' a a') : Given s' w := by
  refine ⟨?_, ?_, ?_⟩
  · rw [ht.sets]
    exact h.value
  · rw [ht.sets, ht.published]
    exact h.published
  · rw [ht.published]
    rcases ht.gets with hg | ⟨since, e, b, pull, -, -, hpull, hg, -⟩ <;> rw [hg]
    · exact h.gets
    · intro g hmem
      rcases List.mem_append.mp hmem with hmem | hmem
      · exact h.gets g hmem
      · rw [List.mem_singleton.mp hmem]
        exact List.mem_of_getElem? hpull

/-- The readers of a system. -/
abbrev readers (m : System (Traced β κ width) (Option κ) (Activity β width)) :
    κ → Activity β width :=
  fun t => m.locals (some t)

theorem start_safe [Fintype κ] (maxThreads : ℕ) (sample : Fin width → β) :
    let m : System (Traced β κ width) (Option κ) (Activity β width) := start maxThreads sample
    Safe (fun _ => 0) m.shared (m.locals none) (readers m) := by
  exact ⟨fun b => (tally_eq_zero_iff.mpr nofun).symm, rfl, rfl, ⟨Nat.one_ne_zero, nofun⟩,
    fun _ => trivial⟩

instance (m : System (Traced β κ width) (Option κ) (Activity β width))
    (e : Option κ × (Fin width → β)) : Decidable (spare m e) :=
  inferInstanceAs (Decidable (e.1 = none → _))

/-- Where the writer is not busy with publishing a value. -/
def Activity.resting : Activity β width → Prop
  | .idle | .setting (.fill ..) => True
  | .setting (.count ..) | .setting (.compare ..) | .setting (.skip ..) | .setting (.publish ..)
  | .setting .advance | .getting .. => False

instance (a : Activity β width) : Decidable a.resting :=
  match a with
  | .idle | .setting (.fill ..) => .isTrue trivial
  | .setting (.count ..) | .setting (.compare ..) | .setting (.skip ..) | .setting (.publish ..)
  | .setting .advance | .getting .. => .isFalse id

theorem Activity.Writes.free {o : DataObjectLockFree β width} {r : κ → Activity β width}
    {w : Activity β width} (h : w.Writes o r) (hw : w.resting) : Free o r o.writePtr := by
  cases w with
  | idle => exact h
  | setting e =>
    cases e with
    | fill => exact h.1
    | count | compare | skip | publish | advance => exact hw.elim
  | getting => exact h.elim

section Run

variable [DecidableEq κ]

theorem readers_writer_step (m : System (Traced β κ width) (Option κ) (Activity β width))
    (value : Fin width → β) : readers (m.step turn (none, value)) = readers m :=
  funext fun t => m.step_other value (Option.some_ne_none t)

theorem readers_reader_step (m : System (Traced β κ width) (Option κ) (Activity β width)) (t : κ)
    (value : Fin width → β) : readers (m.step turn (some t, value)) =
      Function.update (readers m) t (turn (some t) value m.shared (m.locals (some t))).2 := by
  funext u
  by_cases hu : u = t
  · subst hu
    rw [Function.update_self]
    exact m.step_self (some u) value
  · rw [Function.update_of_ne hu]
    exact m.step_other value fun he => hu (Option.some.inj he)

/-- The invariant of a whole run. -/
structure Sound [Fintype κ] (number : ℕ → ℕ)
    (m : System (Traced β κ width) (Option κ) (Activity β width)) : Prop where
  safe : Safe number m.shared (m.locals none) (readers m)
  given : Given m.shared (m.locals none)

theorem sound_step [Fintype κ] {number : ℕ → ℕ}
    {m : System (Traced β κ width) (Option κ) (Activity β width)}
    {e : Option κ × (Fin width → β)} (h : Sound number m) (hok : spare m e) :
    ∃ number', Sound number' (m.step turn e) := by
  obtain ⟨t, value⟩ := e
  cases t with
  | none =>
    obtain ⟨number', -, hs⟩ := h.safe.writer_turn (hok rfl) value
    refine ⟨number', ?_, ?_⟩
    · rw [readers_writer_step, System.step_self]
      exact hs
    · rw [System.step_self]
      exact h.given.writer_turn value
  | some t =>
    have ht := reader_turn t value h.safe.here (h.safe.readers t)
    have hw : (m.step turn (some t, value)).locals none = m.locals none :=
      m.step_other value (Option.some_ne_none t).symm
    refine ⟨number, ?_, ?_⟩
    · rw [readers_reader_step, hw]
      exact h.safe.reader ht
    · rw [hw]
      exact h.given.reader ht

theorem sound_run [Fintype κ] {maxThreads : ℕ} {sample : Fin width → β}
    {es : List (Option κ × (Fin width → β))}
    (hok : (start maxThreads sample).Schedule turn spare es) :
    ∃ number, Sound number ((start maxThreads sample).run turn es) := by
  refine Library.Run.run_invariant (I := fun m => ∃ number, Sound number m) ?_ ?_ hok
  · rintro m e ⟨number, h⟩ ho
    exact sound_step h ho
  · refine ⟨_, start_safe maxThreads sample, nofun, ?_, nofun⟩
    exact fun v hv => hv

/-- In every run of the writer and any number of readers in which no scan comes round to the
buffer just written: the buffer that is filled is neither published nor copied, and every value
that `Get` returns was given to `Set`, whole. -/
theorem get_returns_whole [Fintype κ] {maxThreads : ℕ} {sample : Fin width → β}
    {es : List (Option κ × (Fin width → β))}
    (hok : (start maxThreads sample).Schedule turn spare es) :
    let m : System (Traced β κ width) (Option κ) (Activity β width) :=
      (start maxThreads sample).run turn es
    ((m.locals none).resting → m.shared.object.readPtr ≠ m.shared.object.writePtr ∧
        ∀ t, (m.locals (some t)).validated ≠ some m.shared.object.writePtr) ∧
      ∀ g ∈ m.shared.gets, g.pull ∈ m.shared.sets := by
  intro m
  obtain ⟨number, hsafe, hgiven⟩ := sound_run hok
  refine ⟨fun hrest => ?_, fun g hg => hgiven.published _ (hgiven.gets g hg)⟩
  have hfree := hsafe.writer.free hrest
  exact ⟨hfree.1.symm, hfree.2⟩

end Run

/-- Two calls to `Set` return although the reader copies the only other buffer; then the published
buffer is the next one to be filled, and the reader copies it meanwhile. -/
theorem get_returns_torn :
    let reader (n : ℕ) := List.replicate n ((some 0 : Option (Fin 1)), (fun _ => 0 : Fin 2 → ℕ))
    let writer (n : ℕ) (value : Fin 2 → ℕ) := List.replicate n ((none : Option (Fin 1)), value)
    let m := (start 1 fun _ => 0).run turn (reader 4 ++ writer 8 (fun _ => 1) ++
      writer 13 fun _ => 2)
    let m' := m.run turn (reader 9 ++ writer 3 (fun _ => 3) ++ reader 3)
    ¬ ((m.locals none).resting → m.shared.object.readPtr ≠ m.shared.object.writePtr) ∧
      ¬ ((m'.locals none).resting → m'.shared.object.readPtr ≠ m'.shared.object.writePtr) ∧
      ¬ ∀ g ∈ m'.shared.gets, g.pull ∈ m'.shared.sets := by
  decide

theorem get_returns_whole_skipped :
    let reader (n : ℕ) := List.replicate n ((some 0 : Option (Fin 1)), (fun _ => 0 : Fin 2 → ℕ))
    let writer (n : ℕ) (value : Fin 2 → ℕ) := List.replicate n ((none : Option (Fin 1)), value)
    let es := reader 4 ++ writer 8 (fun _ => 1) ++ writer 8 (fun _ => 2) ++ reader 12
    let m : System (Traced ℕ (Fin 1) 2) (Option (Fin 1)) (Activity ℕ 2) :=
      (start 2 fun _ => 0).run turn es
    ((m.locals none).resting → m.shared.object.readPtr ≠ m.shared.object.writePtr ∧
        ∀ t, (m.locals (some t)).validated ≠ some m.shared.object.writePtr) ∧
      ∀ g ∈ m.shared.gets, g.pull ∈ m.shared.sets :=
  get_returns_whole (by decide)

end DataObjectLockFree
end OrocosRtt.LockFree
