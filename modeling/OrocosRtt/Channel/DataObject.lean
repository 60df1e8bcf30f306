import OrocosRtt.LockFree.DataObjectLockFree

/-! The data objects of a connection, used by one thread: they hold the last value that was given to
`Set`. -/
namespace OrocosRtt.LockFree.DataObjectLockFree

open Library.Run

variable {β : Type} {width : ℕ}

/-- All buffers are written, whichever of them is published, and linked to a ring again. -/
def dataSample (sample : Fin width → β) (o : DataObjectLockFree β width) :
    DataObjectLockFree β width :=
  { o with
    data := fun _ => sample
    next := fun i => if i = o.bufLen - 1 then 0 else i + 1 }

/-- Nobody is in a call, and the published buffer holds the value. -/
structure AtRest (value : Fin width → β) (o : DataObjectLockFree β width) : Prop where
  counter : ∀ b, o.counter b = 0
  next : ∀ b, o.next b ≠ b
  ring : 2 ≤ o.bufLen
  value : o.data o.readPtr = value

theorem ring_next {n : ℕ} (h : 2 ≤ n) (b : ℕ) : (if b = n - 1 then 0 else b + 1) ≠ b := by
  split <;> omega

theorem create_atRest (sample : Fin width → β) (maxThreads : ℕ) :
    (create sample maxThreads).AtRest sample :=
  ⟨fun _ => rfl, ring_next (by omega), by exact Nat.le_add_left 2 maxThreads, rfl⟩

theorem AtRest.dataSample {value : Fin width → β} {o : DataObjectLockFree β width}
    (h : o.AtRest value) (sample : Fin width → β) : (o.dataSample sample).AtRest sample :=
  ⟨h.counter, ring_next h.ring, h.ring, rfl⟩

/-- The words that are left are written one after the other. -/
theorem fill_alone (push : Fin width → β) {n k i : ℕ} (hi : i + k = width)
    (o : DataObjectLockFree β width) (hfilled : ∀ j : Fin width, j < i → o.data o.writePtr j = push j) :
    finish set (n + 1 + k) (.fill i push) o = finish set n (.count o.writePtr push)
      { o with data := Function.update o.data o.writePtr push } := by
  induction k generalizing i o with
  | zero =>
    have hdata : o.data o.writePtr = push := by
      funext j
      exact hfilled j (by omega)
    have hdone : set (.fill i push) o = (o, .inl (.count o.writePtr push)) := by
      rw [set, dif_neg (by omega)]
    rw [Nat.add_zero, finish_on hdone, ← hdata, Function.update_eq_self]
  | succ k ih =>
    have hlt : i < width := by omega
    have hword : set (.fill i push) o =
        ({ o with data := putWord o.data o.writePtr ⟨i, hlt⟩ (push ⟨i, hlt⟩) },
          .inl (.fill (i + 1) push)) := by
      rw [set, dif_pos hlt]
    rw [← Nat.add_assoc, finish_on hword, ih (by omega)]
    · simp only [putWord, Function.update_idem]
    · intro j hj
      show putWord o.data o.writePtr ⟨i, hlt⟩ (push ⟨i, hlt⟩) o.writePtr j = push j
      rw [putWord, Function.update_self]
      by_cases hji : j = ⟨i, hlt⟩
      · rw [hji, Function.update_self]
      · have hne : (j : ℕ) ≠ i := fun h => hji (Fin.ext h)
        rw [Function.update_of_ne hji]
        exact hfilled j (by omega)

/-- `Set` publishes the value. The next buffer is skipped only when it is the published one. -/
theorem set_alone {value : Fin width → β} {o : DataObjectLockFree β width} (h : o.AtRest value)
    (push : Fin width → β) :
    ∃ o', finish set (width + 9) (.fill 0 push) o = some (o', ()) ∧ o'.AtRest push := by
  have hfuel : width + 9 = 8 + 1 + width := by omega
  rw [hfuel, fill_alone push (Nat.zero_add width) o (fun _ => nofun)]
  let o₁ : DataObjectLockFree β width :=
    { o with data := Function.update o.data o.writePtr push }
  have hpublish (w : ℕ) (hw : o.next w ≠ o.readPtr) : finish set 4 (.count o.writePtr push)
      { o₁ with writePtr := w } =
        some ({ o₁ with readPtr := o.writePtr, writePtr := o.next w }, ()) := by
    have hcount : set (.count o.writePtr push) { o₁ with writePtr := w } =
        ({ o₁ with writePtr := w }, .inl (.compare o.writePtr push)) :=
      if_neg (not_not_intro (h.counter (o.next w)))
    have hcompare : set (.compare o.writePtr push) { o₁ with writePtr := w } =
        ({ o₁ with writePtr := w }, .inl (.publish o.writePtr push)) := if_neg hw
    rw [finish_on hcount, finish_on hcompare, finish_on rfl]
    exact finish_done rfl
  have hrest (w : ℕ) : AtRest push { o₁ with readPtr := o.writePtr, writePtr := w } :=
    ⟨h.counter, h.next, h.ring, Function.update_self ..⟩
  by_cases hread : o.next o.writePtr = o.readPtr
  · have hcount : set (.count o.writePtr push) o₁ = (o₁, .inl (.compare o.writePtr push)) :=
      if_neg (not_not_intro (h.counter (o.next o.writePtr)))
    have hcompare : set (.compare o.writePtr push) o₁ = (o₁, .inl (.skip o.writePtr push)) :=
      if_pos hread
    have hskip : set (.skip o.writePtr push) o₁ =
        ({ o₁ with writePtr := o.next o.writePtr }, .inl (.count o.writePtr push)) := by
      rw [set, if_neg (h.next o.writePtr)]
    have hnext : o.next (o.next o.writePtr) ≠ o.readPtr := by
      rw [hread]
      exact h.next o.readPtr
    refine ⟨_, ?_, hrest (o.next (o.next o.writePtr))⟩
    show finish set 8 (.count o.writePtr push) o₁ = _
    rw [finish_on hcount, finish_on hcompare, finish_on hskip]
    exact finish_mono (k := 1) (hpublish (o.next o.writePtr) hnext)
  · exact ⟨_, finish_mono (k := 4) (hpublish o.writePtr hread), hrest _⟩

theorem copy_alone {n k i : ℕ} (hi : i + k = width) (reading : ℕ) (pull : Fin width → β)
    (o : DataObjectLockFree β width) (hcopied : ∀ j : Fin width, j < i → pull j = o.data reading j) :
    finish get (n + 1 + k) (.copy reading i pull) o =
      finish get n (.release reading (o.data reading)) o := by
  induction k generalizing i pull with
  | zero =>
    have hpull : pull = o.data reading := by
      funext j
      exact hcopied j (by omega)
    have hdone : get (.copy reading i pull) o = (o, .inl (.release reading pull)) := by
      rw [get, dif_neg (by omega)]
    rw [Nat.add_zero, finish_on hdone, hpull]
  | succ k ih =>
    have hlt : i < width := by omega
    have hword : get (.copy reading i pull) o = (o, .inl (.copy reading (i + 1)
        (Function.update pull ⟨i, hlt⟩ (o.data reading ⟨i, hlt⟩)))) := by
      rw [get, dif_pos hlt]
    rw [← Nat.add_assoc, finish_on hword, ih (by omega)]
    intro j hj
    by_cases hji : j = ⟨i, hlt⟩
    · rw [hji, Function.update_self]
    · have hne : (j : ℕ) ≠ i := fun h => hji (Fin.ext h)
      rw [Function.update_of_ne hji]
      exact hcopied j (by omega)

/-- `Get` copies the published value, and leaves the object as it was. -/
theorem get_alone {value : Fin width → β} {o : DataObjectLockFree β width} (h : o.AtRest value)
    (pull : Fin width → β) : finish get (width + 9) (.load pull) o = some (o, value) := by
  let o₁ : DataObjectLockFree β width := { o with
    counter := Function.update o.counter o.readPtr (o.counter o.readPtr + 1) }
  have hcheck : get (.check o.readPtr pull) o₁ = (o₁, .inl (.copy o.readPtr 0 pull)) :=
    if_neg (not_not_intro rfl)
  have hrelease : get (.release o.readPtr (o.data o.readPtr)) o₁ = (o, .inr value) := by
    rw [get, h.value]
    simp [o₁]
  have hfuel : width + 9 = 5 + 1 + width + 1 + 1 + 1 := by omega
  rw [hfuel, finish_on rfl, finish_on rfl]
  show finish get _ (.check o.readPtr pull) o₁ = _
  rw [finish_on hcheck, copy_alone (Nat.zero_add width) o.readPtr pull o₁ (fun _ => by simp)]
  exact finish_done hrelease

end OrocosRtt.LockFree.DataObjectLockFree

namespace OrocosRtt.Channel

open OrocosRtt.LockFree (DataObjectLockFree)
open OrocosRtt.LockFree.DataObjectLockFree
open Library.Run

/-- What a data object does for a single thread; `none` stands for a call that does not return. -/
structure DataObjectInterface (α : Type) where
  State : Type
  create : α → State
  set : α → State → Option State
  get : State → Option (State × α)
  dataSample : α → State → State

/-- The members of `DataObjectLocked` and `DataObjectUnSync`: `data_sample` is `Set`. -/
def DataObjectUnSync (α : Type) : DataObjectInterface α where
  State := α
  create := fun initialValue => initialValue
  set := fun push _ => some push
  get := fun data => some (data, data)
  dataSample := fun sample _ => sample

abbrev DataObjectLocked (α : Type) : DataObjectInterface α := DataObjectUnSync α

def DataObjectLockFree.interface (β : Type) (width maxThreads : ℕ) :
    DataObjectInterface (Fin width → β) where
  State := DataObjectLockFree β width
  create := fun initialValue => create initialValue maxThreads
  set := fun push o => (finish set (width + 9) (.fill 0 push) o).map Prod.fst
  -- what is read over is the published value, which is as good as any other
  get := fun o => finish get (width + 9) (.load (o.data o.readPtr)) o
  dataSample := DataObjectLockFree.dataSample

/-- `V a s` says that the state `s` holds the value `a`, also the one given to `data_sample`. -/
structure Stores {α : Type} (D : DataObjectInterface α) (V : α → D.State → Prop) : Prop where
  create : ∀ a, V a (D.create a)
  set : ∀ a b s, V a s → ∃ s', D.set b s = some s' ∧ V b s'
  get : ∀ a s, V a s → ∃ s', D.get s = some (s', a) ∧ V a s'
  dataSample : ∀ a b s, V a s → V b (D.dataSample b s)

theorem DataObjectUnSync.stores (α : Type) :
    Stores (DataObjectUnSync α) (fun (a data : α) => data = a) where
  create := fun _ => rfl
  set := fun _ b _ _ => ⟨b, rfl, rfl⟩
  get := by
    rintro a _ rfl
    exact ⟨_, rfl, rfl⟩
  dataSample := fun _ _ _ _ => rfl

theorem DataObjectLockFree.stores (β : Type) (width maxThreads : ℕ) :
    Stores (DataObjectLockFree.interface β width maxThreads)
      (fun value (o : DataObjectLockFree β width) => o.AtRest value) where
  create := fun a => create_atRest a maxThreads
  set := by
    intro a b s hs
    obtain ⟨o, ho, hrest⟩ := set_alone hs b
    exact ⟨o, congrArg (Option.map Prod.fst) ho, hrest⟩
  get := fun a s hs => ⟨s, get_alone hs _, hs⟩
  dataSample := fun _ b _ hs => hs.dataSample b

end OrocosRtt.Channel
