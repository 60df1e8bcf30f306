import OrocosRtt.Library.Log
import OrocosRtt.Library.Queue
import OrocosRtt.Library.Run

/-! The functions of an `ExecutionEngine`: a bounded queue of what is executed at each step,
and the mark that a function keeps of being loaded. A step takes the functions off the queue
one by one; the one being executed is in no queue. -/
namespace OrocosRtt.Engine
open Library.Run Library.Log Library.Queue

/-- What `runFunction` and `removeFunction` ask of the engine's surroundings. -/
structure Surroundings where
  hasActivity : Bool
  isActive : Bool
  fatalError : Bool
  /-- The message queue takes one more message. -/
  messageRoom : Bool
  deriving DecidableEq, Repr

inductive Event (F : Type) where
  | ran (f : F) (result : Bool)
  | removed (f : F) (result : Bool)
  | began (functions : List F)
  | executed (f : F)
  | finished
  deriving DecidableEq, Repr

/-- `executing` is the function taken off the queue last, `nbr` how many of this step are
left, that one included. -/
structure ExecutionEngine (F : Type) (capacity : ℕ) where
  queue : BoundedQueue F capacity
  isLoaded : F → Bool
  executing : Option F
  nbr : ℕ
  around : Surroundings
  log : List (Event F)

/-- Requests may come from outside or from the function being executed; `done` is the end of
the latter, with what its `execute()` returned. -/
inductive Action (F : Type) where
  | run (f : F)
  | remove (f : F)
  | step
  | done (result : Bool)
  | surround (s : Surroundings)
  deriving DecidableEq, Repr

namespace ExecutionEngine

variable {F : Type} [DecidableEq F] {capacity : ℕ}

def create (s : Surroundings) : ExecutionEngine F capacity where
  queue := .empty
  isLoaded _ := false
  executing := none
  nbr := 0
  around := s
  log := []

def note (x : Event F) (e : ExecutionEngine F capacity) : ExecutionEngine F capacity :=
  { e with log := x :: e.log }

/-- `f->loaded(this)` and `f->unloaded()`. -/
def setLoaded (f : F) (b : Bool) (e : ExecutionEngine F capacity) :
    ExecutionEngine F capacity :=
  { e with isLoaded := Function.update e.isLoaded f b }

def setQueue (q : BoundedQueue F capacity) (e : ExecutionEngine F capacity) :
    ExecutionEngine F capacity := { e with queue := q }

def runFunction (f : F) (e : ExecutionEngine F capacity) : ExecutionEngine F capacity :=
  if e.around.hasActivity = false ∨ e.around.fatalError = true then e.note (.ran f false)
  else ((e.setLoaded f true).setQueue (e.queue.push f)).note (.ran f (!e.queue.isFull))

/-- `removeSelfFunction`, with its result. -/
def removeSelf (f : F) (q : BoundedQueue F capacity) : Bool × BoundedQueue F capacity :=
  q.rotateOut f q.items.length

/-- Whether `removeFunction` gets to `removeSelfFunction`: directly when the engine does not
run, else by a message. -/
def removable (e : ExecutionEngine F capacity) : Bool :=
  !(e.around.hasActivity && e.around.isActive) ||
    (!e.around.fatalError && e.around.messageRoom)

def removeFunction (f : F) (e : ExecutionEngine F capacity) : ExecutionEngine F capacity :=
  if e.isLoaded f = false then e.note (.removed f true)
  else if e.removable then
    let r := removeSelf f e.queue
    -- the message handler ignores the result
    if r.1 || (e.around.hasActivity && e.around.isActive) then
      ((e.setQueue r.2).setLoaded f false).note (.removed f true)
    else (e.setQueue r.2).note (.removed f false)
  else e.note (.removed f false)

/-- The head of the loop of `processFunctions`. -/
def fetch (e : ExecutionEngine F capacity) : ExecutionEngine F capacity :=
  match e.queue.pop with
  | none => { e with executing := none }.note .finished
  | some (f, q) => { e.setQueue q with executing := some f }.note (.executed f)

def processFunctions (e : ExecutionEngine F capacity) : ExecutionEngine F capacity :=
  ({ e with nbr := e.queue.items.length }.note (.began e.queue.items)).fetch

/-- The rest of the loop, after `execute()` returned. -/
def afterExecute (f : F) (result : Bool) (e : ExecutionEngine F capacity) :
    ExecutionEngine F capacity :=
  let e := if result then e.setQueue (e.queue.push f) else e.setLoaded f false
  let e := { e with nbr := e.nbr - 1 }
  if e.nbr = 0 then { e with executing := none }.note .finished else e.fetch

def step (e : ExecutionEngine F capacity) (a : Action F) : ExecutionEngine F capacity :=
  match a with
  | .run f => e.runFunction f
  | .remove f => e.removeFunction f
  | .step => if e.executing = none then e.processFunctions else e
  | .done b =>
    match e.executing with
    | none => e
    | some f => e.afterExecute f b
  | .surround s => { e with around := s }

/-- Functions of the step under way that were neither executed nor removed yet. -/
def owed : List (Event F) → List F
  | [] => []
  | .began fs :: _ => fs
  | .executed f :: l => (owed l).filter (· ≠ f)
  | .removed f true :: l => (owed l).filter (· ≠ f)
  | _ :: l => owed l

/-- `removeFunction` returned true for `f`, and it was not run again. -/
def isRemoved (f : F) : List (Event F) → Bool
  | [] => false
  | .removed g true :: l => g = f || isRemoved f l
  | .ran g true :: l => g ≠ f && isRemoved f l
  | _ :: l => isRemoved f l

/-- A removed function is not executed, and a step ends when each function loaded at its
begin was executed or removed. -/
def Fair (x : Event F) (l : List (Event F)) : Prop :=
  match x with
  | .executed f => isRemoved f l = false
  | .finished => owed l = []
  | _ => True

/-- The mark and the queue agree. -/
def Agrees (e : ExecutionEngine F capacity) : Prop :=
  e.executing = none → ∀ f, e.isLoaded f = true ↔ e.queue.items.count f = 1

/-- A `runFunction` that returns false leaves the function unloaded. -/
def Obeys (e : ExecutionEngine F capacity) (a : Action F) : Prop :=
  match a with
  | .run f =>
    (e.step a).log.head? = some (.ran f false) → (e.step a).isLoaded f = false
  | _ => True

/-- The condition on a step. A function is run only when it is neither loaded nor being
executed and the queue takes it. A removal within a step leaves the functions that have yet
to be executed in it within reach. A function that is to be kept is still loaded when its
`execute()` returns, and there is room for it. -/
def Sound (e : ExecutionEngine F capacity) (a : Action F) : Prop :=
  match a with
  | .run f =>
    e.isLoaded f = false ∧ e.executing ≠ some f ∧
      (e.around.hasActivity = true → e.around.fatalError = false → e.queue.isFull = false)
  | .remove f =>
    e.executing ≠ none → e.isLoaded f = true → e.removable = true →
      ∀ g ∈ owed e.log, g ≠ f → g ∈ (removeSelf f e.queue).2.items.take (e.nbr - 1)
  | .done b =>
    ∀ f ∈ e.executing, b = true → e.isLoaded f = true ∧ e.queue.isFull = false
  | _ => True

instance (e : ExecutionEngine F capacity) (a : Action F) : Decidable (e.Sound a) :=
  match a with
  | .run f => inferInstanceAs (Decidable (e.isLoaded f = false ∧ e.executing ≠ some f ∧
      (e.around.hasActivity = true → e.around.fatalError = false → e.queue.isFull = false)))
  | .remove f => inferInstanceAs (Decidable (e.executing ≠ none → e.isLoaded f = true →
      e.removable = true →
        ∀ g ∈ owed e.log, g ≠ f → g ∈ (removeSelf f e.queue).2.items.take (e.nbr - 1)))
  | .step => .isTrue trivial
  | .done b => inferInstanceAs (Decidable (∀ f ∈ e.executing, b = true →
      e.isLoaded f = true ∧ e.queue.isFull = false))
  | .surround _ => .isTrue trivial

/-- Each function that is not being executed is in the queue once or not at all, as its
mark says. -/
structure Tracked (e : ExecutionEngine F capacity) : Prop where
  counts : ∀ f, e.executing ≠ some f → e.queue.items.count f = if e.isLoaded f then 1 else 0
  current : ∀ f, e.executing = some f → e.queue.items.count f = 0
  removed : ∀ f, isRemoved f e.log = true → e.isLoaded f = false
  within : e.executing ≠ none → ∀ g ∈ owed e.log, g ∈ e.queue.items.take (e.nbr - 1)
  fair : Throughout Fair e.log

/-- The next function off a queue that agrees with the marks. -/
theorem fetch_tracked {e : ExecutionEngine F capacity}
    (hcounts : ∀ f, e.queue.items.count f = if e.isLoaded f then 1 else 0)
    (hremoved : ∀ f, isRemoved f e.log = true → e.isLoaded f = false)
    (howed : ∀ g ∈ owed e.log, g ∈ e.queue.items.take e.nbr) (hfair : Throughout Fair e.log)
    (hn : e.queue.items ≠ [] → e.nbr ≠ 0) : e.fetch.Tracked := by
  unfold fetch
  cases hitems : e.queue.items with
  | nil =>
    rw [BoundedQueue.pop_nil hitems]
    have hnone : owed e.log = [] := by
      apply List.eq_nil_iff_forall_not_mem.mpr
      intro g hg
      have := howed g hg
      rw [hitems] at this
      simp at this
    exact {
      counts := fun f _ => hcounts f
      current := fun f hf => by cases hf
      removed := hremoved
      within := fun hc => absurd rfl hc
      fair := ⟨hnone, hfair⟩ }
  | cons f fs =>
    obtain ⟨q, hpop, hq⟩ := BoundedQueue.pop_cons hitems
    rw [hpop]
    have hcount := hcounts f
    rw [hitems, List.count_cons_self] at hcount
    have hloaded : e.isLoaded f = true := by
      cases hl : e.isLoaded f with
      | true => rfl
      | false => simp [hl] at hcount
    have hn := hn (by simp [hitems])
    exact {
      counts := fun g hg => by
        have hne : f ≠ g := fun h => hg (congrArg some h)
        have := hcounts g
        rw [hitems, List.count_cons_of_ne hne] at this
        show q.items.count g = _
        rw [hq]
        exact this
      current := fun g hg => by
        obtain rfl : f = g := Option.some.inj hg
        show q.items.count f = 0
        rw [hq]
        simpa [hloaded] using hcount
      removed := hremoved
      within := fun _ g hg => by
        obtain ⟨hg, hne⟩ := List.mem_filter.mp hg
        have := howed g hg
        obtain ⟨n, hn⟩ := Nat.exists_eq_succ_of_ne_zero hn
        rw [hitems, hn, List.take_succ_cons] at this
        show g ∈ q.items.take (e.nbr - 1)
        rw [hq, hn]
        rcases List.mem_cons.mp this with h | h
        · exact absurd h (by simpa using hne)
        · exact h
      fair := by
        refine ⟨?_, hfair⟩
        show isRemoved f e.log = false
        cases hr : isRemoved f e.log with
        | false => rfl
        | true =>
          rw [hremoved f hr] at hloaded
          cases hloaded }

theorem processFunctions_tracked {e : ExecutionEngine F capacity} (h : e.Tracked)
    (hi : e.executing = none) : e.processFunctions.Tracked := by
  apply fetch_tracked
  · intro f
    exact h.counts f (by simp [hi])
  · exact h.removed
  · intro g hg
    show g ∈ e.queue.items.take e.queue.items.length
    rw [List.take_length]
    exact hg
  · exact ⟨trivial, h.fair⟩
  · intro hne hz
    exact hne (List.length_eq_zero_iff.mp hz)

/-- The function just executed goes back to the queue, or is unloaded. -/
theorem afterExecute_tracked {e : ExecutionEngine F capacity} (h : e.Tracked) {f : F}
    (hf : e.executing = some f) {b : Bool}
    (hok : b = true → e.isLoaded f = true ∧ e.queue.isFull = false) :
    (e.afterExecute f b).Tracked := by
  generalize hx : (if b then e.setQueue (e.queue.push f) else e.setLoaded f false) = x
  have hlog : x.log = e.log := by subst hx; cases b <;> rfl
  have hnbr : x.nbr = e.nbr := by subst hx; cases b <;> rfl
  have hcounts : ∀ g, x.queue.items.count g = if x.isLoaded g then 1 else 0 := by
    intro g
    subst hx
    have hcur := h.current f hf
    cases b with
    | true =>
      obtain ⟨hl, hroom⟩ := hok rfl
      show (e.queue.push f).items.count g = if e.isLoaded g then 1 else 0
      rw [BoundedQueue.push_items hroom, List.count_append]
      by_cases hg : g = f
      · subst hg
        simp [hcur, hl]
      · have := h.counts g (by rw [hf]; exact fun hc => hg (Option.some.inj hc).symm)
        simp [this, Ne.symm hg]
    | false =>
      show e.queue.items.count g = if Function.update e.isLoaded f false g then 1 else 0
      by_cases hg : g = f
      · subst hg
        simp [hcur]
      · have := h.counts g (by rw [hf]; exact fun hc => hg (Option.some.inj hc).symm)
        simp [this, hg]
  have hremoved : ∀ g, isRemoved g x.log = true → x.isLoaded g = false := by
    intro g hg
    rw [hlog] at hg
    have hgone := h.removed g hg
    subst hx
    cases b with
    | true => exact hgone
    | false =>
      show Function.update e.isLoaded f false g = false
      by_cases hgf : g = f
      · subst hgf
        simp
      · simp [hgf, hgone]
  have howed : ∀ g ∈ owed x.log, g ∈ x.queue.items.take (e.nbr - 1) := by
    intro g hg
    rw [hlog] at hg
    have hin := h.within (by rw [hf]; simp) g hg
    subst hx
    cases b with
    | false => exact hin
    | true =>
      show g ∈ (e.queue.push f).items.take (e.nbr - 1)
      rw [BoundedQueue.push_items (hok rfl).2, List.take_append]
      exact List.mem_append_left _ hin
  unfold afterExecute
  rw [hx]
  dsimp only
  rw [hnbr]
  split
  · next hz =>
    have hnone : owed x.log = [] := by
      apply List.eq_nil_iff_forall_not_mem.mpr
      intro g hg
      have := howed g hg
      rw [hz] at this
      simp at this
    exact {
      counts := fun g _ => hcounts g
      current := fun g hg => by cases hg
      removed := hremoved
      within := fun hc => absurd rfl hc
      fair := ⟨hnone, hlog ▸ h.fair⟩ }
  · next hz =>
    apply fetch_tracked
    · exact hcounts
    · exact hremoved
    · exact howed
    · exact hlog ▸ h.fair
    · exact fun _ => hz

theorem runFunction_tracked {e : ExecutionEngine F capacity} (h : e.Tracked) {f : F}
    (hl : e.isLoaded f = false) (hx : e.executing ≠ some f)
    (hroom : e.around.hasActivity = true → e.around.fatalError = false →
      e.queue.isFull = false) : (e.runFunction f).Tracked := by
  unfold runFunction
  split
  · exact ⟨h.counts, h.current, h.removed, h.within, ⟨trivial, h.fair⟩⟩
  · next hacc =>
    have hroom : e.queue.isFull = false := by
      apply hroom
      · cases ha : e.around.hasActivity with
        | true => rfl
        | false => exact absurd (.inl ha) hacc
      · cases hfatal : e.around.fatalError with
        | false => rfl
        | true => exact absurd (.inr hfatal) hacc
    have hitems := BoundedQueue.push_items hroom f
    exact {
      counts := fun g hg => by
        show (e.queue.push f).items.count g =
          if Function.update e.isLoaded f true g then 1 else 0
        rw [hitems, List.count_append, h.counts g hg]
        by_cases hgf : g = f
        · subst hgf
          simp [hl]
        · simp [hgf, Ne.symm hgf]
      current := fun g hg => by
        have hgf : f ≠ g := fun hc => hx (hc ▸ hg)
        show (e.queue.push f).items.count g = 0
        rw [hitems, List.count_append, h.current g hg]
        simp [hgf]
      removed := fun g hg => by
        show Function.update e.isLoaded f true g = false
        have hg' : isRemoved g (.ran f (!e.queue.isFull) :: e.log) = true := hg
        rw [hroom] at hg'
        obtain ⟨hne, hg'⟩ : f ≠ g ∧ isRemoved g e.log = true := by simpa [isRemoved] using hg'
        simp [Ne.symm hne, h.removed g hg']
      within := fun hc g hg => by
        show g ∈ (e.queue.push f).items.take (e.nbr - 1)
        rw [hitems, List.take_append]
        exact List.mem_append_left _ (h.within hc g hg)
      fair := ⟨trivial, h.fair⟩ }

theorem removeFunction_tracked {e : ExecutionEngine F capacity} (h : e.Tracked) {f : F}
    (hreach : e.executing ≠ none → e.isLoaded f = true → e.removable = true →
      ∀ g ∈ owed e.log, g ≠ f → g ∈ (removeSelf f e.queue).2.items.take (e.nbr - 1)) :
    (e.removeFunction f).Tracked := by
  have hkept : ∀ g ∈ owed (.removed f true :: e.log), g ∈ owed e.log ∧ g ≠ f := by
    intro g hg
    simpa [owed] using hg
  unfold removeFunction
  split
  · next hl =>
    exact {
      counts := h.counts
      current := h.current
      removed := fun g hg => by
        have hg' : f = g ∨ isRemoved g e.log = true := by simpa [note, isRemoved] using hg
        rcases hg' with rfl | hg'
        · exact hl
        · exact h.removed g hg'
      within := fun hc g hg => h.within hc g (hkept g hg).1
      fair := ⟨trivial, h.fair⟩ }
  · next hl =>
    have hl : e.isLoaded f = true := by simpa using hl
    split
    · next hrem =>
      obtain ⟨hdone, hperm⟩ := BoundedQueue.rotateOut_perm f e.queue
      have hdone : (removeSelf f e.queue).1 = true := hdone
      have hcount : ∀ g, (removeSelf f e.queue).2.items.count g =
          (e.queue.items.erase f).count g := fun g => hperm.count_eq g
      dsimp only
      rw [hdone, Bool.true_or, if_pos rfl]
      exact {
        counts := fun g hg => by
          show (removeSelf f e.queue).2.items.count g =
            if Function.update e.isLoaded f false g then 1 else 0
          rw [hcount]
          have := h.counts g hg
          by_cases hgf : g = f
          · subst hgf
            rw [List.count_erase_self, this]
            simp [hl]
          · rw [List.count_erase_of_ne hgf, this]
            simp [hgf]
        current := fun g hg => by
          show (removeSelf f e.queue).2.items.count g = 0
          rw [hcount]
          have := h.current g hg
          have hle := (List.erase_sublist (a := f) (l := e.queue.items)).count_le g
          omega
        removed := fun g hg => by
          show Function.update e.isLoaded f false g = false
          have hlog : isRemoved g (.removed f true :: e.log) = true := hg
          have hg' : f = g ∨ isRemoved g e.log = true := by simpa [isRemoved] using hlog
          by_cases hgf : g = f
          · subst hgf
            simp
          · rcases hg' with rfl | hg'
            · exact absurd rfl hgf
            · simp [hgf, h.removed g hg']
        within := fun hc g hg => by
          obtain ⟨hmem, hne⟩ := hkept g hg
          exact hreach hc hl hrem g hmem hne
        fair := ⟨trivial, h.fair⟩ }
    · exact ⟨h.counts, h.current, h.removed, h.within, ⟨trivial, h.fair⟩⟩

theorem Tracked.step {e : ExecutionEngine F capacity} {a : Action F} (h : e.Tracked)
    (hs : e.Sound a) : (e.step a).Tracked := by
  cases a with
  | run f => exact runFunction_tracked h hs.1 hs.2.1 hs.2.2
  | remove f => exact removeFunction_tracked h hs
  | step =>
    unfold ExecutionEngine.step
    dsimp only
    split
    · next hi => exact processFunctions_tracked h hi
    · exact h
  | done b =>
    unfold ExecutionEngine.step
    cases hx : e.executing with
    | none => exact h
    | some f => exact afterExecute_tracked h hx (hs f hx)
  | surround s => exact ⟨h.counts, h.current, h.removed, h.within, h.fair⟩

theorem Tracked.agrees {e : ExecutionEngine F capacity} (h : e.Tracked) : e.Agrees := by
  intro hi f
  have := h.counts f (by simp [hi])
  cases hl : e.isLoaded f with
  | true => simpa [hl] using this
  | false => simp [hl] at this; simp [this]

/-- A refused function is not loaded. -/
theorem step_obeys {e : ExecutionEngine F capacity} {a : Action F} (hs : e.Sound a) :
    e.Obeys a := by
  cases a with
  | run f =>
    obtain ⟨hl, -, hroom⟩ := hs
    intro hlog
    unfold ExecutionEngine.step runFunction at hlog ⊢
    dsimp only at hlog ⊢
    split
    · exact hl
    · next hacc =>
      rw [if_neg hacc] at hlog
      have hfull : e.queue.isFull = true := by simpa [note] using hlog
      have hroom : e.queue.isFull = false := by
        apply hroom
        · cases ha : e.around.hasActivity with
          | true => rfl
          | false => exact absurd (.inl ha) hacc
        · cases hfatal : e.around.fatalError with
          | false => rfl
          | true => exact absurd (.inr hfatal) hacc
      rw [hfull] at hroom
      cases hroom
  | _ => exact trivial

theorem create_tracked (s : Surroundings) :
    (create s : ExecutionEngine F capacity).Tracked where
  counts _ _ := rfl
  current _ _ := rfl
  removed f hf := by cases hf
  within hc := absurd rfl hc
  fair := trivial

/-- In every run that meets the condition, a function is marked as loaded exactly when it is
in the queue once, a refused one is not loaded, every loaded function is executed in each
step, and none after its removal. -/
theorem functions_tracked (s : Surroundings) (actions : List (Action F))
    (h : Along step Sound (create s : ExecutionEngine F capacity) actions) :
    let e := run step (create s : ExecutionEngine F capacity) actions
    e.Agrees ∧ Throughout Fair e.log ∧
      Along step Obeys (create s : ExecutionEngine F capacity) actions := by
  intro e
  have hinit : (create s : ExecutionEngine F capacity).Tracked := create_tracked s
  have ht : e.Tracked := run_invariant (I := Tracked) (fun x a hx ha => hx.step ha) hinit h
  constructor
  · exact ht.agrees
  · constructor
    · exact ht.fair
    · exact h.imp_of_invariant (I := Tracked) (fun x a hx ha => hx.step ha)
        (fun x a _ ha => step_obeys ha) hinit

/-- An engine whose activity runs. -/
def active : Surroundings := ⟨true, true, false, true⟩

/-- Two functions, the second of which removes the first and runs a third; the first two
steps of the engine. -/
theorem functions_tracked_three :
    let actions : List (Action ℕ) := [.run 0, .run 1, .step, .done true, .remove 0, .run 2,
      .done false, .step, .done true]
    let e := run step (create active : ExecutionEngine ℕ 3) actions
    e.executing = none ∧ (e.isLoaded 2 = true ↔ e.queue.items.count 2 = 1) ∧
      Throughout Fair e.log ∧ e.queue.items = [2] := by
  have h := functions_tracked (F := ℕ) active [.run 0, .run 1, .step, .done true, .remove 0,
    .run 2, .done false, .step, .done true] (by decide : Along step Sound
      (create active : ExecutionEngine ℕ 3) _)
  exact ⟨by decide, h.1 (by decide) 2, h.2.1, by decide⟩

/-- A full queue refuses a function that is then marked as loaded; a function that removes
itself and returns true is executed in the next step; and a function that removes another
one can keep a third from being executed in its step. -/
theorem functions_lost :
    let full := run step (create active : ExecutionEngine ℕ 1) [.run 0, .run 1]
    let self := run step (create active : ExecutionEngine ℕ 2)
      [.run 0, .step, .remove 0, .done true, .step]
    let skipped := run step (create active : ExecutionEngine ℕ 5)
      [.run 0, .run 1, .run 2, .run 3, .run 4, .step, .done true, .done true, .remove 4,
        .done true, .done true, .done true]
    full.log.head? = some (.ran 1 false) ∧ full.isLoaded 1 = true ∧
      full.queue.items.count 1 = 0 ∧
    Event.removed 0 true ∈ self.log ∧ self.log.head? = some (.executed 0) ∧
    skipped.executing = none ∧ Event.executed 3 ∉ skipped.log ∧ skipped.isLoaded 3 = true := by
  decide

end ExecutionEngine
end OrocosRtt.Engine
