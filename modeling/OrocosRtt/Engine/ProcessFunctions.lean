import OrocosRtt.Library.Queue
import OrocosRtt.Library.Run
import Mathlib.Data.Int.Notation
import Mathlib.Data.List.Nodup

/-! One call of `processFunctions` while other threads load functions, and while the functions that
it executes load and remove functions. -/
namespace OrocosRtt.Engine.Processing
open Library.Queue

inductive Place (F : Type)
  | idle
  /-- The head of the loop, with `nbr`. -/
  | head (nbr : ℤ)
  /-- `f->execute()` -/
  | execute (f : F) (nbr : ℤ)
  deriving DecidableEq

/-- The loop of `removeSelfFunction`, with the function that it has taken off the queue to put it
back. -/
structure Removal (F : Type) where
  f : F
  nbr : ℕ
  foo : Option F
  deriving DecidableEq

structure State (F : Type) (capacity : ℕ) where
  queue : BoundedQueue F capacity
  place : Place F
  removal : Option (Removal F)
  /-- What the queue held when the call of `processFunctions` began. -/
  started : List F
  /-- What that call has executed. -/
  executed : List F
  /-- The steps that it has made in its loop. -/
  turns : ℕ

variable {F : Type} {capacity : ℕ}

def create : State F capacity where
  queue := .empty
  place := .idle
  removal := none
  started := []
  executed := []
  turns := 0

inductive Act (F : Type)
  /-- `runFunction`, by any thread. -/
  | run (f : F)
  /-- `processFunctions` is called, and takes the size of the queue. -/
  | enter
  | dequeue
  /-- `execute` returns. -/
  | done (result : Bool)
  /-- The thread of the engine executes `removeSelfFunction`: within `processMessages`, which the
  function that is executed may call. -/
  | remove (f : F)
  | rotate

def enter (s : State F capacity) : State F capacity :=
  match s.place, s.removal with
  | .idle, none =>
    { s with
      place := .head s.queue.items.length
      started := s.queue.items
      executed := []
      turns := 0 }
  | _, _ => s

def dequeue (s : State F capacity) : State F capacity :=
  match s.place with
  | .head nbr =>
    match s.queue.pop with
    | none => { s with place := .idle, turns := s.turns + 1 }
    | some (foo, q) =>
      { s with
        queue := q
        place := .execute foo nbr
        executed := s.executed ++ [foo]
        turns := s.turns + 1 }
  | _ => s

def afterExecute (s : State F capacity) (result : Bool) : State F capacity :=
  match s.place, s.removal with
  | .execute foo nbr, none =>
    { s with
      queue := if result then s.queue.push foo else s.queue
      place := if nbr - 1 = 0 then .idle else .head (nbr - 1)
      turns := s.turns + 1 }
  | _, _ => s

def remove (s : State F capacity) (f : F) : State F capacity :=
  match s.place, s.removal with
  | .head _, _ => s
  | _, none => { s with removal := some ⟨f, s.queue.items.length, none⟩ }
  | _, some _ => s

/-- A step of the loop of `removeSelfFunction`. -/
def rotate [DecidableEq F] (s : State F capacity) : State F capacity :=
  match s.removal with
  | none => s
  | some ⟨_, 0, _⟩ => { s with removal := none }
  | some ⟨f, nbr + 1, none⟩ =>
    match s.queue.pop with
    | none => { s with removal := none }
    | some (foo, q) =>
      if f = foo then { s with queue := q, removal := none }
      else { s with queue := q, removal := some ⟨f, nbr + 1, some foo⟩ }
  | some ⟨f, nbr + 1, some foo⟩ =>
    { s with queue := s.queue.push foo, removal := some ⟨f, nbr, none⟩ }

def step [DecidableEq F] (s : State F capacity) : Act F → State F capacity
  | .run f => { s with queue := s.queue.push f }
  | .enter => enter s
  | .dequeue => dequeue s
  | .done result => afterExecute s result
  | .remove f => remove s f
  | .rotate => rotate s

/-- The state after the steps `acts` of an engine without functions. -/
abbrev after [DecidableEq F] (acts : List (Act F)) : State F capacity :=
  Library.Run.run step create acts

/-- The last call has executed functions once each, those that were in the queue in their order,
and it ends: the number of its steps is bounded by what was in the queue. -/
structure Orderly [DecidableEq F] (s : State F capacity) : Prop where
  nodup : s.executed.Nodup
  order : (s.executed.filter (· ∈ s.started)).Sublist s.started
  bounded : s.executed.length ≤ s.started.length
  terminates : s.turns ≤ 2 * s.started.length + 1

/-- How many functions the call may execute after the one that it executes. -/
def State.left (s : State F capacity) : ℕ :=
  match s.place with
  | .idle => 0
  | .head nbr => nbr.toNat
  | .execute _ nbr => (nbr - 1).toNat

/-- The queue as it is when the removal under way has gone around it. -/
def State.line (s : State F capacity) : List F :=
  match s.removal with
  | none => s.queue.items
  | some r =>
    s.queue.items.drop (r.nbr - r.foo.toList.length) ++
      (r.foo.toList ++ s.queue.items.take (r.nbr - r.foo.toList.length))

/-- No function is in the queue twice when a call begins, and one that begins with an empty queue
finds it empty. As long as functions are left to the call, no removal takes its function off the
queue or finds the queue full, and no function of the call is loaded while a removal is under
way. -/
def Undisturbed (s : State F capacity) : Act F → Prop
  | .enter => s.queue.items.Nodup
  | .dequeue => s.place = .head 0 → s.queue.items = []
  | .run f => s.removal.isSome → s.left ≠ 0 → f ∉ s.executed ∧ f ∉ s.line ∧ f ∉ s.started
  | .rotate => s.left ≠ 0 → ∀ r ∈ s.removal,
      (r.nbr ≠ 0 → r.foo = none → s.queue.items.head? ≠ some r.f) ∧
        (r.foo.isSome → s.queue.isFull = false)
  | .done _ | .remove _ => True

instance decidableUndisturbed [DecidableEq F] (s : State F capacity) :
    ∀ a, Decidable (Undisturbed s a)
  | .enter => inferInstanceAs (Decidable s.queue.items.Nodup)
  | .dequeue => inferInstanceAs (Decidable (s.place = .head 0 → s.queue.items = []))
  | .run _ => inferInstanceAs (Decidable (_ → _ → _ ∧ _ ∧ _))
  | .rotate => inferInstanceAs (Decidable (_ → ∀ r ∈ s.removal, _ ∧ _))
  | .done _ | .remove _ => .isTrue trivial

/-! ### What is due -/

/-- The call has executed `executed` of `started`, and executes at most the first `n` functions of
`line` after them. -/
structure Due [DecidableEq F] (executed line started : List F) (n : ℕ) : Prop where
  length : n ≤ line.length
  nodup : (executed ++ line.take n).Nodup
  order : ((executed ++ line.take n).filter (· ∈ started)).Sublist started
  count : executed.length + n ≤ started.length

section
variable [DecidableEq F] {executed line started : List F} {n : ℕ}

theorem Due.start {queue : List F} (h : queue.Nodup) : Due [] queue queue queue.length where
  length := Nat.le_refl _
  nodup := by simpa using h
  order := by simp
  count := by simp

theorem Due.finish (h : Due executed line started n) (line' : List F) :
    Due executed line' started 0 where
  length := Nat.zero_le _
  nodup := by
    have hnodup := h.nodup
    rw [List.nodup_append] at hnodup
    simpa using hnodup.1
  order := by
    have horder := h.order
    rw [List.filter_append] at horder
    simpa using (List.sublist_append_left ..).trans horder
  count := by
    have hcount := h.count
    omega

theorem Due.append (h : Due executed line started n) (l : List F) :
    Due executed (line ++ l) started n where
  length := by
    rw [List.length_append]
    exact Nat.le_add_right_of_le h.length
  nodup := by
    rw [List.take_append_of_le_length h.length]
    exact h.nodup
  order := by
    rw [List.take_append_of_le_length h.length]
    exact h.order
  count := h.count

theorem Due.next {f : F} (h : Due executed (f :: line) started (n + 1)) :
    Due (executed ++ [f]) line started n where
  length := Nat.le_of_succ_le_succ h.length
  nodup := by
    rw [List.append_assoc]
    exact h.nodup
  order := by
    rw [List.append_assoc]
    exact h.order
  count := by
    have hcount := h.count
    rw [List.length_append, List.length_singleton]
    omega

/-- A function that has nothing to do with the call gets between those that are due. -/
theorem Due.insert {v w : List F} (h : Due executed (v ++ w) started n) {f : F}
    (he : f ∉ executed) (hl : f ∉ v ++ w) (hs : f ∉ started) :
    Due executed (v ++ f :: w) started n := by
  by_cases hn : n ≤ v.length
  · refine ⟨?_, ?_, ?_, h.count⟩
    · rw [List.length_append]
      omega
    · have hnodup := h.nodup
      rw [List.take_append_of_le_length hn] at hnodup ⊢
      exact hnodup
    · have horder := h.order
      rw [List.take_append_of_le_length hn] at horder ⊢
      exact horder
  · obtain ⟨k, rfl⟩ : ∃ k, n = v.length + (k + 1) := ⟨n - v.length - 1, by omega⟩
    have hfew : (executed ++ (v ++ w.take k)).Sublist (executed ++ (v ++ w.take (k + 1))) :=
      ((List.take_prefix_take_left (Nat.le_succ k)).sublist.append_left v).append_left executed
    have hold := h.nodup
    have horder := h.order
    rw [List.take_length_add_append] at hold horder
    refine ⟨?_, ?_, ?_, h.count⟩
    · have hlength := h.length
      rw [List.length_append] at hlength
      rw [List.length_append, List.length_cons]
      omega
    · rw [List.take_length_add_append, List.take_succ_cons, ← List.append_assoc,
        List.nodup_middle, List.nodup_cons, List.append_assoc]
      refine ⟨?_, hold.sublist hfew⟩
      rw [List.mem_append, List.mem_append]
      rw [List.mem_append] at hl
      have htake : f ∈ w.take k → f ∈ w := List.mem_of_mem_take
      tauto
    · have hdrop : ((executed ++ (v ++ f :: w.take k)).filter (· ∈ started)) =
          (executed ++ (v ++ w.take k)).filter (· ∈ started) := by
        simp [List.filter_append, hs]
      rw [List.take_length_add_append, List.take_succ_cons, hdrop]
      exact (hfew.filter _).trans horder

end

/-! ### The invariant -/

def Place.Sound (turns executed started : ℕ) : Place F → Prop
  | .idle => turns ≤ 2 * started + 1
  | .head nbr => 0 ≤ nbr ∧ turns = 2 * executed
  | .execute _ nbr => 1 ≤ nbr ∧ turns + 1 = 2 * executed

structure Inv [DecidableEq F] (s : State F capacity) : Prop where
  rotating : ∀ r, s.removal = some r →
    r.foo.toList.length ≤ r.nbr ∧ r.nbr - r.foo.toList.length ≤ s.queue.items.length
  quiet : ∀ nbr, s.place = .head nbr → s.removal = none
  sound : s.place.Sound s.turns s.executed.length s.started.length
  due : Due s.executed s.line s.started s.left

section
variable [DecidableEq F] {s : State F capacity}

omit [DecidableEq F] in
theorem line_none (h : s.removal = none) : s.line = s.queue.items := by
  rw [State.line, h]

/-- No removal is under way. -/
theorem inv_of_none (hr : s.removal = none)
    (hs : s.place.Sound s.turns s.executed.length s.started.length)
    (hd : Due s.executed s.queue.items s.started s.left) : Inv s where
  rotating r hr' := by
    rw [hr] at hr'
    cases hr'
  quiet _ _ := hr
  sound := hs
  due := by
    rw [line_none hr]
    exact hd

theorem create_inv : Inv (create : State F capacity) where
  rotating _ h := by cases h
  quiet _ h := by cases h
  sound := Nat.zero_le 1
  due := Due.start List.nodup_nil

omit [DecidableEq F] in
theorem push_append (q : BoundedQueue F capacity) (f : F) :
    ∃ l, (q.push f).items = q.items ++ l ∧ (l = [f] ∨ l = []) := by
  cases h : q.isFull with
  | true => exact ⟨[], by rw [q.push_full h, List.append_nil], .inr rfl⟩
  | false => exact ⟨[f], q.push_items h f, .inl rfl⟩

theorem run_inv (h : Inv s) {f : F} (ha : Undisturbed s (.run f)) : Inv (step s (.run f)) := by
  obtain ⟨l, hl, hcase⟩ := push_append s.queue f
  refine ⟨fun r hr => ?_, h.quiet, h.sound, ?_⟩
  · obtain ⟨hfoo, hle⟩ := h.rotating r hr
    refine ⟨hfoo, ?_⟩
    show _ ≤ (s.queue.push f).items.length
    rw [hl, List.length_append]
    exact Nat.le_add_right_of_le hle
  · show Due s.executed (step s (.run f)).line s.started s.left
    cases hr : s.removal with
    | none =>
      have hline : (step s (.run f)).line = s.line ++ l := by
        rw [line_none hr, line_none (s := step s (.run f)) hr]
        exact hl
      rw [hline]
      exact h.due.append l
    | some r =>
      by_cases hleft : s.left = 0
      · have hdue := h.due
        rw [hleft] at hdue ⊢
        exact hdue.finish _
      · obtain ⟨he, hmem, hs⟩ := ha (by rw [hr]; rfl) hleft
        obtain ⟨-, hle⟩ := h.rotating r hr
        have hold : s.line = s.queue.items.drop (r.nbr - r.foo.toList.length) ++
            (r.foo.toList ++ s.queue.items.take (r.nbr - r.foo.toList.length)) := by
          rw [State.line, hr]
        have hnew : (step s (.run f)).line =
            s.queue.items.drop (r.nbr - r.foo.toList.length) ++
              (l ++ (r.foo.toList ++ s.queue.items.take (r.nbr - r.foo.toList.length))) := by
          have hline : (step s (.run f)).line =
              (s.queue.push f).items.drop (r.nbr - r.foo.toList.length) ++
                (r.foo.toList ++ (s.queue.push f).items.take (r.nbr - r.foo.toList.length)) := by
            simp only [State.line, step, hr]
          rw [hline, hl, List.drop_append_of_le_length hle, List.take_append_of_le_length hle,
            List.append_assoc]
        rw [hnew]
        have hdue := h.due
        rw [hold] at hdue hmem
        rcases hcase with rfl | rfl
        · exact hdue.insert he hmem hs
        · exact hdue

theorem enter_inv (h : Inv s) (ha : Undisturbed s .enter) : Inv (enter s) := by
  unfold enter
  split
  · rename_i hp hr
    exact inv_of_none hr ⟨Int.natCast_nonneg _, rfl⟩ (Due.start ha)
  · exact h

theorem dequeue_inv (h : Inv s) (ha : Undisturbed s .dequeue) : Inv (dequeue s) := by
  unfold dequeue
  cases hp : s.place with
  | idle => exact h
  | execute f nbr => exact h
  | head nbr =>
    have hr := h.quiet nbr hp
    have hsound := h.sound
    have hdue := h.due
    have hcount := hdue.count
    rw [hp] at hsound
    obtain ⟨hnbr, hturns⟩ := hsound
    rw [line_none hr, State.left, hp] at hdue
    dsimp only at hdue ⊢
    cases hq : s.queue.items with
    | nil =>
      rw [BoundedQueue.pop_nil hq]
      refine inv_of_none hr ?_ (hdue.finish _)
      show s.turns + 1 ≤ 2 * s.started.length + 1
      omega
    | cons f q =>
      obtain ⟨q', hpop, hq'⟩ := BoundedQueue.pop_cons hq
      rw [hpop]
      -- a call that has executed its last function does not come here
      obtain ⟨k, rfl⟩ : ∃ k : ℕ, nbr = k + 1 := by
        have hpos : nbr ≠ 0 := by
          rintro rfl
          rw [ha hp] at hq
          cases hq
        exact ⟨(nbr - 1).toNat, by omega⟩
      have hleft : ((k : ℤ) + 1).toNat = k + 1 := by omega
      have hnext : ((k : ℤ) + 1 - 1).toNat = k := by omega
      rw [hq, hleft] at hdue
      refine inv_of_none hr ⟨by omega, ?_⟩ ?_
      · show s.turns + 1 + 1 = 2 * (s.executed ++ [f]).length
        rw [List.length_append, List.length_singleton]
        omega
      · show Due (s.executed ++ [f]) q'.items s.started ((k : ℤ) + 1 - 1).toNat
        rw [hq', hnext]
        exact hdue.next

theorem afterExecute_inv (h : Inv s) (result : Bool) : Inv (afterExecute s result) := by
  unfold afterExecute
  split
  · rename_i foo nbr hp hr
    have hsound := h.sound
    have hdue := h.due
    have hcount := hdue.count
    rw [hp] at hsound
    obtain ⟨hnbr, hturns⟩ := hsound
    rw [line_none hr, State.left, hp] at hdue
    dsimp only at hdue
    obtain ⟨l, hl⟩ : ∃ l, (if result then s.queue.push foo else s.queue).items =
        s.queue.items ++ l := by
      cases result with
      | true =>
        obtain ⟨l, hl, -⟩ := push_append s.queue foo
        exact ⟨l, hl⟩
      | false => exact ⟨[], (List.append_nil _).symm⟩
    by_cases hlast : nbr - 1 = 0
    · rw [if_pos hlast]
      refine inv_of_none hr ?_ (hdue.finish _)
      show s.turns + 1 ≤ 2 * s.started.length + 1
      omega
    · rw [if_neg hlast]
      refine inv_of_none hr ⟨by omega, by omega⟩ ?_
      show Due s.executed (if result then s.queue.push foo else s.queue).items s.started
        (nbr - 1).toNat
      rw [hl]
      exact hdue.append l
  · exact h

theorem remove_inv (h : Inv s) (f : F) : Inv (remove s f) := by
  unfold remove
  split
  · exact h
  · rename_i hr hp
    refine ⟨fun r hr' => ?_, fun nbr hp' => absurd hp' (hp nbr), h.sound, ?_⟩
    · cases hr'
      exact ⟨Nat.zero_le _, Nat.le_refl _⟩
    · have hdue := h.due
      rw [line_none hr] at hdue
      show Due s.executed (s.queue.items.drop s.queue.items.length ++
        ([] ++ s.queue.items.take s.queue.items.length)) s.started s.left
      rw [List.drop_length, List.take_length]
      exact hdue
  · exact h

theorem rotate_inv (h : Inv s) (ha : Undisturbed s .rotate) : Inv (rotate s) := by
  unfold rotate
  cases hr : s.removal with
  | none => exact h
  | some r =>
    have hquiet : ∀ nbr, s.place ≠ .head nbr := by
      intro nbr hp
      have hnone := h.quiet nbr hp
      rw [hr] at hnone
      cases hnone
    obtain ⟨f, nbr, foo⟩ := r
    obtain ⟨hfoo, hle⟩ := h.rotating _ hr
    have hdue := h.due
    have hend : ∀ q : BoundedQueue F capacity, s.left = 0 ∨ q.items = s.line →
        Inv { s with queue := q, removal := none } := by
      intro q hq
      refine inv_of_none rfl h.sound ?_
      show Due s.executed q.items s.started s.left
      rcases hq with hq | hq
      · rw [hq] at hdue ⊢
        exact hdue.finish _
      · rw [hq]
        exact hdue
    cases nbr with
    | zero =>
      refine hend s.queue (.inr ?_)
      have hnone : foo = none := by
        cases foo with
        | none => rfl
        | some a => cases hfoo
      rw [State.line, hr, hnone]
      exact (List.append_nil _).symm
    | succ nbr =>
      cases foo with
      | none =>
        dsimp only
        cases hq : s.queue.items with
        | nil =>
          rw [BoundedQueue.pop_nil hq]
          refine hend s.queue (.inr ?_)
          rw [State.line, hr, hq]
          rfl
        | cons a q =>
          obtain ⟨q', hpop, hq'⟩ := BoundedQueue.pop_cons hq
          rw [hpop]
          dsimp only
          split
          · rename_i hfound
            refine hend q' (.inl ?_)
            by_contra hleft
            have hmiss := (ha hleft _ hr).1 (Nat.succ_ne_zero nbr) rfl
            rw [hq, hfound] at hmiss
            exact hmiss rfl
          · have hline : s.line = q.drop nbr ++ a :: q.take nbr := by
              rw [State.line, hr, hq]
              rfl
            refine ⟨fun r hr' => ?_, fun nbr' hp => absurd hp (hquiet nbr'), h.sound, ?_⟩
            · cases hr'
              refine ⟨Nat.le_add_left 1 nbr, ?_⟩
              rw [hq, List.length_cons] at hle
              dsimp only
              rw [hq']
              exact Nat.le_of_succ_le_succ hle
            · show Due s.executed (q'.items.drop nbr ++ a :: q'.items.take nbr) s.started s.left
              rw [hq', ← hline]
              exact hdue
      | some a =>
        dsimp only
        have hle' : nbr ≤ s.queue.items.length := hle
        obtain ⟨l, hl, hcase⟩ := push_append s.queue a
        refine ⟨fun r hr' => ?_, fun nbr' hp => absurd hp (hquiet nbr'), h.sound, ?_⟩
        · cases hr'
          refine ⟨Nat.zero_le _, ?_⟩
          dsimp only
          rw [hl, List.length_append]
          exact Nat.le_add_right_of_le hle'
        · show Due s.executed ((s.queue.push a).items.drop nbr ++ (s.queue.push a).items.take nbr)
            s.started s.left
          by_cases hleft : s.left = 0
          · rw [hleft] at hdue ⊢
            exact hdue.finish _
          · have hroom : s.queue.isFull = false := (ha hleft _ hr).2 rfl
            have hline : s.line = s.queue.items.drop nbr ++ a :: s.queue.items.take nbr := by
              rw [State.line, hr]
              rfl
            rw [BoundedQueue.push_items hroom, List.drop_append_of_le_length hle',
              List.take_append_of_le_length hle', List.append_assoc, List.singleton_append, ← hline]
            exact hdue

theorem step_inv {a : Act F} (h : Inv s) (ha : Undisturbed s a) : Inv (step s a) := by
  cases a with
  | run f => exact run_inv h ha
  | enter => exact enter_inv h ha
  | dequeue => exact dequeue_inv h ha
  | done result => exact afterExecute_inv h result
  | remove f => exact remove_inv h f
  | rotate => exact rotate_inv h ha

theorem Inv.orderly (h : Inv s) : Orderly s := by
  have hdue := h.due.finish []
  have hsound := h.sound
  have hcount := hdue.count
  refine ⟨by simpa using hdue.nodup, by simpa using hdue.order, hcount, ?_⟩
  cases hp : s.place with
  | idle =>
    rw [hp] at hsound
    exact hsound
  | head nbr =>
    rw [hp] at hsound
    have hturns := hsound.2
    omega
  | execute f nbr =>
    rw [hp] at hsound
    have hturns := hsound.2
    omega

/-- In an undisturbed run every call of `processFunctions` is orderly. -/
theorem process_functions (acts : List (Act F))
    (h : Library.Run.Along step Undisturbed (create : State F capacity) acts) :
    Orderly (after acts : State F capacity) :=
  (Library.Run.run_invariant (fun _ _ => step_inv) create_inv h).orderly

end

/-- The first function removes itself while another thread loads a third one. -/
theorem process_functions_two :
    let acts : List (Act ℕ) :=
      [.run 1, .run 2, .enter, .dequeue, .remove 1, .rotate, .run 3, .rotate, .rotate,
        .done true, .dequeue, .done false]
    Orderly (after acts : State ℕ 4) ∧ (after acts : State ℕ 4).executed = [1, 3] :=
  ⟨process_functions _ (by decide), rfl⟩

/-- A function removes the one after it. -/
theorem round_trip_missed :
    let acts : List (Act ℕ) :=
      [.run 1, .run 2, .enter, .dequeue, .remove 2, .rotate, .done true, .dequeue]
    ¬ Orderly (after acts : State ℕ 4) :=
  fun h => absurd h.nodup (by decide)

/-- A call that began with an empty queue and then finds `f` there. -/
structure Endless (s : State ℕ 1) (f : ℕ) : Prop where
  queue : s.queue.items = [f]
  removal : s.removal = none
  place : ∃ nbr ≤ 0, s.place = .head nbr

theorem Endless.again {s : State ℕ 1} {f : ℕ} (h : Endless s f) :
    Endless (Library.Run.run step s [.dequeue, .done true]) f ∧
      (Library.Run.run step s [.dequeue, .done true]).executed = s.executed ++ [f] := by
  obtain ⟨nbr, hnbr, hp⟩ := h.place
  obtain ⟨q, hpop, hq⟩ := BoundedQueue.pop_cons h.queue
  have hmore : nbr - 1 ≠ 0 := by omega
  have hfirst : dequeue s =
      { s with
        queue := q
        place := .execute f nbr
        executed := s.executed ++ [f]
        turns := s.turns + 1 } := by
    simp [dequeue, hp, hpop]
  have hsecond : Library.Run.run step s [.dequeue, .done true] =
      { s with
        queue := q.push f
        place := .head (nbr - 1)
        executed := s.executed ++ [f]
        turns := s.turns + 1 + 1 } := by
    show afterExecute (dequeue s) true = _
    rw [hfirst]
    simp [afterExecute, h.removal, hmore]
  rw [hsecond]
  have hroom : q.isFull = false := by simp [BoundedQueue.not_full_iff, hq]
  exact ⟨⟨by rw [BoundedQueue.push_items hroom, hq]; rfl, h.removal, nbr - 1, by omega, rfl⟩, rfl⟩

/-- A function that is loaded after a call has seen an empty queue is executed again and again, and
the call does not end. -/
theorem executed_forever (f k : ℕ) :
    (after ([.enter, .run f] ++
      (List.replicate k [.dequeue, .done true]).flatten) : State ℕ 1).executed =
        List.replicate k f := by
  have hrun : ∀ (k : ℕ) (s : State ℕ 1), Endless s f →
      (Library.Run.run step s (List.replicate k [.dequeue, .done true]).flatten).executed =
        s.executed ++ List.replicate k f := by
    intro k
    induction k with
    | zero => intro s _; exact (List.append_nil _).symm
    | succ k ih =>
      intro s h
      obtain ⟨hnext, hexec⟩ := h.again
      rw [List.replicate_succ, List.flatten_cons, Library.Run.run_append, ih _ hnext, hexec,
        List.append_assoc]
      rfl
  rw [after, Library.Run.run_append]
  exact hrun k _ ⟨rfl, rfl, 0, Int.le_refl 0, rfl⟩

end OrocosRtt.Engine.Processing
