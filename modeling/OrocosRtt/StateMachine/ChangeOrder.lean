import OrocosRtt.StateMachine.Accounting

/-! The order in which a change of state does what it has to: an abstract sequence of tasks that
the log of a machine is compared with, and its simulation by the pointers. -/
set_option linter.unusedSectionVars false

namespace OrocosRtt.StateMachine

open Library.Early

/-- One thing to be done for a change of state. -/
inductive Task (σ π : Type) where
  | start (p : π)
  /-- A program is executed until it is done. -/
  | perform (p : π)
  | become (s : σ)
  deriving DecidableEq

variable {σ π γ ω : Type} [DecidableEq σ] [DecidableEq π]
variable (G : StateGraph σ π γ)

def Task.doneBy : Task σ π → Event σ π γ → Bool
  | .start p, .start q => p = q
  | .perform p, .execute q .exited => p = q
  | .become s, .current s' => s' = some s
  | _, _ => false

/-- A program that waits or fails is not done. -/
def Task.heldUpBy : Task σ π → Event σ π γ → Bool
  | .perform p, .execute q o => p = q ∧ o ≠ .exited
  | _, _ => false

/-- What may be logged in the middle of a change without being a part of it; a run program is
started, but not executed. -/
def Event.aside : Event σ π γ → Bool
  | .start p => match G.role p with
    | .run _ => true
    | _ => false
  | .execute .. | .current _ | .changeState _ | .activate | .deactivate => false
  | _ => true

/-- All that a change from `A` to `B` with the transition program `T` is to do, in this order:
the programs are started, `T` and the exit program of `A` are executed, `B` becomes the current
state, and its entry program is executed. -/
def Change.tasks (c : Change σ π) : List (Task σ π) :=
  -- in a state that was being left for good, an exit program that is in error is skipped
  let exitprog := if c.pending = none then c.exitprog else c.source.bind G.getExitProgram
  let entryprog := G.getEntryProgram c.target
  c.transprog.toList.map .start ++ exitprog.toList.map .start ++ entryprog.toList.map .start ++
    c.transprog.toList.map .perform ++ exitprog.toList.map .perform ++
    .become c.target :: entryprog.toList.map .perform

/-- The abstract sequence: the tasks that are left after an event; `none` if it comes out of
order. A change begins when nothing is left of the one before. -/
def follow : List (Task σ π) → Event σ π γ → Option (List (Task σ π))
  | [], .changeState c => if c.source = some c.target then some [] else some (c.tasks G)
  | [], _ => some []
  | t :: ts, e =>
    if e.aside G ∨ t.heldUpBy e then some (t :: ts)
    else if t.doneBy e then some ts
    else none

/-- The tasks left of `ts` after a log, which has its newest entry first. -/
def followed (ts : List (Task σ π)) : List (Event σ π γ) → Option (List (Task σ π))
  | [] => some ts
  | e :: l => (followed ts l).bind fun ts => follow G ts e

section Follow

variable {G} {l r : List (Event σ π γ)} {ts ts₀ : List (Task σ π)}

theorem followed_cons {e : Event σ π γ} (h : followed G ts₀ l = some ts) :
    followed G ts₀ (e :: l) = follow G ts e := by
  rw [followed, h]
  rfl

theorem followed_append : followed G ts₀ (r ++ l) =
    (followed G ts₀ l).bind fun ts => followed G ts r := by
  induction r with
  | nil => simp [followed]
  | cons e r ih =>
    rw [List.cons_append, followed, ih, Option.bind_assoc]
    rfl

theorem follow_nil {e : Event σ π γ} (h : ∀ c, e ≠ .changeState c) :
    follow G [] e = some [] := by
  cases e with
  | changeState c => exact absurd rfl (h c)
  | _ => rfl

theorem follow_aside {e : Event σ π γ} (h : e.aside G = true) : follow G ts e = some ts := by
  cases ts with
  | nil =>
    refine follow_nil fun c hc => ?_
    rw [hc] at h
    cases h
  | cons t ts => exact if_pos (.inl h)

/-- A change begins only when nothing is left of the one before. -/
theorem follow_change {c : Change σ π} (h : follow G ts (.changeState c) ≠ none)
    (hne : c.source ≠ some c.target) :
    ts = [] ∧ follow G ts (.changeState c) = some (c.tasks G) := by
  cases ts with
  | nil => exact ⟨rfl, if_neg hne⟩
  | cons t ts => cases t <;> exact absurd rfl h

/-- What is logged beside a change leaves its tasks as they are. -/
theorem followed_aside (h : followed G ts₀ l = some ts) (hl : ∀ e ∈ r, e.aside G = true) :
    followed G ts₀ (r ++ l) = some ts := by
  induction r with
  | nil => exact h
  | cons e r ih =>
    rw [List.cons_append, followed_cons (ih fun e he => hl e (List.mem_cons_of_mem _ he))]
    exact follow_aside (hl e List.mem_cons_self)

/-- With nothing left, only a change begins something. -/
theorem followed_free (h : followed G ts₀ l = some []) (hl : ∀ e ∈ r, ∀ c, e ≠ .changeState c) :
    followed G ts₀ (r ++ l) = some [] := by
  induction r with
  | nil => exact h
  | cons e r ih =>
    rw [List.cons_append, followed_cons (ih fun e he => hl e (List.mem_cons_of_mem _ he))]
    exact follow_nil (hl e List.mem_cons_self)

theorem follow_execute {p : π} (o : Outcome) : follow G (.perform p :: ts) (.execute p o) =
    if o = .exited then some ts else some (.perform p :: ts) := by
  cases o <;> simp [follow, Event.aside, Task.heldUpBy, Task.doneBy]

theorem follow_current {s : σ} : follow G (.become s :: ts) (.current (some s)) = some ts := by
  simp [follow, Event.aside, Task.heldUpBy, Task.doneBy]

theorem follow_start {p : π} (h : ∀ s, G.role p ≠ .run s) :
    follow G (.start p :: ts) (.start p) = some ts := by
  have ha : (Event.start p : Event σ π γ).aside G = false := by
    cases hr : G.role p <;> simp_all [Event.aside]
  simp [follow, ha, Task.heldUpBy, Task.doneBy]

/-- The program of an option is started in its turn. -/
theorem followed_starts {o : Option π} (ho : ∀ p, o = some p → ∀ s, G.role p ≠ .run s)
    (h : followed G ts₀ l = some (o.toList.map .start ++ ts)) :
    followed G ts₀ (o.toList.map .start ++ l) = some ts := by
  cases o with
  | none => exact h
  | some p =>
    rw [Option.toList_some, List.map_singleton, List.singleton_append, followed_cons h]
    exact follow_start (ho p rfl)

end Follow

/-! The tasks that the pointers stand for. -/

namespace Core

/-- What the pointers leave to do of a change to another state. -/
def todo (c : Core σ π) : List (Task σ π) :=
  match c.next with
  | none => []
  | some n =>
    if c.current = some n then c.currentEntry.toList.map .perform
    else
      c.currentTrans.toList.map .perform ++ c.currentExit.toList.map .perform ++
        .become n :: c.currentEntry.toList.map .perform

theorem todo_none {c : Core σ π} (h : c.next = none) : c.todo = [] := by rw [todo, h]

theorem todo_current {c : Core σ π} (h : c.current = c.next) :
    c.todo = if c.next = none then [] else c.currentEntry.toList.map .perform := by
  cases hn : c.next with
  | none => simp [todo, hn]
  | some n => simp [todo, hn, h]

theorem todo_change {c : Core σ π} {n : σ} (hn : c.next = some n) (h : c.current ≠ some n) :
    c.todo = c.currentTrans.toList.map .perform ++ c.currentExit.toList.map .perform ++
      .become n :: c.currentEntry.toList.map .perform := by
  simp [todo, hn, h]

/-- Nothing is left to do when there is no state to go to, or it was entered. -/
theorem todo_eq_nil_iff {c : Core σ π} : c.todo = [] ↔
    c.next = none ∨ c.current = c.next ∧ c.currentEntry = none := by
  cases hn : c.next with
  | none => simp [todo, hn]
  | some n =>
    by_cases hc : c.current = some n
    · rw [todo_current (hc.trans hn.symm), hn]
      cases c.currentEntry <;> simp [hc]
    · rw [todo_change hn hc]
      simp [hc]

theorem todo_clear {c : Core σ π} (h : c.todo = []) (k : Slot) : (c.clear k).todo = [] := by
  rw [todo_eq_nil_iff] at h ⊢
  cases k with
  | entry => exact h.imp_right fun h => ⟨h.1, rfl⟩
  | _ => exact h

end Core

namespace Machine

variable {G} {W : Surroundings π γ ω} {m : Machine σ π γ ω}

/-- What the pointers tell of a change, and that the log has the tasks done that they do not have
any more; also in the middle of `executePending`. -/
structure Ordered (G : StateGraph σ π γ) (m : Machine σ π γ ω) : Prop where
  wf : m.WellFormed G
  live : ∀ k p, k ≠ .run → m.slot k = some p → (m.programs p).Live
  run : ∀ p, m.currentRun = some p → ∀ s,
    (m.next = some s ∨ m.next = none ∧ m.current = some s) → G.role p = .run s
  trans : m.currentTrans ≠ none → m.core.todo = [] ∨ m.currentHandle = none ∧ m.current ≠ m.next
  exit : m.currentExit ≠ none → m.next = none ∨ m.current ≠ m.next
  follows : ∃ ts, followed G [] m.log = some ts ∧ (ts = [] ∨ ts = m.core.todo)

/-- Between two calls a change that is not over has a program that is waited for; it is not one
that may be interrupted. -/
structure Guarded (G : StateGraph σ π γ) (m : Machine σ π γ ω) : Prop extends Ordered G m where
  blocked : m.core.todo ≠ [] → ∃ p, m.currentProg = some p ∧ m.currentHandle ≠ some p ∧
    ∀ s, m.next = some s → G.role p ≠ .run s
  busy : m.smStatus = .error → m.currentProg ≠ none

/-- In the middle of a change nothing may interrupt the machine. -/
theorem Guarded.inTransition (h : m.Guarded G) (ht : m.core.todo ≠ []) :
    m.inTransition = true := by
  obtain ⟨p, hp, hh, hr⟩ := h.blocked ht
  simp only [Machine.inTransition, decide_eq_true_eq, hp]
  refine ⟨by simp, fun hrun => ?_, fun hhandle => hh hhandle.symm⟩
  cases hn : m.next with
  | none => exact ht (Core.todo_none hn)
  | some s => exact hr s hn (h.run p hrun.symm s (.inl hn))

/-- The status is of no account. -/
theorem Ordered.withStatus (h : m.Ordered G) (st : Status) (sp : PrivateStatus) (b : Bool) :
    Ordered G { m with smStatus := st, smpStatus := sp, mstep := b } where
  wf := h.wf.withStatus st sp b
  live k p hk hp := h.live k p hk (by cases k <;> exact hp)
  run := h.run
  trans := h.trans
  exit := h.exit
  follows := h.follows

/-! ### Programs that are executed -/

/-- The program of a pointer comes first: it is at the head of the tasks, if any are left. -/
structure Due (G : StateGraph σ π γ) (m : Machine σ π γ ω) (k : Slot) (p : π) : Prop where
  slot : m.slot k = some p
  head : m.core.todo = [] ∨ (∀ s, G.role p ≠ .run s) ∧ m.currentHandle ≠ some p ∧
    m.core.todo = .perform p :: (m.core.clear k).todo

/-- A live program that is executed is done, or is live still. -/
theorem advanceProgram_spec {p : π} (hl : (m.programs p).Live)
    (hp : (m.programs p).pausing = false) :
    ((m.advanceProgram W false p).programs p).isStopped = true ∧
        (m.advanceProgram W false p).log = .execute p .exited :: m.log ∨
      ((m.advanceProgram W false p).programs p).Live ∧
        ((m.advanceProgram W false p).programs p).isStopped = false ∧
        ((m.advanceProgram W false p).log = m.log ∨
          ∃ o, o ≠ .exited ∧ (m.advanceProgram W false p).log = .execute p o :: m.log) := by
  obtain hr | he := hl
  · obtain ⟨o, ho, hlog⟩ := advanceProgram_running (W := W) hr hp
    rw [ho, hlog]
    cases o with
    | exited => exact .inl ⟨rfl, rfl⟩
    | waiting =>
      exact .inr ⟨.inl hr, by simp [Program.finishExecute, Program.isStopped, hr],
        .inr ⟨_, by simp, rfl⟩⟩
    | failed => exact .inr ⟨.inr rfl, rfl, .inr ⟨_, by simp, rfl⟩⟩
  · have hsame : (m.advanceProgram W false p).programs p = m.programs p ∧
        (m.advanceProgram W false p).log = m.log := by
      simp [advanceProgram, execProgram, Program.beginExecute, he, hp, setProgram]
    rw [hsame.1, hsame.2]
    exact .inr ⟨.inr he, by simp [Program.isStopped, he], .inl rfl⟩

section Stage

variable {k : Slot} {p : π}

/-- A program at the head of the tasks is no run program, hence it is live. -/
theorem Due.live (hd : Due G m k p) (h : m.Ordered G) (ht : m.core.todo ≠ []) :
    (m.programs p).Live := by
  obtain ⟨hr, -, -⟩ := hd.head.resolve_left ht
  refine h.live k p ?_ hd.slot
  rintro rfl
  obtain ⟨s, hs⟩ := h.wf.fits.run p hd.slot
  exact hr s (G.run_role s p hs)

/-- A program that has been executed and is not done. -/
theorem Ordered.waits (h : m.Ordered G) (hd : Due G m k p)
    (hs : ((m.advanceProgram W false p).programs p).isStopped = false) :
    (m.advanceProgram W false p).Ordered G := by
  have ha := advanceProgram_advanced (W := W) false p m
  have htodo : (m.advanceProgram W false p).core.todo = m.core.todo := by
    rw [ha.core]
    rfl
  have hexit : (m.advanceProgram W false p).currentExit = m.currentExit :=
    congrArg Core.currentExit ha.core
  have htrans : (m.advanceProgram W false p).currentTrans = m.currentTrans :=
    congrArg Core.currentTrans ha.core
  have hhandle : (m.advanceProgram W false p).currentHandle = m.currentHandle :=
    congrArg Core.currentHandle ha.core
  have hrun : (m.advanceProgram W false p).currentRun = m.currentRun :=
    congrArg Core.currentRun ha.core
  refine ⟨ha.wellFormed h.wf, ?_, ?_, ?_, ?_, ?_⟩
  · intro j q hj hq
    rw [ha.slot] at hq
    by_cases hqp : q = p
    · subst hqp
      have hl := h.live j q hj hq
      rcases advanceProgram_spec (W := W) hl (h.wf.pausing q) with ⟨h₁, -⟩ | ⟨h₁, -⟩
      · rw [hs] at h₁
        cases h₁
      · exact h₁
    · rw [ha.others q hqp]
      exact h.live j q hj hq
  · intro q hq s hn
    rw [hrun] at hq
    rw [ha.next, ha.current] at hn
    exact h.run q hq s hn
  · intro ht
    rw [htrans] at ht
    rw [htodo, hhandle, ha.current, ha.next]
    exact h.trans ht
  · intro hx
    rw [hexit] at hx
    rw [ha.current, ha.next]
    exact h.exit hx
  · obtain ⟨ts, hts, hcase⟩ := h.follows
    rw [htodo]
    by_cases ht : ts = []
    · subst ht
      refine ⟨[], ?_, .inl rfl⟩
      rcases ha.log with hl | ⟨o, hl⟩
      · rw [hl]
        exact hts
      · rw [hl]
        exact followed_free (r := [_]) hts (by simp)
    · have htodo' := hcase.resolve_left ht
      have hne : m.core.todo ≠ [] := htodo' ▸ ht
      refine ⟨ts, ?_, .inr htodo'⟩
      rcases advanceProgram_spec (W := W) (hd.live h hne) (h.wf.pausing p) with
        ⟨h₁, -⟩ | ⟨-, -, hl | ⟨o, ho, hl⟩⟩
      · rw [hs] at h₁
        cases h₁
      · rw [hl]
        exact hts
      · obtain ⟨-, -, hhead⟩ := hd.head.resolve_left hne
        rw [hl, followed_cons hts, htodo', hhead, follow_execute, if_neg ho]

/-- A program that has been executed and is done. -/
theorem Ordered.done (h : m.Ordered G) (hst : m.smStatus ≠ .error) (ht : m.Turn k)
    (hd : Due G m k p) (hs : ((m.advanceProgram W false p).programs p).isStopped = true) :
    Ordered G ({ m.advanceProgram W false p with currentProg := none }.clear k) := by
  have hf : Finished false W k m
      ({ m.advanceProgram W false p with currentProg := none }.clear k) := ⟨p, hd.slot, hs, rfl⟩
  have hw := (wellFormed_pendingRule (G := G) (W := W) false).done m k p h.wf hst hd.slot ht hs
  have ha := advanceProgram_advanced (W := W) false p m
  have htodo : ({ m.advanceProgram W false p with currentProg := none }.clear k).core.todo =
      (m.core.clear k).todo := by
    have hcore : ({ m.advanceProgram W false p with currentProg := none }.clear k).core =
        { (m.core.clear k) with currentProg := none } := by
      have hc : ({ m.advanceProgram W false p with currentProg := none }.clear k).core =
          Core.clear { (m.advanceProgram W false p).core with currentProg := none } k := by
        cases k <;> rfl
      rw [hc, ha.core]
      cases k <;> rfl
    rw [hcore]
    rfl
  have hprograms : ({ m.advanceProgram W false p with currentProg := none }.clear k).programs =
      (m.advanceProgram W false p).programs := clear_programs _ k
  have hlog : ({ m.advanceProgram W false p with currentProg := none }.clear k).log =
      (m.advanceProgram W false p).log := clear_log _ k
  revert hf hw htodo hprograms hlog
  generalize ({ m.advanceProgram W false p with currentProg := none }.clear k) = m'
  intro hf hw htodo hprograms hlog
  have hkeeps {j : Slot} {q : π} (hq : m'.slot j = some q) : j ≠ k ∧ m.slot j = some q := by
    rw [hf.slot] at hq
    split at hq
    · cases hq
    · next hne => exact ⟨hne, hq⟩
  have hsome {j : Slot} (hj : m'.slot j ≠ none) : j ≠ k ∧ m.slot j ≠ none := by
    obtain ⟨q, hq⟩ := Option.ne_none_iff_exists'.mp hj
    obtain ⟨hne, hq⟩ := hkeeps hq
    exact ⟨hne, by simp [hq]⟩
  have hgone {j : Slot} (hj : m.slot j = none) : m'.slot j = none := by
    rw [hf.slot, hj, ite_self]
  refine ⟨hw, ?_, ?_, ?_, ?_, ?_⟩
  · intro j q hj hq
    obtain ⟨hjk, hq⟩ := hkeeps hq
    have hqp : q ≠ p := by
      rintro rfl
      exact hjk (h.wf.fits.slot_unique hq hd.slot)
    rw [hprograms, ha.others q hqp]
    exact h.live j q hj hq
  · intro q hq s hn
    obtain ⟨-, hq⟩ := hkeeps (j := .run) hq
    rw [hf.next, hf.current] at hn
    exact h.run q hq s hn
  · intro ht
    obtain ⟨-, ht⟩ := hsome (j := .trans) ht
    rw [htodo, hf.current, hf.next]
    rcases h.trans ht with he | ⟨hh, hc⟩
    · exact .inl (Core.todo_clear he k)
    · exact .inr ⟨hgone (j := .handle) hh, hc⟩
  · intro hx
    obtain ⟨-, hx⟩ := hsome (j := .exit) hx
    rw [hf.current, hf.next]
    exact h.exit hx
  · obtain ⟨ts, hts, hcase⟩ := h.follows
    rw [htodo, hlog]
    by_cases ht : ts = []
    · subst ht
      refine ⟨[], ?_, .inl rfl⟩
      rcases ha.log with hl | ⟨o, hl⟩
      · rw [hl]
        exact hts
      · rw [hl]
        exact followed_free (r := [_]) hts (by simp)
    · have htodo' := hcase.resolve_left ht
      have hne : m.core.todo ≠ [] := htodo' ▸ ht
      refine ⟨_, ?_, .inr rfl⟩
      rcases advanceProgram_spec (W := W) (hd.live h hne) (h.wf.pausing p) with
        ⟨-, hl⟩ | ⟨-, h₁, -⟩
      · obtain ⟨-, -, hhead⟩ := hd.head.resolve_left hne
        rw [hl, followed_cons hts, htodo', hhead, follow_execute, if_pos rfl]
      · rw [hs] at h₁
        cases h₁

/-- A stage of `executePending` whose program is due. -/
theorem Ordered.executeStage (h : m.Ordered G) (hst : m.smStatus ≠ .error) (ht : m.Turn k)
    (hd : Due G m k p) (after : Machine σ π γ ω → Option π) :
    Ends (m.executeStage W k false after)
      (fun m' => m'.Ordered G ∧ m'.smStatus ≠ .error ∧ Finished false W k m m')
      (fun r => r.1 = false ∧ r.2.Guarded G) := by
  have ha := advanceProgram_advanced (W := W) false p m
  have hguard (hs : ((m.advanceProgram W false p).programs p).isStopped = false) :
      (m.advanceProgram W false p).Guarded G := by
    have hsame : (m.advanceProgram W false p).core.todo = m.core.todo := by
      rw [ha.core]
      rfl
    have hhandle : (m.advanceProgram W false p).currentHandle = m.currentHandle :=
      congrArg Core.currentHandle ha.core
    refine ⟨h.waits hd hs, fun htodo => ⟨p, ha.currentProg, ?_⟩, fun _ => by simp [ha.currentProg]⟩
    obtain ⟨hr, hh, -⟩ := hd.head.resolve_left (hsame ▸ htodo)
    exact ⟨hhandle ▸ hh, fun s _ => hr s⟩
  simp only [Machine.executeStage]
  obtain ⟨he, -, hs⟩ | ⟨he, herr⟩ | ⟨he, hs⟩ := executeProgram_cases (W := W) false hd.slot
  · rw [he]
    exact ⟨rfl, hguard hs⟩
  · rw [he]
    have hs : ((m.advanceProgram W false p).programs p).isStopped = false := by
      simp only [Program.inError, decide_eq_true_eq] at herr
      simp [Program.isStopped, herr]
    have hg := hguard hs
    exact ⟨rfl, hg.toOrdered.withStatus .error .nill (m.advanceProgram W false p).mstep, hg.blocked,
      fun _ => by simp [ha.currentProg]⟩
  · rw [he]
    have hf : Finished false W k m
        ({ m.advanceProgram W false p with currentProg := none }.clear k) :=
      ⟨p, hd.slot, hs, rfl⟩
    exact ⟨h.done hst ht hd hs, hf.smStatus ▸ hst, hf⟩

/-- A stage that is passed over if there is no program. -/
theorem Ordered.pendingSlot (h : m.Ordered G) (hst : m.smStatus ≠ .error) (ht : m.Turn k)
    (hd : ∀ p, m.slot k = some p → Due G m k p) (after : Machine σ π γ ω → Option π) :
    Ends (m.pendingSlot W k false after)
      (fun m' => (m'.Ordered G ∧ m'.smStatus ≠ .error) ∧
        m'.current = m.current ∧ m'.next = m.next ∧
        ∀ j, m'.slot j = if j = k then none else m.slot j)
      (fun r => r.1 = false ∧ r.2.Guarded G) := by
  simp only [Machine.pendingSlot]
  split
  · next hk =>
    refine ⟨⟨h, hst⟩, rfl, rfl, fun j => ?_⟩
    split
    · next hj => rw [hj, hk]
    · rfl
  · next hk =>
    obtain ⟨p, hp⟩ := Option.ne_none_iff_exists'.mp hk
    exact (h.executeStage hst ht (hd p hp) after).imp
      (fun m' h => ⟨⟨h.1, h.2.1⟩, h.2.2.current, h.2.2.next, h.2.2.slot⟩) (fun _ h => h)

end Stage

/-! ### What is pending -/

theorem Ordered.due_trans (h : m.Ordered G) {p : π} (ht : m.currentTrans = some p)
    (hh : m.currentHandle = none) : Due G m .trans p := by
  refine ⟨ht, ?_⟩
  cases hn : m.next with
  | none => exact .inl (Core.todo_none hn)
  | some n =>
    refine (h.trans (by simp [ht])).imp_right fun hc => ?_
    have hc : m.core.current ≠ some n := hn ▸ hc.2
    refine ⟨by simp [h.wf.fits.trans p ht], by simp [hh], ?_⟩
    rw [Core.todo_change (c := m.core) hn hc, Core.todo_change (c := m.core.clear .trans) hn hc]
    simp [Core.clear, ht]

/-- A handle in progress is finished before a transition program, which stays in the state. -/
theorem Ordered.todo_of_handle (h : m.Ordered G) (ht : m.currentTrans ≠ none)
    (hh : m.currentHandle ≠ none) : m.core.todo = [] :=
  (h.trans ht).resolve_right fun hc => hh hc.1

theorem Ordered.due_exit (h : m.Ordered G) {p : π} (ht : m.currentTrans = none ∨ m.core.todo = [])
    (hx : m.currentExit = some p) : Due G m .exit p := by
  refine ⟨hx, ?_⟩
  rcases ht with ht | ht
  · cases hn : m.next with
    | none => exact .inl (Core.todo_none hn)
    | some n =>
      have hc : m.core.current ≠ some n :=
        hn ▸ (h.exit (by simp [hx])).resolve_left (by simp [hn])
      obtain ⟨s, -, hs⟩ := h.wf.fits.exit p hx
      refine .inr ⟨by simp [G.exit_role s p hs], fun hh => ?_, ?_⟩
      · cases h.wf.fits.slot_unique (j := .handle) (k := .exit) hh hx
      · rw [Core.todo_change (c := m.core) hn hc, Core.todo_change (c := m.core.clear .exit) hn hc]
        simp [Core.clear, hx, ht]
  · exact .inl ht

theorem Ordered.due_entry (h : m.Ordered G) {p : π} (hc : m.current = m.next)
    (he : m.currentEntry = some p) : Due G m .entry p := by
  obtain ⟨n, hn, hen⟩ := h.wf.fits.entry p he
  have hc' : m.core.current = m.core.next := hc
  refine ⟨he, .inr ⟨by simp [G.entry_role n p hen], fun hh => ?_, ?_⟩⟩
  · cases h.wf.fits.slot_unique (j := .handle) (k := .entry) hh he
  · have hn' : m.next ≠ none := fun h' => by simp [core, h'] at hn
    rw [Core.todo_current hc', Core.todo_current (c := m.core.clear .entry) hc']
    simp [Core.clear, hn', he]

/-- Handle and run come when nothing is left of a change. -/
theorem due_idle {k : Slot} {p : π} (hk : m.slot k = some p) (hc : m.current = m.next)
    (he : m.currentEntry = none) : Due G m k p :=
  ⟨hk, .inl (Core.todo_eq_nil_iff.mpr (.inr ⟨hc, he⟩))⟩

/-- Nothing is left when a program is done that was of no change. -/
theorem todo_finished {k : Slot} {m' : Machine σ π γ ω} (ht : m.core.todo = [])
    (hc : m'.current = m.current) (hn : m'.next = m.next)
    (hs : ∀ j, m'.slot j = if j = k then none else m.slot j) : m'.core.todo = [] := by
  have he : m.currentEntry = none → m'.currentEntry = none := by
    intro he
    have h := hs .entry
    rw [show m.slot .entry = none from he, ite_self] at h
    exact h
  rw [Core.todo_eq_nil_iff] at ht ⊢
  exact ht.imp (fun h => hn.trans h) fun h => ⟨hc.trans (h.1.trans hn.symm), he h.2⟩

/-- A transition program, after the handle in progress. -/
theorem Ordered.pendingTrans (h : m.Ordered G) (hst : m.smStatus ≠ .error) :
    Ends (m.pendingTrans W false)
      (fun m' => (m'.Ordered G ∧ m'.smStatus ≠ .error) ∧
        (m'.currentTrans = none ∨ m'.core.todo = []))
      (fun r => r.1 = false ∧ r.2.Guarded G) := by
  simp only [Machine.pendingTrans]
  split
  · next ht => exact ⟨⟨h, hst⟩, .inl ht⟩
  · next ht =>
    split
    · next hh =>
      obtain ⟨p, hp⟩ := Option.ne_none_iff_exists'.mp ht
      refine (h.executeStage (k := .trans) hst hh (h.due_trans hp hh) _).imp (fun m' h' => ?_)
        (fun _ h => h)
      exact ⟨⟨h'.1, h'.2.1⟩, .inl (h'.2.2.slot .trans)⟩
    · next hh =>
      have htodo := h.todo_of_handle ht hh
      obtain ⟨p, hp⟩ := Option.ne_none_iff_exists'.mp hh
      refine (h.executeStage (k := .handle) hst (.inl ht) ⟨hp, .inl htodo⟩ _).imp (fun m' h' => ?_)
        (fun _ h => h)
      exact ⟨⟨h'.1, h'.2.1⟩,
        .inr (todo_finished htodo h'.2.2.current h'.2.2.next h'.2.2.slot)⟩

/-- The formal change of the current state. -/
theorem Ordered.pendingChange (h : m.Ordered G) (hst : m.smStatus ≠ .error)
    (ht : m.currentTrans = none ∨ m.core.todo = []) (hx : m.currentExit = none) :
    Ends (m.pendingChange G)
      (fun m' => (m'.Ordered G ∧ m'.smStatus ≠ .error) ∧ m'.currentExit = none ∧
        m'.current = m'.next)
      (fun r => r.2.Guarded G) := by
  simp only [Machine.pendingChange]
  split
  · next hc => exact ⟨⟨h, hst⟩, hx, hc⟩
  · next hc =>
    split
    · next hn =>
      have htodo : ({ m with current := none }.record (.current none)).core.todo = [] :=
        Core.todo_none hn
      have hw : WellFormed G ({ m with current := none }.record (.current none)) :=
        h.wf.of_core rfl { h.wf.fits with exit := fun p hp => by simp [record, hx] at hp }
      refine ⟨⟨hw, fun k p hk hp => h.live k p hk (by cases k <;> exact hp), ?_,
        fun _ => .inl htodo, fun hne => absurd hx hne, ?_⟩,
        fun hne => absurd htodo hne, fun he => absurd he hst⟩
      · intro p hp s hs
        rcases hs with hs | ⟨-, hs⟩
        · rw [show m.next = some s from hs] at hn
          cases hn
        · cases hs
      · obtain ⟨ts, hts, hcase⟩ := h.follows
        have he : ts = [] := hcase.elim id fun h => h.trans (Core.todo_none hn)
        subst he
        exact ⟨[], followed_free (r := [_]) hts (by simp), .inl rfl⟩
    · next n hn =>
      have hc' : m.core.current ≠ some n := hn ▸ hc
      have hT : m.currentTrans = none := by
        refine ht.resolve_right fun he => ?_
        rw [Core.todo_change (c := m.core) hn hc'] at he
        simp at he
      have hw : WellFormed G (m.becomeCurrent G n) :=
        h.wf.of_core rfl { h.wf.fits with
          exit := fun p hp => by simp [becomeCurrent, record, hx] at hp
          reqend := fun it hi => by cases hi; rfl }
      refine ⟨⟨⟨hw, fun k p hk hp => h.live k p hk (by cases k <;> exact hp), ?_,
        fun hne => absurd hT hne, fun hne => absurd hx hne, ?_⟩, hst⟩, hx, hn.symm⟩
      · intro p hp s hs
        refine h.run p hp s (hs.imp_right fun hs => ?_)
        rw [show m.next = none from hs.1] at hn
        cases hn
      · obtain ⟨ts, hts, hcase⟩ := h.follows
        have htodo : (m.becomeCurrent G n).core.todo = m.currentEntry.toList.map .perform := by
          rw [Core.todo_current (c := (m.becomeCurrent G n).core) hn.symm]
          exact if_neg (by simp [becomeCurrent, record, hn])
        by_cases he : ts = []
        · subst he
          exact ⟨[], followed_free (r := [_]) hts (by simp), .inl rfl⟩
        · refine ⟨_, ?_, .inr htodo.symm⟩
          have hhead : ts = .become n :: m.currentEntry.toList.map .perform := by
            rw [hcase.resolve_left he, Core.todo_change (c := m.core) hn hc']
            simp [hT, hx]
          exact (followed_cons hts).trans (hhead ▸ follow_current)

/-- `executePending` works off the tasks in their order. -/
theorem Ordered.executePending (h : m.Ordered G) (hst : m.smStatus ≠ .error) :
    (m.executePending G W false).2.Guarded G := by
  have hdrop {x : Except (Bool × Machine σ π γ ω) (Machine σ π γ ω)} {P : Machine σ π γ ω → Prop}
      (hx : Ends x P (fun r => r.1 = false ∧ r.2.Guarded G)) :
      Ends x P (fun r => r.2.Guarded G) := hx.imp (fun _ h => h) (fun _ h => h.2)
  rw [executePending_eq hst]
  refine Ends.result (Q := fun r : Bool × Machine σ π γ ω => r.2.Guarded G) ?_
  refine (hdrop (h.pendingTrans hst)).bind fun m₁ h₁ => ?_
  refine (hdrop (h₁.1.1.pendingSlot h₁.1.2 (k := .exit) trivial
    (fun p hp => h₁.1.1.due_exit h₁.2 hp) _)).bind fun m₂ h₂ => ?_
  have ht₂ : m₂.currentTrans = none ∨ m₂.core.todo = [] :=
    h₁.2.imp (fun ht => (h₂.2.2.2 .trans).trans ht) fun ht =>
      todo_finished ht h₂.2.1 h₂.2.2.1 h₂.2.2.2
  refine (h₂.1.1.pendingChange h₂.1.2 ht₂ (h₂.2.2.2 .exit)).bind fun m₃ h₃ => ?_
  refine (hdrop (h₃.1.1.pendingSlot h₃.1.2 (k := .entry) h₃.2
    (fun p hp => h₃.1.1.due_entry h₃.2.2 hp) _)).bind fun m₄ h₄ => ?_
  have hx₄ : m₄.currentExit = none := (h₄.2.2.2 .exit).trans h₃.2.1
  have hc₄ : m₄.current = m₄.next := h₄.2.1.trans (h₃.2.2.trans h₄.2.2.1.symm)
  have he₄ : m₄.currentEntry = none := h₄.2.2.2 .entry
  refine (hdrop (h₄.1.1.pendingSlot h₄.1.2 (k := .handle) (.inr ⟨hx₄, hc₄, he₄⟩)
    (fun p hp => due_idle hp hc₄ he₄) _)).bind fun m₅ h₅ => ?_
  have hx₅ : m₅.currentExit = none := (h₅.2.2.2 .exit).trans hx₄
  have hc₅ : m₅.current = m₅.next := h₅.2.1.trans (hc₄.trans h₅.2.2.1.symm)
  have he₅ : m₅.currentEntry = none := (h₅.2.2.2 .entry).trans he₄
  refine (hdrop (h₅.1.1.pendingSlot h₅.1.2 (k := .run) ⟨hx₅, hc₅, he₅, h₅.2.2.2 .handle⟩
    (fun p hp => due_idle hp hc₅ he₅) _)).bind fun m₆ h₆ => ?_
  have hc₆ : m₆.current = m₆.next := h₆.2.1.trans (hc₅.trans h₆.2.2.1.symm)
  have he₆ : m₆.currentEntry = none := (h₆.2.2.2 .entry).trans he₅
  exact ⟨h₆.1.1, fun hne => absurd (Core.todo_eq_nil_iff.mpr (.inr ⟨hc₆, he₆⟩)) hne,
    fun he => absurd he h₆.1.2⟩

end Machine
end OrocosRtt.StateMachine
