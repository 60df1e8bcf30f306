import OrocosRtt.StateMachine.Frame

/-! Rules for the functions that change the core of a state machine: one for a program
executed through its pointer, one for everything `executePending` does, and what is known
when nothing is pending any more. -/
set_option linter.unusedSectionVars false

namespace OrocosRtt.StateMachine.Machine

open Library.Early

variable {σ π γ ω : Type} [DecidableEq σ] [DecidableEq π]
variable {G : StateGraph σ π γ} {W : Surroundings π γ ω}

/-! ### Programs -/

/-- `m'` comes from `m` by a step or an execution of the program `p`. -/
structure Advanced (p : π) (m m' : Machine σ π γ ω) : Prop where
  core : m'.core = { m.core with currentProg := some p }
  others : ∀ q, q ≠ p → m'.programs q = m.programs q
  loaded : (m'.programs p).isLoaded = (m.programs p).isLoaded
  pausing : (m.programs p).pausing = false → (m'.programs p).pausing = false
  log : m'.log = m.log ∨ ∃ o, m'.log = .execute p o :: m.log
  precIt : m'.precIt = m.precIt
  checkingPrecond : m'.checkingPrecond = m.checkingPrecond

/-- What an execution of the program `p` may change of the machine. -/
structure Executed (p : π) (m m' : Machine σ π γ ω) : Prop where
  core : m'.core = m.core
  others : ∀ q, q ≠ p → m'.programs q = m.programs q
  loaded : (m'.programs p).isLoaded = (m.programs p).isLoaded
  pausing : (m'.programs p).pausing = false
  log : m'.log = m.log ∨ ∃ o, m'.log = .execute p o :: m.log
  precIt : m'.precIt = m.precIt
  checkingPrecond : m'.checkingPrecond = m.checkingPrecond

theorem execProgram_executed (p : π) (m : Machine σ π γ ω) :
    Executed p m (m.execProgram W p) := by
  have hl := Program.beginExecute_isLoaded (m.programs p)
  have hp := Program.beginExecute_pausing (m.programs p)
  simp only [execProgram]
  split
  · exact ⟨rfl, fun q hq => setProgram_other _ _ hq, by simpa using hl, by simpa using hp,
      .inl rfl, rfl, rfl⟩
  all_goals
    refine ⟨rfl, fun q hq => ?_, by simpa using hl, by simpa using hp, .inr ⟨_, rfl⟩, rfl, rfl⟩
    rw [programs_record, setProgram_other _ _ hq]
    exact setProgram_other _ _ hq

theorem advanceProgram_advanced (stepping : Bool) (p : π) (m : Machine σ π γ ω) :
    Advanced p m (m.advanceProgram W stepping p) := by
  simp only [advanceProgram]
  split
  · simp only [stepProgram]
    split
    · next q hq =>
      refine ⟨rfl, fun r hr => setProgram_other _ _ hr, ?_, fun h => ?_, .inl rfl, rfl, rfl⟩
      · simpa using Program.step_isLoaded hq
      · simpa [Program.step_pausing hq] using h
    · exact ⟨rfl, fun _ _ => rfl, rfl, id, .inl rfl, rfl, rfl⟩
  · have h := execProgram_executed (W := W) p { m with currentProg := some p }
    exact ⟨h.core, h.others, h.loaded, fun _ => h.pausing, h.log, h.precIt, h.checkingPrecond⟩

namespace Advanced

variable {p : π} {m m' : Machine σ π γ ω}

theorem isLoaded (h : Advanced p m m') (q : π) :
    (m'.programs q).isLoaded = (m.programs q).isLoaded := by
  by_cases hq : q = p
  · rw [hq, h.loaded]
  · rw [h.others q hq]

theorem notPausing (h : Advanced p m m') (hp : ∀ q, (m.programs q).pausing = false) (q : π) :
    (m'.programs q).pausing = false := by
  by_cases hq : q = p
  · rw [hq]; exact h.pausing (hp p)
  · rw [h.others q hq]; exact hp q

end Advanced

/-- A running program really runs when it is executed. -/
theorem advanceProgram_running {p : π} {m : Machine σ π γ ω}
    (hr : (m.programs p).pStatus = .running) (hp : (m.programs p).pausing = false) :
    ∃ o, (m.advanceProgram W false p).programs p = (m.programs p).finishExecute o ∧
      (m.advanceProgram W false p).log = .execute p o :: m.log := by
  refine ⟨(W.executeUntil p m.world).1, ?_, ?_⟩ <;>
    simp [advanceProgram, execProgram, Program.beginExecute, hr, hp, setProgram]

/-- Stepping does not touch a program that is running. -/
theorem advanceProgram_stepping {p : π} {m : Machine σ π γ ω}
    (hr : (m.programs p).pStatus = .running) :
    (m.advanceProgram W true p).programs = m.programs := by
  simp [advanceProgram, stepProgram, Program.step, hr]

/-- The three ways `executeProgram` returns: the program waits, has failed, or is done. -/
theorem executeProgram_cases {k : Slot} {p : π} {m : Machine σ π γ ω} (stepping : Bool)
    (hk : m.slot k = some p) :
    let m₁ := m.advanceProgram W stepping p
    m.executeProgram W k stepping = (false, m₁) ∧
        (m₁.programs p).inError = false ∧ (m₁.programs p).isStopped = false ∨
      m.executeProgram W k stepping =
          (false, { m₁ with smStatus := .error, smpStatus := .nill }) ∧
        (m₁.programs p).inError = true ∨
      m.executeProgram W k stepping = (true, { m₁ with currentProg := none }.clear k) ∧
        (m₁.programs p).isStopped = true := by
  simp only [executeProgram, hk]
  split
  · next h => exact .inr (.inl ⟨rfl, h⟩)
  · next h =>
    split
    · next h' => exact .inl ⟨rfl, by simpa using h, h'⟩
    · next h' => exact .inr (.inr ⟨rfl, by simpa using h'⟩)

/-! ### The rule for `executePending` -/

/-- When `executePending` comes to the program of a pointer. -/
def Turn (m : Machine σ π γ ω) : Slot → Prop
  | .trans => m.currentHandle = none
  | .exit => True
  | .entry => m.currentExit = none ∧ m.current = m.next
  | .handle => m.currentTrans ≠ none ∨
      m.currentExit = none ∧ m.current = m.next ∧ m.currentEntry = none
  | .run => m.currentExit = none ∧ m.current = m.next ∧ m.currentEntry = none ∧
      m.currentHandle = none

variable (G W) in
/-- A property of machines that every single thing `executePending` does keeps. -/
structure PendingRule (stepping : Bool) (I : Machine σ π γ ω → Prop) : Prop where
  waits : ∀ m k p, I m → m.smStatus ≠ .error → m.slot k = some p → m.Turn k →
    ((m.advanceProgram W stepping p).programs p).inError = false →
    ((m.advanceProgram W stepping p).programs p).isStopped = false →
    I (m.advanceProgram W stepping p)
  fails : ∀ m k p, I m → m.smStatus ≠ .error → m.slot k = some p → m.Turn k →
    ((m.advanceProgram W stepping p).programs p).inError = true →
    I { m.advanceProgram W stepping p with smStatus := .error, smpStatus := .nill }
  done : ∀ m k p, I m → m.smStatus ≠ .error → m.slot k = some p → m.Turn k →
    ((m.advanceProgram W stepping p).programs p).isStopped = true →
    I ({ m.advanceProgram W stepping p with currentProg := none }.clear k)
  after : stepping = true → ∀ m o, I m → m.smStatus ≠ .error →
    (∀ p, o = some p → ∃ k, k ≠ .trans ∧ k ≠ .handle ∧ m.slot k = some p) →
    I { m with currentProg := o }
  leaves : ∀ m, I m → m.smStatus ≠ .error → m.currentExit = none → m.next = none → m.current ≠ none →
    I ({ m with current := none }.record (.current none))
  becomes : ∀ m n, I m → m.smStatus ≠ .error → m.currentExit = none → m.next = some n → m.current ≠ some n →
    I (m.becomeCurrent G n)

variable {stepping : Bool} {I : Machine σ π γ ω → Prop}

theorem PendingRule.executeProgram (hI : PendingRule G W stepping I) {k : Slot}
    {m : Machine σ π γ ω} (h : I m) (hst : m.smStatus ≠ .error) (ht : m.Turn k) :
    I (m.executeProgram W k stepping).2 := by
  cases hk : m.slot k with
  | none => simpa [Machine.executeProgram, hk] using h
  | some p =>
    obtain ⟨he, h₁, h₂⟩ | ⟨he, h₁⟩ | ⟨he, h₁⟩ := executeProgram_cases (W := W) stepping hk
    · rw [he]; exact hI.waits m k p h hst hk ht h₁ h₂
    · rw [he]; exact hI.fails m k p h hst hk ht h₁
    · rw [he]; exact hI.done m k p h hst hk ht h₁

@[simp] theorem clear_currentProg (m : Machine σ π γ ω) (k : Slot) :
    (m.clear k).currentProg = m.currentProg := by cases k <;> rfl

@[simp] theorem clear_current (m : Machine σ π γ ω) (k : Slot) :
    (m.clear k).current = m.current := by cases k <;> rfl

@[simp] theorem clear_next (m : Machine σ π γ ω) (k : Slot) :
    (m.clear k).next = m.next := by cases k <;> rfl

@[simp] theorem clear_smStatus (m : Machine σ π γ ω) (k : Slot) :
    (m.clear k).smStatus = m.smStatus := by cases k <;> rfl

@[simp] theorem clear_programs (m : Machine σ π γ ω) (k : Slot) :
    (m.clear k).programs = m.programs := by cases k <;> rfl

@[simp] theorem clear_log (m : Machine σ π γ ω) (k : Slot) :
    (m.clear k).log = m.log := by cases k <;> rfl

@[simp] theorem slot_clear (m : Machine σ π γ ω) (k j : Slot) :
    (m.clear k).slot j = if j = k then none else m.slot j := by
  cases k <;> cases j <;> rfl

theorem slot_withProg (m : Machine σ π γ ω) (o : Option π) (j : Slot) :
    ({ m with currentProg := o } : Machine σ π γ ω).slot j = m.slot j := by cases j <;> rfl

namespace Advanced

variable {p : π} {m m' : Machine σ π γ ω}

theorem slot (h : Advanced p m m') (k : Slot) : m'.slot k = m.slot k :=
  (slot_core { m with currentProg := some p } h.core k).trans (slot_withProg m _ k)

theorem currentProg (h : Advanced p m m') : m'.currentProg = some p :=
  congrArg Core.currentProg h.core

theorem current (h : Advanced p m m') : m'.current = m.current :=
  congrArg Core.current h.core

theorem next (h : Advanced p m m') : m'.next = m.next := congrArg Core.next h.core

theorem smStatus (h : Advanced p m m') : m'.smStatus = m.smStatus :=
  congrArg Core.smStatus h.core

theorem connected (h : Advanced p m m') : m'.connected = m.connected :=
  congrArg Core.connected h.core

end Advanced

/-- The program of `k` has stopped and its pointer is cleaned up. -/
def Finished (stepping : Bool) (W : Surroundings π γ ω) (k : Slot)
    (m m' : Machine σ π γ ω) : Prop :=
  ∃ p, m.slot k = some p ∧
    ((m.advanceProgram W stepping p).programs p).isStopped = true ∧
    m' = { m.advanceProgram W stepping p with currentProg := none }.clear k

namespace Finished

variable {k : Slot} {m m' : Machine σ π γ ω}

theorem slot (h : Finished stepping W k m m') (j : Slot) :
    m'.slot j = if j = k then none else m.slot j := by
  obtain ⟨p, -, -, rfl⟩ := h
  rw [slot_clear, slot_withProg, (advanceProgram_advanced stepping p m).slot]

theorem smStatus (h : Finished stepping W k m m') : m'.smStatus = m.smStatus := by
  obtain ⟨p, -, -, rfl⟩ := h
  rw [clear_smStatus]
  exact (advanceProgram_advanced stepping p m).smStatus

theorem currentProg (h : Finished stepping W k m m') : m'.currentProg = none := by
  obtain ⟨p, -, -, rfl⟩ := h
  rw [clear_currentProg]

theorem current (h : Finished stepping W k m m') : m'.current = m.current := by
  obtain ⟨p, -, -, rfl⟩ := h
  rw [clear_current]
  exact (advanceProgram_advanced stepping p m).current

theorem next (h : Finished stepping W k m m') : m'.next = m.next := by
  obtain ⟨p, -, -, rfl⟩ := h
  rw [clear_next]
  exact (advanceProgram_advanced stepping p m).next

end Finished

theorem executeProgram_done {k : Slot} {m m' : Machine σ π γ ω}
    (h : m.executeProgram W k stepping = (true, m')) : Finished stepping W k m m' := by
  cases hk : m.slot k with
  | none => simp [Machine.executeProgram, hk] at h
  | some p =>
    obtain ⟨he, -, -⟩ | ⟨he, -⟩ | ⟨he, hs⟩ := executeProgram_cases (W := W) stepping hk
    · rw [he] at h; cases h
    · rw [he] at h; cases h
    · rw [he] at h
      simp only [Prod.mk.injEq, true_and] at h
      exact ⟨p, hk, hs, h.symm⟩

/-- A stage goes on only when its program has stopped, and never in stepping mode. -/
theorem executeStage_ends (k : Slot) (after : Machine σ π γ ω → Option π)
    (m : Machine σ π γ ω) :
    Ends (m.executeStage W k stepping after)
      (fun m' => stepping = false ∧ Finished stepping W k m m') (fun r => r.1 = false) := by
  simp only [Machine.executeStage]
  split
  · exact rfl
  · next m₁ he =>
    split
    · exact rfl
    · next hs => exact ⟨by simpa using hs, executeProgram_done he⟩

theorem PendingRule.executeStage (hI : PendingRule G W stepping I) {k : Slot}
    {after : Machine σ π γ ω → Option π} {m : Machine σ π γ ω} (h : I m)
    (hst : m.smStatus ≠ .error) (ht : m.Turn k)
    (ha : ∀ m p, m.currentProg = none → after m = some p →
      ∃ k, k ≠ .trans ∧ k ≠ .handle ∧ m.slot k = some p) :
    Ends (m.executeStage W k stepping after) (fun m' => I m' ∧ m'.smStatus ≠ .error)
      (fun r => I r.2) := by
  have hp := hI.executeProgram h hst ht
  simp only [Machine.executeStage]
  split
  · next m₁ he => rw [he] at hp; exact hp
  · next m₁ he =>
    rw [he] at hp
    have hf := executeProgram_done he
    have hst₁ : m₁.smStatus ≠ .error := hf.smStatus ▸ hst
    split
    · next hs => exact hI.after hs _ _ hp hst₁ fun p => ha _ p hf.currentProg
    · exact ⟨hp, hst₁⟩

theorem PendingRule.pendingSlot (hI : PendingRule G W stepping I) {k : Slot}
    {after : Machine σ π γ ω → Option π} {m : Machine σ π γ ω}
    (h : I m ∧ m.smStatus ≠ .error) (ht : m.Turn k)
    (ha : ∀ m p, m.currentProg = none → after m = some p →
      ∃ k, k ≠ .trans ∧ k ≠ .handle ∧ m.slot k = some p) :
    Ends (m.pendingSlot W k stepping after) (fun m' => I m' ∧ m'.smStatus ≠ .error)
      (fun r => I r.2) := by
  simp only [Machine.pendingSlot]
  split
  · exact h
  · exact hI.executeStage h.1 h.2 ht ha

theorem PendingRule.pendingChange (hI : PendingRule G W stepping I) {m : Machine σ π γ ω}
    (h : I m ∧ m.smStatus ≠ .error) (hx : m.currentExit = none) :
    Ends (m.pendingChange G) (fun m' => I m' ∧ m'.smStatus ≠ .error) (fun r => I r.2) := by
  simp only [Machine.pendingChange]
  split
  · exact h
  · next hne =>
    split
    · next hn => exact hI.leaves m h.1 h.2 hx hn (hn ▸ hne)
    · next n hn => exact ⟨hI.becomes m n h.1 h.2 hx hn (hn ▸ hne), h.2⟩

theorem pendingTrans_ends (m : Machine σ π γ ω) :
    Ends (m.pendingTrans W stepping)
      (fun m' => m' = m ∧ m.currentTrans = none ∨
        stepping = false ∧ ∃ k, Finished stepping W k m m')
      (fun r => r.1 = false) := by
  simp only [pendingTrans]
  split
  · next h => exact .inl ⟨rfl, h⟩
  · exact (executeStage_ends _ _ m).imp (fun m' h => .inr ⟨h.1, _, h.2⟩) (fun _ h => h)

/-- A stage is passed when there is no program, or it has stopped; in stepping mode only
when there is none. -/
theorem pendingSlot_ends (k : Slot) (after : Machine σ π γ ω → Option π)
    (m : Machine σ π γ ω) :
    Ends (m.pendingSlot W k stepping after)
      (fun m' => m' = m ∧ m.slot k = none ∨ stepping = false ∧ Finished stepping W k m m')
      (fun r => r.1 = false) := by
  simp only [pendingSlot]
  split
  · next h => exact .inl ⟨rfl, h⟩
  · exact (executeStage_ends k after m).imp (fun m' h => .inr h) (fun _ h => h)

/-- What a passed stage keeps. -/
theorem pendingSlot_passed {k : Slot} {after : Machine σ π γ ω → Option π}
    {m : Machine σ π γ ω} :
    Ends (m.pendingSlot W k stepping after)
      (fun m' => m'.current = m.current ∧ m'.next = m.next ∧
        ∀ j, m'.slot j = if j = k then none else m.slot j)
      (fun r => r.1 = false) := by
  refine (pendingSlot_ends k after m).imp (fun m' h => ?_) (fun _ h => h)
  obtain ⟨rfl, hk⟩ | ⟨-, hf⟩ := h
  · refine ⟨rfl, rfl, fun j => ?_⟩
    split
    · next hj => rw [hj, hk]
    · rfl
  · exact ⟨hf.current, hf.next, hf.slot⟩

/-- The exit program is done whenever `executePending` gets past it. -/
theorem pendingExit_ends (m : Machine σ π γ ω) :
    Ends (m.pendingExit W stepping) (fun m' => m'.currentExit = none) (fun r => r.1 = false) :=
  pendingSlot_passed.imp (fun _ h => h.2.2 .exit) (fun _ h => h)

theorem pendingChange_ends {m : Machine σ π γ ω} (hx : m.currentExit = none) :
    Ends (m.pendingChange G) (fun m' => m'.currentExit = none ∧ m'.current = m'.next)
      (fun r => r.1 = true ∧ r.2.current = none) := by
  simp only [Machine.pendingChange]
  split
  · next h => exact ⟨hx, h⟩
  · split
    · exact ⟨rfl, rfl⟩
    · next n hn => exact ⟨hx, hn.symm⟩

theorem pendingEntry_ends {m : Machine σ π γ ω}
    (h : m.currentExit = none ∧ m.current = m.next) :
    Ends (m.pendingEntry W stepping)
      (fun m' => m'.currentExit = none ∧ m'.current = m'.next ∧ m'.currentEntry = none)
      (fun r => r.1 = false) := by
  refine pendingSlot_passed.imp (fun m' hp => ?_) (fun _ h => h)
  refine ⟨(hp.2.2 .exit).trans h.1, ?_, hp.2.2 .entry⟩
  rw [hp.1, hp.2.1, h.2]

theorem pendingHandle_ends {m : Machine σ π γ ω}
    (h : m.currentExit = none ∧ m.current = m.next ∧ m.currentEntry = none) :
    Ends (m.pendingHandle W stepping)
      (fun m' => m'.currentExit = none ∧ m'.current = m'.next ∧ m'.currentEntry = none ∧
        m'.currentHandle = none)
      (fun r => r.1 = false) := by
  refine pendingSlot_passed.imp (fun m' hp => ?_) (fun _ h => h)
  refine ⟨(hp.2.2 .exit).trans h.1, ?_, (hp.2.2 .entry).trans h.2.2, hp.2.2 .handle⟩
  rw [hp.1, hp.2.1, h.2.1]

/-- What every single thing `executePending` does keeps, `executePending` keeps. -/
theorem PendingRule.executePending (hI : PendingRule G W stepping I) {m : Machine σ π γ ω}
    (h : I m) : I (m.executePending G W stepping).2 := by
  have hrun : ∀ (m : Machine σ π γ ω) p, m.currentRun = some p →
      ∃ k, k ≠ .trans ∧ k ≠ .handle ∧ m.slot k = some p :=
    fun _ _ h => ⟨.run, by decide, by decide, h⟩
  have hentry : ∀ (m : Machine σ π γ ω) p, (m.currentEntry <|> m.currentRun) = some p →
      ∃ k, k ≠ .trans ∧ k ≠ .handle ∧ m.slot k = some p := by
    intro m p hp
    cases he : m.currentEntry with
    | none => exact hrun m p (by simpa [he] using hp)
    | some q => exact ⟨.entry, by decide, by decide, he.trans (by simpa [he] using hp)⟩
  have hexit : ∀ (m : Machine σ π γ ω) p,
      (m.currentExit <|> m.currentEntry <|> m.currentRun) = some p →
      ∃ k, k ≠ .trans ∧ k ≠ .handle ∧ m.slot k = some p := by
    intro m p hp
    cases he : m.currentExit with
    | none => exact hentry m p (by simpa [he] using hp)
    | some q => exact ⟨.exit, by decide, by decide, he.trans (by simpa [he] using hp)⟩
  simp only [Machine.executePending]
  split
  · exact h
  · next hne =>
    have hst : m.smStatus ≠ .error := by simpa [inError] using hne
    refine Ends.result (Q := fun r : Bool × Machine σ π γ ω => I r.2) ?_
    have htrans : Ends (m.pendingTrans W stepping) (fun m' => I m' ∧ m'.smStatus ≠ .error)
        (fun r => I r.2) := by
      simp only [pendingTrans]
      split
      · exact ⟨h, hst⟩
      · next ht =>
        refine hI.executeStage h hst ?_ fun m p _ => hexit m p
        split
        · next hh => exact hh
        · exact .inl ht
    refine htrans.bind fun m h => ?_
    have hx : Ends (m.pendingExit W stepping) (fun m' => I m' ∧ m'.smStatus ≠ .error)
        (fun r => I r.2) := hI.pendingSlot h trivial fun m p _ => hentry m p
    refine ((hx.and (pendingExit_ends m)).imp (fun _ h => h) fun _ h => h.1).bind fun m h => ?_
    have hc := (hI.pendingChange h.1 h.2).and (pendingChange_ends (G := G) h.2)
    refine (hc.imp (fun _ h => h) fun _ h => h.1).bind fun m h => ?_
    have he : Ends (m.pendingEntry W stepping) (fun m' => I m' ∧ m'.smStatus ≠ .error)
        (fun r => I r.2) := hI.pendingSlot h.1 h.2 fun m p _ => hrun m p
    refine ((he.and (pendingEntry_ends h.2)).imp (fun _ h => h) fun _ h => h.1).bind fun m h => ?_
    have hh : Ends (m.pendingHandle W stepping) (fun m' => I m' ∧ m'.smStatus ≠ .error)
        (fun r => I r.2) := hI.pendingSlot h.1 (.inr h.2) fun m p _ => hrun m p
    refine ((hh.and (pendingHandle_ends h.2)).imp (fun _ h => h) fun _ h => h.1).bind
      fun m h => ?_
    refine Ends.bind (P := fun m' => I m' ∧ m'.smStatus ≠ .error) ?_ fun m h => h.1
    exact hI.pendingSlot h.1 h.2 fun m p hn hp => by rw [hn] at hp; cases hp

/-- Once nothing is pending there is no current state any more, or all the programs of
the current state are done. A transition program may be left that had to wait for a handle. -/
theorem executePending_true {m m' : Machine σ π γ ω}
    (h : m.executePending G W stepping = (true, m')) :
    m'.current = none ∨ m'.currentExit = none ∧ m'.current = m'.next ∧
      m'.currentEntry = none ∧ m'.currentHandle = none ∧ m'.currentRun = none := by
  let D : Machine σ π γ ω → Prop := fun m' => m'.current = none ∨ m'.currentExit = none ∧
    m'.current = m'.next ∧ m'.currentEntry = none ∧ m'.currentHandle = none ∧
    m'.currentRun = none
  suffices hq : (m.executePending G W stepping).1 = true →
      D (m.executePending G W stepping).2 by
    rw [h] at hq
    exact hq rfl
  have hf : ∀ r : Bool × Machine σ π γ ω, r.1 = false → r.1 = true → D r.2 := by
    intro r h h'
    rw [h] at h'
    cases h'
  simp only [Machine.executePending]
  split
  · exact fun h => by cases h
  · refine Ends.result (Q := fun r : Bool × Machine σ π γ ω => r.1 = true → D r.2) ?_
    refine ((pendingTrans_ends m).imp (fun _ h => h) hf).bind fun m _ => ?_
    refine ((pendingExit_ends m).imp (fun _ h => h) hf).bind fun m hx => ?_
    refine ((pendingChange_ends hx).imp (fun _ h => h) fun _ h _ => .inl h.2).bind
      fun m h => ?_
    refine ((pendingEntry_ends h).imp (fun _ h => h) hf).bind fun m h => ?_
    refine ((pendingHandle_ends h).imp (fun _ h => h) hf).bind fun m h => ?_
    refine Ends.bind (P := D) ?_ fun m hm _ => hm
    refine pendingSlot_passed.imp (fun m' hp => .inr ?_) hf
    refine ⟨(hp.2.2 .exit).trans h.1, ?_, (hp.2.2 .entry).trans h.2.2.1,
      (hp.2.2 .handle).trans h.2.2.2, hp.2.2 .run⟩
    rw [hp.1, hp.2.1, h.2.1]

/-- A step of pending work is never the last: the request comes with the step after it. -/
theorem executePending_stepping {m m' : Machine σ π γ ω}
    (h : m.executePending G W true = (true, m')) :
    m'.current = none ∨ m'.current = m'.next ∧ ∀ k, m'.slot k = none := by
  let D : Machine σ π γ ω → Prop := fun m' =>
    m'.current = none ∨ m'.current = m'.next ∧ ∀ k, m'.slot k = none
  suffices hq : (m.executePending G W true).1 = true → D (m.executePending G W true).2 by
    rw [h] at hq
    exact hq rfl
  have hf : ∀ r : Bool × Machine σ π γ ω, r.1 = false → r.1 = true → D r.2 := by
    intro r h h'
    rw [h] at h'
    cases h'
  -- a stage is passed only when it has nothing to execute
  have hslot (k : Slot) (after : Machine σ π γ ω → Option π) (m : Machine σ π γ ω) :
      Ends (m.pendingSlot W k true after) (fun m' => m' = m ∧ m.slot k = none)
        (fun r => r.1 = true → D r.2) :=
    (pendingSlot_ends k after m).imp (fun _ h => h.resolve_right (by simp)) hf
  simp only [Machine.executePending]
  split
  · exact fun h => by cases h
  · refine Ends.result (Q := fun r : Bool × Machine σ π γ ω => r.1 = true → D r.2) ?_
    refine ((pendingTrans_ends m).imp (fun _ h => h.resolve_right (by simp)) hf).bind
      fun m' ht => ?_
    obtain ⟨rfl, ht⟩ := ht
    refine (hslot .exit _ m').bind fun m₂ hx => ?_
    obtain ⟨rfl, hx⟩ := hx
    refine Ends.bind (P := fun m => m.current = m.next ∧ m.currentTrans = none ∧
      m.currentExit = none) ?_ fun m hc => ?_
    · simp only [Machine.pendingChange]
      split
      · next hcn => exact ⟨hcn, ht, hx⟩
      · split
        · exact fun _ => .inl rfl
        · next n hn => exact ⟨hn.symm, ht, hx⟩
    refine (hslot .entry _ m).bind fun m₃ he => ?_
    obtain ⟨rfl, he⟩ := he
    refine (hslot .handle _ m₃).bind fun m₄ hh => ?_
    obtain ⟨rfl, hh⟩ := hh
    refine (hslot .run _ m₄).bind fun m₅ hr => ?_
    obtain ⟨rfl, hr⟩ := hr
    refine fun _ => .inr ⟨hc.1, fun k => ?_⟩
    cases k
    exacts [hc.2.1, hc.2.2, he, hh, hr]

/-- What programs that finish and changes of the current state keep holds once nothing is
pending. -/
theorem executePending_passes {I : Machine σ π γ ω → Prop} {stepping : Bool}
    {m m' : Machine σ π γ ω} (hm : I m)
    (hf : ∀ k m m', I m → Finished stepping W k m m' → I m')
    (hl : ∀ m, I m → m.next = none → I ({ m with current := none }.record (.current none)))
    (hb : ∀ m n, I m → m.next = some n → I (m.becomeCurrent G n))
    (h : m.executePending G W stepping = (true, m')) : I m' := by
  suffices hq : (m.executePending G W stepping).1 = true →
      I (m.executePending G W stepping).2 by
    rw [h] at hq
    exact hq rfl
  have hno : ∀ r : Bool × Machine σ π γ ω, r.1 = false → r.1 = true → I r.2 := by
    intro r h h'
    rw [h] at h'
    cases h'
  have hslot (k : Slot) (after : Machine σ π γ ω → Option π) {m : Machine σ π γ ω} (hm : I m) :
      Ends (m.pendingSlot W k stepping after) I (fun r => r.1 = true → I r.2) := by
    refine (pendingSlot_ends k after m).imp (fun m' h => ?_) hno
    rcases h with ⟨rfl, -⟩ | ⟨-, h⟩
    · exact hm
    · exact hf k m m' hm h
  simp only [executePending]
  split
  · exact fun h => by cases h
  · refine Ends.result (Q := fun r : Bool × Machine σ π γ ω => r.1 = true → I r.2) ?_
    have ht : Ends (m.pendingTrans W stepping) I (fun r => r.1 = true → I r.2) := by
      refine (pendingTrans_ends m).imp (fun m' h => ?_) hno
      rcases h with ⟨rfl, -⟩ | ⟨-, k, h⟩
      · exact hm
      · exact hf k m m' hm h
    refine ht.bind fun m hm => ?_
    refine (hslot .exit _ hm).bind fun m hm => ?_
    have hc : Ends (m.pendingChange G) I (fun r => r.1 = true → I r.2) := by
      simp only [pendingChange]
      split
      · exact hm
      · split
        · next hn => exact fun _ => hl m hm hn
        · next n hn => exact hb m n hm hn
    refine hc.bind fun m hm => ?_
    refine (hslot .entry _ hm).bind fun m hm => ?_
    refine (hslot .handle _ hm).bind fun m hm => ?_
    exact (hslot .run _ hm).bind fun m hm _ => hm

/-- The status is the same once nothing is pending. -/
theorem executePending_true_smStatus {stepping : Bool} {m m' : Machine σ π γ ω}
    (h : m.executePending G W stepping = (true, m')) : m'.smStatus = m.smStatus :=
  executePending_passes (I := fun m' => m'.smStatus = m.smStatus) rfl
    (fun _ _ _ hm h => h.smStatus.trans hm) (fun _ hm _ => hm) (fun _ _ hm _ => hm) h

end OrocosRtt.StateMachine.Machine
