import OrocosRtt.StateMachine.Plans

/-! What holds of a machine after any calls: its programs are loaded, and every pointer
holds a program that was parsed for it. -/
set_option linter.unusedSectionVars false

namespace OrocosRtt.StateMachine.Machine

open Library.Log

variable {σ π γ ω : Type} [DecidableEq σ] [DecidableEq π]
variable {G : StateGraph σ π γ} {W : Surroundings π γ ω}

/-- The part of the invariant that is about the core. -/
structure Fits (G : StateGraph σ π γ) (c : Core σ π) : Prop where
  trans : ∀ p, c.currentTrans = some p → G.role p = .transition
  exit : ∀ p, c.currentExit = some p → ∃ s, c.current = some s ∧ G.getExitProgram s = some p
  entry : ∀ p, c.currentEntry = some p → ∃ s, c.next = some s ∧ G.getEntryProgram s = some p
  handle : ∀ p, c.currentHandle = some p → ∃ s, G.getHandleProgram s = some p
  run : ∀ p, c.currentRun = some p → ∃ s, G.getRunProgram s = some p
  reqend : ∀ it, c.reqend = some it → it.pos = (G.stateMap it.state).length

structure WellFormed (G : StateGraph σ π γ) (m : Machine σ π γ ω) : Prop where
  loaded : m.Loaded
  pausing : ∀ p, (m.programs p).pausing = false
  fits : Fits G m.core

/-- The owner of the program in a pointer tells which pointer it is. -/
def Slot.owns {σ : Type} : Slot → Role σ → Prop
  | .trans, .transition => True
  | .exit, .exit _ => True
  | .entry, .entry _ => True
  | .handle, .handle _ => True
  | .run, .run _ => True
  | _, _ => False

theorem Fits.owns {m : Machine σ π γ ω} (h : Fits G m.core) {k : Slot} {p : π}
    (hk : m.slot k = some p) : Slot.owns k (G.role p) := by
  cases k with
  | trans => rw [h.trans p hk]; trivial
  | exit =>
    obtain ⟨s, -, hs⟩ := h.exit p hk
    rw [G.exit_role s p hs]; trivial
  | entry =>
    obtain ⟨s, -, hs⟩ := h.entry p hk
    rw [G.entry_role s p hs]; trivial
  | handle =>
    obtain ⟨s, hs⟩ := h.handle p hk
    rw [G.handle_role s p hs]; trivial
  | run =>
    obtain ⟨s, hs⟩ := h.run p hk
    rw [G.run_role s p hs]; trivial

/-- No program is in two pointers. -/
theorem Fits.slot_unique {m : Machine σ π γ ω} (h : Fits G m.core) {j k : Slot} {p : π}
    (hj : m.slot j = some p) (hk : m.slot k = some p) : j = k := by
  have h₁ := h.owns hj
  have h₂ := h.owns hk
  cases j <;> cases k <;> first | rfl | (cases hr : G.role p <;> simp_all [Slot.owns])

theorem Fits.congr {c c' : Core σ π} (h : Fits G c) (ht : c'.currentTrans = c.currentTrans)
    (hx : c'.currentExit = c.currentExit) (he : c'.currentEntry = c.currentEntry)
    (hh : c'.currentHandle = c.currentHandle) (hr : c'.currentRun = c.currentRun)
    (hc : c'.current = c.current) (hn : c'.next = c.next) (hq : c'.reqend = c.reqend) :
    Fits G c' where
  trans p hp := h.trans p (ht ▸ hp)
  exit p hp := hc ▸ h.exit p (hx ▸ hp)
  entry p hp := hn ▸ h.entry p (he ▸ hp)
  handle p hp := h.handle p (hh ▸ hp)
  run p hp := h.run p (hr ▸ hp)
  reqend it hi := h.reqend it (hq ▸ hi)

theorem WellFormed.of_plans {c : Core σ π} {ps : List π} {l : List (Event σ π γ)}
    {m m' : Machine σ π γ ω} (hm : m.WellFormed G) (h : Plans c ps l m m') (hc : Fits G c) :
    m'.WellFormed G :=
  ⟨h.loaded hm.loaded, fun p => (h.pausing p).trans (hm.pausing p), h.core ▸ hc⟩

theorem Observes.wellFormed {m m' : Machine σ π γ ω} (h : Observes m m')
    (hm : m.WellFormed G) : m'.WellFormed G :=
  ⟨fun p => h.programs ▸ hm.loaded p, fun p => h.programs ▸ hm.pausing p, h.core ▸ hm.fits⟩

theorem Searches.wellFormed {m m' : Machine σ π γ ω} (h : Searches G m m')
    (hm : m.WellFormed G) : m'.WellFormed G := by
  obtain ⟨it, h⟩ := h
  exact h.wellFormed ⟨hm.loaded, hm.pausing, hm.fits.congr rfl rfl rfl rfl rfl rfl rfl rfl⟩

/-! ### The plans of a change -/

theorem planSelf_some_plans {s : σ} {p : π} {m : Machine σ π γ ω} (h : m.Loaded)
    (hs : m.current = some s) :
    Plans { m.core with
        currentTrans := some p
        currentProg := some p
        reqstep := some (begin s) } [p] [.start p] m (m.planSelf G W (some p)) := by
  have hp := startProgram_plans (W := W) (p := p) h
  have hc : (m.startProgram W p).current.map begin = some (begin s) := by
    have : (m.startProgram W p).current = m.current := congrArg Core.current hp.core
    rw [this, hs]
    rfl
  refine ⟨?_, hp.programs, hp.log, hp.precIt, hp.checkingPrecond⟩
  rw [← hp.core, ← hc]
  rfl

theorem planSelf_none_plans {s : σ} {m : Machine σ π γ ω} (h : m.Loaded)
    (hs : m.current = some s) (hh : m.currentHandle = none) :
    Plans (m.core.handle G s) (G.getHandleProgram s).toList
      ((G.getHandleProgram s).toList.map .start ++ [.handleState (some s)]) m
      (m.planSelf G W none) := by
  simp only [planSelf, if_pos hh, hs]
  exact handleState_plans s h

/-- What is logged when a state is left for a change. -/
def leaveLog (G : StateGraph σ π γ) (s : σ) (m : Machine σ π γ ω) : List (Event σ π γ) :=
  if m.exitInError then []
  else (G.getExitProgram s).toList.map .start ++ [.leaveState (some s)]

theorem exitProgram_eq {s : σ} {m : Machine σ π γ ω} (hs : m.current = some s) :
    m.exitProgram G = if m.exitInError then none else G.getExitProgram s := by
  simp [exitProgram, hs]

theorem planChange_plans {s n : σ} {T : Option π} {m : Machine σ π γ ω}
    (hm : m.WellFormed G) (hs : m.current = some s)
    (hT : ∀ p, T = some p → G.role p = .transition) :
    Plans (m.core.change G m.exitInError s n T)
      (T.toList ++ (m.exitProgram G).toList ++ (G.getEntryProgram n).toList)
      ((G.getEntryProgram n).toList.map .start ++ (m.leaveLog G s ++ T.toList.map .start))
      m (m.planChange G W n T) := by
  have htrans : ∃ m₁, Plans (m.core.trans T) T.toList (T.toList.map .start) m m₁ ∧
      m.planChange G W n T = (if m₁.exitInError then { m₁ with currentExit := none }
        else m₁.leaveState G W m₁.current).enterState G W n := by
    cases T with
    | none =>
      exact ⟨{ m with currentRun := none, currentHandle := none, currentTrans := none },
        ⟨rfl, by simp, rfl, rfl, rfl⟩, rfl⟩
    | some p =>
      have hp := startProgram_plans (W := W) (p := p)
        (m := { m with currentRun := none, currentHandle := none }) hm.loaded
      refine ⟨{ startProgram W p { m with currentRun := none, currentHandle := none } with
        currentTrans := some p }, ⟨?_, hp.programs, hp.log, hp.precIt, hp.checkingPrecond⟩, rfl⟩
      exact congrArg (fun c : Core σ π => { c with currentTrans := some p }) hp.core
  obtain ⟨m₁, h₁, he⟩ := htrans
  have hx₁ : m₁.currentExit = m.currentExit := congrArg Core.currentExit h₁.core
  have hs₁ : m₁.current = some s := (congrArg Core.current h₁.core).trans hs
  -- starting the transition program does not touch an exit program
  have herr : m₁.exitInError = m.exitInError := by
    simp only [exitInError, hx₁]
    cases hx : m.currentExit with
    | none => rfl
    | some p =>
      have hpT : p ∉ T.toList := by
        intro hmem
        have hr := hT p (Option.mem_toList.mp hmem)
        obtain ⟨s', -, hs'⟩ := hm.fits.exit p hx
        rw [G.exit_role s' p hs'] at hr
        cases hr
      simp only [h₁.programs, if_neg hpT]
  have hl₁ := h₁.loaded hm.loaded
  rw [he, herr, exitProgram_eq hs]
  cases hsk : m.exitInError with
  | true =>
    have h₂ := Plans.of_core (m := m₁) (r := { m₁ with currentExit := none }) (l := [])
      rfl rfl rfl rfl
    have h₃ := enterState_plans (G := G) (W := W) n (h₂.loaded hl₁)
    have h := h₁.trans (h₂.trans h₃)
    rw [if_pos rfl, if_pos rfl]
    refine ⟨?_, fun q => ?_, ?_, h.precIt, h.checkingPrecond⟩
    · have hc := congrArg (fun c : Core σ π => { c with currentExit := none }) h₁.core
      exact h₃.core.trans (congrArg (Core.enter G n) hc)
    · simpa using h.programs q
    · simpa [leaveLog, hsk] using h.log
  | false =>
    have h₂ := leaveState_plans (G := G) (W := W) s hl₁
    have h₃ := enterState_plans (G := G) (W := W) n (h₂.loaded hl₁)
    have h := h₁.trans (h₂.trans h₃)
    rw [if_neg (by decide), if_neg (by decide), hs₁]
    refine ⟨?_, fun q => ?_, ?_, h.precIt, h.checkingPrecond⟩
    · have hc := h₂.core.trans (congrArg (Core.leave G s) h₁.core)
      exact h₃.core.trans (congrArg (Core.enter G n) hc)
    · simpa using h.programs q
    · simpa [leaveLog, hsk] using h.log

theorem planActivate_plans {m : Machine σ π γ ω} (h : m.Loaded) :
    Plans (m.core.activate G) (G.getEntryProgram G.initstate).toList
      ((G.getEntryProgram G.initstate).toList.map .start ++ [.activate]) m
      (m.planActivate G W) := by
  have h₁ := Plans.of_core (m := m) (r := m.record .activate) (l := [.activate])
    rfl rfl rfl rfl
  have h₂ := enterState_plans (G := G) (W := W) G.initstate (h₁.loaded h)
  have h₃ := h₁.trans h₂
  have hn : ((m.record .activate).enterState G W G.initstate).next = some G.initstate :=
    congrArg Core.next h₂.core
  refine ⟨?_, h₃.programs, h₃.log, h₃.precIt, h₃.checkingPrecond⟩
  rw [core_record] at h₂
  simp only [planActivate, hn, Option.map_some]
  have hc := congrArg (fun c : Core σ π => { c with
    next := some G.initstate
    reqstep := some (begin G.initstate)
    reqend := some ⟨G.initstate, (G.stateMap G.initstate).length⟩
    connected := setHandles G none true c.connected }) h₂.core
  exact hc

/-- A program in error is not waited for. -/
def sparing (m : Machine σ π γ ω) (o : Option π) : Option π :=
  o.filter fun p => !(m.programs p).inError

/-- A current state that is not being left yet is left. -/
theorem planDeactivate_leaving {s : σ} {m : Machine σ π γ ω} (h : m.Loaded)
    (hn : m.next ≠ none) (hs : m.current = some s) :
    Plans (Core.vacate (Core.leave G s { m.core with
        connected := setHandles G none false m.connected
        currentTrans := m.sparing m.currentTrans }))
      (G.getExitProgram s).toList
      ((G.getExitProgram s).toList.map .start ++ [.leaveState (some s), .deactivate]) m
      (m.planDeactivate G W) := by
  let m₁ := { (m.record .deactivate).disableGlobalEvents G with
    currentExit := m.sparing m.currentExit
    currentTrans := m.sparing m.currentTrans }
  have h₁ := Plans.of_core (m := m) (r := m₁) (l := [.deactivate]) rfl rfl rfl rfl
  have h₂ := leaveState_plans (G := G) (W := W) s (h₁.loaded h)
  have h₃ := h₁.trans h₂
  have he : m.planDeactivate G W = { m₁.leaveState G W (some s) with
      currentProg := none
      currentEntry := none
      currentHandle := none
      currentRun := none
      next := none } := by
    have hs₁ : m₁.current = some s := hs
    have hif : m₁.next ≠ none ∧ m₁.current ≠ none := ⟨hn, by simp [hs₁]⟩
    change (let m := if m₁.next ≠ none ∧ m₁.current ≠ none then m₁.leaveState G W m₁.current
        else { m₁ with currentExit := none, currentTrans := none }
      ({ m with
        currentProg := none
        currentEntry := none
        currentHandle := none
        currentRun := none
        next := none } : Machine σ π γ ω)) = _
    rw [if_pos hif, hs₁]
  rw [he]
  refine ⟨?_, by simpa using h₃.programs, by simpa using h₃.log, h₃.precIt,
    h₃.checkingPrecond⟩
  exact congrArg Core.vacate h₂.core

/-- Otherwise what was left of a state is given up. -/
theorem planDeactivate_stalled {m : Machine σ π γ ω} (hn : m.next = none ∨ m.current = none) :
    Plans (Core.vacate { m.core with
        connected := setHandles G none false m.connected
        currentExit := none
        currentTrans := none }) [] [.deactivate] m (m.planDeactivate G W) := by
  have hif : ¬ (m.next ≠ none ∧ m.current ≠ none) := by
    rintro ⟨h₁, h₂⟩
    exact hn.elim h₁ h₂
  refine ⟨?_, ?_, ?_, ?_, ?_⟩ <;>
    simp [planDeactivate, disableGlobalEvents, disableEvents, record, hif, core, Core.vacate]

end OrocosRtt.StateMachine.Machine
