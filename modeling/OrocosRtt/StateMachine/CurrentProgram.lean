import OrocosRtt.StateMachine.Accounting

/-! The current program of a state machine is pending, so that a machine in transition
always has something left to execute; and which calls break that. -/
set_option linter.unusedSectionVars false

namespace OrocosRtt.StateMachine.Machine

open Library.Log

variable {σ π γ ω : Type} [DecidableEq σ] [DecidableEq π]
variable {G : StateGraph σ π γ} {W : Surroundings π γ ω}

/-- Programs are paused only while the machine could be interrupted. -/
def pausesRun (m : Machine σ π γ ω) (op : Operation σ) : Prop :=
  op = .pause → m.smStatus ≠ .inactive → m.interruptible = true

instance (m : Machine σ π γ ω) (op : Operation σ) : Decidable (m.pausesRun op) :=
  inferInstanceAs (Decidable (_ → _ → _))

/-- An inactive machine can be interrupted. -/
structure Sound (G : StateGraph σ π γ) (m : Machine σ π γ ω) : Prop where
  accounted : m.Accounted G
  resting : m.smStatus = .inactive → m.interruptible = true

theorem Accounted.planDeactivate {m : Machine σ π γ ω} (h : m.Accounted G) (st : Status)
    (hst : st ≠ .error) :
    Accounted G { m.planDeactivate G W with smStatus := st } := by
  have hw := h.wf.planDeactivate (W := W)
  have hws : WellFormed G { m.planDeactivate G W with smStatus := st } :=
    hw.of_core rfl (hw.fits.congr rfl rfl rfl rfl rfl rfl rfl rfl)
  have key (c : Core σ π) (ps : List π) (l : List (Event σ π γ))
      (hpl : Plans (Core.vacate c) ps l m (m.planDeactivate G W))
      (ht : ∀ p, c.currentTrans = some p → m.currentTrans = some p)
      (hx : ∀ p, c.currentExit = some p → p ∈ ps) :
      Accounted G { m.planDeactivate G W with smStatus := st } := by
    have hp : (m.planDeactivate G W).currentProg = none := congrArg Core.currentProg hpl.core
    refine ⟨⟨hws, fun p hp' => absurd (hp.symm.trans hp') (by simp), fun k p _ hk => ?_,
      fun he => absurd he hst⟩, fun _ _ _ _ => interruptible_iff.mpr (.inl hp)⟩
    have hlive : p ∈ ps ∨ (m.programs p).Live := by
      cases k with
      | trans =>
        have := (congrArg Core.currentTrans hpl.core).symm.trans hk
        exact .inr (h.live .trans p (by decide) (ht p this))
      | exit => exact .inl (hx p ((congrArg Core.currentExit hpl.core).symm.trans hk))
      | entry => exact absurd ((congrArg Core.currentEntry hpl.core).symm.trans hk) (by simp [Core.vacate])
      | handle => exact absurd ((congrArg Core.currentHandle hpl.core).symm.trans hk) (by simp [Core.vacate])
      | run => exact absurd ((congrArg Core.currentRun hpl.core).symm.trans hk) (by simp [Core.vacate])
    show ((m.planDeactivate G W).programs p).Live
    rw [hpl.programs]
    split
    · exact .inl rfl
    · next hps => exact hlive.resolve_left hps
  by_cases hn : m.next = none ∨ m.current = none
  · exact key _ _ _ (planDeactivate_stalled hn) (by simp) (by simp)
  · obtain ⟨hn, hc⟩ := not_or.mp hn
    obtain ⟨s, hs⟩ := Option.ne_none_iff_exists'.mp hc
    refine key _ _ _ (planDeactivate_leaving h.wf.loaded hn hs) (fun p hp => ?_) fun p hp => ?_
    · exact (Option.filter_eq_some_iff.mp hp).1
    · exact Option.mem_toList.mpr hp

theorem Accounted.interruptible {m r : Machine σ π γ ω} (h : m.Accounted G)
    (he : m.executePending G W false = (true, r)) : r.interruptible = true :=
  executePending_interruptible h.held h.leaving he

theorem Sound.deactivate {m : Machine σ π γ ω} (h : m.Sound G) : (m.deactivate G W).2.Sound G := by
  have hd (st : Status) (hst : st ≠ .error) :=
    h.accounted.planDeactivate (W := W) st hst
  simp only [Machine.deactivate]
  split
  · exact h
  · by_cases he : (m.planDeactivate G W).smStatus = .error
    · -- nothing is executed in error, but the error is over
      rw [executePending_inError he]
      exact ⟨hd _ (by decide), fun h => by cases h⟩
    · have ha : (m.planDeactivate G W).Accounted G := hd _ he
      have hp := ha.executePending (W := W) false
      split
      · next m₁ hm =>
        rw [hm] at hp
        have hi := ha.interruptible hm
        exact ⟨hp.withStatus (fun h => by cases h) _ _, fun _ => hi⟩
      · next m₁ hm =>
        rw [hm] at hp
        exact ⟨hp.withStatus (fun h => by cases h) _ _, fun h => by cases h⟩

theorem Accounted.planActivate {m : Machine σ π γ ω} (h : m.Accounted G)
    (hst : m.smStatus = .inactive) (hi : m.interruptible = true) :
    (m.planActivate G W).Accounted G := by
  have hpl := planActivate_plans (G := G) (W := W) h.wf.loaded
  have hslot (j : Slot) : (m.planActivate G W).slot j =
      if j = .entry then G.getEntryProgram G.initstate else m.slot j := by
    rw [hpl.slot j (r := { m with
      connected := setHandles G none true (m.core.enter G G.initstate).connected
      next := some G.initstate
      currentEntry := G.getEntryProgram G.initstate
      currentProg := m.currentProg.or (G.getEntryProgram G.initstate)
      reqstep := some (begin G.initstate)
      reqend := some ⟨G.initstate, (G.stateMap G.initstate).length⟩ }) rfl]
    cases j <;> rfl
  have hprog : (m.planActivate G W).currentProg =
      m.currentProg.or (G.getEntryProgram G.initstate) := congrArg Core.currentProg hpl.core
  have hst' : (m.planActivate G W).smStatus = .inactive :=
    (congrArg Core.smStatus hpl.core).trans hst
  refine ⟨h.toProvided.of_plans hpl h.wf.planActivate (fun j p _ hp => ?_) (fun p hp => ?_)
    fun he => ?_, fun hn => ?_⟩
  · rw [hslot] at hp
    split at hp
    · exact .inl (Option.mem_toList.mpr hp)
    · exact .inr hp
  · rw [hprog] at hp
    cases hm : m.currentProg with
    | none =>
      rw [hm, Option.none_or] at hp
      exact ⟨.entry, by rw [hslot, if_pos rfl, hp]⟩
    | some q =>
      rw [hm, Option.some_or] at hp
      cases hp
      have hr : m.slot .run = some p :=
        ((interruptible_iff.mp hi).resolve_left (by simp [hm])).symm.trans hm
      exact ⟨.run, by rw [hslot, if_neg (by decide), hr]⟩
  · exact absurd (hst'.symm.trans he) (by decide)
  · exact absurd ((congrArg Core.next hpl.core).symm.trans hn) (by simp [Core.activate, Core.enter, Core.launch])

theorem Accounted.enterInitialState {m : Machine σ π γ ω} (h : m.Accounted G)
    (hst : m.smStatus = .inactive) (hi : m.interruptible = true) :
    (m.enterInitialState G W).Sound G := by
  have ha := h.planActivate (W := W) hst hi
  have hp := ha.executePending (W := W) false
  have hst' : (m.planActivate G W).smStatus = .inactive :=
    (congrArg Core.smStatus (planActivate_plans (G := G) (W := W) h.wf.loaded).core).trans hst
  have hne : (m.planActivate G W).inError = false := by simp [inError, hst']
  simp only [Machine.enterInitialState, hne, Bool.false_eq_true, if_false]
  split
  · next m₁ he =>
    rw [he] at hp
    exact ⟨hp.withStatus (fun h => by cases h) _ _, fun h => by cases h⟩
  · next m₁ he =>
    rw [he] at hp
    split
    · next hst₁ =>
      have hst₁ : m₁.smStatus = .error := by simpa [inError] using hst₁
      exact ⟨hp, fun h => absurd (hst₁.symm.trans h) (by decide)⟩
    · exact ⟨hp.withStatus (fun h => by cases h) _ _, fun h => by cases h⟩

/-- Executing the run program is no concern of the others. -/
theorem Executed.accounted {p : π} {m m' : Machine σ π γ ω} (he : Executed p m m')
    (h : m.Accounted G) (hp : m.slot .run = some p) : m'.Accounted G := by
  have hslot (k : Slot) : m'.slot k = m.slot k := slot_core m he.core k
  have hprog : m'.currentProg = m.currentProg := congrArg Core.currentProg he.core
  refine ⟨⟨he.wellFormed h.wf, fun q hq => ?_, fun k q hk hkq => ?_, fun hst => ?_⟩,
    fun h₁ h₂ h₃ h₄ => ?_⟩
  · obtain ⟨k, hk⟩ := h.held q (hprog ▸ hq)
    exact ⟨k, (hslot k).trans hk⟩
  · have hkq := (hslot k).symm.trans hkq
    have hne : q ≠ p := by
      rintro rfl
      exact hk (h.wf.fits.slot_unique hkq hp)
    rw [he.others q hne]
    exact h.live k q hk hkq
  · exact hprog ▸ h.busy ((congrArg Core.smStatus he.core).symm.trans hst)
  · rw [interruptible_core hprog (hslot .run)]
    exact h.leaving ((congrArg Core.next he.core).symm.trans h₁)
      (fun hc => h₂ ((congrArg Core.current he.core).trans hc))
      ((hslot .trans).symm.trans h₃) ((hslot .exit).symm.trans h₄)

theorem Sound.pause {m : Machine σ π γ ω} (h : m.Sound G) (hi : m.interruptible = true)
    (hst : m.smStatus ≠ .inactive) : (m.pause W).2.Sound G := by
  simp only [Machine.pause]
  split
  · cases hp : m.currentProg with
    | none =>
      exact ⟨h.accounted.withStatus (fun h => h) .pausing _, fun he => absurd he hst⟩
    | some p =>
      have he := pauseProgram_executed (W := W) p m
      have hrun : m.slot .run = some p :=
        ((interruptible_iff.mp hi).resolve_left (by simp [hp])).symm.trans hp
      exact ⟨(he.accounted h.accounted hrun).withStatus (fun h => h) .pausing _,
        fun h' => absurd ((congrArg Core.smStatus he.core).symm.trans h') hst⟩
  · exact h

theorem executePending_active {m : Machine σ π γ ω} (h : m.smStatus ≠ .inactive)
    (stepping : Bool) : (m.executePending G W stepping).2.smStatus ≠ .inactive := by
  obtain he | he := executePending_smStatus (G := G) (W := W) stepping m
  · exact he ▸ h
  · exact he ▸ by decide

theorem Sound.pendingThen {m : Machine σ π γ ω} (h : m.Sound G)
    (hst : m.smStatus ≠ .inactive) : (m.pendingThen G W .inactive).Sound G := by
  have hp := h.accounted.executePending (W := W) false
  have hact := executePending_active (G := G) (W := W) hst false
  simp only [Machine.pendingThen]
  split
  · next m₁ he =>
    rw [he] at hp
    have hi := h.accounted.interruptible he
    exact ⟨hp.withStatus (fun h => by cases h) _ _, fun _ => hi⟩
  · next m₁ he =>
    rw [he] at hp hact
    exact ⟨hp, fun h => absurd h hact⟩

theorem Sound.searches {m m' : Machine σ π γ ω} (h : m.Sound G) (hs : Searches G m m') :
    m'.Sound G := by
  refine ⟨hs.accounted h.accounted, fun hin => ?_⟩
  obtain ⟨it, he⟩ := hs
  have hc := he.core
  rw [interruptible_core (congrArg Core.currentProg hc) (congrArg Core.currentRun hc)]
  exact h.resting ((congrArg Core.smStatus hc).symm.trans hin)

/-- A change leaves the machine active, as it was found. -/
theorem changeState_active {m : Machine σ π γ ω} {s n : σ} {T : Option π} {stepping : Bool}
    (h : m.WellFormed G) (hs : m.current = some s)
    (hT : ∀ p, T = some p → G.role p = .transition)
    (hl : Throughout (Event.keepsProgram G) (m.changeState G W n T stepping).log) :
    (m.changeState G W n T stepping).smStatus ≠ .inactive := by
  have hact := ((hl.of_suffix (changeState_log n T stepping m)).of_suffix
    (planState_log n T m)).1.1
  intro hst
  obtain he | he := changeState_smStatus (W := W) (n := n) h hs hT stepping
  · exact hact (he.symm.trans hst)
  · exact absurd (he.symm.trans hst) (by decide)

/-- The account is kept as long as only a program that is replaced is interrupted, and no
program but a run is paused. -/
theorem sound_logRule : LogRule G W pausesRun (Event.keepsProgram G)
    (fun m : Machine σ π γ ω => m.Sound G) where
  pending m stepping h hin _ _ :=
    ⟨h.accounted.executePending stepping, fun h => absurd h (executePending_active hin stepping)⟩
  searches m m' h hs _ _ := h.searches hs
  advances m m' h hs _ := ⟨(h.searches hs).accounted.record _, (h.searches hs).resting⟩
  changes m m' s n T h _ hc hT _ hs hl := by
    have ha := hs.accounted h.accounted
    have hc' := hs.current.trans hc
    exact ⟨ha.changeState hc' hT hl, fun hst => absurd hst (changeState_active ha.wf hc' hT hl)⟩
  steps m m' s n T h hk hn hc hT _ hs hl := by
    have ha := hs.accounted h.accounted
    have hc' := hs.current.trans hc
    obtain ⟨it, he⟩ := hs
    have hp : m'.currentProg = none := by
      refine (congrArg Core.currentProg he.core).trans
        (Option.eq_none_iff_forall_ne_some.mpr fun p hp => ?_)
      obtain ⟨k, hk'⟩ := h.accounted.held p hp
      exact absurd ((hk k).symm.trans hk') (by simp)
    have hn' : m'.next ≠ none := (congrArg Core.next he.core).trans_ne (by simp [hn])
    exact ⟨ha.changeState_stepping hp hc' hn' hT hl,
      fun hst => absurd hst (changeState_active ha.wf hc' hT hl)⟩
  status m st sp ms h hst := by
    refine ⟨h.accounted.withStatus (fun he => ?_) _ _, fun hin => ?_⟩
    · obtain hs | ⟨-, -, hs, -⟩ := hst.1
      · exact hs.symm.trans he
      · exact absurd he hs
    · obtain hs | ⟨hs, -⟩ := hst.1
      · exact h.resting (hs.symm.trans hin)
      · exact absurd hin hs
  automatics m h _ _ _ _ hl := by
    have ha : Accounted G { m with smStatus := .running } :=
      h.accounted.withStatus (fun h => by cases h) m.smpStatus m.mstep
    have hst : ({ m with smStatus := .running }.runState G W m.current).smStatus =
        .running := runState_smStatus _ ha.wf
    exact ⟨ha.runState _ hl, fun hin => absurd (hst.symm.trans hin) (by decide)⟩
  pauses m h hop hst _ := h.pause (hop rfl hst) hst
  activates m m' w h hst he _ _ := by
    have hs := h.searches he.searches
    have hst' : m'.smStatus = .inactive := (congrArg Core.smStatus he.core).trans hst
    refine Accounted.enterInitialState ?_ hst' (hs.resting hst')
    exact (Evaluates.world (G := G) m' w).searches.accounted hs.accounted
  deactivates m h _ _ _ := h.deactivate
  settles m h hst _ := h.pendingThen (by simp [hst])

/-! ### What is pending is executed -/

/-- A machine that is not interruptible has a program to turn to. -/
theorem Accounted.pending {m : Machine σ π γ ω} (h : m.Accounted G)
    (hi : m.interruptible = false) : ∃ p, m.pending = some p ∧ (m.programs p).Live := by
  have hno : ¬ (m.currentProg = none ∨ m.currentProg = m.currentRun) := fun hm => by
    rw [interruptible_iff.mpr hm] at hi
    cases hi
  obtain ⟨hp, hr⟩ := not_or.mp hno
  obtain ⟨q, hq⟩ := Option.ne_none_iff_exists'.mp hp
  obtain ⟨j, hj⟩ := h.held q hq
  have hjr : j ≠ .run := by
    rintro rfl
    exact hr (hq.trans hj.symm)
  suffices hf : ∃ k p, k ≠ .run ∧ m.first = some k ∧ m.slot k = some p by
    obtain ⟨k, p, hk, hf, hs⟩ := hf
    exact ⟨p, by rw [Machine.pending, hf]; exact hs, h.live k p hk hs⟩
  have hslot {k : Slot} (hk : k ≠ .run) (hf : m.first = some k) (hs : m.slot k ≠ none) :
      ∃ k p, k ≠ .run ∧ m.first = some k ∧ m.slot k = some p := by
    obtain ⟨p, hp⟩ := Option.ne_none_iff_exists'.mp hs
    exact ⟨k, p, hk, hf, hp⟩
  by_cases ht : m.currentTrans = none
  · by_cases hx : m.currentExit = none
    · have hc : ¬ (m.current ≠ m.next ∧ m.next = none) := by
        rintro ⟨hc, hn⟩
        exact hno (interruptible_iff.mp (h.leaving hn (hn ▸ hc) ht hx))
      by_cases he : m.currentEntry = none
      · have hh : m.currentHandle ≠ none := by
          intro hh
          cases j with
          | trans => exact absurd (ht.symm.trans hj) (by simp)
          | exit => exact absurd (hx.symm.trans hj) (by simp)
          | entry => exact absurd (he.symm.trans hj) (by simp)
          | handle => exact absurd (hh.symm.trans hj) (by simp)
          | run => exact hjr rfl
        exact hslot (k := .handle) (by decide) (by simp [first, ht, hx, hc, he, hh]) hh
      · exact hslot (k := .entry) (by decide) (by simp [first, ht, hx, hc, he]) he
    · exact hslot (k := .exit) (by decide) (by simp [first, ht, hx]) hx
  · by_cases hh : m.currentHandle = none
    · exact hslot (k := .trans) (by decide) (by simp [first, ht, hh]) ht
    · exact hslot (k := .handle) (by decide) (by simp [first, ht, hh]) hh

/-- The calls `ops` execute the program `p`. -/
def Executes (G : StateGraph σ π γ) (W : Surroundings π γ ω) (m : Machine σ π γ ω)
    (ops : List (Operation σ)) (p : π) : Prop :=
  ∃ o l, m.log <:+ l ∧ .execute p o :: l <:+ (m.runOps G W ops).log

/-- An execution of the machine begins with what is pending. -/
theorem execute_log {m : Machine σ π γ ω} (h₁ : m.smStatus ≠ .inactive)
    (h₂ : m.smStatus ≠ .unloaded) (h₃ : m.smStatus ≠ .error) (h₄ : m.smStatus ≠ .paused)
    (h₅ : m.smpStatus ≠ .pausing) :
    (m.executePending G W false).2.log <:+ (m.execute G W).log := by
  have hg := growth_callRule (G := G) (W := W) (fun _ _ => True)
    (m.executePending G W false).2.log
  have hl : (m.executePending G W false).2.log <:+ (m.executePending G W false).2.log :=
    List.suffix_rfl
  simp only [execute, h₁, h₂, or_self, if_false]
  split
  · next hsp => exact absurd hsp h₅
  · -- gostop
    have hd := requestFinalState_decides (G := G) (W := W) (m.executePending G W false).2
    have hr := hg.decides hl CallRule.inTransition_of_interruptible hd
    simp only [executeStop]
    split <;> next m₁ he => rw [he] at hr; exact hr
  · -- goreset
    simp only [executeReset]
    split
    · next m₁ he =>
      rw [he] at hg hl ⊢
      have hd := requestInitialState_decides (G := G) (W := W) m₁
      have hr := hg.decides hl CallRule.inTransition_of_interruptible hd
      exact hr
    · next m₁ he => simp [he]
  · simp only [executeStatus]
    split
    · next hst => exact absurd hst h₁
    · next hst => exact absurd hst h₃
    · next hst => exact absurd hst h₂
    · split
      · next m₁ he => rw [he] at hg hl ⊢; exact hg.requestNextState hl
      · next m₁ he => simp [he]
    · exact hl
    · split
      · next m₁ he => rw [he] at hg hl ⊢; exact hg.requestNextState hl
      · next m₁ he => simp [he]
    · next hst => exact absurd hst h₄
    · split <;> exact hl
    · simp only [pendingThen]
      split <;> next m₁ he => simp [he]
    · simp only [pendingThen]
      split <;> next m₁ he => simp [he]
    · simp only [pendingThen]
      split <;> next m₁ he => simp [he]
    · split <;> exact hl

theorem Accounted.executes {m : Machine σ π γ ω} (h : m.Accounted G)
    (hi : m.interruptible = false) (h₁ : m.smStatus ≠ .inactive)
    (h₂ : m.smStatus ≠ .unloaded) (h₃ : m.smStatus ≠ .error) :
    ∃ p, m.pending = some p ∧ ((m.programs p).inError = false →
      ∃ ops ∈ [[.execute], [.reactive, .execute], [.execute, .reactive, .execute]],
        m.Executes G W ops p) := by
  obtain ⟨p, hp, hl⟩ := h.pending hi
  refine ⟨p, hp, fun hne => ?_⟩
  have hr : (m.programs p).pStatus = .running := hl.resolve_right fun he => by
    simp [Program.inError, he] at hne
  have hnp := h.wf.pausing p
  -- the same machine with a status in which it executes
  have hexec (m' : Machine σ π γ ω) (h₁ : m'.smStatus ≠ .inactive)
      (h₂ : m'.smStatus ≠ .unloaded) (h₃ : m'.smStatus ≠ .error) (h₄ : m'.smStatus ≠ .paused)
      (h₅ : m'.smpStatus ≠ .pausing) (hlog : m'.log = m.log)
      (hps : m'.programs = m.programs) (hpp : m'.pending = some p) :
      ∃ o l, m.log <:+ l ∧ .execute p o :: l <:+ (m'.execute G W).log := by
    obtain ⟨o, l, hl, ho⟩ := executePending_executes (G := G) (W := W) h₃ hpp
      (by rw [hps]; exact hr) (by rw [hps]; exact hnp)
    exact ⟨o, l, hlog ▸ hl, ho.trans (execute_log h₁ h₂ h₃ h₄ h₅)⟩
  by_cases h₅ : m.smpStatus = .pausing
  · refine ⟨[.execute, .reactive, .execute], by simp, ?_⟩
    have he : m.execute G W = { m with smStatus := .paused, smpStatus := .nill } := by
      simp [Machine.execute, h₁, h₂, h₅]
    have := hexec { m with smStatus := .active, smpStatus := .nill } (by simp) (by simp)
      (by simp) (by simp) (by simp) rfl rfl hp
    simpa [Executes, Machine.runOps, call, he, reactive] using this
  · by_cases h₄ : m.smStatus = .paused
    · refine ⟨[.reactive, .execute], by simp, ?_⟩
      have := hexec { m with smStatus := .active } (by simp) (by simp) (by simp) (by simp) h₅
        rfl rfl hp
      simpa [Executes, Machine.runOps, call, reactive, h₄] using this
    · refine ⟨[.execute], by simp, ?_⟩
      simpa [Executes, Machine.runOps, call] using hexec m h₁ h₂ h₃ h₄ h₅ rfl rfl hp

theorem loading_sound (unloadOnStop : π → Bool) (w : ω) :
    (loading unloadOnStop w : Machine σ π γ ω).Sound G := by
  refine ⟨⟨⟨loading_wellFormed unloadOnStop w, ?_, ?_, ?_⟩, ?_⟩, ?_⟩
  · intro p hp
    cases hp
  · intro k p _ hk
    cases k <;> cases hk
  · intro h
    cases h
  · intro _ h
    exact absurd rfl h
  · intro _
    rfl

/-- After any run of the allowed kind the current program is one of the pending ones; and
while the machine is in transition there is a pending program that executions of the machine
go on with, unless it failed. -/
theorem currentProg_pending {unloadOnStop : π → Bool} {w : ω} {ops : List (Operation σ)}
    (hops : (loading unloadOnStop w : Machine σ π γ ω).Calls G W pausesRun ops)
    (hlog : Throughout (Event.keepsProgram G)
      ((loading unloadOnStop w : Machine σ π γ ω).runOps G W ops).log) :
    let m := (loading unloadOnStop w : Machine σ π γ ω).runOps G W ops
    (∀ p, m.currentProg = some p → ∃ k, m.slot k = some p) ∧
      (m.inTransition = true ∨ m.interruptible = false →
        ∃ p, m.pending = some p ∧
          (m.smStatus ≠ .error → (m.programs p).inError = false →
            ∃ ops' ∈ [[.execute], [.reactive, .execute], [.execute, .reactive, .execute]],
              m.Executes G W ops' p)) := by
  intro m
  have hs : m.Sound G := sound_logRule.runOps (loading_sound unloadOnStop w) hops hlog
  have hu : m.smStatus ≠ .unloaded :=
    ((unloaded_callRule pausesRun).runOps
      ⟨loading_wellFormed unloadOnStop w, by simp [loading]⟩ hops).2
  refine ⟨hs.accounted.held, fun ht => ?_⟩
  have hi : m.interruptible = false := by
    refine ht.elim (fun ht => ?_) id
    by_contra hi
    have := CallRule.inTransition_of_interruptible ((Bool.not_eq_false _).mp hi)
    rw [this] at ht
    cases ht
  have hin : m.smStatus ≠ .inactive := fun he => by
    rw [hs.resting he] at hi
    cases hi
  by_cases he : m.smStatus = .error
  · obtain ⟨p, hp, -⟩ := hs.accounted.pending hi
    exact ⟨p, hp, fun hne => absurd he hne⟩
  · obtain ⟨p, hp, hx⟩ := hs.accounted.executes hi hin hu he
    exact ⟨p, hp, fun _ => hx⟩

/-! A state `A` with a run program (`false`) that takes its time, and a state `B` with an
exit program (`true`) only. -/

def runExitGraph : StateGraph Bool Bool Unit where
  states := [false, true]
  getName s := if s then "B" else "A"
  getEntryProgram _ := none
  getRunProgram s := if s then none else some false
  getHandleProgram _ := none
  getExitProgram s := if s then some true else none
  stateMap _ := []
  globalMap := []
  precondMap _ := []
  eventMap _ := []
  initstate := false
  finistate := true
  role p := if p then .exit true else .run false
  entry_role := by simp
  run_role := by decide
  handle_role := by simp
  exit_role := by decide
  local_role := by simp
  global_role := by simp
  event_role := by simp
  local_sorted := by simp
  global_sorted := by simp

/-- Programs that never finish by themselves. -/
def waitingPrograms : Surroundings Bool Unit Unit where
  evaluate _ w := (true, w)
  resetCondition _ w := w
  resetProgram _ w := w
  executeUntil _ w := (.waiting, w)
  executeStep _ w := (.waiting, w)
  initCommand := none

theorem currentProg_pending_exit :
    let m := (loading (fun _ => true) () : Machine Bool Bool Unit Unit).runOps runExitGraph
      waitingPrograms [.activate, .requestState "B", .requestState "A"]
    m.inTransition = true ∧
      (∀ p, m.currentProg = some p → ∃ k, m.slot k = some p) ∧
      ∃ p, m.pending = some p ∧
        (m.smStatus ≠ .error → (m.programs p).inError = false →
          ∃ ops' ∈ [[.execute], [.reactive, .execute], [.execute, .reactive, .execute]],
            m.Executes runExitGraph waitingPrograms ops' p) := by
  have hops : (loading (fun _ => true) () : Machine Bool Bool Unit Unit).Calls runExitGraph
      waitingPrograms pausesRun [.activate, .requestState "B", .requestState "A"] := by decide
  have h := currentProg_pending hops (by decide)
  exact ⟨by decide, h.1, h.2 (.inl (by decide))⟩

/-! A change from `A` to `B` while the run program of `A` is executed: neither state has a
program to be left or entered with. -/

/-- Nothing is pending, but the current program is not cleared. -/
structure Stuck (s : σ) (p : π) (m : Machine σ π γ ω) : Prop where
  smStatus : m.smStatus = .running
  smpStatus : m.smpStatus = .nill
  current : m.current = some s
  next : m.next = some s
  currentProg : m.currentProg = some p
  slot : ∀ k, m.slot k = none

theorem Stuck.inTransition {s : σ} {p : π} {m : Machine σ π γ ω} (h : m.Stuck s p) :
    m.inTransition = true := by
  have hr : m.currentRun = none := h.slot .run
  have hh : m.currentHandle = none := h.slot .handle
  simp [Machine.inTransition, h.currentProg, hr, hh]

theorem Stuck.execute {s : σ} {p : π} {m : Machine σ π γ ω} (h : m.Stuck s p) :
    (m.execute G W).Stuck s p := by
  have hcn : m.current = m.next := h.current.trans h.next.symm
  have hi : m.interruptible = false := by
    have hr : m.currentRun = none := h.slot .run
    simp [interruptible, h.currentProg, hr]
  have hp : m.executePending G W false = (true, m) :=
    executePending_idle (by simp [h.smStatus]) hcn h.slot
  have he : m.execute G W = m.record (.requestNextState m.current) := by
    simp [Machine.execute, executeStatus, h.smStatus, h.smpStatus, hp,
      requestNextState_refused hi]
  rw [he]
  exact ⟨h.smStatus, h.smpStatus, h.current, h.next, h.currentProg, h.slot⟩

/-- The machine stays in transition for good, with nothing to execute, and refuses the
request to go back. -/
theorem currentProg_stuck :
    let m := (loading (fun _ => true) () : Machine Bool Bool Unit Unit).runOps runExitGraph
      waitingPrograms [.activate, .automatic, .execute, .requestState "B"]
    (∃ p, m.currentProg = some p ∧ ∀ k, m.slot k ≠ some p) ∧
      (m.requestState runExitGraph waitingPrograms "A").1 = false ∧
      ∀ n, let m' := m.runOps runExitGraph waitingPrograms (List.replicate n .execute)
        m'.inTransition = true ∧ ∀ k, m'.slot k = none := by
  intro m
  have hm : m.Stuck true false := by
    refine ⟨by decide, by decide, by decide, by decide, by decide, fun k => ?_⟩
    cases k <;> decide
  have hn (n : ℕ) : (m.runOps runExitGraph waitingPrograms
      (List.replicate n .execute)).Stuck true false := by
    induction n with
    | zero => exact hm
    | succ n ih =>
      rw [List.replicate_succ', runOps, Library.Run.run_append]
      exact ih.execute
  refine ⟨⟨false, hm.currentProg, fun k => ?_⟩, by decide, fun n => ?_⟩
  · simp [hm.slot k]
  · exact ⟨(hn n).inTransition, (hn n).slot⟩

end OrocosRtt.StateMachine.Machine
