import OrocosRtt.StateMachine.Scheduling
import OrocosRtt.StateMachine.WellFormed

/-! Machines stay well formed, whatever is called on them. -/
set_option linter.unusedSectionVars false

namespace OrocosRtt.StateMachine

variable {σ π γ ω : Type} [DecidableEq σ] [DecidableEq π]
variable {G : StateGraph σ π γ} {W : Surroundings π γ ω}

namespace Machine

theorem WellFormed.record {m : Machine σ π γ ω} (h : m.WellFormed G) (e : Event σ π γ) :
    (m.record e).WellFormed G := ⟨h.loaded, h.pausing, h.fits⟩

theorem WellFormed.of_core {m m' : Machine σ π γ ω} (h : m.WellFormed G)
    (hp : m'.programs = m.programs) (hc : Fits G m'.core) : m'.WellFormed G :=
  ⟨fun p => hp ▸ h.loaded p, fun p => hp ▸ h.pausing p, hc⟩

theorem Advanced.wellFormed {p : π} {m m' : Machine σ π γ ω} (ha : Advanced p m m')
    (h : m.WellFormed G) : m'.WellFormed G :=
  ⟨fun q => (ha.isLoaded q).trans (h.loaded q), ha.notPausing h.pausing,
    ha.core ▸ h.fits.congr rfl rfl rfl rfl rfl rfl rfl rfl⟩

theorem Fits.clear {m : Machine σ π γ ω} (h : Fits G m.core) (k : Slot) :
    Fits G (m.clear k).core := by
  cases k
  · exact { h with trans := fun _ hp => by cases hp }
  · exact { h with exit := fun _ hp => by cases hp }
  · exact { h with entry := fun _ hp => by cases hp }
  · exact { h with handle := fun _ hp => by cases hp }
  · exact { h with run := fun _ hp => by cases hp }

theorem wellFormed_pendingRule (stepping : Bool) :
    PendingRule G W stepping (fun m => m.WellFormed G) where
  waits m _ p h _ _ _ _ _ := (advanceProgram_advanced stepping p m).wellFormed h
  fails m _ p h _ _ _ _ :=
    let h' := (advanceProgram_advanced (W := W) stepping p m).wellFormed h
    h'.of_core rfl (h'.fits.congr rfl rfl rfl rfl rfl rfl rfl rfl)
  done m k p h _ _ _ _ :=
    let h' := (advanceProgram_advanced (W := W) stepping p m).wellFormed h
    h'.of_core (clear_programs _ k) (Fits.clear
      (m := { m.advanceProgram W stepping p with currentProg := none })
      (h'.fits.congr rfl rfl rfl rfl rfl rfl rfl rfl) k)
  after _ _ _ h _ _ := h.of_core rfl (h.fits.congr rfl rfl rfl rfl rfl rfl rfl rfl)
  leaves m h _ hx _ _ := h.of_core rfl
    { h.fits with exit := fun p hp => by simp [record, hx] at hp }
  becomes m n h _ hx _ _ := h.of_core rfl
    { h.fits with
      exit := fun p hp => by simp [becomeCurrent, record, hx] at hp
      reqend := fun it hi => by cases hi; rfl }

theorem WellFormed.executePending {m : Machine σ π γ ω} (h : m.WellFormed G)
    (stepping : Bool) : (m.executePending G W stepping).2.WellFormed G :=
  (wellFormed_pendingRule stepping).executePending h

theorem WellFormed.runState {m : Machine σ π γ ω} (h : m.WellFormed G) (s : Option σ) :
    (m.runState G W s).WellFormed G := by
  cases s with
  | none => exact h.record _
  | some s => exact h.of_plans (runState_plans s h.loaded) { h.fits with run := fun _ hp => ⟨s, hp⟩ }

section Change

variable {m : Machine σ π γ ω} {s n : σ} {T : Option π}

theorem WellFormed.planSelf (h : m.WellFormed G) (hs : m.current = some s)
    (hT : ∀ p, T = some p → G.role p = .transition) : (m.planSelf G W T).WellFormed G := by
  cases T with
  | some p =>
    exact h.of_plans (planSelf_some_plans h.loaded hs)
      { h.fits with trans := fun q hq => hT q hq }
  | none =>
    by_cases hh : m.currentHandle = none
    · exact h.of_plans (planSelf_none_plans h.loaded hs hh)
        { h.fits with handle := fun _ hp => ⟨s, hp⟩ }
    · simpa [Machine.planSelf, hh] using h

theorem WellFormed.planChange (h : m.WellFormed G) (hs : m.current = some s)
    (hT : ∀ p, T = some p → G.role p = .transition) : (m.planChange G W n T).WellFormed G := by
  refine h.of_plans (planChange_plans h hs hT) ⟨?_, ?_, fun p hp => ⟨n, rfl, hp⟩, ?_, ?_, ?_⟩
  · simpa using hT
  · intro p hp
    rw [Core.change_currentExit] at hp
    split at hp
    · cases hp
    · exact ⟨s, by simpa using hs, hp⟩
  · simp
  · simp
  · simpa using h.fits.reqend

theorem WellFormed.planState (h : m.WellFormed G) (hs : m.current = some s)
    (hT : ∀ p, T = some p → G.role p = .transition) : (m.planState G W n T).WellFormed G := by
  have h₀ := h.record (.changeState (m.change G n T))
  simp only [Machine.planState]
  split
  · exact h₀.planSelf hs hT
  · exact h₀.planChange hs hT

end Change

theorem WellFormed.changeState {m : Machine σ π γ ω} {s n : σ} {T : Option π}
    (h : m.WellFormed G) (hs : m.current = some s)
    (hT : ∀ p, T = some p → G.role p = .transition) (stepping : Bool) :
    (m.changeState G W n T stepping).WellFormed G := by
  have hp := h.planState (W := W) (n := n) hs hT
  simp only [Machine.changeState]
  refine WellFormed.runState ?_ (some n)
  split
  · exact hp
  · exact hp.executePending stepping

theorem runState_smStatus {m : Machine σ π γ ω} (s : Option σ) (h : m.WellFormed G) :
    (m.runState G W s).smStatus = m.smStatus := by
  cases s with
  | none => rfl
  | some s => exact congrArg Core.smStatus (runState_plans s h.loaded).core

/-- A change of state leaves the status alone, unless a program fails. -/
theorem changeState_smStatus {m : Machine σ π γ ω} {s n : σ} {T : Option π}
    (h : m.WellFormed G) (hs : m.current = some s)
    (hT : ∀ p, T = some p → G.role p = .transition) (stepping : Bool) :
    (m.changeState G W n T stepping).smStatus = m.smStatus ∨
      (m.changeState G W n T stepping).smStatus = .error := by
  have h₀ := h.record (.changeState (m.change G n T))
  have hplan : (m.planState G W n T).smStatus = m.smStatus := by
    simp only [planState]
    split
    · cases T with
      | some p => exact congrArg Core.smStatus (planSelf_some_plans (G := G) h₀.loaded hs).core
      | none =>
        by_cases hh : m.currentHandle = none
        · exact congrArg Core.smStatus (planSelf_none_plans (G := G) h₀.loaded hs hh).core
        · simp [Machine.planSelf, Machine.record, hh]
    · exact (congrArg Core.smStatus (planChange_plans h₀ hs hT).core).trans
        (Core.change_smStatus _)
  have hw := h.planState (W := W) (n := n) hs hT
  simp only [Machine.changeState]
  split
  · rw [runState_smStatus _ hw]
    exact .inl hplan
  · rw [runState_smStatus _ (hw.executePending stepping)]
    obtain he | he := executePending_smStatus (G := G) (W := W) stepping (m.planState G W n T)
    · exact .inl (he.trans hplan)
    · exact .inr he

theorem WellFormed.planActivate {m : Machine σ π γ ω} (h : m.WellFormed G) :
    (m.planActivate G W).WellFormed G :=
  h.of_plans (planActivate_plans h.loaded)
    { h.fits with
      entry := fun p hp => ⟨G.initstate, rfl, hp⟩
      reqend := fun it hi => by cases hi; rfl }

theorem WellFormed.planDeactivate {m : Machine σ π γ ω} (h : m.WellFormed G) :
    (m.planDeactivate G W).WellFormed G := by
  have htrans : ∀ p, m.sparing m.currentTrans = some p → G.role p = .transition :=
    fun p hp => h.fits.trans p (Option.filter_eq_some_iff.mp hp).1
  by_cases hn : m.next = none ∨ m.current = none
  · refine h.of_plans (planDeactivate_stalled hn) ⟨?_, ?_, ?_, ?_, ?_, h.fits.reqend⟩ <;>
      simp [Core.vacate]
  · obtain ⟨hn, hc⟩ := not_or.mp hn
    obtain ⟨s, hs⟩ := Option.ne_none_iff_exists'.mp hc
    refine h.of_plans (planDeactivate_leaving h.loaded hn hs)
      ⟨htrans, fun p hp => ⟨s, hs, hp⟩, ?_, ?_, ?_, h.fits.reqend⟩ <;>
      simp [Core.vacate]

theorem WellFormed.withStatus {m : Machine σ π γ ω} (h : m.WellFormed G) (st : Status)
    (sp : PrivateStatus) (b : Bool) :
    WellFormed G { m with smStatus := st, smpStatus := sp, mstep := b } :=
  h.of_core rfl (h.fits.congr rfl rfl rfl rfl rfl rfl rfl rfl)

theorem WellFormed.pendingThen {m : Machine σ π γ ω} (h : m.WellFormed G) (st : Status) :
    (m.pendingThen G W st).WellFormed G := by
  have hp := h.executePending (W := W) false
  simp only [Machine.pendingThen]
  split
  · next m₁ he => rw [he] at hp; exact hp.withStatus st _ _
  · next m₁ he => rw [he] at hp; exact hp

theorem WellFormed.deactivate {m : Machine σ π γ ω} (h : m.WellFormed G) :
    (m.deactivate G W).2.WellFormed G := by
  have hp := (h.planDeactivate (W := W)).executePending (W := W) false
  simp only [Machine.deactivate]
  split
  · exact h
  · split
    · next m₁ he => rw [he] at hp; exact hp.withStatus _ _ _
    · next m₁ he => rw [he] at hp; exact hp.withStatus _ _ _

theorem WellFormed.enterInitialState {m : Machine σ π γ ω} (h : m.WellFormed G) :
    (m.enterInitialState G W).WellFormed G := by
  have ha := h.planActivate (W := W)
  have hp := ha.executePending (W := W) false
  simp only [Machine.enterInitialState]
  split
  · exact ha
  · split
    · next m₁ he => rw [he] at hp; exact hp.withStatus _ _ _
    · next m₁ he =>
      rw [he] at hp
      split
      · exact hp
      · exact hp.withStatus _ _ _

/-- A pause of the current program takes effect at once. -/
theorem pauseProgram_executed (p : π) (m : Machine σ π γ ω) :
    Executed p m ((m.pauseProgram p).execProgram W p) := by
  have h := execProgram_executed (W := W) p (m.pauseProgram p)
  simp only [pauseProgram] at h ⊢
  split
  · next q hq =>
    rw [hq] at h
    refine ⟨h.core, fun r hr => (h.others r hr).trans (setProgram_other m q hr), ?_, h.pausing,
      h.log, h.precIt, h.checkingPrecond⟩
    exact h.loaded.trans (by simpa using Program.pause_isLoaded hq)
  · next hq => rw [hq] at h; exact h

theorem Executed.wellFormed {p : π} {m m' : Machine σ π γ ω} (he : Executed p m m')
    (h : m.WellFormed G) : m'.WellFormed G := by
  refine ⟨fun q => ?_, fun q => ?_, he.core ▸ h.fits⟩
  · by_cases hq : q = p
    · rw [hq, he.loaded]; exact h.loaded p
    · rw [he.others q hq]; exact h.loaded q
  · by_cases hq : q = p
    · rw [hq]; exact he.pausing
    · rw [he.others q hq]; exact h.pausing q

theorem WellFormed.pause {m : Machine σ π γ ω} (h : m.WellFormed G) :
    (m.pause W).2.WellFormed G := by
  simp only [Machine.pause]
  split
  · refine WellFormed.withStatus ?_ _ _ _
    split
    · next p _ => exact (pauseProgram_executed p m).wellFormed h
    · exact h
  · exact h

theorem wellFormed_callRule (ok : Machine σ π γ ω → Operation σ → Prop) :
    CallRule G W ok (fun m => m.WellFormed G) where
  pending _ stepping h _ _ := h.executePending stepping
  searches _ _ h hs _ := hs.wellFormed h
  advances _ _ h hs := (hs.wellFormed h).record _
  changes _ _ s _ _ h _ hc hT _ hs :=
    (hs.wellFormed h).changeState (s := s) (hs.current.trans hc) hT false
  steps _ _ s _ _ h _ _ _ hc hT _ hs :=
    (hs.wellFormed h).changeState (s := s) (hs.current.trans hc) hT true
  status _ _ _ _ h _ := h.withStatus _ _ _
  automatics _ h _ _ _ _ := (h.withStatus _ _ _).runState _
  pauses _ h _ _ := h.pause
  activates _ m' w h _ _ he _ :=
    ((Evaluates.world (G := G) m' w).wellFormed (he.wellFormed h)).enterInitialState
  deactivates _ h _ _ := h.deactivate
  settles _ h _ := h.pendingThen _

/-- No call unloads a machine. -/
theorem unloaded_callRule (ok : Machine σ π γ ω → Operation σ → Prop) :
    CallRule G W ok (fun m => m.WellFormed G ∧ m.smStatus ≠ .unloaded) := by
  have hw := wellFormed_callRule (G := G) (W := W) ok
  have hpend {m : Machine σ π γ ω} (h : m.smStatus ≠ .unloaded) (stepping : Bool) :
      (m.executePending G W stepping).2.smStatus ≠ .unloaded := by
    obtain he | he := executePending_smStatus (G := G) (W := W) stepping m
    · exact he ▸ h
    · exact he ▸ by decide
  have hsearch {m m' : Machine σ π γ ω} (hs : Searches G m m') (h : m.smStatus ≠ .unloaded) :
      m'.smStatus ≠ .unloaded := by
    obtain ⟨it, he⟩ := hs
    exact fun hst => h ((congrArg Core.smStatus he.core).symm.trans hst)
  have hchange {m m' : Machine σ π γ ω} {s n : σ} {T : Option π}
      (h : m.WellFormed G ∧ m.smStatus ≠ .unloaded) (hs : Searches G m m')
      (hc : m.current = some s) (hT : ∀ p, T = some p → G.role p = .transition)
      (stepping : Bool) : (m'.changeState G W n T stepping).smStatus ≠ .unloaded := by
    obtain he | he := changeState_smStatus (W := W) (n := n) (hs.wellFormed h.1)
      (hs.current.trans hc) hT stepping
    · exact he ▸ hsearch hs h.2
    · exact he ▸ by decide
  have hact {m : Machine σ π γ ω} (h : m.WellFormed G) (hst : m.smStatus = .inactive) :
      (m.enterInitialState G W).smStatus ≠ .unloaded := by
    have ha : (m.planActivate G W).smStatus = .inactive :=
      (congrArg Core.smStatus (planActivate_plans (G := G) (W := W) h.loaded).core).trans hst
    have hp := hpend (m := m.planActivate G W) (by simp [ha]) false
    simp only [Machine.enterInitialState]
    split
    · simp [ha]
    · split
      · simp
      · next m₁ he =>
        rw [he] at hp
        split
        · exact hp
        · simp
  refine ⟨?_, ?_, ?_, ?_, ?_, ?_, ?_, ?_, ?_, ?_, ?_⟩
  · exact fun m stepping h hin hst => ⟨hw.pending m stepping h.1 hin hst, hpend h.2 stepping⟩
  · exact fun m m' h hs hr => ⟨hw.searches m m' h.1 hs hr, hsearch hs h.2⟩
  · intro m m' h hs
    have hst : m'.smStatus ≠ .unloaded := hsearch hs h.2
    exact ⟨hw.advances m m' h.1 hs, hst⟩
  · exact fun m m' s n T h hn hc hT hsel hs =>
      ⟨hw.changes m m' s n T h.1 hn hc hT hsel hs, hchange h hs hc hT false⟩
  · exact fun m m' s n T h hst hk hn hc hT hsel hs =>
      ⟨hw.steps m m' s n T h.1 hst hk hn hc hT hsel hs, hchange h hs hc hT true⟩
  · refine fun m st sp ms h hst => ⟨h.1.withStatus _ _ _, fun hu => ?_⟩
    obtain hs | hs := hst.1
    · exact h.2 (hs.symm.trans hu)
    · exact hs.2.2.2 hu
  · refine fun m h hop h₁ h₂ h₃ => ⟨hw.automatics m h.1 hop h₁ h₂ h₃, ?_⟩
    rw [runState_smStatus (G := G) _ (h.1.withStatus _ _ _)]
    simp
  · refine fun m h hop hst => ⟨hw.pauses m h.1 hop hst, ?_⟩
    simp only [Machine.pause]
    split
    · split
      · next p _ =>
        exact (congrArg Core.smStatus (pauseProgram_executed (W := W) p m).core).trans_ne h.2
      · exact h.2
    · exact h.2
  · intro m m' w h hop hst he hc
    refine ⟨hw.activates m m' w h.1 hop hst he hc, hact ?_ ?_⟩
    · exact (Evaluates.world (G := G) m' w).wellFormed (he.wellFormed h.1)
    · exact (congrArg Core.smStatus he.core).trans hst
  · refine fun m h hop hst => ⟨hw.deactivates m h.1 hop hst, ?_⟩
    simp only [Machine.deactivate, if_neg hst]
    split <;> simp
  · intro m h hst
    refine ⟨hw.settles m h.1 hst, ?_⟩
    have hp := hpend (m := m) h.2 false
    simp only [Machine.pendingThen]
    split
    · simp
    · next m₁ he => rw [he] at hp; exact hp

theorem loading_wellFormed (unloadOnStop : π → Bool) (w : ω) :
    (loading unloadOnStop w : Machine σ π γ ω).WellFormed G := by
  refine ⟨fun p => ?_, fun p => ?_, ⟨?_, ?_, ?_, ?_, ?_, ?_⟩⟩
  · exact Program.fresh_loaded_isLoaded _
  · exact Program.fresh_loaded_pausing _
  all_goals simp [loading, core]

end Machine
end OrocosRtt.StateMachine
