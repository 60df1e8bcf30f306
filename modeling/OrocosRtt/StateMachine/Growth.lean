import OrocosRtt.StateMachine.Calls

/-! The log only grows, and the rule for invariants that hold as long as nothing unwanted
was logged. -/
set_option linter.unusedSectionVars false

namespace OrocosRtt.StateMachine.Machine

open Library.Log

variable {σ π γ ω : Type} [DecidableEq σ] [DecidableEq π]
variable {G : StateGraph σ π γ} {W : Surroundings π γ ω}

/-! ### Growth -/

theorem startProgram_log (p : π) (m : Machine σ π γ ω) :
    m.log <:+ (m.startProgram W p).log := by
  simp only [startProgram]
  split
  · exact List.suffix_cons _ _
  · exact List.suffix_rfl

theorem launch_log (o : Option π) (m : Machine σ π γ ω) : m.log <:+ (m.launch W o).log := by
  cases o with
  | none => exact List.suffix_rfl
  | some p =>
    simp only [launch]
    split <;> exact startProgram_log p m

theorem leaveState_log (s : Option σ) (m : Machine σ π γ ω) :
    m.log <:+ (m.leaveState G W s).log := by
  refine (List.suffix_cons (.leaveState s) m.log).trans ?_
  cases s with
  | none => exact List.suffix_rfl
  | some s =>
    exact launch_log (G.getExitProgram s)
      { (m.record (.leaveState (some s))).disableEvents G (some s) with
        currentExit := G.getExitProgram s }

theorem runState_log (s : Option σ) (m : Machine σ π γ ω) :
    .runState s m.currentProg m.currentRun :: m.log <:+ (m.runState G W s).log := by
  cases s with
  | none => exact List.suffix_rfl
  | some s =>
    exact launch_log (G.getRunProgram s)
      { m.record (.runState (some s) m.currentProg m.currentRun) with
        currentRun := G.getRunProgram s }

theorem handleState_log (s : Option σ) (m : Machine σ π γ ω) :
    m.log <:+ (m.handleState G W s).log := by
  refine (List.suffix_cons (.handleState s) m.log).trans ?_
  cases s with
  | none => exact List.suffix_rfl
  | some s =>
    exact launch_log (G.getHandleProgram s)
      { m.record (.handleState (some s)) with currentHandle := G.getHandleProgram s }

theorem enterState_log (s : σ) (m : Machine σ π γ ω) :
    m.log <:+ (m.enterState G W s).log :=
  launch_log (G.getEntryProgram s) { m with
    world := resetConditions W (G.stateMap s) m.world
    connected := setHandles G (some s) true m.connected
    next := some s
    currentEntry := G.getEntryProgram s }

theorem planSelf_log (T : Option π) (m : Machine σ π γ ω) :
    m.log <:+ (m.planSelf G W T).log := by
  cases T with
  | some p => exact startProgram_log p m
  | none =>
    simp only [planSelf]
    split
    · exact handleState_log _ m
    · exact List.suffix_rfl

theorem planChange_log (n : σ) (T : Option π) (m : Machine σ π γ ω) :
    m.log <:+ (m.planChange G W n T).log := by
  have hleave (m : Machine σ π γ ω) : m.log <:+
      ((if m.exitInError then { m with currentExit := none }
        else m.leaveState G W m.current).enterState G W n).log := by
    refine List.IsSuffix.trans ?_ (enterState_log n _)
    split
    · exact List.suffix_rfl
    · exact leaveState_log _ m
  cases T with
  | none => exact hleave { m with currentRun := none, currentHandle := none, currentTrans := none }
  | some p =>
    refine (startProgram_log (W := W) p
      { m with currentRun := none, currentHandle := none }).trans ?_
    exact hleave { startProgram W p { m with currentRun := none, currentHandle := none } with
      currentTrans := some p }

theorem planState_log (n : σ) (T : Option π) (m : Machine σ π γ ω) :
    .changeState (m.change G n T) :: m.log <:+ (m.planState G W n T).log := by
  simp only [planState]
  split
  · exact planSelf_log T (m.record (.changeState (m.change G n T)))
  · exact planChange_log n T (m.record (.changeState (m.change G n T)))

theorem Advanced.log_suffix {p : π} {m m' : Machine σ π γ ω} (h : Advanced p m m') :
    m.log <:+ m'.log := by
  obtain h | ⟨o, h⟩ := h.log
  · exact h ▸ List.suffix_rfl
  · exact h ▸ List.suffix_cons _ _

theorem executePending_log (stepping : Bool) (m : Machine σ π γ ω) :
    m.log <:+ (m.executePending G W stepping).2.log := by
  refine PendingRule.executePending (I := fun m' => m.log <:+ m'.log) ?_ List.suffix_rfl
  have hadv (p : π) (m₁ : Machine σ π γ ω) (h : m.log <:+ m₁.log) :
      m.log <:+ (m₁.advanceProgram W stepping p).log :=
    h.trans (advanceProgram_advanced stepping p m₁).log_suffix
  refine ⟨?_, ?_, ?_, ?_, ?_, ?_⟩
  · exact fun m₁ _ p h _ _ _ _ _ => hadv p m₁ h
  · exact fun m₁ _ p h _ _ _ _ => hadv p m₁ h
  · intro m₁ k p h _ _ _ _
    rw [clear_log]
    exact hadv p m₁ h
  · exact fun _ _ _ h _ _ => h
  · exact fun _ h _ _ _ _ => h.trans (List.suffix_cons _ _)
  · exact fun _ _ h _ _ _ _ => h.trans (List.suffix_cons _ _)

theorem changeState_log (n : σ) (T : Option π) (stepping : Bool) (m : Machine σ π γ ω) :
    (m.planState G W n T).log <:+ (m.changeState G W n T stepping).log := by
  simp only [changeState]
  split
  · exact (List.suffix_cons _ _).trans (runState_log _ _)
  · exact (executePending_log _ _).trans ((List.suffix_cons _ _).trans (runState_log _ _))

theorem Observes.log_suffix {m m' : Machine σ π γ ω} (h : Observes m m') :
    m.log <:+ m'.log := by
  obtain ⟨l, hl, -⟩ := h.log
  exact ⟨l, hl.symm⟩

theorem Searches.log_suffix {m m' : Machine σ π γ ω} (h : Searches G m m') :
    m.log <:+ m'.log := by
  obtain ⟨it, h⟩ := h
  exact h.log_suffix

theorem pause_log (m : Machine σ π γ ω) : m.log <:+ (m.pause W).2.log := by
  have hexec (p : π) (m : Machine σ π γ ω) : m.log <:+ (m.execProgram W p).log := by
    obtain h | ⟨o, h⟩ := (execProgram_executed (W := W) p m).log
    · exact h ▸ List.suffix_rfl
    · exact h ▸ List.suffix_cons _ _
  have hpause (p : π) (m : Machine σ π γ ω) : (m.pauseProgram p).log = m.log := by
    simp only [pauseProgram]
    split <;> rfl
  simp only [pause]
  split
  · split
    · next p _ => exact hpause p m ▸ hexec p (m.pauseProgram p)
    · exact List.suffix_rfl
  · exact List.suffix_rfl

theorem planActivate_log (m : Machine σ π γ ω) :
    .activate :: m.log <:+ (m.planActivate G W).log :=
  enterState_log G.initstate (m.record .activate)

theorem enterInitialState_log (m : Machine σ π γ ω) :
    (m.planActivate G W).log <:+ (m.enterInitialState G W).log := by
  have hp := executePending_log (G := G) (W := W) false (m.planActivate G W)
  simp only [enterInitialState]
  split
  · exact List.suffix_rfl
  · split
    · next m₁ he => rw [he] at hp; exact hp
    · next m₁ he =>
      rw [he] at hp
      split <;> exact hp

theorem planDeactivate_log (m : Machine σ π γ ω) :
    .deactivate :: m.log <:+ (m.planDeactivate G W).log := by
  have hleave (m : Machine σ π γ ω) : m.log <:+
      (if m.next ≠ none ∧ m.current ≠ none then m.leaveState G W m.current
        else { m with currentExit := none, currentTrans := none }).log := by
    split
    · exact leaveState_log _ m
    · exact List.suffix_rfl
  exact hleave { (m.record .deactivate).disableGlobalEvents G with
    currentExit := m.currentExit.filter fun p => !(m.programs p).inError
    currentTrans := m.currentTrans.filter fun p => !(m.programs p).inError }

theorem deactivate_log {m : Machine σ π γ ω} (h : m.smStatus ≠ .inactive) :
    (m.planDeactivate G W).log <:+ (m.deactivate G W).2.log := by
  have hp := executePending_log (G := G) (W := W) false (m.planDeactivate G W)
  simp only [deactivate, if_neg h]
  split <;> next m₁ he => rw [he] at hp; exact hp

theorem pendingThen_log (st : Status) (m : Machine σ π γ ω) :
    m.log <:+ (m.pendingThen G W st).log := by
  have hp := executePending_log (G := G) (W := W) false m
  simp only [pendingThen]
  split <;> next m₁ he => rw [he] at hp; exact hp

/-- Whatever is called, the log grows. -/
theorem growth_callRule (ok : Machine σ π γ ω → Operation σ → Prop)
    (l : List (Event σ π γ)) : CallRule G W ok (fun m => l <:+ m.log) where
  pending m stepping h _ _ := h.trans (executePending_log stepping m)
  searches _ _ h hs _ := h.trans hs.log_suffix
  advances _ _ h hs := (h.trans hs.log_suffix).trans (List.suffix_cons _ _)
  changes _ m' _ n T h _ _ _ _ hs :=
    (h.trans hs.log_suffix).trans ((List.suffix_cons _ _).trans
      ((planState_log n T m').trans (changeState_log n T false m')))
  steps _ m' _ n T h _ _ _ _ _ _ hs :=
    (h.trans hs.log_suffix).trans ((List.suffix_cons _ _).trans
      ((planState_log n T m').trans (changeState_log n T true m')))
  status _ _ _ _ h _ := h
  automatics m h _ _ _ _ := h.trans ((List.suffix_cons _ _).trans
    (runState_log m.current { m with smStatus := .running }))
  pauses m h _ _ := h.trans (pause_log m)
  activates _ m' w h _ _ he _ := (h.trans he.log_suffix).trans
    ((List.suffix_cons _ _).trans ((planActivate_log { m' with world := w }).trans
      (enterInitialState_log _)))
  deactivates m h _ hst := h.trans ((List.suffix_cons _ _).trans
    ((planDeactivate_log m).trans (deactivate_log hst)))
  settles m h _ := h.trans (pendingThen_log _ m)

/-! ### Invariants given a log -/

variable (G W) in
/-- A property that the calls allowed by `ok` keep as long as only entries allowed by
`okLog` are logged. -/
structure LogRule (ok : Machine σ π γ ω → Operation σ → Prop)
    (okLog : Event σ π γ → List (Event σ π γ) → Prop) (I : Machine σ π γ ω → Prop) :
    Prop where
  pending : ∀ m stepping, I m → m.smStatus ≠ .inactive →
    (stepping = true → m.smStatus = .paused) →
    Throughout okLog (m.executePending G W stepping).2.log →
    I (m.executePending G W stepping).2
  searches : ∀ m m', I m → Searches G m m' → (m'.reqstep = m.reqstep ∨ Halted G m') →
    Throughout okLog m'.log → I m'
  advances : ∀ m m', I m → Searches G m m' → Throughout okLog (m'.record .advance).log →
    I (m'.record .advance)
  changes : ∀ m m' s n T, I m → m.inTransition = false → m.current = some s →
    (∀ p, T = some p → G.role p = .transition) → Selected G s n m m' → Searches G m m' →
    Throughout okLog (m'.changeState G W n T false).log → I (m'.changeState G W n T false)
  steps : ∀ m m' s n T, I m → (∀ k, m.slot k = none) → m.next = some s → m.current = some s →
    (∀ p, T = some p → G.role p = .transition) → Selected G s n m m' → Searches G m m' →
    Throughout okLog (m'.changeState G W n T true).log → I (m'.changeState G W n T true)
  status : ∀ m st sp ms, I m → m.StatusMove st sp →
    I { m with smStatus := st, smpStatus := sp, mstep := ms }
  automatics : ∀ m, I m → ok m .automatic → m.smStatus ≠ .inactive → m.smStatus ≠ .unloaded →
    m.smStatus ≠ .error →
    Throughout okLog ({ m with smStatus := .running }.runState G W m.current).log →
    I ({ m with smStatus := .running }.runState G W m.current)
  pauses : ∀ m, I m → ok m .pause → m.smStatus ≠ .inactive →
    Throughout okLog (m.pause W).2.log → I (m.pause W).2
  activates : ∀ m m' w, I m → m.smStatus = .inactive → Evaluates G m m' →
    Checked G (some G.initstate) m m' →
    Throughout okLog ({ m' with world := w }.enterInitialState G W).log →
    I ({ m' with world := w }.enterInitialState G W)
  deactivates : ∀ m, I m → ok m .deactivate → m.smStatus ≠ .inactive →
    Throughout okLog (m.deactivate G W).2.log → I (m.deactivate G W).2
  settles : ∀ m, I m → m.smStatus = .deactivating →
    Throughout okLog (m.pendingThen G W .inactive).log → I (m.pendingThen G W .inactive)

variable {ok : Machine σ π γ ω → Operation σ → Prop}
variable {okLog : Event σ π γ → List (Event σ π γ) → Prop} {I : Machine σ π γ ω → Prop}

theorem LogRule.callRule (hI : LogRule G W ok okLog I) :
    CallRule G W ok (fun m => Throughout okLog m.log → I m) := by
  have hg (m : Machine σ π γ ω) := growth_callRule (G := G) (W := W) ok m.log
  have hm {m m' : Machine σ π γ ω} (h : Throughout okLog m.log → I m) (hs : m.log <:+ m'.log)
      (hl : Throughout okLog m'.log) : I m := h (hl.of_suffix hs)
  refine ⟨?_, ?_, ?_, ?_, ?_, ?_, ?_, ?_, ?_, ?_, ?_⟩
  · intro m stepping h hin hst hl
    exact hI.pending m stepping (hm h ((hg m).pending m stepping List.suffix_rfl hin hst) hl)
      hin hst hl
  · intro m m' h hs hr hl
    exact hI.searches m m' (hm h hs.log_suffix hl) hs hr hl
  · intro m m' h hs hl
    exact hI.advances m m' (hm h ((hg m).advances m m' List.suffix_rfl hs) hl) hs hl
  · intro m m' s n T h hn hc hT hsel hs hl
    exact hI.changes m m' s n T
      (hm h ((hg m).changes m m' s n T List.suffix_rfl hn hc hT hsel hs) hl) hn hc hT hsel hs hl
  · intro m m' s n T h hst hk hn hc hT hsel hs hl
    exact hI.steps m m' s n T
      (hm h ((hg m).steps m m' s n T List.suffix_rfl hst hk hn hc hT hsel hs) hl)
      hk hn hc hT hsel hs hl
  · intro m st sp ms h hst hl
    exact hI.status m st sp ms (h hl) hst
  · intro m h hop h₁ h₂ h₃ hl
    exact hI.automatics m (hm h ((hg m).automatics m List.suffix_rfl hop h₁ h₂ h₃) hl)
      hop h₁ h₂ h₃ hl
  · intro m h hop hst hl
    exact hI.pauses m (hm h ((hg m).pauses m List.suffix_rfl hop hst) hl) hop hst hl
  · intro m m' w h hop hst he hc hl
    exact hI.activates m m' w (hm h ((hg m).activates m m' w List.suffix_rfl hop hst he hc) hl)
      hst he hc hl
  · intro m h hop hst hl
    exact hI.deactivates m (hm h ((hg m).deactivates m List.suffix_rfl hop hst) hl) hop hst hl
  · intro m h hst hl
    exact hI.settles m (hm h ((hg m).settles m List.suffix_rfl hst) hl) hst hl

theorem LogRule.trivial : LogRule (ω := ω) G W ok okLog (fun _ => True) := by
  constructor <;> intros <;> exact True.intro

/-- The invariant holds after every run of allowed calls in which only allowed entries
were logged. -/
theorem LogRule.runOps (hI : LogRule G W ok okLog I) {m : Machine σ π γ ω}
    {ops : List (Operation σ)} (h : I m) (hops : m.Calls G W ok ops)
    (hl : Throughout okLog (m.runOps G W ops).log) : I (m.runOps G W ops) :=
  hI.callRule.runOps (fun _ => h) hops hl

end OrocosRtt.StateMachine.Machine
