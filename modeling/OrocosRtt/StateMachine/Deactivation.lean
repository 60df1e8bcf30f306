import OrocosRtt.StateMachine.CurrentState

/-! From `deactivate` to the status inactive, while the exit program of the state is executed:
which requests in between are lost, and with them the deactivation. -/
set_option linter.unusedSectionVars false

namespace OrocosRtt.StateMachine.Machine

open Library.Log Library.Run

variable {σ π γ ω : Type} [DecidableEq σ] [DecidableEq π]
variable {G : StateGraph σ π γ} {W : Surroundings π γ ω}

/-- The calls that may come while a machine is being deactivated. -/
def interleaved : Operation σ → Bool
  | .stop | .pause | .automatic | .reactive | .execute => true
  | _ => false

/-- The call is an execution, or a request that is not accepted. -/
def refuses (m : Machine σ π γ ω) : Operation σ → Prop
  | .stop | .pause => m.smStatus = .inactive ∨ m.smStatus = .unloaded
  | .automatic | .reactive =>
    m.smStatus = .inactive ∨ m.smStatus = .unloaded ∨ m.smStatus = .error
  | _ => True

instance (m : Machine σ π γ ω) (op : Operation σ) : Decidable (m.refuses op) :=
  match op with
  | .stop | .pause => inferInstanceAs (Decidable (_ ∨ _))
  | .automatic | .reactive => inferInstanceAs (Decidable (_ ∨ _ ∨ _))
  | .activate | .deactivate | .step | .reset | .requestState _ | .event .. | .execute =>
    .isTrue trivial

/-- A request that is not accepted does nothing. -/
theorem call_of_refuses {m : Machine σ π γ ω} {op : Operation σ} (hop : interleaved op = true)
    (h : m.refuses op) : op = .execute ∨ op ≠ .execute ∧ m.call G W op = m := by
  cases op with
  | stop => rcases h with h | h <;> exact .inr ⟨by simp, by simp [call, stop, h]⟩
  | pause => rcases h with h | h <;> exact .inr ⟨by simp, by simp [call, pause, h]⟩
  | automatic => rcases h with h | h | h <;> exact .inr ⟨by simp, by simp [call, automatic, h]⟩
  | reactive => rcases h with h | h | h <;> exact .inr ⟨by simp, by simp [call, reactive, h]⟩
  | execute => exact .inl rfl
  | activate | deactivate | step | reset | requestState | event => cases hop

/-- `executePending` forgets a private request only in error. -/
theorem executePending_statuses (stepping : Bool) (m : Machine σ π γ ω) :
    ((m.executePending G W stepping).2.smStatus = m.smStatus ∧
        (m.executePending G W stepping).2.smpStatus = m.smpStatus) ∨
      ((m.executePending G W stepping).2.smStatus = .error ∧
        ((m.executePending G W stepping).2.smpStatus = .nill ∨
          (m.executePending G W stepping).2.smpStatus = m.smpStatus)) := by
  refine PendingRule.executePending
    (I := fun m' => (m'.smStatus = m.smStatus ∧ m'.smpStatus = m.smpStatus) ∨
      (m'.smStatus = .error ∧ (m'.smpStatus = .nill ∨ m'.smpStatus = m.smpStatus)))
    ?_ (.inl ⟨rfl, rfl⟩)
  have hadv (p : π) (r : Machine σ π γ ω) :
      (r.advanceProgram W stepping p).smStatus = r.smStatus ∧
        (r.advanceProgram W stepping p).smpStatus = r.smpStatus := by
    have hc := (advanceProgram_advanced (W := W) stepping p r).core
    exact ⟨congrArg Core.smStatus hc, congrArg Core.smpStatus hc⟩
  constructor
  · intro r _ p h _ _ _ _ _
    rw [(hadv p r).1, (hadv p r).2]
    exact h
  · intro r _ p h _ _ _ _
    exact .inr ⟨rfl, .inl rfl⟩
  · intro r k p h _ _ _ _
    have hsp : ∀ x : Machine σ π γ ω, (x.clear k).smpStatus = x.smpStatus := by
      intro x
      cases k <;> rfl
    rw [clear_smStatus, hsp]
    show ((r.advanceProgram W stepping p).smStatus = _ ∧
      (r.advanceProgram W stepping p).smpStatus = _) ∨ _
    rw [(hadv p r).1, (hadv p r).2]
    exact h
  · intro _ r _ h _ _
    exact h
  · intro r h _ _ _ _
    exact h
  · intro r _ h _ _ _ _
    exact h

theorem executePending_slots (stepping : Bool) (m : Machine σ π γ ω) (k : Slot) :
    (m.executePending G W stepping).2.slot k = none ∨
      (m.executePending G W stepping).2.slot k = m.slot k := by
  refine PendingRule.executePending (I := fun m' => m'.slot k = none ∨ m'.slot k = m.slot k)
    ?_ (.inr rfl)
  constructor
  · intro r _ p h _ _ _ _ _
    rw [(advanceProgram_advanced stepping p r).slot]
    exact h
  · intro r _ p h _ _ _ _
    have hs := (advanceProgram_advanced (W := W) stepping p r).slot k
    rw [← hs] at h
    cases k <;> exact h
  · intro r j p h _ _ _ _
    rw [slot_clear, slot_withProg, (advanceProgram_advanced stepping p r).slot]
    split
    · exact .inl rfl
    · exact h
  · intro _ r o h _ _
    rw [slot_withProg]
    exact h
  · intro r h _ _ _ _
    cases k <;> exact h
  · intro r n h _ _ _ _
    cases k <;> exact h

/-! ### The deactivation goes on -/

/-- Nothing is left but the transition and exit programs of the state. -/
structure Leaving (G : StateGraph σ π γ) (m : Machine σ π γ ω) : Prop where
  wf : m.WellFormed G
  smpStatus : m.smpStatus = .nill
  next : m.next = none
  handle : m.currentHandle = none
  run : m.currentRun = none

/-- The transition and exit programs have ended, without an error. -/
def Ended (m : Machine σ π γ ω) : Prop :=
  m.currentTrans = none ∧ m.currentExit = none ∧ m.smStatus ≠ .error

instance (m : Machine σ π γ ω) [Decidable (m.currentTrans = none)]
    [Decidable (m.currentExit = none)] : Decidable m.Ended :=
  inferInstanceAs (Decidable (_ ∧ _ ∧ _))

theorem Leaving.withStatus {m : Machine σ π γ ω} (h : m.Leaving G) (st : Status) :
    Leaving G { m with smStatus := st } :=
  ⟨h.wf.withStatus st m.smpStatus m.mstep, h.smpStatus, h.next, h.handle, h.run⟩

theorem Leaving.executePending {m : Machine σ π γ ω} (h : m.Leaving G) :
    (m.executePending G W false).2.Leaving G := by
  constructor
  · exact h.wf.executePending false
  · rcases executePending_statuses (G := G) (W := W) false m with ⟨-, he⟩ | ⟨-, he | he⟩
    · exact he.trans h.smpStatus
    · exact he
    · exact he.trans h.smpStatus
  · exact (executePending_next false m).trans h.next
  · have hh : m.slot .handle = none := h.handle
    rcases executePending_slots (G := G) (W := W) false m .handle with he | he
    · exact he
    · exact he.trans hh
  · have hr : m.slot .run = none := h.run
    rcases executePending_slots (G := G) (W := W) false m .run with he | he
    · exact he
    · exact he.trans hr

/-- Once the programs have ended the execution is the last one. -/
theorem Leaving.executePending_true {m : Machine σ π γ ω} (h : m.Leaving G) (he : m.Ended) :
    (m.executePending G W false).1 = true := by
  obtain ⟨ht, hx, hst⟩ := he
  cases hc : m.current with
  | some s => rw [executePending_leaves hst ht hx h.next (by simp [hc])]
  | none =>
    have hentry : m.currentEntry = none := by
      refine Option.eq_none_iff_forall_ne_some.mpr fun p hp => ?_
      obtain ⟨s, hs, -⟩ := h.wf.fits.entry p hp
      exact absurd (h.next.symm.trans hs) (by simp)
    rw [executePending_idle hst (hc.trans h.next.symm)]
    intro k
    cases k with
    | trans => exact ht
    | exit => exact hx
    | entry => exact hentry
    | handle => exact h.handle
    | run => exact h.run

/-- The machine is inactive, or still on its way there, or a program failed. -/
def OnWay (G : StateGraph σ π γ) (m : Machine σ π γ ω) : Prop :=
  m.smStatus = .inactive ∨
    m.Leaving G ∧ (m.smStatus = .deactivating ∨ m.smStatus = .error)

theorem execute_inactive {m : Machine σ π γ ω} (h : m.smStatus = .inactive) :
    (m.execute G W).smStatus = .inactive := by
  simp [execute, h]

theorem Leaving.execute_deactivating {m : Machine σ π γ ω} (h : m.Leaving G)
    (hst : m.smStatus = .deactivating) :
    m.execute G W = m.pendingThen G W .inactive := by
  simp [execute, executeStatus, hst, h.smpStatus]

theorem Leaving.execute_error {m : Machine σ π γ ω} (h : m.Leaving G)
    (hst : m.smStatus = .error) : m.execute G W = m := by
  simp [execute, executeStatus, hst, h.smpStatus]

theorem OnWay.execute {m : Machine σ π γ ω} (h : m.OnWay G) : (m.execute G W).OnWay G := by
  rcases h with h | ⟨h, hst | hst⟩
  · exact .inl (execute_inactive h)
  · rw [h.execute_deactivating hst]
    have hp := h.executePending (W := W)
    have hs := executePending_smStatus (G := G) (W := W) false m
    simp only [pendingThen]
    split
    · exact .inl rfl
    · next m₁ he =>
      rw [he] at hp hs
      exact .inr ⟨hp, hs.imp (fun hs => hs.trans hst) id⟩
  · rw [h.execute_error hst]
    exact .inr ⟨h, .inr hst⟩

theorem OnWay.call {m : Machine σ π γ ω} (h : m.OnWay G) {op : Operation σ}
    (hop : interleaved op = true) (hr : m.refuses op) : (m.call G W op).OnWay G := by
  rcases call_of_refuses (G := G) (W := W) hop hr with rfl | ⟨-, he⟩
  · exact h.execute
  · rw [he]
    exact h

theorem OnWay.runOps {m : Machine σ π γ ω} (h : m.OnWay G) {ops : List (Operation σ)}
    (hops : ∀ op ∈ ops, interleaved op = true) (hr : m.Calls G W refuses ops) :
    (m.runOps G W ops).OnWay G := by
  induction ops generalizing m with
  | nil => exact h
  | cons op ops ih =>
    exact ih (h.call (hops op List.mem_cons_self) hr.1)
      (fun op' ho => hops op' (List.mem_cons_of_mem _ ho)) hr.2

/-- The execution after the end of the programs makes the machine inactive. -/
theorem OnWay.execute_settles {m : Machine σ π γ ω} (h : m.OnWay G)
    (he : m.smStatus = .inactive ∨ m.Ended) : (m.execute G W).smStatus = .inactive := by
  by_cases hin : m.smStatus = .inactive
  · exact execute_inactive hin
  · obtain ⟨hl, hst⟩ := h.resolve_left hin
    have hend := he.resolve_left hin
    have ht := hl.executePending_true (W := W) hend
    rw [hl.execute_deactivating (hst.resolve_right hend.2.2)]
    simp only [pendingThen]
    split
    · rfl
    · next m₁ he => rw [he] at ht; cases ht

theorem OnWay.settles {m : Machine σ π γ ω} (h : m.OnWay G) (he : m.smStatus = .inactive ∨ m.Ended)
    {ops : List (Operation σ)} (hops : ∀ op ∈ ops, interleaved op = true)
    (hr : m.Calls G W refuses ops) (hx : m.smStatus = .inactive ∨ .execute ∈ ops) :
    (m.runOps G W ops).smStatus = .inactive := by
  induction ops generalizing m with
  | nil => exact hx.resolve_right (by simp)
  | cons op ops ih =>
    have hall : ∀ op' ∈ ops, interleaved op' = true :=
      fun op' ho => hops op' (List.mem_cons_of_mem _ ho)
    have hop := hops op List.mem_cons_self
    rcases call_of_refuses (G := G) (W := W) hop hr.1 with rfl | ⟨hne, hs⟩
    · have hin : (m.call G W .execute).smStatus = .inactive := h.execute_settles he
      exact ih (h.call hop hr.1) (.inl hin) hall hr.2 (.inl hin)
    · have hx' : m.smStatus = .inactive ∨ .execute ∈ ops := by
        refine hx.imp_right fun hx => ?_
        exact (List.mem_cons.mp hx).resolve_left fun he => hne he.symm
      have hr' : m.Calls G W refuses ops := hs ▸ hr.2
      have hstep : m.runOps G W (op :: ops) = m.runOps G W ops :=
        congrArg (fun r : Machine σ π γ ω => r.runOps G W ops) hs
      rw [hstep]
      exact ih h he hall hr' hx'

/-! ### The deactivation is lost -/

/-- The status does not lead to inactive any more. No reset is pending, which an execution
may give up. -/
structure Lost (G : StateGraph σ π γ) (m : Machine σ π γ ω) : Prop where
  wf : m.WellFormed G
  smpStatus : m.smpStatus ≠ .goreset
  active : m.smStatus ≠ .inactive
  request : m.smpStatus ≠ .nill ∨ m.smStatus ≠ .deactivating

theorem Lost.of_status {m : Machine σ π γ ω} (hw : m.WellFormed G) (hsp : m.smpStatus ≠ .goreset)
    (hst : m.smStatus ≠ .inactive ∧ m.smStatus ≠ .deactivating) : m.Lost G :=
  ⟨hw, hsp, hst.1, .inr hst.2⟩

theorem Lost.withStatus {m : Machine σ π γ ω} (h : m.Lost G) (st : Status)
    (hst : st ≠ .inactive ∧ st ≠ .deactivating) : Lost G { m with smStatus := st } :=
  .of_status (h.wf.withStatus st m.smpStatus m.mstep) h.smpStatus hst

/-- The statuses are kept, or there is an error. -/
def KeepsStatus (m m' : Machine σ π γ ω) : Prop :=
  (m'.smStatus = m.smStatus ∨ m'.smStatus = .error) ∧
    (m'.smpStatus = m.smpStatus ∨ m'.smStatus = .error ∧ m'.smpStatus = .nill)

theorem Lost.keeps {m m' : Machine σ π γ ω} (h : m.Lost G) (hw : m'.WellFormed G)
    (hk : m.KeepsStatus m') : m'.Lost G := by
  obtain ⟨hst, hsp⟩ := hk
  constructor
  · exact hw
  · rcases hsp with hsp | ⟨-, hsp⟩
    · rw [hsp]
      exact h.smpStatus
    · rw [hsp]
      decide
  · rcases hst with hst | hst
    · rw [hst]
      exact h.active
    · rw [hst]
      decide
  · rcases hsp with hsp | ⟨hst, -⟩
    · rcases hst with hst | hst
      · rw [hsp, hst]
        exact h.request
      · exact .inr (by rw [hst]; decide)
    · exact .inr (by rw [hst]; decide)

theorem executePending_keeps (stepping : Bool) (m : Machine σ π γ ω) :
    m.KeepsStatus (m.executePending G W stepping).2 := by
  rcases executePending_statuses (G := G) (W := W) stepping m with ⟨h, h'⟩ | ⟨h, h' | h'⟩
  · exact ⟨.inl h, .inl h'⟩
  · exact ⟨.inr h, .inr ⟨h, h'⟩⟩
  · exact ⟨.inr h, .inl h'⟩

theorem KeepsStatus.trans {m m₁ m₂ : Machine σ π γ ω} (h : m.KeepsStatus m₁)
    (h' : m₁.KeepsStatus m₂) : m.KeepsStatus m₂ := by
  obtain ⟨h₁, h₂⟩ := h
  obtain ⟨h₁', h₂'⟩ := h'
  constructor
  · rcases h₁' with he | he
    · rw [he]
      exact h₁
    · exact .inr he
  · rcases h₂' with he | he
    · rcases h₂ with hs | ⟨hs, hn⟩
      · exact .inl (he.trans hs)
      · rcases h₁' with ht | ht
        · exact .inr ⟨ht.trans hs, he.trans hn⟩
        · exact .inr ⟨ht, he.trans hn⟩
    · exact .inr he

theorem Searches.keepsStatus {m m' : Machine σ π γ ω} (hs : Searches G m m') :
    m.KeepsStatus m' := by
  obtain ⟨it, he⟩ := hs
  exact ⟨.inl (congrArg Core.smStatus he.core), .inl (congrArg Core.smpStatus he.core)⟩

theorem runState_statuses {m : Machine σ π γ ω} (hw : m.WellFormed G) (o : Option σ) :
    (m.runState G W o).smStatus = m.smStatus ∧ (m.runState G W o).smpStatus = m.smpStatus := by
  cases o with
  | none => exact ⟨rfl, rfl⟩
  | some s =>
    have hc := (runState_plans (G := G) (W := W) s hw.loaded).core
    exact ⟨congrArg Core.smStatus hc, congrArg Core.smpStatus hc⟩

theorem planState_statuses {m : Machine σ π γ ω} {s n : σ} {T : Option π} (hw : m.WellFormed G)
    (hs : m.current = some s) (hT : ∀ p, T = some p → G.role p = .transition) :
    (m.planState G W n T).smStatus = m.smStatus ∧
      (m.planState G W n T).smpStatus = m.smpStatus := by
  have h₀ := hw.record (.changeState (m.change G n T))
  simp only [planState]
  split
  · cases T with
    | some p =>
      have hc := (planSelf_some_plans (G := G) (W := W) (p := p) h₀.loaded hs).core
      exact ⟨congrArg Core.smStatus hc, congrArg Core.smpStatus hc⟩
    | none =>
      by_cases hh : m.currentHandle = none
      · have hc := (planSelf_none_plans (G := G) (W := W) h₀.loaded hs hh).core
        exact ⟨congrArg Core.smStatus hc, congrArg Core.smpStatus hc⟩
      · have he : (m.record (.changeState (m.change G n none))).planSelf G W none =
            m.record (.changeState (m.change G n none)) := if_neg hh
        rw [he]
        exact ⟨rfl, rfl⟩
  · have hc := (planChange_plans (W := W) (n := n) h₀ hs hT).core
    exact ⟨(congrArg Core.smStatus hc).trans (Core.change_smStatus _),
      (congrArg Core.smpStatus hc).trans (Core.change_smpStatus _)⟩

theorem changeState_keeps {m : Machine σ π γ ω} {s n : σ} {T : Option π} (hw : m.WellFormed G)
    (hs : m.current = some s) (hT : ∀ p, T = some p → G.role p = .transition) (stepping : Bool) :
    m.KeepsStatus (m.changeState G W n T stepping) := by
  have hp := planState_statuses (W := W) (n := n) hw hs hT
  have hw' := hw.planState (W := W) (n := n) hs hT
  have hplan : m.KeepsStatus (m.planState G W n T) := ⟨.inl hp.1, .inl hp.2⟩
  simp only [changeState]
  split
  · have hr := runState_statuses (W := W) hw' (some n)
    exact hplan.trans ⟨.inl hr.1, .inl hr.2⟩
  · have hr := runState_statuses (W := W) (hw'.executePending (W := W) stepping) (some n)
    exact hplan.trans ((executePending_keeps stepping _).trans ⟨.inl hr.1, .inl hr.2⟩)

/-- A search or a request leaves the statuses alone, unless a program fails. -/
theorem Decides.lost {stepping : Bool} {c : Prop} {m m' : Machine σ π γ ω} (h : m.Lost G)
    (hd : Decides G W stepping c m m') : m'.Lost G := by
  cases hd with
  | stay he => exact h.keeps (he.searches.wellFormed h.wf) he.searches.keepsStatus
  | halt hs _ => exact h.keeps (hs.wellFormed h.wf) hs.keepsStatus
  | @advance m₁ hs =>
    have hk : m.KeepsStatus (m₁.record .advance) := hs.keepsStatus
    exact h.keeps ((hs.wellFormed h.wf).record _) hk
  | change s n T _ hs hT _ hm =>
    have hw := hm.wellFormed h.wf
    have hs' := hm.current.trans hs
    exact h.keeps (hw.changeState hs' hT stepping)
      (hm.keepsStatus.trans (changeState_keeps hw hs' hT stepping))

theorem Lost.executePending {m : Machine σ π γ ω} (h : m.Lost G) (stepping : Bool) :
    (m.executePending G W stepping).2.Lost G :=
  h.keeps (h.wf.executePending stepping) (executePending_keeps stepping m)

theorem Lost.pendingThen {m : Machine σ π γ ω} (h : m.Lost G) {st : Status}
    (hst : st ≠ .inactive ∧ st ≠ .deactivating) : (m.pendingThen G W st).Lost G := by
  have hp := h.executePending (W := W) false
  simp only [Machine.pendingThen]
  split
  · next m₁ he => rw [he] at hp; exact hp.withStatus st hst
  · next m₁ he => rw [he] at hp; exact hp

theorem Lost.requestNextState {m : Machine σ π γ ω} (h : m.Lost G) (stepping : Bool) :
    (m.requestNextState G W stepping).Lost G :=
  Decides.lost h (requestNextState_decides stepping m)

theorem Lost.executeStop {m : Machine σ π γ ω} (h : m.Lost G) : (m.executeStop G W).Lost G := by
  have hp := h.executePending (W := W) false
  have hr := Decides.lost hp (requestFinalState_decides (G := G) (W := W)
    (m.executePending G W false).2)
  simp only [Machine.executeStop]
  split
  · next m₁ he =>
    rw [he] at hr
    refine .of_status (hr.wf.withStatus _ .nill m₁.mstep) (by simp) ?_
    show (if m₁.inTransition = true then Status.stopping else .stopped) ≠ _ ∧ _
    split <;> exact ⟨by simp, by simp⟩
  · next m₁ he => rw [he] at hr; exact hr

theorem Lost.executeStatus {m : Machine σ π γ ω} (h : m.Lost G)
    (hst : m.smStatus ≠ .deactivating) : (m.executeStatus G W).Lost G := by
  have hp := h.executePending (W := W) false
  simp only [Machine.executeStatus]
  cases hs : m.smStatus with
  | inactive => exact absurd hs h.active
  | deactivating => exact absurd hs hst
  | error | unloaded => simpa only [hs] using h
  | requesting =>
    dsimp only
    split
    · next m₁ he =>
      rw [he] at hp
      exact (hp.requestNextState (W := W) false).withStatus .active ⟨by simp, by simp⟩
    · next m₁ he => rw [he] at hp; exact hp
  | active => exact hp
  | running =>
    dsimp only
    split
    · next m₁ he => rw [he] at hp; exact hp.requestNextState false
    · next m₁ he => rw [he] at hp; exact hp
  | paused =>
    dsimp only
    have hp := h.executePending (W := W) true
    have hno (r : Machine σ π γ ω) (hr : r.Lost G) : Lost G { r with mstep := false } :=
      ⟨hr.wf.withStatus r.smStatus r.smpStatus false, hr.smpStatus, hr.active, hr.request⟩
    by_cases hm : m.mstep = true
    · simp only [hm, if_true]
      apply hno
      split
      · next m₁ he => rw [he] at hp; exact hp.requestNextState true
      · next m₁ he => rw [he] at hp; exact hp
    · simpa only [if_neg hm] using h
  | activating =>
    dsimp only
    split
    · exact hp
    · exact hp.withStatus .active ⟨by simp, by simp⟩
  | stopping => exact h.pendingThen ⟨by simp, by simp⟩
  | resetting => exact h.pendingThen ⟨by simp, by simp⟩
  | stopped =>
    dsimp only
    split
    · exact hp
    · exact hp.withStatus .active ⟨by simp, by simp⟩

theorem Lost.execute {m : Machine σ π γ ω} (h : m.Lost G) : (m.execute G W).Lost G := by
  simp only [Machine.execute]
  split
  · next hin =>
    have hst : m.smStatus = .unloaded := hin.resolve_left h.active
    refine .of_status (h.wf.withStatus m.smStatus .nill m.mstep) (by simp) ?_
    rw [hst]
    exact ⟨by simp, by simp⟩
  · cases hsp : m.smpStatus with
    | nill => exact h.executeStatus (h.request.resolve_left (not_not.mpr hsp))
    | gostop => exact h.executeStop
    | goreset => exact absurd hsp h.smpStatus
    | pausing => exact .of_status (h.wf.withStatus .paused .nill m.mstep) (by simp) ⟨by simp, by simp⟩

/-- An accepted request loses the deactivation. -/
theorem lost_of_accepted {m : Machine σ π γ ω} (hw : m.WellFormed G) (hsp : m.smpStatus ≠ .goreset)
    {op : Operation σ} (hop : interleaved op = true) (h : ¬ m.refuses op) :
    (m.call G W op).Lost G := by
  cases op with
  | stop =>
    obtain ⟨hin, hun⟩ := not_or.mp h
    simp only [call, stop, hin, hun, ne_eq, not_false_eq_true, and_self, if_true]
    exact ⟨hw.withStatus m.smStatus .gostop m.mstep, by simp, hin, .inl (by simp)⟩
  | pause =>
    obtain ⟨hin, hun⟩ := not_or.mp h
    have hwp := hw.pause (W := W)
    have hst : (m.pause W).2.smStatus = m.smStatus := by
      simp only [Machine.pause]
      split
      · split
        · next p _ => exact congrArg Core.smStatus (pauseProgram_executed (W := W) p m).core
        · rfl
      · rfl
    have hsp' : (m.pause W).2.smpStatus = .pausing := by simp [Machine.pause, hin, hun]
    refine ⟨hwp, ?_, ?_, .inl ?_⟩
    · exact hsp'.trans_ne (by simp)
    · exact hst.trans_ne hin
    · exact hsp'.trans_ne (by simp)
  | automatic =>
    obtain ⟨hin, h⟩ := not_or.mp h
    obtain ⟨hun, herr⟩ := not_or.mp h
    simp only [call, automatic, hin, hun, herr, ne_eq, not_false_eq_true, and_self, if_true]
    have hw' := hw.withStatus .running m.smpStatus m.mstep
    obtain ⟨hst, hsp'⟩ := runState_statuses (W := W) hw' m.current
    refine .of_status (hw'.runState _) (hsp'.trans_ne hsp) ?_
    rw [hst]
    exact ⟨by simp, by simp⟩
  | reactive =>
    obtain ⟨hin, h⟩ := not_or.mp h
    obtain ⟨hun, herr⟩ := not_or.mp h
    simp only [call, reactive, hin, hun, herr, ne_eq, not_false_eq_true, and_self, if_true]
    exact .of_status (hw.withStatus .active m.smpStatus m.mstep) hsp ⟨by simp, by simp⟩
  | execute => exact absurd trivial h
  | activate | deactivate | step | reset | requestState | event => cases hop

theorem Lost.call {m : Machine σ π γ ω} (h : m.Lost G) {op : Operation σ}
    (hop : interleaved op = true) : (m.call G W op).Lost G := by
  by_cases hr : m.refuses op
  · rcases call_of_refuses (G := G) (W := W) hop hr with rfl | ⟨-, he⟩
    · exact h.execute
    · rw [he]
      exact h
  · exact lost_of_accepted h.wf h.smpStatus hop hr

theorem Lost.runOps {m : Machine σ π γ ω} (h : m.Lost G) {ops : List (Operation σ)}
    (hops : ∀ op ∈ ops, interleaved op = true) : (m.runOps G W ops).Lost G := by
  induction ops generalizing m with
  | nil => exact h
  | cons op ops ih =>
    exact ih (h.call (hops op List.mem_cons_self))
      fun op' ho => hops op' (List.mem_cons_of_mem _ ho)

/-- No reset is requested by these calls. -/
theorem execute_smpStatus {m : Machine σ π γ ω} (h : ¬ m.Lost G) (hw : m.WellFormed G)
    (hsp : m.smpStatus ≠ .goreset) : (m.execute G W).smpStatus ≠ .goreset := by
  by_cases hin : m.smStatus = .inactive
  · simp [execute, hin]
  · have hnill : m.smpStatus = .nill ∧ m.smStatus = .deactivating := by
      by_contra hno
      rw [not_and_or] at hno
      exact h ⟨hw, hsp, hin, hno⟩
    have he : m.execute G W = m.pendingThen G W .inactive := by
      simp [execute, executeStatus, hnill.1, hnill.2]
    have hk := (executePending_keeps (G := G) (W := W) false m).2
    have hp : (m.executePending G W false).2.smpStatus = .nill := by
      rcases hk with hk | ⟨-, hk⟩
      · exact hk.trans hnill.1
      · exact hk
    rw [he, pendingThen]
    split
    · next m₁ hm =>
      rw [hm] at hp
      exact hp.trans_ne (by simp)
    · next m₁ hm =>
      rw [hm] at hp
      exact hp.trans_ne (by simp)

/-- A machine that ends up inactive was not lost, and accepted no request on the way. -/
theorem refuses_of_inactive {m : Machine σ π γ ω} (hw : m.WellFormed G)
    (hsp : m.smpStatus ≠ .goreset) {ops : List (Operation σ)}
    (hops : ∀ op ∈ ops, interleaved op = true)
    (hin : (m.runOps G W ops).smStatus = .inactive) :
    (m.smStatus = .inactive ∨ m.smpStatus = .nill) ∧ m.Calls G W refuses ops := by
  have hnot : ¬ m.Lost G := fun hl => (hl.runOps hops).active hin
  constructor
  · by_contra hno
    obtain ⟨hin', hnill⟩ := not_or.mp hno
    exact hnot ⟨hw, hsp, hin', .inl hnill⟩
  · induction ops generalizing m with
    | nil => exact trivial
    | cons op ops ih =>
      have hop := hops op List.mem_cons_self
      have hall : ∀ op' ∈ ops, interleaved op' = true :=
        fun op' ho => hops op' (List.mem_cons_of_mem _ ho)
      have hr : m.refuses op := by
        by_contra hr
        exact ((lost_of_accepted hw hsp hop hr).runOps hall).active hin
      refine ⟨hr, ?_⟩
      have hwc : (m.call G W op).WellFormed G := (wellFormed_callRule fun _ _ => True).call hw trivial
      have hnext : (m.call G W op).smpStatus ≠ .goreset := by
        rcases call_of_refuses (G := G) (W := W) hop hr with rfl | ⟨-, he⟩
        · exact execute_smpStatus hnot hw hsp
        · rw [he]
          exact hsp
      exact ih hwc hnext hall hin fun hl => (hl.runOps hall).active hin

theorem deactivate_onWay {m : Machine σ π γ ω} (hw : m.WellFormed G)
    (hst : m.smStatus ≠ .inactive) (hd : (m.deactivate G W).2.smStatus = .inactive ∨
      (m.deactivate G W).2.smpStatus = .nill) : (m.deactivate G W).2.OnWay G := by
  by_cases hin : (m.deactivate G W).2.smStatus = .inactive
  · exact .inl hin
  have hnill := hd.resolve_left hin
  have hwd := hw.deactivate (W := W)
  have hn : (m.planDeactivate G W).next = none := rfl
  have hh : (m.planDeactivate G W).slot .handle = none := rfl
  have hr : (m.planDeactivate G W).slot .run = none := rfl
  have hpn := (executePending_next (G := G) (W := W) false (m.planDeactivate G W)).trans hn
  have hph := executePending_slots (G := G) (W := W) false (m.planDeactivate G W) .handle
  have hpr := executePending_slots (G := G) (W := W) false (m.planDeactivate G W) .run
  rw [hh, or_self] at hph
  rw [hr, or_self] at hpr
  simp only [Machine.deactivate, if_neg hst] at hin hnill hwd ⊢
  split
  · exact .inl rfl
  · next m₁ he =>
    rw [he] at hwd hnill hpn hph hpr
    exact .inr ⟨⟨hwd, hnill, hpn, hph, hpr⟩, .inl rfl⟩

/-- After an accepted `deactivate`, once the programs of the state have ended, the next execution
makes the machine inactive: if no request is pending or accepted before that. Otherwise it does
not become inactive any more. `d` is the machine that `deactivate` leaves. -/
theorem deactivate_settles_iff {unloadOnStop : π → Bool} {w : ω}
    {ops before after : List (Operation σ)}
    (hst : ((loading unloadOnStop w : Machine σ π γ ω).runOps G W ops).smStatus ≠ .inactive)
    (hint : ∀ op ∈ before ++ after, interleaved op = true) (hx : .execute ∈ after) :
    let d := ((loading unloadOnStop w : Machine σ π γ ω).runOps G W ops).call G W .deactivate
    (d.runOps G W before).Ended →
      ((d.smStatus = .inactive ∨ d.smpStatus = .nill) ∧ d.Calls G W refuses (before ++ after) →
        (d.runOps G W (before ++ after)).smStatus = .inactive) ∧
      (d.smpStatus ≠ .goreset → (d.runOps G W (before ++ after)).smStatus = .inactive →
        (d.smStatus = .inactive ∨ d.smpStatus = .nill) ∧
          d.Calls G W refuses (before ++ after)) := by
  intro d hend
  have hw : ((loading unloadOnStop w : Machine σ π γ ω).runOps G W ops).WellFormed G :=
    (wellFormed_callRule fun _ _ => True).runOps (loading_wellFormed unloadOnStop w)
      (along_trivial _ _ _)
  have hwd : d.WellFormed G := hw.deactivate
  constructor
  · rintro ⟨hd, hr⟩
    have hway : d.OnWay G := deactivate_onWay hw hst hd
    obtain ⟨hr₁, hr₂⟩ := along_append.mp hr
    have hbefore : ∀ op ∈ before, interleaved op = true :=
      fun op ho => hint op (List.mem_append_left _ ho)
    have hafter : ∀ op ∈ after, interleaved op = true :=
      fun op ho => hint op (List.mem_append_right _ ho)
    have hmid := hway.runOps hbefore hr₁
    rw [runOps, run_append]
    exact hmid.settles (.inr hend) hafter hr₂ (.inr hx)
  · intro hsp hin
    exact refuses_of_inactive hwd hsp hint hin

theorem deactivate_settles_exit :
    let d := ((loading (fun _ => true) 1 : Machine Bool Unit Unit ℕ).runOps exitGraph
      countedPrograms [.activate]).call exitGraph countedPrograms .deactivate
    (d.runOps exitGraph countedPrograms ([.execute] ++ [.stop, .execute])).smStatus =
      .inactive := by
  have hst : ((loading (fun _ => true) 1 : Machine Bool Unit Unit ℕ).runOps exitGraph
      countedPrograms [.activate]).smStatus ≠ .inactive := by decide
  have hint : ∀ op ∈ ([.execute] ++ [.stop, .execute] : List (Operation Bool)),
      interleaved op = true := by decide
  have h := deactivate_settles_iff (W := countedPrograms) hst hint (by decide)
  exact (h (by decide)).1 (by decide)

/-- A `stop` during the exit program: that ends, but the machine is deactivating for good, without
a state, and cannot be activated. -/
theorem deactivate_stop_stuck :
    let d := ((loading (fun _ => true) 1 : Machine Bool Unit Unit ℕ).runOps exitGraph
      countedPrograms [.activate]).call exitGraph countedPrograms .deactivate
    let m := d.runOps exitGraph countedPrograms [.stop, .execute]
    m.Ended ∧ m.smStatus = .deactivating ∧ m.current = none ∧ m.smpStatus = .gostop ∧
      ∀ n, let m' := m.runOps exitGraph countedPrograms (List.replicate n .execute)
        m'.smStatus ≠ .inactive ∧ (m'.activate exitGraph countedPrograms).1 = false := by
  intro d m
  have hm : m.Lost exitGraph := by
    have hw : (loading (fun _ => true) 1 : Machine Bool Unit Unit ℕ).WellFormed exitGraph :=
      loading_wellFormed _ _
    have hwm : ((loading (fun _ => true) 1 : Machine Bool Unit Unit ℕ).runOps exitGraph
        countedPrograms [.activate, .deactivate, .stop, .execute]).WellFormed exitGraph :=
      (wellFormed_callRule fun _ _ => True).runOps hw (along_trivial _ _ _)
    exact ⟨hwm, by decide, by decide, .inl (by decide)⟩
  refine ⟨by decide, by decide, by decide, by decide, fun n => ?_⟩
  have hops : ∀ op ∈ List.replicate n (.execute : Operation Bool), interleaved op = true := by
    intro op ho
    rw [List.eq_of_mem_replicate ho]
    rfl
  have hn := hm.runOps (W := countedPrograms) hops
  exact ⟨hn.active, by simp [activate, hn.active]⟩

end OrocosRtt.StateMachine.Machine
