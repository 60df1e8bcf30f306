import OrocosRtt.StateMachine.Anchored
import OrocosRtt.StateMachine.Grounded

/-! In every status of an active machine there is a current state; and which calls break that. -/
set_option linter.unusedSectionVars false

namespace OrocosRtt.StateMachine

open Library.Log

variable {σ π γ ω : Type} [DecidableEq σ] [DecidableEq π]
variable {G : StateGraph σ π γ} {W : Surroundings π γ ω}

/-- The statuses that a machine may have without a state to be in. -/
def Status.vacant : Status → Bool
  | .inactive | .deactivating | .error | .unloaded => true
  | _ => false

/-- The statuses in which the current state is used. -/
def Status.occupied : Status → Bool
  | .active | .requesting | .running | .paused | .stopped | .stopping | .resetting => true
  | _ => false

namespace Machine

/-- While a state is left for good, `automatic` and `reactive` are not accepted, and no request
to pause or to reset is carried out. -/
def keepsLeaving (m : Machine σ π γ ω) : Operation σ → Prop
  | .automatic | .reactive =>
    m.smStatus ≠ .inactive → m.smStatus ≠ .unloaded → m.smStatus ≠ .error → m.next ≠ none
  | .execute =>
    m.smStatus ≠ .inactive → m.smStatus ≠ .unloaded →
      (m.smpStatus = .pausing ∨ m.smpStatus = .goreset) → m.next ≠ none
  | _ => True

instance (m : Machine σ π γ ω) (op : Operation σ) : Decidable (m.keepsLeaving op) :=
  match op with
  | .automatic | .reactive => inferInstanceAs (Decidable (_ → _ → _ → _))
  | .execute => inferInstanceAs (Decidable (_ → _ → _ → _))
  | .activate | .deactivate | .stop | .pause | .step | .reset | .requestState _
  | .event .. => .isTrue trivial

/-- Without a state to be in, the status is one of those that need none. -/
def Occupied (m : Machine σ π γ ω) : Prop := m.next = none → m.smStatus.vacant = true

theorem Occupied.of_next {m : Machine σ π γ ω} (h : m.next ≠ none) : m.Occupied :=
  fun hn => absurd hn h

theorem Occupied.next_ne {m : Machine σ π γ ω} (h : m.Occupied) (hst : m.smStatus.vacant = false) :
    m.next ≠ none := by
  intro hn
  rw [h hn] at hst
  cases hst

theorem Occupied.executePending {m : Machine σ π γ ω} (h : m.Occupied) (stepping : Bool) :
    (m.executePending G W stepping).2.Occupied := by
  intro hn
  rcases executePending_smStatus (G := G) (W := W) stepping m with he | he
  · rw [he]
    exact h ((executePending_next stepping m).symm.trans hn)
  · rw [he]
    rfl

theorem Searches.occupied {m m' : Machine σ π γ ω} (hs : Searches G m m') (h : m.Occupied) :
    m'.Occupied := by
  intro hn
  obtain ⟨it, he⟩ := hs
  have hst : m'.smStatus = m.smStatus := congrArg Core.smStatus he.core
  rw [hst]
  exact h ((congrArg Core.next he.core).symm.trans hn)

/-- A search or a request does not change the status, and gives up no state. -/
theorem Decides.occupied {stepping : Bool} {c : Prop} {m m' : Machine σ π γ ω}
    (hd : Decides G W stepping c m m') (hw : m.WellFormed G) (h : m.Occupied) : m'.Occupied := by
  cases hd with
  | stay he => exact he.searches.occupied h
  | halt hs _ => exact hs.occupied h
  | advance hs => exact hs.occupied h
  | @change m₁ s n T _ hs hT _ hm =>
    have hw₁ := hm.wellFormed hw
    have hs₁ := hm.current.trans hs
    intro hn
    rw [changeState_next hw₁ hs₁ hT] at hn
    split at hn
    · have h₁ := hm.occupied h hn
      rcases changeState_smStatus (W := W) (n := n) hw₁ hs₁ hT stepping with he | he
      · rw [he]
        exact h₁
      · rw [he]
        rfl
    · cases hn

theorem Decides.next_ne {stepping : Bool} {c : Prop} {m m' : Machine σ π γ ω}
    (hd : Decides G W stepping c m m') (hw : m.WellFormed G) (h : m.next ≠ none) :
    m'.next ≠ none := by
  have key (r : Machine σ π γ ω) (hs : Searches G m r) : r.next ≠ none := by
    obtain ⟨it, he⟩ := hs
    exact fun hn => h ((congrArg Core.next he.core).symm.trans hn)
  cases hd with
  | stay he => exact key _ he.searches
  | halt hs _ => exact key _ hs
  | @advance m₁ hs => exact key m₁ hs
  | @change m₁ s n T _ hs hT _ hm =>
    rw [changeState_next (hm.wellFormed hw) (hm.current.trans hs) hT]
    split
    · exact key _ hm
    · simp

/-- A request is granted by a change of state. -/
theorem requestStateChange_true {n : σ} {m m' : Machine σ π γ ω}
    (h : m.requestStateChange G W n = (true, m')) :
    ∃ s T m₁, m.current = some s ∧ (∀ p, T = some p → G.role p = .transition) ∧
      Searches G m m₁ ∧ m' = m₁.changeState G W n T false := by
  simp only [requestStateChange] at h
  split at h
  · cases h
  · next s hs =>
    split at h
    · cases h
    · split at h
      · simp only [Prod.mk.injEq, true_and] at h
        exact ⟨s, none, m, hs, by simp, (Evaluates.refl m).searches, h.symm⟩
      · have hl := findTransition_evaluates (G := G) (W := W) some
          ((G.stateMap s).filter fun t => t.target = n) m
        split at h
        · next t m₁ he =>
          rw [he] at hl
          have ht := (List.mem_filter.mp (findTransition_mem he)).1
          simp only [Prod.mk.injEq, true_and] at h
          exact ⟨s, _, m₁, hs, G.local_role s t ht, hl.searches, h.symm⟩
        · next m₁ he =>
          rw [he] at hl
          have hl' := hl.trans (resetGlobals_evaluates (G := G) (W := W) m₁)
          have hg := findTransition_evaluates (G := G) (W := W) id
            (G.globalMap.filter fun t => t.target = some n) (m₁.resetGlobals G W)
          split at h
          · next t m₂ h₂ =>
            rw [h₂] at hg
            have ht := (List.mem_filter.mp (findTransition_mem h₂)).1
            simp only [Prod.mk.injEq, true_and] at h
            exact ⟨s, _, m₂, hs, G.global_role t ht, (hl'.trans hg).searches, h.symm⟩
          · next m₂ h₂ =>
            rw [h₂] at hg
            split at h
            · have hf : Evaluates G m₂ (m₂.record (.fallback n)) := .fallback n m₂
              simp only [Prod.mk.injEq, true_and] at h
              exact ⟨s, none, _, hs, by simp, (hl'.trans (hg.trans hf)).searches, h.symm⟩
            · cases h

/-- Once the final state is requested there is a state to be in. -/
theorem requestFinalState_next {m m' : Machine σ π γ ω} (hw : m.WellFormed G)
    (h : m.requestFinalState G W = (true, m'))
    (hl : Throughout Event.staysEntered m'.log) : m'.next ≠ none := by
  simp only [requestFinalState] at h
  split at h
  · cases h
  · obtain ⟨s, T, m₁, hs, hT, hm, rfl⟩ := requestStateChange_true h
    exact changeState_next_ne (hm.wellFormed hw) (hm.current.trans hs) hT hl

/-! ### Calls -/

/-- What holds after every call. -/
structure Residing (G : StateGraph σ π γ) (m : Machine σ π γ ω) : Prop where
  anchored : m.Anchored G
  occupied : m.Occupied
  grounded : m.Grounded

theorem Residing.executePending {m : Machine σ π γ ω} (h : m.Residing G) (stepping : Bool) :
    (m.executePending G W stepping).2.Residing G :=
  ⟨h.anchored.executePending stepping, h.occupied.executePending stepping,
    h.grounded.executePending stepping⟩

/-- With a state to be in, there is a current one. -/
theorem Residing.poised {m : Machine σ π γ ω} (h : m.Residing G) (hn : m.next ≠ none) :
    ∃ s, m.Poised G s := by
  obtain ⟨s, hs⟩ := Option.ne_none_iff_exists'.mp fun hc => hn (h.anchored.anchor.entered hc)
  exact ⟨s, h.anchored.wf, hs, h.grounded⟩

theorem Residing.withStatus {m : Machine σ π γ ω} (h : m.Residing G) (hn : m.next ≠ none)
    (st : Status) (sp : PrivateStatus) (b : Bool) :
    Residing G { m with smStatus := st, smpStatus := sp, mstep := b } :=
  ⟨h.anchored.withStatus st sp b, .of_next hn, h.grounded⟩

theorem Residing.withPrivate {m : Machine σ π γ ω} (h : m.Residing G) (sp : PrivateStatus)
    (b : Bool) : Residing G { m with smpStatus := sp, mstep := b } :=
  ⟨h.anchored.withStatus m.smStatus sp b, h.occupied, h.grounded⟩

theorem Residing.withVacant {m : Machine σ π γ ω} (h : m.Residing G) {st : Status}
    (hst : st.vacant = true) : Residing G { m with smStatus := st } :=
  ⟨h.anchored.withStatus st m.smpStatus m.mstep, fun _ => hst, h.grounded⟩

theorem Residing.runState {m : Machine σ π γ ω} (h : m.Residing G) (hn : m.next ≠ none) :
    (m.runState G W m.current).Residing G := by
  obtain ⟨s, hs⟩ := h.poised hn
  have hw := h.anchored.wf
  refine ⟨⟨hw.runState _, h.anchored.anchor.runState hw _⟩, .of_next ?_, ?_⟩
  · rw [(runState_frame hw _).2.1]
    exact hn
  · rw [hs.current]
    exact h.grounded.runState hw s

theorem Decides.anchored {stepping : Bool} {c : Prop} {m m' : Machine σ π γ ω}
    (hd : Decides G W stepping c m m') (h : m.Anchored G)
    (hl : Throughout Event.staysEntered m'.log) : m'.Anchored G := by
  cases hd with
  | stay he => exact h.searches he.searches
  | halt hs _ => exact h.searches hs
  | advance hs => exact ⟨(h.searches hs).wf.record _, (h.searches hs).anchor⟩
  | change s n T _ hs hT _ hm =>
    have hw := (h.searches hm).wf
    have hs' := hm.current.trans hs
    exact ⟨hw.changeState hs' hT stepping, Anchor.changeState hw hs' hT hl⟩

/-- A search or a request. -/
theorem Residing.decides {stepping : Bool} {c : Prop} {m m' : Machine σ π γ ω}
    (h : m.Residing G) (hd : Decides G W stepping c m m') (hg : m'.Grounded)
    (hl : Throughout Event.staysEntered m'.log) : m'.Residing G :=
  ⟨Decides.anchored hd h.anchored hl, Decides.occupied hd h.anchored.wf h.occupied, hg⟩

theorem Residing.requestNextState {m : Machine σ π γ ω} (h : m.Residing G) (hn : m.next ≠ none)
    {stepping : Bool} (hl : Throughout Event.staysEntered (m.requestNextState G W stepping).log) :
    (m.requestNextState G W stepping).Residing G ∧
      (m.requestNextState G W stepping).next ≠ none := by
  obtain ⟨s, hs⟩ := h.poised hn
  have hd := requestNextState_decides (G := G) (W := W) stepping m
  exact ⟨h.decides hd (hs.requestNextState stepping) hl, Decides.next_ne hd h.anchored.wf hn⟩

theorem Residing.pendingThen {m : Machine σ π γ ω} (h : m.Residing G) {st : Status}
    (hst : m.next ≠ none ∨ st.vacant = true) : (m.pendingThen G W st).Residing G := by
  have hp := h.executePending (W := W) false
  have hn := executePending_next (G := G) (W := W) false m
  simp only [Machine.pendingThen]
  split
  · next m₁ he =>
    rw [he] at hp hn
    rcases hst with hst | hst
    · exact hp.withStatus (hn.trans_ne hst) st m₁.smpStatus m₁.mstep
    · exact hp.withVacant hst
  · next m₁ he => rw [he] at hp; exact hp

theorem enterInitialState_next {m : Machine σ π γ ω} (hw : m.WellFormed G) :
    (m.enterInitialState G W).next = some G.initstate := by
  have hn : (m.planActivate G W).next = some G.initstate :=
    congrArg Core.next (planActivate_plans (G := G) (W := W) hw.loaded).core
  have hp := (executePending_next (G := G) (W := W) false (m.planActivate G W)).trans hn
  simp only [enterInitialState]
  split
  · exact hn
  · split
    · next m₁ he => rw [he] at hp; exact hp
    · next m₁ he =>
      rw [he] at hp
      split <;> exact hp

theorem Residing.activate {m : Machine σ π γ ω} (h : m.Residing G) :
    (m.activate G W).2.Residing G := by
  simp only [Machine.activate]
  split
  · exact h
  · next hst =>
    have hst : m.smStatus = .inactive := by simpa using hst
    have hm : Residing G { m with smpStatus := .nill } := h.withPrivate .nill m.mstep
    have he := checkConditions_evaluates (G := G) (W := W) (some G.initstate) false
      { m with smpStatus := .nill }
    have hg := hm.grounded.checkConditions (G := G) (W := W) (some G.initstate) false
    have hr : Residing G (Machine.checkConditions G W (some G.initstate) false
        { m with smpStatus := .nill }).2 :=
      ⟨hm.anchored.searches he.searches, he.searches.occupied hm.occupied, hg⟩
    have hst' : (Machine.checkConditions G W (some G.initstate) false
        { m with smpStatus := .nill }).2.smStatus = .inactive :=
      (congrArg Core.smStatus he.core).trans hst
    have henter {m₁ : Machine σ π γ ω} (h₁ : m₁.Residing G) (hs₁ : m₁.smStatus = .inactive) :
        (m₁.enterInitialState G W).Residing G := by
      have hn := enterInitialState_next (W := W) h₁.anchored.wf
      exact ⟨h₁.anchored.enterInitialState hs₁, .of_next (by simp [hn]),
        h₁.grounded.enterInitialState h₁.anchored.wf⟩
    have hworld {m₁ : Machine σ π γ ω} (h₁ : m₁.Residing G) (w : ω) :
        Residing G { m₁ with world := w } :=
      ⟨h₁.anchored.searches (Evaluates.world m₁ w).searches, h₁.occupied, h₁.grounded⟩
    split
    · next m₁ hc =>
      rw [hc] at hr hst'
      split
      · exact henter hr hst'
      · split
        · exact henter (hworld hr _) hst'
        · exact hworld hr _
    · next m₁ _ hc => rw [hc] at hr; exact hr

theorem Residing.deactivate {m : Machine σ π γ ω} (h : m.Residing G) :
    (m.deactivate G W).2.Residing G := by
  refine ⟨h.anchored.deactivate, ?_, h.grounded.deactivate h.anchored.wf⟩
  simp only [Machine.deactivate]
  split
  · exact h.occupied
  · split
    · exact fun _ => rfl
    · exact fun _ => rfl

theorem Residing.pause {m : Machine σ π γ ω} (h : m.Residing G) : (m.pause W).2.Residing G := by
  refine ⟨h.anchored.pause, ?_, h.grounded.pause⟩
  simp only [Machine.pause]
  split
  · split
    · next p _ =>
      have hc := (pauseProgram_executed (W := W) p m).core
      intro hn
      exact (congrArg Status.vacant (congrArg Core.smStatus hc)).trans
        (h.occupied ((congrArg Core.next hc).symm.trans hn))
    · exact h.occupied
  · exact h.occupied

/-! ### Executions -/

theorem Grounded.requestFinalState {m : Machine σ π γ ω} (h : m.Grounded)
    (hw : m.WellFormed G) : (m.requestFinalState G W).2.Grounded := by
  simp only [Machine.requestFinalState]
  split
  · exact h
  · exact h.requestStateChange _ hw

theorem Grounded.requestInitialState {m : Machine σ π γ ω} (h : m.Grounded)
    (hw : m.WellFormed G) : (m.requestInitialState G W).2.Grounded := by
  simp only [Machine.requestInitialState]
  split
  · exact h.requestStateChange _ hw
  · exact h

theorem Residing.executeStop {m : Machine σ π γ ω} (h : m.Residing G)
    (hl : Throughout Event.staysEntered (m.executeStop G W).log) :
    (m.executeStop G W).Residing G := by
  have hp := h.executePending (W := W) false
  have hd := requestFinalState_decides (G := G) (W := W) (m.executePending G W false).2
  have hg := hp.grounded.requestFinalState (W := W) hp.anchored.wf
  have hw := hp.anchored.wf
  simp only [Machine.executeStop] at hl ⊢
  split
  · next m₁ he =>
    rw [he] at hl hd hg
    have hn := requestFinalState_next hw he hl
    exact (hp.decides hd hg hl).withStatus hn _ _ _
  · next m₁ he =>
    rw [he] at hl hd hg
    exact hp.decides hd hg hl

theorem Residing.executeReset {m : Machine σ π γ ω} (h : m.Residing G) (hn : m.next ≠ none)
    (hl : Throughout Event.staysEntered (m.executeReset G W).log) :
    (m.executeReset G W).Residing G := by
  have hp := h.executePending (W := W) false
  have hpn := (executePending_next (G := G) (W := W) false m).trans_ne hn
  simp only [Machine.executeReset] at hl ⊢
  split
  · next m₁ he =>
    rw [he] at hp hpn hl
    have hd := requestInitialState_decides (G := G) (W := W) m₁
    have hg := hp.grounded.requestInitialState (W := W) hp.anchored.wf
    exact (hp.decides hd hg hl).withStatus (Decides.next_ne hd hp.anchored.wf hpn) _ _ _
  · next m₁ he =>
    rw [he] at hp
    exact hp.withPrivate .nill m₁.mstep

theorem Residing.executeStatus {m : Machine σ π γ ω} (h : m.Residing G)
    (hl : Throughout Event.staysEntered (m.executeStatus G W).log) :
    (m.executeStatus G W).Residing G := by
  have hp := h.executePending (W := W) false
  have hpn := executePending_next (G := G) (W := W) false m
  simp only [Machine.executeStatus] at hl ⊢
  cases hst : m.smStatus with
  | inactive | error | unloaded => simpa only [hst] using h
  | requesting =>
    have hn := h.occupied.next_ne (by rw [hst]; rfl)
    simp only [hst] at hl ⊢
    split
    · next m₁ he =>
      rw [he] at hp hpn hl
      obtain ⟨hr, hrn⟩ := hp.requestNextState (hpn.trans_ne hn) hl
      exact hr.withStatus hrn _ _ _
    · next m₁ he => rw [he] at hp; exact hp
  | active => simpa only [hst] using hp
  | running =>
    have hn := h.occupied.next_ne (by rw [hst]; rfl)
    simp only [hst] at hl ⊢
    split
    · next m₁ he =>
      rw [he] at hp hpn hl
      exact (hp.requestNextState (hpn.trans_ne hn) hl).1
    · next m₁ he => rw [he] at hp; exact hp
  | paused =>
    have hn := h.occupied.next_ne (by rw [hst]; rfl)
    have hp := h.executePending (W := W) true
    have hpn := executePending_next (G := G) (W := W) true m
    simp only [hst] at hl ⊢
    by_cases hm : m.mstep = true
    · simp only [hm, if_true] at hl ⊢
      refine Residing.withPrivate ?_ _ false
      split
      · next m₁ he =>
        rw [he] at hp hpn hl
        exact (hp.requestNextState (hpn.trans_ne hn) hl).1
      · next m₁ he => rw [he] at hp; exact hp
    · simpa only [if_neg hm] using h
  | activating =>
    have hn := h.occupied.next_ne (by rw [hst]; rfl)
    simp only [hst] at hl ⊢
    split
    · exact hp
    · exact hp.withStatus (hpn.trans_ne hn) _ _ _
  | stopping =>
    have hn := h.occupied.next_ne (by rw [hst]; rfl)
    simpa only [hst] using h.pendingThen (.inl hn)
  | deactivating => simpa only [hst] using h.pendingThen (.inr rfl)
  | resetting =>
    have hn := h.occupied.next_ne (by rw [hst]; rfl)
    simpa only [hst] using h.pendingThen (.inl hn)
  | stopped =>
    have hn := h.occupied.next_ne (by rw [hst]; rfl)
    simp only [hst] at hl ⊢
    split
    · exact hp
    · exact hp.withStatus (hpn.trans_ne hn) _ _ _

theorem Residing.execute {m : Machine σ π γ ω} (h : m.Residing G)
    (hop : m.keepsLeaving (.execute : Operation σ))
    (hl : Throughout Event.staysEntered (m.execute G W).log) : (m.execute G W).Residing G := by
  simp only [Machine.execute] at hl ⊢
  by_cases hin : m.smStatus = .inactive ∨ m.smStatus = .unloaded
  · simp only [if_pos hin]
    exact h.withPrivate .nill m.mstep
  · have hn := hop (fun he => hin (.inl he)) fun he => hin (.inr he)
    simp only [if_neg hin] at hl ⊢
    cases hsp : m.smpStatus with
    | nill =>
      simp only [hsp] at hl ⊢
      exact h.executeStatus hl
    | gostop =>
      simp only [hsp] at hl ⊢
      exact h.executeStop hl
    | goreset =>
      simp only [hsp] at hl ⊢
      exact h.executeReset (hn (.inr hsp)) hl
    | pausing => exact h.withStatus (hn (.inl hsp)) _ _ _

theorem Residing.call {m : Machine σ π γ ω} (h : m.Residing G) {op : Operation σ}
    (hop : m.keepsLeaving op) (hl : Throughout Event.staysEntered (m.call G W op).log) :
    (m.call G W op).Residing G := by
  cases op with
  | activate => exact h.activate
  | deactivate => exact h.deactivate
  | automatic =>
    simp only [Machine.call, automatic]
    split
    · next hst =>
      have hn := hop hst.1 hst.2.1 hst.2.2
      have hs := h.withStatus hn .running m.smpStatus m.mstep
      exact hs.runState hn
    · exact h
  | reactive =>
    simp only [Machine.call, reactive]
    split
    · next hst => exact h.withStatus (hop hst.1 hst.2.1 hst.2.2) _ _ _
    · exact h
  | stop =>
    simp only [Machine.call, stop]
    split
    · exact h.withPrivate .gostop m.mstep
    · exact h
  | pause => exact h.pause
  | step =>
    simp only [Machine.call, step]
    split
    · exact h.withPrivate m.smpStatus true
    · split
      · next hst => exact h.withStatus (h.occupied.next_ne (by rw [hst]; rfl)) _ _ _
      · exact h
  | reset =>
    simp only [Machine.call, reset]
    split
    · exact h.withPrivate .goreset m.mstep
    · exact h
  | requestState name =>
    have hg : (m.requestState G W name).2.Grounded := by
      simp only [requestState]
      split
      · exact h.grounded.requestStateChange _ h.anchored.wf
      · exact h.grounded
    exact h.decides (requestState_decides name m) hg hl
  | event source i =>
    simp only [Machine.call] at hl ⊢
    split
    · next e he =>
      have he := List.mem_of_getElem? he
      rw [‹(G.eventMap source)[i]? = some e›] at hl
      exact h.decides (eventTransition_decides source he m)
        (h.grounded.eventTransition source he h.anchored.wf) hl
    · exact h
  | execute => exact h.execute hop hl

theorem loading_residing (unloadOnStop : π → Bool) (w : ω) :
    (loading unloadOnStop w : Machine σ π γ ω).Residing G :=
  ⟨loading_anchored unloadOnStop w, fun _ => rfl, fun _ he => nomatch he⟩

/-- Every run of allowed calls keeps to machines that have a state when they need one. -/
theorem Residing.runOps {m : Machine σ π γ ω} (h : m.Residing G) {ops : List (Operation σ)}
    (hops : m.Calls G W keepsLeaving ops)
    (hlog : Throughout Event.staysEntered (m.runOps G W ops).log) :
    (m.runOps G W ops).Residing G := by
  refine Library.Run.run_invariant
    (I := fun m : Machine σ π γ ω => Throughout Event.staysEntered m.log → m.Residing G)
    ?_ (fun _ => h) hops hlog
  intro m op hm hop hl
  have hg : m.log <:+ (m.call G W op).log :=
    (growth_callRule (fun _ _ => True) m.log).call List.suffix_rfl trivial
  exact (hm (hl.of_suffix hg)).call hop hl

/-- In every run in which nothing but `stop` interferes with a state that is left for good, and
it takes no transition to itself then, a status that uses the current state comes with one, and
no function is applied to a null state. -/
theorem current_of_occupied {unloadOnStop : π → Bool} {w : ω} {ops : List (Operation σ)}
    (hops : (loading unloadOnStop w : Machine σ π γ ω).Calls G W keepsLeaving ops)
    (hlog : Throughout Event.staysEntered
      ((loading unloadOnStop w : Machine σ π γ ω).runOps G W ops).log) :
    let m := (loading unloadOnStop w : Machine σ π γ ω).runOps G W ops
    (m.smStatus.occupied = true → m.current ≠ none) ∧ ∀ e ∈ m.log, e.onNull = false := by
  intro m
  have hm : m.Residing G := (loading_residing unloadOnStop w).runOps hops hlog
  refine ⟨fun hst hc => ?_, hm.grounded⟩
  have hv := hm.occupied (hm.anchored.anchor.entered hc)
  revert hst hv
  cases m.smStatus <;> decide

/-! A state `A` with an exit program that takes one execution. -/

def exitGraph : StateGraph Bool Unit Unit where
  states := [false, true]
  getName s := if s then "B" else "A"
  getEntryProgram _ := none
  getRunProgram _ := none
  getHandleProgram _ := none
  getExitProgram s := if s then none else some ()
  stateMap _ := []
  globalMap := []
  precondMap _ := []
  eventMap _ := []
  initstate := false
  finistate := true
  role _ := .exit false
  entry_role := by simp
  run_role := by simp
  handle_role := by simp
  exit_role := by decide
  local_role := by simp
  global_role := by simp
  event_role := by simp
  local_sorted := by simp
  global_sorted := by simp

/-- The program waits as long as the world counts. -/
def countedPrograms : Surroundings Unit Unit ℕ where
  evaluate _ w := (false, w)
  resetCondition _ w := w
  resetProgram _ w := w
  executeUntil _ w := (if w = 0 then .exited else .waiting, w - 1)
  executeStep _ w := (if w = 0 then .exited else .waiting, w - 1)
  initCommand := none

theorem current_of_occupied_stop :
    let m := (loading (fun _ => true) 1 : Machine Bool Unit Unit ℕ).runOps exitGraph
      countedPrograms [.activate, .automatic, .execute, .deactivate, .stop, .execute, .activate]
    (m.smStatus.occupied = true → m.current ≠ none) ∧ ∀ e ∈ m.log, e.onNull = false :=
  current_of_occupied (by decide) (by decide)

/-- `automatic` during the exit program: the machine goes on running without a state. -/
theorem current_of_occupied_automatic :
    let m := (loading (fun _ => true) 1 : Machine Bool Unit Unit ℕ).runOps exitGraph
      countedPrograms [.activate, .automatic, .execute, .deactivate, .automatic, .execute]
    m.smStatus = .running ∧ m.current = none ∧ .requestNextState none ∈ m.log := by
  decide

end Machine
end OrocosRtt.StateMachine
