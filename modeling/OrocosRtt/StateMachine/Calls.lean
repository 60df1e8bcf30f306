import OrocosRtt.StateMachine.Rules

/-! The rule for invariants over the calls of a state machine: what has to be shown of the
pieces the operations are put together from. -/
set_option linter.unusedSectionVars false

namespace OrocosRtt.StateMachine.Machine

open Library.Log

variable {σ π γ ω : Type} [DecidableEq σ] [DecidableEq π]
variable {G : StateGraph σ π γ} {W : Surroundings π γ ω}

/-- The moves of the status that come with neither an activation, a deactivation nor an
error. -/
def StatusMove (m : Machine σ π γ ω) (st : Status) (sp : PrivateStatus) : Prop :=
  (st = m.smStatus ∨
      st ≠ .inactive ∧ st ≠ .deactivating ∧ st ≠ .error ∧ st ≠ .unloaded) ∧
    (st = .paused → m.smStatus = .paused ∨ m.smpStatus = .pausing) ∧
    (sp = .pausing → m.smpStatus = .pausing)

variable (G W) in
/-- A property that the calls allowed by `ok` keep, by the pieces of the operations. -/
structure CallRule (ok : Machine σ π γ ω → Operation σ → Prop)
    (I : Machine σ π γ ω → Prop) : Prop where
  pending : ∀ m stepping, I m → m.smStatus ≠ .inactive →
    (stepping = true → m.smStatus = .paused) → I (m.executePending G W stepping).2
  searches : ∀ m m', I m → Searches G m m' → (m'.reqstep = m.reqstep ∨ Halted G m') → I m'
  advances : ∀ m m', I m → Searches G m m' → I (m'.record .advance)
  changes : ∀ m m' s n T, I m → m.inTransition = false → m.current = some s →
    (∀ p, T = some p → G.role p = .transition) → Selected G s n m m' → Searches G m m' →
    I (m'.changeState G W n T false)
  steps : ∀ m m' s n T, I m → m.smStatus = .paused → (∀ k, m.slot k = none) →
    m.next = some s → m.current = some s → (∀ p, T = some p → G.role p = .transition) →
    Selected G s n m m' → Searches G m m' → I (m'.changeState G W n T true)
  status : ∀ m st sp ms, I m → m.StatusMove st sp →
    I { m with smStatus := st, smpStatus := sp, mstep := ms }
  automatics : ∀ m, I m → ok m .automatic → m.smStatus ≠ .inactive → m.smStatus ≠ .unloaded →
    m.smStatus ≠ .error → I ({ m with smStatus := .running }.runState G W m.current)
  pauses : ∀ m, I m → ok m .pause → m.smStatus ≠ .inactive → I (m.pause W).2
  activates : ∀ m m' w, I m → (∃ sp, ok { m with smpStatus := sp } .activate) →
    m.smStatus = .inactive → Evaluates G m m' →
    Checked G (some G.initstate) m m' → I ({ m' with world := w }.enterInitialState G W)
  deactivates : ∀ m, I m → ok m .deactivate → m.smStatus ≠ .inactive → I (m.deactivate G W).2
  settles : ∀ m, I m → m.smStatus = .deactivating → I (m.pendingThen G W .inactive)

namespace CallRule

variable {ok : Machine σ π γ ω → Operation σ → Prop} {I : Machine σ π γ ω → Prop}

theorem evaluates (hI : CallRule G W ok I) {m m' : Machine σ π γ ω} (h : I m)
    (he : Evaluates G m m') : I m' :=
  hI.searches m m' h he.searches (.inl he.reqstep)

/-- Requests, searches and signals. -/
theorem decides (hI : CallRule G W ok I) {c : Prop} {m m' : Machine σ π γ ω} (h : I m)
    (hc : c → m.inTransition = false) (hd : Decides G W false c m m') : I m' := by
  cases hd with
  | stay he => exact hI.evaluates h he
  | halt hs hh => exact hI.searches m m' h hs (.inr hh)
  | advance hs => exact hI.advances m _ h hs
  | change s n T hok hs hT hn he => exact hI.changes m _ s n T h (hc hok) hs hT hn he

theorem inTransition_of_interruptible {m : Machine σ π γ ω} (h : m.interruptible = true) :
    m.inTransition = false := by
  simp only [interruptible, decide_eq_true_eq] at h
  simp only [inTransition, decide_eq_false_iff_not]
  rintro ⟨h₁, h₂, -⟩
  exact h.elim h₁ h₂

theorem requestNextState (hI : CallRule G W ok I) {m : Machine σ π γ ω} (h : I m) :
    I (m.requestNextState G W false) :=
  hI.decides h (fun hc => inTransition_of_interruptible hc.1) (requestNextState_decides false m)

/-- A step of the search comes after everything pending was done. -/
theorem requestNextState_stepping (hI : CallRule G W ok I) {m : Machine σ π γ ω} (h : I m)
    (hst : m.smStatus = .paused)
    (hk : m.current = none ∨ m.current = m.next ∧ ∀ k, m.slot k = none) :
    I (m.requestNextState G W true) := by
  have hd := requestNextState_decides (G := G) (W := W) true m
  generalize m.requestNextState G W true = r at hd ⊢
  cases hd with
  | stay he => exact hI.evaluates h he
  | halt hs hh => exact hI.searches m _ h hs (.inr hh)
  | advance hs => exact hI.advances m _ h hs
  | change s n T hok hs hT hn he =>
    have hk := hk.resolve_left (by simp [hs])
    exact hI.steps m _ s n T h hst hk.2 (hk.1.symm.trans hs) hs hT hn he

theorem withStatus (hI : CallRule G W ok I) {m : Machine σ π γ ω} (h : I m) {st : Status}
    (hst : st ≠ .inactive ∧ st ≠ .deactivating ∧ st ≠ .error ∧ st ≠ .unloaded ∧
      st ≠ .paused) :
    I { m with smStatus := st } :=
  hI.status m st m.smpStatus m.mstep h
    ⟨.inr ⟨hst.1, hst.2.1, hst.2.2.1, hst.2.2.2.1⟩, fun h => absurd h hst.2.2.2.2, id⟩

theorem withPrivate (hI : CallRule G W ok I) {m : Machine σ π γ ω} (h : I m)
    {sp : PrivateStatus} (hsp : sp ≠ .pausing) : I { m with smpStatus := sp } :=
  hI.status m m.smStatus sp m.mstep h ⟨.inl rfl, .inl, fun h => absurd h hsp⟩

theorem withBoth (hI : CallRule G W ok I) {m : Machine σ π γ ω} (h : I m) {st : Status}
    (hst : st ≠ .inactive ∧ st ≠ .deactivating ∧ st ≠ .error ∧ st ≠ .unloaded ∧
      st ≠ .paused) :
    I { m with smStatus := st, smpStatus := .nill } :=
  hI.withPrivate (hI.withStatus h hst) (by simp)

theorem executePending (hI : CallRule G W ok I) {m : Machine σ π γ ω} (h : I m)
    (hst : m.smStatus ≠ .inactive) : I (m.executePending G W false).2 :=
  hI.pending m false h hst (by simp)

theorem pendingThen (hI : CallRule G W ok I) {m : Machine σ π γ ω} (h : I m)
    (hm : m.smStatus ≠ .inactive) {st : Status} (hst : st ≠ .inactive ∧ st ≠ .deactivating ∧ st ≠ .error ∧ st ≠ .unloaded ∧
      st ≠ .paused) :
    I (m.pendingThen G W st) := by
  have hp := hI.executePending h hm
  simp only [Machine.pendingThen]
  split
  · next m₁ he => rw [he] at hp; exact hI.withStatus hp hst
  · next m₁ he => rw [he] at hp; exact hp

theorem executeStatus (hI : CallRule G W ok I) {m : Machine σ π γ ω} (h : I m)
    (hm : m.smStatus ≠ .inactive) : I (m.executeStatus G W) := by
  have hp := hI.executePending h hm
  simp only [Machine.executeStatus]
  split
  · exact h
  · exact h
  · exact h
  · -- requesting
    split
    · next m₁ he =>
      rw [he] at hp
      exact hI.withStatus (hI.requestNextState hp) (by decide)
    · next m₁ he => rw [he] at hp; exact hp
  · exact hp
  · -- running
    split
    · next m₁ he => rw [he] at hp; exact hI.requestNextState hp
    · next m₁ he => rw [he] at hp; exact hp
  · next hst =>
    -- paused
    split
    · have hp := hI.pending m true h hm (fun _ => hst)
      have hno (m : Machine σ π γ ω) (h : I m) : I { m with mstep := false } :=
        hI.status m m.smStatus m.smpStatus false h ⟨.inl rfl, .inl, id⟩
      refine hno _ ?_
      split
      · next m₁ he =>
        rw [he] at hp
        exact hI.requestNextState_stepping hp ((executePending_true_smStatus he).trans hst)
          (executePending_stepping he)
      · next m₁ he => rw [he] at hp; exact hp
    · exact h
  · -- activating
    split
    · exact hp
    · exact hI.withStatus hp (by decide)
  · exact hI.pendingThen h hm (by decide)
  · next hst => exact hI.settles m h hst
  · exact hI.pendingThen h hm (by decide)
  · -- stopped
    split
    · exact hp
    · exact hI.withStatus hp (by decide)

theorem execute (hI : CallRule G W ok I) {m : Machine σ π γ ω} (h : I m) :
    I (m.execute G W) := by
  simp only [Machine.execute]
  split
  · exact hI.withPrivate h (by decide)
  · next hno =>
    have hm : m.smStatus ≠ .inactive := fun he => hno (.inl he)
    have hp := hI.executePending h hm
    split
    · next hsp =>
      exact hI.status m .paused .nill m.mstep h
        ⟨.inr (by decide), fun _ => .inr hsp, by simp⟩
    · -- gostop
      simp only [executeStop]
      have hd := requestFinalState_decides (G := G) (W := W) (m.executePending G W false).2
      have hr := hI.decides hp inTransition_of_interruptible hd
      split
      · next m₁ he =>
        rw [he] at hr
        refine hI.withBoth hr ?_
        split <;> decide
      · next m₁ he => rw [he] at hr; exact hr
    · -- goreset
      simp only [executeReset]
      split
      · next m₁ he =>
        rw [he] at hp
        have hd := requestInitialState_decides (G := G) (W := W) m₁
        refine hI.withBoth (hI.decides hp inTransition_of_interruptible hd) ?_
        split <;> decide
      · next m₁ he => rw [he] at hp; exact hI.withPrivate hp (by decide)
    · exact hI.executeStatus h hm

theorem activate (hI : CallRule G W ok I) {m : Machine σ π γ ω} (h : I m)
    (hop : ok m .activate) : I (m.activate G W).2 := by
  simp only [Machine.activate]
  split
  · exact h
  · next hst =>
    have hn : I { m with smpStatus := .nill } := hI.withPrivate h (by decide)
    have hst : m.smStatus = .inactive := by simpa using hst
    have he := checkConditions_evaluates (G := G) (W := W) (some G.initstate) false
      { m with smpStatus := .nill }
    split
    · next m₁ hc =>
      rw [hc] at he
      split
      · exact hI.activates _ m₁ m₁.world hn ⟨m.smpStatus, hop⟩ hst he (checkConditions_checked hc)
      · next initc _ =>
        split
        · exact hI.activates _ m₁ _ hn ⟨m.smpStatus, hop⟩ hst he (checkConditions_checked hc)
        · exact hI.evaluates hn (he.trans (.world m₁ _))
    · next m₁ _ hc => rw [hc] at he; exact hI.evaluates hn he

/-- Every operation keeps the invariant. -/
theorem call (hI : CallRule G W ok I) {m : Machine σ π γ ω} (h : I m) {op : Operation σ}
    (hop : ok m op) : I (m.call G W op) := by
  cases op with
  | activate => exact hI.activate h hop
  | deactivate =>
    by_cases hst : m.smStatus = .inactive
    · simpa [Machine.call, Machine.deactivate, hst] using h
    · exact hI.deactivates m h hop hst
  | automatic =>
    simp only [Machine.call, automatic]
    split
    · next hst => exact hI.automatics m h hop hst.1 hst.2.1 hst.2.2
    · exact h
  | reactive =>
    simp only [Machine.call, reactive]
    split
    · exact hI.withStatus h (by decide)
    · exact h
  | stop =>
    simp only [Machine.call, stop]
    split
    · exact hI.withPrivate h (by decide)
    · exact h
  | pause =>
    by_cases hst : m.smStatus = .inactive
    · simpa [Machine.call, Machine.pause, hst] using h
    · exact hI.pauses m h hop hst
  | step =>
    simp only [Machine.call, step]
    split
    · exact hI.status m m.smStatus m.smpStatus true h ⟨.inl rfl, .inl, id⟩
    · split
      · exact hI.withStatus h (by decide)
      · exact h
  | reset =>
    simp only [Machine.call, reset]
    split
    · exact hI.withPrivate h (by decide)
    · exact h
  | requestState name =>
    exact hI.decides h inTransition_of_interruptible (requestState_decides name m)
  | event source i =>
    simp only [Machine.call]
    split
    · next e he =>
      exact hI.decides h id (eventTransition_decides source (List.mem_of_getElem? he) m)
    · exact h
  | execute => exact hI.execute h

/-- An invariant holds after every run of allowed calls. -/
theorem runOps (hI : CallRule G W ok I) {m : Machine σ π γ ω} {ops : List (Operation σ)}
    (h : I m) (hops : m.Calls G W ok ops) : I (m.runOps G W ops) :=
  Library.Run.run_invariant (I := I) (fun _ _ h hop => hI.call h hop) h hops

end CallRule

end OrocosRtt.StateMachine.Machine
