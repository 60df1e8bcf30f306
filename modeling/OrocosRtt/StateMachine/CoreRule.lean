import OrocosRtt.StateMachine.Pointers

/-! The rule for invariants that are about the core and the log of a state machine: what has
to be shown of each assignment the operations are made of. -/
set_option linter.unusedSectionVars false

namespace OrocosRtt.StateMachine

open Library.Log

variable {σ π γ ω : Type} [DecidableEq σ] [DecidableEq π]
variable {G : StateGraph σ π γ} {W : Surroundings π γ ω}

/-- `ch` is the record of a call of `changeState` with `n` and `T`, made with the core `c`. -/
structure Change.Of (c : Core σ π) (n : σ) (T : Option π) (ch : Change σ π) : Prop where
  source : ch.source = c.current
  pending : ch.pending = c.next
  target : ch.target = n
  transprog : ch.transprog = T
  interrupted : ch.interrupted = c.currentProg
  status : ch.status = c.smStatus
  cursor : ch.cursor = c.reqstep

variable (G) in
/-- Why a state may be entered: it is the final one, it was granted without a transition, or
its preconditions were found to hold. -/
def Granted (n : σ) (l : List (Event σ π γ)) : Prop :=
  n = G.finistate ∨ Event.fallback n ∈ l ∨
    (Throughout Event.resumesOwn l → Verified G (some n) l)

namespace Machine

variable (G) in
/-- A property of the core and the log that every assignment of the operations keeps, as long
as only entries allowed by `okLog` are logged, and an inactive machine is `idle`. -/
structure CoreRule (ok : Machine σ π γ ω → Operation σ → Prop)
    (okLog : Event σ π γ → List (Event σ π γ) → Prop) (idle : Core σ π → Prop)
    (J : Core σ π → List (Event σ π γ) → Prop) : Prop where
  evaluates : ∀ {c l e}, J c l → e.isEvaluation = true → J c (e :: l)
  works : ∀ {c l e}, J c l → e.isWork = true → J c (e :: l)
  advances : ∀ {c l} it, J c l → J { c with reqstep := it } (.advance :: l)
  progs : ∀ {c l} o, J c l → J { c with currentProg := o } l
  fails : ∀ {c l}, J c l → J { c with smStatus := .error, smpStatus := .nill } l
  clears : ∀ {c l} k, J c l → J (c.clear k) l
  leaves : ∀ {c l}, J c l → c.currentExit = none → c.next = none →
    J { c with current := none } (.current none :: l)
  becomes : ∀ {c l n}, J c l → c.currentExit = none → c.next = some n →
    J (c.become G n) (.current (some n) :: l)
  runs : ∀ {c l} o, J c l → J { c with currentRun := o } l
  handles : ∀ {c l} s, J c l → c.current = some s → c.currentHandle = none →
    J { c with currentHandle := G.getHandleProgram s } l
  selfs : ∀ {c l s T ch} it, J c l → c.current = some s →
    ch.Of { c with reqstep := it } s T → okLog (.changeState ch) l →
    J { c with
      reqstep := if T = none then it else some (begin s)
      currentTrans := if T = none then c.currentTrans else T } (.changeState ch :: l)
  changes : ∀ {c l s n T ch} skip it, J c l → (skip = true → c.currentExit ≠ none) →
    c.current = some s → s ≠ n → ch.Of { c with reqstep := it } n T → Granted G n l →
    Throughout okLog (.changeState ch :: l) →
    J (Core.change G skip s n T { c with reqstep := it }) (.changeState ch :: l)
  statuses : ∀ {c l} st sp ms, J c l →
    (st = c.smStatus ∨ st ≠ .inactive ∧ st ≠ .deactivating ∧ st ≠ .error ∧ st ≠ .unloaded) →
    J { c with smStatus := st, smpStatus := sp, mstep := ms } l
  activates : ∀ {c l}, J c l → c.smStatus = .inactive → idle c →
    (Throughout Event.resumesOwn l → Verified G (some G.initstate) l) → Throughout okLog l →
    J (c.activate G) (.activate :: l)
  vacates : ∀ {m : Machine σ π γ ω} {s T}, J m.core m.log → ok m .deactivate →
    m.next ≠ none → m.current = some s → (T = none ∨ T = m.currentTrans) →
    J (Core.vacate (Core.leave G s { m.core with
      connected := setHandles G none false m.connected
      currentTrans := T })) (.deactivate :: m.log)
  stalls : ∀ {m : Machine σ π γ ω}, J m.core m.log → ok m .deactivate →
    (m.next = none ∨ m.current = none) →
    J (Core.vacate { m.core with
      connected := setHandles G none false m.connected
      currentExit := none
      currentTrans := none }) (.deactivate :: m.log)
  deactivates : ∀ {c l}, J c l → c.next = none → J { c with smStatus := .deactivating } l
  settles : ∀ {c l}, J c l → (c.smStatus = .deactivating ∨ c.next = none) →
    (c.current = none ∨ c.currentExit = none ∧ c.current = c.next) →
    J { c with smStatus := .inactive } l

namespace CoreRule

variable {ok : Machine σ π γ ω → Operation σ → Prop}
variable {okLog : Event σ π γ → List (Event σ π γ) → Prop} {idle : Core σ π → Prop}
variable {J : Core σ π → List (Event σ π γ) → Prop}

/-- What the rule is for: the invariant with the ones that always hold. -/
structure Keeps (G : StateGraph σ π γ) (J : Core σ π → List (Event σ π γ) → Prop)
    (m : Machine σ π γ ω) : Prop where
  wf : m.WellFormed G
  consistent : m.Consistent G
  core : J m.core m.log

theorem work_append (hJ : CoreRule G ok okLog idle J) {c : Core σ π} {l l' : List (Event σ π γ)}
    (h : J c l) (hl : ∀ e ∈ l', e.isWork = true) : J c (l' ++ l) := by
  induction l' with
  | nil => exact h
  | cons e l' ih =>
    exact hJ.works (ih fun e he => hl e (List.mem_cons_of_mem _ he)) (hl e List.mem_cons_self)

theorem evaluation_append (hJ : CoreRule G ok okLog idle J) {c : Core σ π}
    {l l' : List (Event σ π γ)} (h : J c l) (hl : ∀ e ∈ l', e.isEvaluation = true) :
    J c (l' ++ l) := by
  induction l' with
  | nil => exact h
  | cons e l' ih =>
    exact hJ.evaluates (ih fun e he => hl e (List.mem_cons_of_mem _ he))
      (hl e List.mem_cons_self)

/-- Work that is logged leaves the check of preconditions alone. -/
theorem evidence_work {l : List (Event σ π γ)} (h : ∀ e ∈ l, e.isWork = true)
    (r : List (Event σ π γ)) : evidence (l ++ r) = evidence r := by
  induction l with
  | nil => rfl
  | cons e l ih =>
    have he := h e List.mem_cons_self
    rw [List.cons_append, ← ih fun e he => h e (List.mem_cons_of_mem _ he)]
    cases e <;> first | rfl | simp [Event.isWork] at he

theorem of_work {m m' : Machine σ π γ ω} {l : List (Event σ π γ)} (hw : m'.WellFormed G)
    (hc : m.Consistent G) (hl : m'.log = l ++ m.log) (hwork : ∀ e ∈ l, e.isWork = true)
    (hp : m'.precIt = m.precIt) (hcp : m'.checkingPrecond = m.checkingPrecond)
    (hJ : J m'.core m'.log) : Keeps G J m' := by
  refine ⟨hw, hc.congr ?_ hp hcp, hJ⟩
  rw [hl, evidence_work hwork]

theorem Keeps.advanced (hJ : CoreRule G ok okLog idle J) {p : π} {m m' : Machine σ π γ ω}
    (h : Keeps G J m) (ha : Advanced p m m') : Keeps G J m' := by
  have hl : ∃ l : List (Event σ π γ), m'.log = l ++ m.log ∧ ∀ e ∈ l, e.isWork = true := by
    rcases ha.log with hl | ⟨o, hl⟩
    · exact ⟨[], hl, by simp⟩
    · exact ⟨[_], hl, by simp⟩
  obtain ⟨l, hl, hwork⟩ := hl
  refine of_work (ha.wellFormed h.wf) h.consistent hl hwork ha.precIt ha.checkingPrecond ?_
  rw [ha.core, hl]
  exact hJ.work_append (hJ.progs _ h.core) hwork

theorem pendingRule (hJ : CoreRule G ok okLog idle J) (stepping : Bool) :
    PendingRule G W stepping (fun m => Keeps G J m) where
  waits m _ p h _ _ _ _ _ := h.advanced hJ (advanceProgram_advanced stepping p m)
  fails m k p h hst hk ht he := by
    have hw := (wellFormed_pendingRule (W := W) stepping).fails m k p h.wf hst hk ht he
    have ha := h.advanced hJ (advanceProgram_advanced (W := W) stepping p m)
    exact of_work (l := []) hw ha.consistent rfl (by simp) rfl rfl (hJ.fails ha.core)
  done m k p h hst hk ht he := by
    have hw := (wellFormed_pendingRule (W := W) stepping).done m k p h.wf hst hk ht he
    have ha := h.advanced hJ (advanceProgram_advanced (W := W) stepping p m)
    refine of_work (l := []) hw ha.consistent (clear_log _ k) (by simp) ?_ ?_ ?_
    · cases k <;> rfl
    · cases k <;> rfl
    · have := hJ.clears k (hJ.progs none ha.core)
      rw [clear_log]
      cases k <;> exact this
  after hs m o h hst ho := by
    have hw := (wellFormed_pendingRule (W := W) stepping).after hs m o h.wf hst ho
    exact of_work (l := []) hw h.consistent rfl (by simp) rfl rfl (hJ.progs o h.core)
  leaves m h hst hx hn hc := by
    have hw := (wellFormed_pendingRule (W := W) stepping).leaves m h.wf hst hx hn hc
    exact of_work (l := [.current none]) hw h.consistent rfl (by simp) rfl rfl
      (hJ.leaves h.core hx hn)
  becomes m n h hst hx hn hc := by
    have hw := (wellFormed_pendingRule (W := W) stepping).becomes m n h.wf hst hx hn hc
    exact ⟨hw, h.consistent.congr rfl rfl rfl, hJ.becomes h.core hx hn⟩

theorem Keeps.executePending (hJ : CoreRule G ok okLog idle J) {m : Machine σ π γ ω}
    (h : Keeps G J m) (stepping : Bool) : Keeps G J (m.executePending G W stepping).2 :=
  (hJ.pendingRule stepping).executePending h

theorem Keeps.runState (hJ : CoreRule G ok okLog idle J) {m : Machine σ π γ ω} (h : Keeps G J m)
    (s : Option σ) : Keeps G J (m.runState G W s) := by
  cases s with
  | none =>
    exact of_work (l := [_]) (h.wf.record _) h.consistent rfl (by simp) rfl rfl
      (hJ.works h.core rfl)
  | some s =>
    have hp := runState_plans (G := G) (W := W) s h.wf.loaded
    have hwork : ∀ e ∈ (G.getRunProgram s).toList.map Event.start ++
        [Event.runState (γ := γ) (some s) m.currentProg m.currentRun], e.isWork = true := by
      simp [or_imp, forall_and]
    refine of_work (h.wf.runState (some s)) h.consistent hp.log hwork hp.precIt
      hp.checkingPrecond ?_
    rw [hp.core, hp.log]
    exact hJ.work_append (hJ.progs _ (hJ.runs _ h.core)) hwork

section Change

variable {c : Core σ π} {it : Option (TransIter σ)} {m : Machine σ π γ ω} {s n : σ}
variable {T : Option π}

theorem planSelf (hJ : CoreRule G ok okLog idle J) (hw : m.WellFormed G) (h : J c m.log)
    (hc : m.core = { c with reqstep := it }) (hs : c.current = some s)
    (hT : ∀ p, T = some p → G.role p = .transition)
    (hl : okLog (.changeState (m.change G s T)) m.log) :
    Keeps G J ((m.record (.changeState (m.change G s T))).planSelf G W T) := by
  have hof : (m.change G s T).Of { c with reqstep := it } s T := hc ▸ ⟨rfl, rfl, rfl, rfl, rfl, rfl, rfl⟩
  have hw₀ := hw.record (.changeState (m.change G s T))
  have hs₀ : (m.record (.changeState (m.change G s T))).current = some s :=
    (congrArg Core.current hc).trans hs
  have hself := hJ.selfs it h hs hof hl
  have hw' := hw₀.planSelf (W := W) hs₀ hT
  cases T with
  | some p =>
    have hp := planSelf_some_plans (G := G) (W := W) (p := p) hw₀.loaded hs₀
    refine of_work hw' (.of_new rfl) hp.log (by simp) hp.precIt hp.checkingPrecond ?_
    rw [hp.core, hp.log, core_record, hc]
    exact hJ.works (hJ.progs _ hself) rfl
  | none =>
    by_cases hh : m.currentHandle = none
    · have hp := planSelf_none_plans (G := G) (W := W) hw₀.loaded hs₀ hh
      have hwork : ∀ e ∈ (G.getHandleProgram s).toList.map Event.start ++
          [Event.handleState (γ := γ) (some s)], e.isWork = true := by
        simp [or_imp, forall_and]
      refine of_work hw' (.of_new rfl) hp.log hwork hp.precIt hp.checkingPrecond ?_
      rw [hp.core, hp.log, core_record, hc]
      have hh' : c.currentHandle = none := (congrArg Core.currentHandle hc).symm.trans hh
      exact hJ.work_append (hJ.progs _ (hJ.handles s hself hs hh')) hwork
    · have he : (m.record (.changeState (m.change G s none))).planSelf G W none =
          m.record (.changeState (m.change G s none)) := if_neg hh
      rw [he]
      refine ⟨hw₀, .of_new rfl, ?_⟩
      rw [core_record, hc]
      exact hself

theorem planChange (hJ : CoreRule G ok okLog idle J) (hw : m.WellFormed G) (h : J c m.log)
    (hc : m.core = { c with reqstep := it }) (hs : c.current = some s) (hne : s ≠ n)
    (hT : ∀ p, T = some p → G.role p = .transition) (hn : Granted G n m.log)
    (hl : Throughout okLog (.changeState (m.change G n T) :: m.log)) :
    Keeps G J ((m.record (.changeState (m.change G n T))).planChange G W n T) := by
  have hof : (m.change G n T).Of { c with reqstep := it } n T := hc ▸ ⟨rfl, rfl, rfl, rfl, rfl, rfl, rfl⟩
  have hw₀ := hw.record (.changeState (m.change G n T))
  have hs₀ : (m.record (.changeState (m.change G n T))).current = some s :=
    (congrArg Core.current hc).trans hs
  have hp := planChange_plans (G := G) (W := W) (n := n) hw₀ hs₀ hT
  have hwork : ∀ e ∈ (G.getEntryProgram n).toList.map Event.start ++
      (leaveLog G s (m.record (.changeState (m.change G n T))) ++ T.toList.map Event.start),
      e.isWork = true := by
    unfold leaveLog
    split <;> simp [or_imp, forall_and]
  refine of_work (hw₀.planChange hs₀ hT) (.of_new rfl) hp.log hwork hp.precIt
    hp.checkingPrecond ?_
  rw [hp.core, hp.log, core_record, hc]
  have hskip : m.exitInError = true → c.currentExit ≠ none := by
    intro he hx
    have hx' : m.currentExit = none := (congrArg Core.currentExit hc).trans hx
    simp [exitInError, hx'] at he
  exact hJ.work_append (hJ.changes _ it h hskip hs hne hof hn hl) hwork

theorem changeState (hJ : CoreRule G ok okLog idle J) (hw : m.WellFormed G) (h : J c m.log)
    (hc : m.core = { c with reqstep := it }) (hs : c.current = some s)
    (hT : ∀ p, T = some p → G.role p = .transition) (hn : n = s ∨ Granted G n m.log)
    {stepping : Bool} (hl : Throughout okLog (m.changeState G W n T stepping).log) :
    Keeps G J (m.changeState G W n T stepping) := by
  have hl₀ := (hl.of_suffix (changeState_log n T stepping m)).of_suffix (planState_log n T m)
  have hp : Keeps G J (m.planState G W n T) := by
    simp only [planState]
    have hs₀ : m.current = some s := (congrArg Core.current hc).trans hs
    split
    · next he =>
      obtain rfl : n = s := Option.some.inj (he.trans hs₀)
      exact hJ.planSelf hw h hc hs hT hl₀.1
    · next hne =>
      have hne : s ≠ n := by
        rintro rfl
        exact hne hs₀.symm
      exact hJ.planChange hw h hc hs hne hT (hn.resolve_left hne.symm) hl₀
  simp only [Machine.changeState]
  apply Keeps.runState hJ
  split
  · exact hp
  · exact hp.executePending hJ stepping

end Change

theorem Keeps.withStatus (hJ : CoreRule G ok okLog idle J) {m : Machine σ π γ ω}
    (h : Keeps G J m) {st : Status} (sp : PrivateStatus) (b : Bool)
    (hst : st = m.smStatus ∨ st ≠ .inactive ∧ st ≠ .deactivating ∧ st ≠ .error ∧
      st ≠ .unloaded) : Keeps G J { m with smStatus := st, smpStatus := sp, mstep := b } :=
  of_work (l := []) (h.wf.withStatus st sp b) h.consistent rfl (by simp) rfl rfl
    (hJ.statuses st sp b h.core hst)

theorem Keeps.searches (hJ : CoreRule G ok okLog idle J) {m m' : Machine σ π γ ω}
    (h : Keeps G J m) (hs : Searches G m m') : J m.core m'.log := by
  obtain ⟨it, he⟩ := hs
  obtain ⟨l, hl, hq⟩ := he.log
  rw [hl]
  exact hJ.evaluation_append h.core hq

theorem Searches.core_eq {m m' : Machine σ π γ ω} (hs : Searches G m m') :
    m'.core = { m.core with reqstep := m'.reqstep } := by
  obtain ⟨it, he⟩ := hs
  have hc := he.core
  have hr : m'.reqstep = it := congrArg Core.reqstep hc
  rw [hc, hr]
  rfl

/-- A change that a search or a request selected. -/
theorem Keeps.selectedChange (hJ : CoreRule G ok okLog idle J) {m m' : Machine σ π γ ω} {s n : σ}
    {T : Option π} (h : Keeps G J m) (hc : m.current = some s)
    (hT : ∀ p, T = some p → G.role p = .transition) (hsel : Selected G s n m m')
    (hs : Searches G m m') {stepping : Bool}
    (hl : Throughout okLog (m'.changeState G W n T stepping).log) :
    Keeps G J (m'.changeState G W n T stepping) := by
  refine hJ.changeState (hs.wellFormed h.wf) (h.searches hJ hs) (Searches.core_eq hs) hc hT ?_ hl
  cases hsel with
  | same h => exact .inl h
  | final h => exact .inr (.inl h)
  | fallback h => exact .inr (.inr (.inl h))
  | checked hck => exact .inr (.inr (.inr (hck h.consistent)))

theorem Keeps.planActivate (hJ : CoreRule G ok okLog idle J) {m : Machine σ π γ ω}
    (h : Keeps G J m) (hst : m.smStatus = .inactive) (hi : idle m.core)
    (hv : Throughout Event.resumesOwn m.log → Verified G (some G.initstate) m.log)
    (hl : Throughout okLog m.log) : Keeps G J (m.planActivate G W) := by
  have hp := planActivate_plans (G := G) (W := W) h.wf.loaded
  have hlog : (m.planActivate G W).log =
      (G.getEntryProgram G.initstate).toList.map .start ++ (m.record .activate).log := by
    rw [hp.log, List.append_assoc]
    rfl
  refine of_work (m := m.record .activate) h.wf.planActivate (.of_new rfl) hlog (by simp)
    hp.precIt hp.checkingPrecond ?_
  rw [hp.core, hlog]
  exact hJ.work_append (hJ.activates h.core hst hi hv hl) (by simp)

theorem Keeps.enterInitialState (hJ : CoreRule G ok okLog idle J) {m : Machine σ π γ ω}
    (h : Keeps G J m) (hst : m.smStatus = .inactive) (hi : idle m.core)
    (hv : Throughout Event.resumesOwn m.log → Verified G (some G.initstate) m.log)
    (hl : Throughout okLog m.log) : Keeps G J (m.enterInitialState G W) := by
  have ha := h.planActivate (W := W) hJ hst hi hv hl
  have hp := ha.executePending (W := W) hJ false
  simp only [Machine.enterInitialState]
  split
  · exact ha
  · split
    · next m₁ he => rw [he] at hp; exact hp.withStatus hJ _ _ (.inr (by decide))
    · next m₁ he =>
      rw [he] at hp
      split
      · exact hp
      · exact hp.withStatus hJ _ _ (.inr (by decide))

theorem Keeps.planDeactivate (hJ : CoreRule G ok okLog idle J) {m : Machine σ π γ ω}
    (h : Keeps G J m) (hok : ok m .deactivate) : Keeps G J (m.planDeactivate G W) := by
  have hw := h.wf.planDeactivate (W := W)
  by_cases hn : m.next = none ∨ m.current = none
  · have hp := planDeactivate_stalled (G := G) (W := W) hn
    refine of_work hw h.consistent hp.log (by simp) hp.precIt hp.checkingPrecond ?_
    rw [hp.core, hp.log]
    exact hJ.stalls h.core hok hn
  · obtain ⟨hn, hc⟩ := not_or.mp hn
    obtain ⟨s, hs⟩ := Option.ne_none_iff_exists'.mp hc
    have hp := planDeactivate_leaving (G := G) (W := W) h.wf.loaded hn hs
    have hT : m.sparing m.currentTrans = none ∨ m.sparing m.currentTrans = m.currentTrans := by
      unfold sparing
      cases m.currentTrans with
      | none => exact .inl rfl
      | some p =>
        simp only [Option.filter_some]
        split
        · exact .inr rfl
        · exact .inl rfl
    have hwork : ∀ e ∈ (G.getExitProgram s).toList.map Event.start ++
        [Event.leaveState (γ := γ) (some s), .deactivate], e.isWork = true := by
      simp [or_imp, forall_and]
    refine of_work hw h.consistent hp.log hwork hp.precIt hp.checkingPrecond ?_
    have hlog : (m.planDeactivate G W).log = (G.getExitProgram s).toList.map .start ++
        [.leaveState (some s)] ++ (.deactivate :: m.log) := by
      rw [hp.log, List.append_assoc, List.append_assoc]
      rfl
    rw [hp.core, hlog]
    exact hJ.work_append (hJ.vacates h.core hok hn hs hT) (by simp [or_imp, forall_and])

theorem planDeactivate_next (m : Machine σ π γ ω) : (m.planDeactivate G W).next = none := rfl

theorem Keeps.settle (hJ : CoreRule G ok okLog idle J) {m m' : Machine σ π γ ω}
    (h : Keeps G J m') (hst : m.smStatus = .deactivating ∨ m.next = none)
    (he : m.executePending G W false = (true, m')) : Keeps G J { m' with smStatus := .inactive } := by
  have hnext : m'.next = m.next := by
    have := executePending_next (G := G) (W := W) false m
    rwa [he] at this
  refine of_work (l := []) (h.wf.withStatus .inactive m'.smpStatus m'.mstep) h.consistent rfl
    (by simp) rfl rfl (hJ.settles h.core ?_ ?_)
  · exact hst.imp (fun hs => (executePending_true_smStatus he).trans hs) fun hn => hnext.trans hn
  · exact (executePending_true he).imp id fun hd => ⟨hd.1, hd.2.1⟩

theorem Keeps.deactivate (hJ : CoreRule G ok okLog idle J) {m : Machine σ π γ ω}
    (h : Keeps G J m) (hok : ok m .deactivate) : Keeps G J (m.deactivate G W).2 := by
  have hn := planDeactivate_next (G := G) (W := W) m
  have hp := (h.planDeactivate (W := W) hJ hok).executePending (W := W) hJ false
  have hn' := (executePending_next (G := G) (W := W) false (m.planDeactivate G W)).trans hn
  simp only [Machine.deactivate]
  split
  · exact h
  · split
    · next m₁ he =>
      rw [he] at hp
      exact hp.settle hJ (.inr hn) he
    · next m₁ he =>
      rw [he] at hp hn'
      exact of_work (l := []) (hp.wf.withStatus .deactivating m₁.smpStatus m₁.mstep)
        hp.consistent rfl (by simp) rfl rfl (hJ.deactivates hp.core hn')

theorem Keeps.pause (hJ : CoreRule G ok okLog idle J) {m : Machine σ π γ ω} (h : Keeps G J m) :
    Keeps G J (m.pause W).2 := by
  simp only [Machine.pause]
  split
  · split
    · next p _ =>
      have he := pauseProgram_executed (W := W) p m
      have hl : ∃ l : List (Event σ π γ), ((m.pauseProgram p).execProgram W p).log =
          l ++ m.log ∧ ∀ e ∈ l, e.isWork = true := by
        rcases he.log with hl | ⟨o, hl⟩
        · exact ⟨[], hl, by simp⟩
        · exact ⟨[_], hl, by simp⟩
      obtain ⟨l, hl, hwork⟩ := hl
      have hp : Keeps G J ((m.pauseProgram p).execProgram W p) := by
        refine of_work (he.wellFormed h.wf) h.consistent hl hwork he.precIt
          he.checkingPrecond ?_
        rw [he.core, hl]
        exact hJ.work_append h.core hwork
      exact hp.withStatus hJ .pausing _ (.inl rfl)
    · exact h.withStatus hJ .pausing _ (.inl rfl)
  · exact h

/-- An invariant of the core and the log is one of the machine, next to one that tells how an
inactive machine is. -/
theorem logRule (hJ : CoreRule G ok okLog idle J) {K : Machine σ π γ ω → Prop}
    (hK : LogRule G W ok okLog K) (hidle : ∀ m, K m → m.smStatus = .inactive → idle m.core) :
    LogRule G W ok okLog (fun m => Keeps G J m ∧ K m) where
  pending m stepping h hin hst hl :=
    ⟨h.1.executePending hJ stepping, hK.pending m stepping h.2 hin hst hl⟩
  searches m m' h hs hr hl := by
    have hlog := h.1.searches hJ hs
    have hw := hs.wellFormed h.1.wf
    refine ⟨⟨hw, hs.consistent h.1.consistent, ?_⟩, hK.searches m m' h.2 hs hr hl⟩
    rcases hr with hr | ⟨it, h₁, h₂, hlt⟩
    · rw [Searches.core_eq hs, hr]
      exact hlog
    · exact absurd (hw.fits.reqend it h₂) (Nat.ne_of_lt hlt)
  advances m m' h hs hl := by
    have hlog := h.1.searches hJ hs
    refine ⟨⟨(hs.wellFormed h.1.wf).record _, .of_new rfl, ?_⟩, hK.advances m m' h.2 hs hl⟩
    rw [core_record, Searches.core_eq hs]
    exact hJ.advances _ hlog
  changes m m' s n T h hn hc hT hsel hs hl :=
    ⟨h.1.selectedChange hJ hc hT hsel hs hl, hK.changes m m' s n T h.2 hn hc hT hsel hs hl⟩
  steps m m' s n T h hk hn hc hT hsel hs hl :=
    ⟨h.1.selectedChange hJ hc hT hsel hs hl, hK.steps m m' s n T h.2 hk hn hc hT hsel hs hl⟩
  status m st sp ms h hst := ⟨h.1.withStatus hJ sp ms hst.1, hK.status m st sp ms h.2 hst⟩
  automatics m h hop h₁ h₂ h₃ hl :=
    ⟨(h.1.withStatus hJ m.smpStatus m.mstep (.inr (by decide))).runState hJ m.current,
      hK.automatics m h.2 hop h₁ h₂ h₃ hl⟩
  pauses m h hop hst hl := ⟨h.1.pause hJ, hK.pauses m h.2 hop hst hl⟩
  activates m m' w h hst he hck hl := by
    have hm : Throughout okLog m'.log := hl.of_suffix
      ((List.suffix_cons _ _).trans ((planActivate_log { m' with world := w }).trans
        (enterInitialState_log _)))
    have hs := he.searches
    have hc : m'.core = m.core := he.core
    have hk : Keeps G J { m' with world := w } := by
      refine ⟨(Evaluates.world (G := G) m' w).searches.wellFormed (hs.wellFormed h.1.wf),
        (hs.consistent h.1.consistent).congr rfl rfl rfl, ?_⟩
      have : J m'.core m'.log := hc ▸ h.1.searches hJ hs
      exact this
    have hi : idle m'.core := hc ▸ hidle m h.2 hst
    exact ⟨hk.enterInitialState hJ ((congrArg Core.smStatus he.core).trans hst) hi
      (hck h.1.consistent) hm, hK.activates m m' w h.2 hst he hck hl⟩
  deactivates m h hok hst hl := ⟨h.1.deactivate hJ hok, hK.deactivates m h.2 hok hst hl⟩
  settles m h hst hl := by
    refine ⟨?_, hK.settles m h.2 hst hl⟩
    have hp := h.1.executePending (W := W) hJ false
    simp only [Machine.pendingThen]
    split
    · next m₁ he => rw [he] at hp; exact hp.settle hJ (.inl hst) he
    · next m₁ he => rw [he] at hp; exact hp

end CoreRule
end Machine
end OrocosRtt.StateMachine
