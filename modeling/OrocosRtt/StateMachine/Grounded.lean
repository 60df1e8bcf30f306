import OrocosRtt.StateMachine.Pointers

/-! The functions of a state machine that take a state are not applied to a null one, as long as
there is a current state. -/
set_option linter.unusedSectionVars false

namespace OrocosRtt.StateMachine

variable {σ π γ ω : Type} [DecidableEq σ] [DecidableEq π]
variable {G : StateGraph σ π γ} {W : Surroundings π γ ω}

/-- A function on a state was applied to no state. -/
def Event.onNull : Event σ π γ → Bool
  | .leaveState none | .handleState none | .runState none _ _ | .requestNextState none => true
  | _ => false

namespace Machine

def Grounded (m : Machine σ π γ ω) : Prop := ∀ e ∈ m.log, e.onNull = false

theorem Grounded.record {m : Machine σ π γ ω} (h : m.Grounded) {e : Event σ π γ}
    (he : e.onNull = false) : (m.record e).Grounded := by
  intro e' he'
  rcases List.mem_cons.mp he' with rfl | he'
  · exact he
  · exact h e' he'

theorem Grounded.append {m m' : Machine σ π γ ω} {l : List (Event σ π γ)} (h : m.Grounded)
    (hl : m'.log = l ++ m.log) (hn : ∀ e ∈ l, e.onNull = false) : m'.Grounded := by
  intro e he
  rw [hl] at he
  exact (List.mem_append.mp he).elim (hn e) (h e)

theorem Advanced.grounded {p : π} {m m' : Machine σ π γ ω} (ha : Advanced p m m')
    (h : m.Grounded) : m'.Grounded := by
  rcases ha.log with hl | ⟨o, hl⟩
  · exact h.append (l := []) hl (by simp)
  · exact h.append (l := [_]) hl (by simp [Event.onNull])

theorem Executed.grounded {p : π} {m m' : Machine σ π γ ω} (he : Executed p m m')
    (h : m.Grounded) : m'.Grounded := by
  rcases he.log with hl | ⟨o, hl⟩
  · exact h.append (l := []) hl (by simp)
  · exact h.append (l := [_]) hl (by simp [Event.onNull])

theorem grounded_pendingRule (stepping : Bool) :
    PendingRule G W stepping (fun m => m.Grounded) where
  waits m _ p h _ _ _ _ _ := (advanceProgram_advanced stepping p m).grounded h
  fails m _ p h _ _ _ _ := (advanceProgram_advanced (W := W) stepping p m).grounded h
  done m k p h _ _ _ _ := by
    have ha := (advanceProgram_advanced (W := W) stepping p m).grounded h
    exact ha.append (l := []) (clear_log _ k) (by simp)
  after _ _ _ h _ _ := h
  leaves m h _ _ _ _ := Grounded.record (m := { m with current := none }) h rfl
  becomes m n h _ _ _ _ := h.append (l := [.current (some n)]) rfl (by simp [Event.onNull])

theorem Grounded.executePending {m : Machine σ π γ ω} (h : m.Grounded) (stepping : Bool) :
    (m.executePending G W stepping).2.Grounded :=
  (grounded_pendingRule stepping).executePending h

/-! ### Evaluations -/

theorem Grounded.checkLoop (stepping : Bool) (l : List (γ × ℕ)) {m : Machine σ π γ ω}
    (h : m.Grounded) : (m.checkLoop W stepping l).2.Grounded := by
  induction l generalizing m with
  | nil => exact h
  | cons c rest ih =>
    obtain ⟨c, line⟩ := c
    have he : (m.evaluatePrecondition W c).2.Grounded :=
      h.append (l := [_]) rfl (by simp [Event.onNull])
    simp only [Machine.checkLoop]
    split
    · exact h
    · split
      · next m₁ hm => rw [hm] at he; exact he
      · next m₁ hm =>
        rw [hm] at he
        split
        · exact he
        · exact ih he

theorem Grounded.checkConditions (s : Option σ) (stepping : Bool) {m : Machine σ π γ ω}
    (h : m.Grounded) : (m.checkConditions G W s stepping).2.Grounded := by
  simp only [Machine.checkConditions]
  apply Grounded.checkLoop
  split
  · exact h.append (l := [.check s]) rfl (by simp [Event.onNull])
  · exact h.record rfl

theorem Grounded.evaluateGuard (c : γ) {m : Machine σ π γ ω} (h : m.Grounded) :
    (m.evaluateGuard W c).2.Grounded :=
  h.append (l := [_]) rfl (by simp [Event.onNull])

theorem Grounded.tryTransition {τ : Type} (target : τ → Option σ) (t : Transition τ π γ)
    {m : Machine σ π γ ω} (h : m.Grounded) : (m.tryTransition G W target t).2.Grounded := by
  have hg := h.evaluateGuard (W := W) t.cnd
  simp only [Machine.tryTransition]
  split
  · next m₁ he => rw [he] at hg; exact hg
  · next m₁ he =>
    rw [he] at hg
    have hc := hg.checkConditions (G := G) (W := W) (target t.target) false
    split <;> next m₂ h₂ => rw [h₂] at hc; exact hc

theorem Grounded.findTransition {τ : Type} (target : τ → Option σ)
    (ts : List (Transition τ π γ)) {m : Machine σ π γ ω} (h : m.Grounded) :
    (m.findTransition G W target ts).2.Grounded := by
  induction ts generalizing m with
  | nil => exact h
  | cons t ts ih =>
    have ht := h.tryTransition (G := G) (W := W) target t
    simp only [Machine.findTransition]
    split
    · next m₁ he => rw [he] at ht; exact ht
    · next m₁ he => rw [he] at ht; exact ih ht

/-! ### Changes -/

variable (G) in
/-- The machine is in the state `s`, and no function was applied to a null state so far. -/
structure Poised (s : σ) (m : Machine σ π γ ω) : Prop where
  wf : m.WellFormed G
  current : m.current = some s
  grounded : m.Grounded

theorem Poised.searches {s : σ} {m m' : Machine σ π γ ω} (h : m.Poised G s)
    (hs : Searches G m m') (hg : m'.Grounded) : m'.Poised G s :=
  ⟨hs.wellFormed h.wf, hs.current.trans h.current, hg⟩

theorem Grounded.runState {m : Machine σ π γ ω} (h : m.Grounded) (hw : m.WellFormed G) (n : σ) :
    (m.runState G W (some n)).Grounded := by
  refine h.append (runState_plans n hw.loaded).log ?_
  simp [or_imp, forall_and, Event.onNull]

theorem Poised.planState {s n : σ} {T : Option π} {m : Machine σ π γ ω} (h : m.Poised G s)
    (hT : ∀ p, T = some p → G.role p = .transition) : (m.planState G W n T).Grounded := by
  have hw := h.wf.record (.changeState (m.change G n T))
  have hg : (m.record (.changeState (m.change G n T))).Grounded := h.grounded.record rfl
  have hs : (m.record (.changeState (m.change G n T))).current = some s := h.current
  simp only [Machine.planState]
  split
  · cases T with
    | some p =>
      exact hg.append (planSelf_some_plans (G := G) hw.loaded hs).log (by simp [Event.onNull])
    | none =>
      by_cases hh : m.currentHandle = none
      · refine hg.append (planSelf_none_plans hw.loaded hs hh).log ?_
        simp [or_imp, forall_and, Event.onNull]
      · have he : (m.record (.changeState (m.change G n none))).planSelf G W none =
            m.record (.changeState (m.change G n none)) := if_neg hh
        rw [he]
        exact hg
  · refine hg.append (planChange_plans hw hs hT).log ?_
    unfold leaveLog
    split <;> simp [or_imp, forall_and, Event.onNull]

theorem Poised.changeState {s n : σ} {T : Option π} {m : Machine σ π γ ω} (h : m.Poised G s)
    (hT : ∀ p, T = some p → G.role p = .transition) (stepping : Bool) :
    (m.changeState G W n T stepping).Grounded := by
  have hw := h.wf.planState (W := W) (n := n) h.current hT
  have hp := h.planState (W := W) (n := n) hT
  simp only [Machine.changeState]
  split
  · exact hp.runState hw n
  · exact (hp.executePending stepping).runState (hw.executePending stepping) n

/-! ### Searches and requests -/

theorem Poised.resetGlobals {s : σ} {m : Machine σ π γ ω} (h : m.Poised G s) :
    (m.resetGlobals G W).Poised G s :=
  h.searches (resetGlobals_evaluates m).searches h.grounded

theorem Poised.evaluateGuard {s : σ} (c : γ) {m : Machine σ π γ ω} (h : m.Poised G s) :
    (m.evaluateGuard W c).2.Poised G s :=
  h.searches (evaluateGuard_evaluates c m).searches (h.grounded.evaluateGuard c)

theorem Poised.checkConditions {s : σ} (n : Option σ) (stepping : Bool) {m : Machine σ π γ ω}
    (h : m.Poised G s) : (m.checkConditions G W n stepping).2.Poised G s :=
  h.searches (checkConditions_evaluates n stepping m).searches
    (h.grounded.checkConditions n stepping)

theorem Poised.findTransition {s : σ} {τ : Type} (target : τ → Option σ)
    (ts : List (Transition τ π γ)) {m : Machine σ π γ ω} (h : m.Poised G s) :
    (m.findTransition G W target ts).2.Poised G s :=
  h.searches (findTransition_evaluates target ts m).searches
    (h.grounded.findTransition target ts)

theorem Poised.searchGlobal {s : σ} {m : Machine σ π γ ω} (h : m.Poised G s) (stepping : Bool)
    {f : Machine σ π γ ω → Machine σ π γ ω}
    (hf : ∀ {m : Machine σ π γ ω}, m.Poised G s → (f m).Poised G s) :
    (m.searchGlobal G W s stepping f).Grounded := by
  have hp := h.findTransition (W := W) id G.globalMap
  simp only [Machine.searchGlobal]
  split
  · next t m₁ he =>
    rw [he] at hp
    exact hp.changeState (G.global_role t (findTransition_mem he)) stepping
  · next m₁ he =>
    rw [he] at hp
    exact (hf hp).changeState (by simp) stepping

theorem Poised.searchLocal {s : σ} (stepping : Bool) (ts : List (Transition σ π γ))
    {m : Machine σ π γ ω} (h : m.Poised G s) {k : σ} (hts : ∀ t ∈ ts, t ∈ G.stateMap k) :
    (m.searchLocal G W s stepping ts).Grounded := by
  induction ts generalizing m with
  | nil => exact h.grounded
  | cons t ts ih =>
    -- the transition at the cursor is not taken
    have hnext (m₂ : Machine σ π γ ω) (h₂ : m₂.Poised G s) :
        Grounded (if ts = [] then m₂.searchGlobal G W s stepping (rewind G s)
          else if stepping then (m₂.moveOn ts).record .advance
          else (m₂.moveOn ts).searchLocal G W s stepping ts) := by
      have h₃ : (m₂.moveOn ts).Poised G s := h₂.searches (moveOn_searches ts m₂) h₂.grounded
      split
      · exact h₂.searchGlobal stepping fun {m} hm =>
          hm.searches (rewind_searches s m) hm.grounded
      · split
        · exact h₃.grounded.record rfl
        · exact ih h₃ fun t ht => hts t (List.mem_cons_of_mem _ ht)
    have hg := h.evaluateGuard (W := W) t.cnd
    simp only [Machine.searchLocal]
    split
    · next m₂ he => rw [he] at hg; exact hnext m₂ hg
    · next m₂ he =>
      rw [he] at hg
      have hc := hg.checkConditions (W := W) (some t.target) stepping
      split
      · exact hg.grounded
      · split
        · next m₃ h₃ => rw [h₃] at hc; exact hc.grounded
        · next m₃ h₃ =>
          rw [h₃] at hc
          exact hc.changeState (G.local_role k t (hts t List.mem_cons_self)) stepping
        · next m₃ h₃ => rw [h₃] at hc; exact hnext m₃ hc

theorem Poised.requestNextState {s : σ} {m : Machine σ π γ ω} (h : m.Poised G s)
    (stepping : Bool) : (m.requestNextState G W stepping).Grounded := by
  have hr : (m.record (.requestNextState m.current)).Poised G s := by
    refine h.searches (Evaluates.request _ m).searches (h.grounded.record ?_)
    rw [h.current]
    rfl
  have hsearch (m₁ : Machine σ π γ ω) (h₁ : m₁.Poised G s) :
      Grounded (if m₁.reqstep = m₁.reqend then m₁.searchGlobal G W s stepping id
        else m₁.searchLocal G W s stepping (m₁.remaining G)) := by
    split
    · exact h₁.searchGlobal stepping fun hm => hm
    · cases hit : m₁.reqstep with
      | none => simp only [remaining, hit]; exact h₁.grounded
      | some it =>
        simp only [remaining, hit]
        exact h₁.searchLocal stepping _ fun t ht => List.mem_of_mem_drop ht
  simp only [Machine.requestNextState]
  split
  · exact hr.grounded
  · next s' hs =>
    obtain rfl : s = s' := Option.some.inj (hr.current.symm.trans hs)
    split
    · exact hr.grounded
    · split
      · exact hsearch _ hr.resetGlobals
      · exact hsearch _ hr

theorem Grounded.requestStateChange (n : σ) {m : Machine σ π γ ω} (h : m.Grounded)
    (hw : m.WellFormed G) : (m.requestStateChange G W n).2.Grounded := by
  simp only [Machine.requestStateChange]
  split
  · exact h
  · next s hs =>
    have hp : m.Poised G s := ⟨hw, hs, h⟩
    split
    · exact h
    · split
      · exact hp.changeState (by simp) false
      · have hl := hp.findTransition (W := W) some ((G.stateMap s).filter fun t => t.target = n)
        split
        · next t m₁ he =>
          rw [he] at hl
          have ht := (List.mem_filter.mp (findTransition_mem he)).1
          exact hl.changeState (G.local_role s t ht) false
        · next m₁ he =>
          rw [he] at hl
          have hg := (hl.resetGlobals (W := W)).findTransition (W := W) id
            (G.globalMap.filter fun t => t.target = some n)
          split
          · next t m₂ h₂ =>
            rw [h₂] at hg
            have ht := (List.mem_filter.mp (findTransition_mem h₂)).1
            exact hg.changeState (G.global_role t ht) false
          · next m₂ h₂ =>
            rw [h₂] at hg
            split
            · have hf : (m₂.record (.fallback n)).Poised G s :=
                hg.searches (Evaluates.fallback n m₂).searches (hg.grounded.record rfl)
              exact hf.changeState (by simp) false
            · exact hg.grounded

theorem Grounded.eventTransition (source : Option σ) {k : Option σ} {e : EventTransition σ π γ}
    (he : e ∈ G.eventMap k) {m : Machine σ π γ ω} (h : m.Grounded) (hw : m.WellFormed G) :
    (m.eventTransition G W source e).Grounded := by
  simp only [Machine.eventTransition]
  split
  · exact h
  · next s hs =>
    have hp : m.Poised G s := ⟨hw, hs, h⟩
    split
    · have hg := hp.evaluateGuard (W := W) e.guard
      split
      · next m₁ h₁ => rw [h₁] at hg; exact hg.grounded
      · next m₁ h₁ =>
        rw [h₁] at hg
        have hc := hg.checkConditions (W := W) (some (e.target.getD s)) false
        split
        · next m₂ h₂ => rw [h₂] at hc; exact hc.changeState (G.event_role k e he) false
        · next m₂ _ h₂ => rw [h₂] at hc; exact hc.grounded
    · exact h

/-! ### Activation -/

theorem Grounded.enterInitialState {m : Machine σ π γ ω} (h : m.Grounded)
    (hw : m.WellFormed G) : (m.enterInitialState G W).Grounded := by
  have ha : (m.planActivate G W).Grounded := by
    refine h.append (planActivate_plans hw.loaded).log ?_
    simp [or_imp, forall_and, Event.onNull]
  have hp := ha.executePending (G := G) (W := W) false
  simp only [Machine.enterInitialState]
  split
  · exact ha
  · split
    · next m₁ he => rw [he] at hp; exact hp
    · next m₁ he =>
      rw [he] at hp
      split <;> exact hp

theorem Grounded.deactivate {m : Machine σ π γ ω} (h : m.Grounded) (hw : m.WellFormed G) :
    (m.deactivate G W).2.Grounded := by
  have hd : (m.planDeactivate G W).Grounded := by
    by_cases hn : m.next = none ∨ m.current = none
    · exact h.append (planDeactivate_stalled (W := W) hn).log (by simp [Event.onNull])
    · obtain ⟨hn, hc⟩ := not_or.mp hn
      obtain ⟨s, hs⟩ := Option.ne_none_iff_exists'.mp hc
      refine h.append (planDeactivate_leaving (W := W) hw.loaded hn hs).log ?_
      simp [or_imp, forall_and, Event.onNull]
  have hp := hd.executePending (G := G) (W := W) false
  simp only [Machine.deactivate]
  split
  · exact h
  · split <;> next m₁ he => rw [he] at hp; exact hp

theorem Grounded.pause {m : Machine σ π γ ω} (h : m.Grounded) : (m.pause W).2.Grounded := by
  simp only [Machine.pause]
  split
  · split
    · next p _ => exact (pauseProgram_executed (W := W) p m).grounded h
    · exact h
  · exact h

end Machine
end OrocosRtt.StateMachine
