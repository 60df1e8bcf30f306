import OrocosRtt.StateMachine.Anchored
import OrocosRtt.StateMachine.ChangeOrder

/-! The programs of a change are executed in their order, in every run in which the change is
left to go on; and what becomes of it when the machine is deactivated. -/
set_option linter.unusedSectionVars false

namespace OrocosRtt.StateMachine

open Library.Early

variable {σ π γ ω : Type} [DecidableEq σ] [DecidableEq π]
variable {G : StateGraph σ π γ} {W : Surroundings π γ ω}

namespace Machine

variable {m : Machine σ π γ ω}

/-! ### What is planned -/

/-- A program that is planned is live. -/
theorem Plans.live {c : Core σ π} {ps : List π} {l : List (Event σ π γ)} {m' : Machine σ π γ ω}
    (hp : Plans c ps l m m') {q : π} (h : q ∈ ps ∨ (m.programs q).Live) :
    (m'.programs q).Live := by
  rw [hp.programs]
  split
  · exact .inl rfl
  · next hq => exact h.resolve_left hq

theorem Guarded.todo_of_free (h : m.Guarded G) (hin : m.inTransition = false) :
    m.core.todo = [] := by
  by_contra ht
  rw [h.inTransition ht] at hin
  cases hin

/-- No change is under way, as the log tells. -/
theorem Guarded.followed_of_free (h : m.Guarded G) (hin : m.inTransition = false) :
    followed G [] m.log = some [] := by
  obtain ⟨ts, hts, he | he⟩ := h.follows
  · rw [hts, he]
  · rw [hts, he, h.todo_of_free hin]

/-- The run program of the state to be in is started. -/
theorem Ordered.runState (h : m.Ordered G) {n : σ}
    (hn : ∀ s, (m.next = some s ∨ m.next = none ∧ m.current = some s) → s = n) :
    (m.runState G W (some n)).Ordered G := by
  have hp := runState_plans (G := G) (W := W) n h.wf.loaded
  have hw := h.wf.runState (W := W) (some n)
  revert hp hw
  generalize m.runState G W (some n) = m'
  intro hp hw
  have hslot (j : Slot) (hj : j ≠ .run) : m'.slot j = m.slot j := by
    rw [hp.slot j (r := { m with
      currentProg := m.currentProg.or (G.getRunProgram n), currentRun := G.getRunProgram n }) rfl]
    cases j <;> first | rfl | exact absurd rfl hj
  have htodo : m'.core.todo = m.core.todo := by
    rw [hp.core]
    rfl
  have hcur : m'.current = m.current := congrArg Core.current hp.core
  have hnext : m'.next = m.next := congrArg Core.next hp.core
  refine ⟨hw, ?_, ?_, ?_, ?_, ?_⟩
  · intro j q hj hq
    rw [hslot j hj] at hq
    exact hp.live (.inr (h.live j q hj hq))
  · intro q hq s hs
    have hq : G.getRunProgram n = some q := (congrArg Core.currentRun hp.core).symm.trans hq
    rw [hnext, hcur] at hs
    rw [hn s hs]
    exact G.run_role n q hq
  · intro ht
    rw [htodo, hcur, hnext, show m'.currentHandle = m.currentHandle from hslot .handle (by decide)]
    rw [show m'.currentTrans = m.currentTrans from hslot .trans (by decide)] at ht
    exact h.trans ht
  · intro hx
    rw [show m'.currentExit = m.currentExit from hslot .exit (by decide)] at hx
    rw [hcur, hnext]
    exact h.exit hx
  · obtain ⟨ts, hts, hcase⟩ := h.follows
    refine ⟨ts, ?_, htodo ▸ hcase⟩
    rw [hp.log]
    refine followed_aside hts fun e he => ?_
    rcases List.mem_append.mp he with he | he
    · obtain ⟨q, hq, rfl⟩ := List.mem_map.mp he
      simp [Event.aside, G.run_role n q (Option.mem_toList.mp hq)]
    · rw [List.mem_singleton.mp he]
      rfl

theorem Guarded.runState (h : m.Guarded G) {n : σ}
    (hn : ∀ s, (m.next = some s ∨ m.next = none ∧ m.current = some s) → s = n) :
    (m.runState G W (some n)).Guarded G := by
  have hp := runState_plans (G := G) (W := W) n h.wf.loaded
  have hprog : (m.runState G W (some n)).currentProg = m.currentProg.or (G.getRunProgram n) :=
    congrArg Core.currentProg hp.core
  have htodo : (m.runState G W (some n)).core.todo = m.core.todo := by
    rw [hp.core]
    rfl
  refine ⟨h.toOrdered.runState hn, fun ht => ?_, fun he => ?_⟩
  · rw [htodo] at ht
    obtain ⟨p, hpp, hh, hr⟩ := h.blocked ht
    refine ⟨p, by rw [hprog, hpp, Option.some_or], ?_, fun s hs => ?_⟩
    · rw [show (m.runState G W (some n)).currentHandle = m.currentHandle from
        congrArg Core.currentHandle hp.core]
      exact hh
    · exact hr s ((congrArg Core.next hp.core).symm.trans hs)
  · have he : m.smStatus = .error := (congrArg Core.smStatus hp.core).symm.trans he
    obtain ⟨p, hpp⟩ := Option.ne_none_iff_exists'.mp (h.busy he)
    rw [hprog, hpp, Option.some_or]
    simp

theorem Guarded.executePending (h : m.Guarded G) : (m.executePending G W false).2.Guarded G := by
  by_cases hst : m.smStatus = .error
  · rw [executePending_inError hst]
    exact h
  · exact h.toOrdered.executePending hst

/-- In a state that is not being left there is no exit program. -/
theorem Guarded.exit_of_free (h : m.Guarded G) (hin : m.inTransition = false)
    (hn : m.next ≠ none) : m.currentExit = none := by
  by_contra hx
  have hc := (Core.todo_eq_nil_iff.mp (h.todo_of_free hin)).resolve_left hn
  exact (h.exit hx).elim hn fun h => h hc.1

/-- What is planned within a state leaves no tasks. -/
theorem Ordered.stays {m' : Machine σ π γ ω} (h : m.Ordered G) (hw : m'.WellFormed G)
    (htodo : m.core.todo = []) (hcur : m'.current = m.current) (hnext : m'.next = m.next)
    (hentry : m'.currentEntry = m.currentEntry) (hexit : m'.currentExit = m.currentExit)
    (hrun : m'.currentRun = m.currentRun)
    (hlive : ∀ k p, k ≠ .run → m'.slot k = some p → m.slot k = some p ∨ (m'.programs p).Live)
    (hold : ∀ p, (m.programs p).Live → (m'.programs p).Live)
    (hl : followed G [] m'.log = some []) : m'.core.todo = [] ∧ m'.Ordered G := by
  have htodo' : m'.core.todo = [] := by
    rw [Core.todo_eq_nil_iff] at htodo ⊢
    exact htodo.imp (fun h => hnext.trans h) fun h =>
      ⟨hcur.trans (h.1.trans hnext.symm), hentry.trans h.2⟩
  refine ⟨htodo', hw, fun k p hk hp => ?_, fun p hp s hs => ?_, fun _ => .inl htodo', fun hx => ?_,
    [], hl, .inl rfl⟩
  · exact (hlive k p hk hp).elim (fun hp => hold p (h.live k p hk hp)) id
  · rw [hnext, hcur] at hs
    exact h.run p (hrun.symm.trans hp) s hs
  · rw [hcur, hnext]
    exact h.exit (hexit ▸ hx)

/-- Only a run or a handle program may be interrupted. -/
theorem Guarded.free_cases {p : π} (_ : m.Guarded G) (hin : m.inTransition = false)
    (hp : m.currentProg = some p) : m.currentRun = some p ∨ m.currentHandle = some p := by
  by_contra hno
  obtain ⟨hr, hh⟩ := not_or.mp hno
  simp only [Machine.inTransition, hp, decide_eq_false_iff_not] at hin
  exact hin ⟨by simp, fun h => hr h.symm, fun h => hh h.symm⟩

theorem Guarded.next_of_free {s : σ} (h : m.Guarded G) (hin : m.inTransition = false)
    (hs : m.current = some s) : m.next = some s ∨ m.next = none ∧ m.current = some s := by
  rcases Core.todo_eq_nil_iff.mp (h.todo_of_free hin) with hn | ⟨hc, -⟩
  · exact .inr ⟨hn, hs⟩
  · exact .inl (hc.symm.trans hs)

section Change

variable {s n : σ} {T : Option π}

/-- A transition to the state itself begins no change. -/
theorem Guarded.planSelf (h : m.Guarded G) (hin : m.inTransition = false)
    (hs : m.current = some s) (hT : ∀ p, T = some p → G.role p = .transition) :
    ((m.record (.changeState (m.change G s T))).planSelf G W T).Guarded G := by
  have htodo := h.todo_of_free hin
  have hw₀ := h.wf.record (.changeState (m.change G s T))
  have hs₀ : (m.record (.changeState (m.change G s T))).current = some s := hs
  have hfree : followed G [] (.changeState (m.change G s T) :: m.log) = some [] := by
    rw [followed_cons (h.followed_of_free hin)]
    exact if_pos hs
  have hw := hw₀.planSelf (W := W) hs₀ hT
  cases T with
  | some p =>
    have hp := planSelf_some_plans (G := G) (W := W) (p := p) hw₀.loaded hs₀
    revert hp hw
    generalize (m.record (.changeState (m.change G s (some p)))).planSelf G W (some p) = m'
    intro hw hp
    have hslot (j : Slot) (hj : j ≠ .trans) := hp.slot j (r := { m with
      currentTrans := some p, currentProg := some p, reqstep := some (begin s) }) rfl
    have hlive : ∀ k q, k ≠ .run → m'.slot k = some q →
          m.slot k = some q ∨ (m'.programs q).Live := by
      intro k q _ hq
      by_cases hk : k = .trans
      · subst hk
        have hq : some p = some q := (congrArg Core.currentTrans hp.core).symm.trans hq
        exact .inr (hp.live (.inl (by simp [Option.some.inj hq])))
      · rw [hslot k hk] at hq
        refine .inl ?_
        cases k <;> first | exact hq | exact absurd rfl hk
    have hl : followed G [] m'.log = some [] := hp.log ▸ followed_free (r := [_]) hfree (by simp)
    obtain ⟨htodo', ho⟩ := h.toOrdered.stays hw htodo (congrArg Core.current hp.core)
      (congrArg Core.next hp.core) (congrArg Core.currentEntry hp.core)
      (congrArg Core.currentExit hp.core) (congrArg Core.currentRun hp.core) hlive
      (fun q hq => hp.live (.inr hq)) hl
    refine ⟨ho, fun ht => absurd htodo' ht, fun _ => ?_⟩
    rw [show m'.currentProg = some p from congrArg Core.currentProg hp.core]
    simp
  | none =>
    by_cases hh : m.currentHandle = none
    · have hp := planSelf_none_plans (G := G) (W := W) hw₀.loaded hs₀ hh
      revert hp hw
      generalize (m.record (.changeState (m.change G s none))).planSelf G W none = m'
      intro hw hp
      have hslot (j : Slot) (hj : j ≠ .handle) := hp.slot j (r := { m with
        currentProg := m.currentProg.or (G.getHandleProgram s)
        currentHandle := G.getHandleProgram s }) rfl
      have hlive : ∀ k q, k ≠ .run → m'.slot k = some q →
          m.slot k = some q ∨ (m'.programs q).Live := by
        intro k q _ hq
        by_cases hk : k = .handle
        · subst hk
          have hq : G.getHandleProgram s = some q :=
            (congrArg Core.currentHandle hp.core).symm.trans hq
          exact .inr (hp.live (.inl (by simp [hq])))
        · rw [hslot k hk] at hq
          refine .inl ?_
          cases k <;> first | exact hq | exact absurd rfl hk
      have hl : followed G [] m'.log = some [] := by
        rw [hp.log]
        refine followed_free hfree fun e he c => ?_
        rcases List.mem_append.mp he with he | he
        · obtain ⟨q, -, rfl⟩ := List.mem_map.mp he
          simp
        · rw [List.mem_singleton.mp he]
          simp
      obtain ⟨htodo', ho⟩ := h.toOrdered.stays hw htodo (congrArg Core.current hp.core)
        (congrArg Core.next hp.core) (congrArg Core.currentEntry hp.core)
        (congrArg Core.currentExit hp.core) (congrArg Core.currentRun hp.core) hlive
        (fun q hq => hp.live (.inr hq)) hl
      refine ⟨ho, fun ht => absurd htodo' ht, fun he => ?_⟩
      have hst : m.smStatus = .error := (congrArg Core.smStatus hp.core).symm.trans he
      obtain ⟨q, hq⟩ := Option.ne_none_iff_exists'.mp (h.busy hst)
      rw [show m'.currentProg = m.currentProg.or (G.getHandleProgram s) from
        congrArg Core.currentProg hp.core, hq, Option.some_or]
      simp
    · have he : (m.record (.changeState (m.change G s none))).planSelf G W none =
          m.record (.changeState (m.change G s none)) := if_neg hh
      rw [he]
      exact ⟨⟨hw₀, fun k p hk hp => h.live k p hk (by cases k <;> exact hp), h.run, h.trans, h.exit,
        [], hfree, .inl rfl⟩, fun ht => absurd htodo ht, h.busy⟩

/-- The exit program that a change is to execute. -/
theorem tasks_exit (h : m.Guarded G) (hin : m.inTransition = false) (hs : m.current = some s) :
    (if m.next = none then m.exitProgram G else m.current.bind G.getExitProgram) =
      if m.exitInError then none else G.getExitProgram s := by
  split
  · exact exitProgram_eq hs
  · next hn =>
    have hno : m.exitInError = false := by simp [exitInError, h.exit_of_free hin hn]
    simp [hno, hs]

/-- A change to another state is planned, which leaves all its tasks but the starts. -/
theorem Guarded.planChange (h : m.Guarded G) (hin : m.inTransition = false)
    (hs : m.current = some s) (hne : s ≠ n) (hT : ∀ p, T = some p → G.role p = .transition) :
    let r := (m.record (.changeState (m.change G n T))).planChange G W n T
    r.Ordered G ∧ (r.smStatus = .error → r.Guarded G) := by
  have hw₀ := h.wf.record (.changeState (m.change G n T))
  have hs₀ : (m.record (.changeState (m.change G n T))).current = some s := hs
  have hp := planChange_plans (G := G) (W := W) (n := n) hw₀ hs₀ hT
  have hw := hw₀.planChange (W := W) (n := n) hs₀ hT
  have hexit := tasks_exit h hin hs
  revert hp hw
  dsimp only
  generalize (m.record (.changeState (m.change G n T))).planChange G W n T = m'
  intro hp hw
  have hcur : m'.current = some s :=
    ((congrArg Core.current hp.core).trans (Core.change_current _)).trans hs
  have hnext : m'.next = some n := (congrArg Core.next hp.core).trans (Core.change_next _)
  have hcn : m'.core.current ≠ some n := by
    rw [show m'.core.current = some s from hcur]
    simpa using hne
  have ht' : m'.currentTrans = T :=
    (congrArg Core.currentTrans hp.core).trans (Core.change_currentTrans _)
  have hx' : m'.currentExit = if m.exitInError then none else G.getExitProgram s :=
    (congrArg Core.currentExit hp.core).trans (Core.change_currentExit _)
  have he' : m'.currentEntry = G.getEntryProgram n :=
    (congrArg Core.currentEntry hp.core).trans (Core.change_currentEntry _)
  have hh' : m'.currentHandle = none :=
    (congrArg Core.currentHandle hp.core).trans (Core.change_currentHandle _)
  have hr' : m'.currentRun = none :=
    (congrArg Core.currentRun hp.core).trans (Core.change_currentRun _)
  have htodo : m'.core.todo = T.toList.map .perform ++
      (if m.exitInError then none else G.getExitProgram s).toList.map .perform ++
      .become n :: (G.getEntryProgram n).toList.map .perform := by
    rw [Core.todo_change (c := m'.core) hnext hcn, ← hx', ← he', ← ht']
    rfl
  have hfollows : followed G [] m'.log = some m'.core.todo := by
    have hbegin : followed G [] (.changeState (m.change G n T) :: m.log) =
        some (T.toList.map .start ++
          ((if m.exitInError then none else G.getExitProgram s).toList.map .start ++
          ((G.getEntryProgram n).toList.map .start ++ m'.core.todo))) := by
      rw [followed_cons (h.followed_of_free hin), htodo]
      have hno : ¬ (m.change G n T).source = some (m.change G n T).target := by
        rw [show (m.change G n T).source = some s from hs]
        simpa [change] using hne
      refine (if_neg hno).trans (congrArg some ?_)
      have hexit' : (if (m.change G n T).pending = none then (m.change G n T).exitprog
          else (m.change G n T).source.bind G.getExitProgram) =
          if m.exitInError then none else G.getExitProgram s := hexit
      unfold Change.tasks
      dsimp only
      rw [hexit']
      simp only [List.append_assoc]
      rfl
    have htrans := followed_starts (fun p hp s => by simp [hT p hp]) hbegin
    have hleave : followed G [] (m.leaveLog G s ++ (T.toList.map .start ++
        .changeState (m.change G n T) :: m.log)) =
        some ((G.getEntryProgram n).toList.map .start ++ m'.core.todo) := by
      unfold leaveLog
      by_cases hx : m.exitInError = true
      · rw [if_pos hx]
        rw [if_pos hx] at htrans
        exact htrans
      · rw [if_neg hx, List.append_assoc]
        rw [if_neg hx] at htrans
        exact followed_starts (fun p hp s' => by simp [G.exit_role s p hp])
          (followed_aside (r := [_]) htrans (by simp [Event.aside]))
    rw [hp.log, List.append_assoc, List.append_assoc]
    exact followed_starts (fun p hp s' => by simp [G.entry_role n p hp]) hleave
  have ho : m'.Ordered G := by
    refine ⟨hw, fun k q hk hq => ?_, fun q hq => ?_, fun _ => .inr ⟨hh', ?_⟩, fun _ => .inr ?_,
      _, hfollows, .inr rfl⟩
    · refine hp.live (.inl ?_)
      rw [show (m.record (.changeState (m.change G n T))).exitProgram G =
        if m.exitInError then none else G.getExitProgram s from exitProgram_eq hs₀]
      cases k with
      | trans => simp [ht'.symm.trans hq]
      | exit => simp [hx'.symm.trans hq]
      | entry => simp [he'.symm.trans hq]
      | handle => exact absurd (hh'.symm.trans hq) (by simp)
      | run => exact absurd rfl hk
    · exact absurd (hr'.symm.trans hq) (by simp)
    · rw [hcur, hnext]
      simpa using hne
    · rw [hcur, hnext]
      simpa using hne
  refine ⟨ho, fun he => ?_⟩
  -- after an error the program that failed is still the current one
  have he : m.smStatus = .error :=
    ((congrArg Core.smStatus hp.core).trans (Core.change_smStatus _)).symm.trans he
  obtain ⟨p, hpp⟩ := Option.ne_none_iff_exists'.mp (h.busy he)
  have hprog : m'.currentProg = some p := by
    refine ((congrArg Core.currentProg hp.core).trans (Core.change_currentProg _)).trans ?_
    rw [show (m.record (.changeState (m.change G n T))).core.currentProg = some p from hpp,
      Option.some_or, Option.some_or]
  refine ⟨ho, fun _ => ⟨p, hprog, by simp [hh'], fun n' hn' => ?_⟩, fun _ => by simp [hprog]⟩
  obtain rfl : n = n' := Option.some.inj (hnext.symm.trans hn')
  rcases h.free_cases hin hpp with hrun | hhandle
  · rw [h.run p hrun s (h.next_of_free hin hs)]
    simpa using hne
  · obtain ⟨s', hs'⟩ := h.wf.fits.handle p hhandle
    simp [G.handle_role s' p hs']

/-- A machine that is to be in no state keeps its current state, or has left it. -/
theorem executePending_leaving {m : Machine σ π γ ω} (hn : m.next = none) (stepping : Bool) :
    (m.executePending G W stepping).2.current = m.current ∨
      (m.executePending G W stepping).2.current = none := by
  refine (PendingRule.executePending (I := fun m' => m'.next = none ∧
    (m'.current = m.current ∨ m'.current = none)) ?_ ⟨hn, .inl rfl⟩).2
  have hadv {m₁ : Machine σ π γ ω} (p : π) (h : m₁.next = none ∧
      (m₁.current = m.current ∨ m₁.current = none)) :
      (m₁.advanceProgram W stepping p).next = none ∧
        ((m₁.advanceProgram W stepping p).current = m.current ∨
          (m₁.advanceProgram W stepping p).current = none) := by
    have ha := advanceProgram_advanced (W := W) stepping p m₁
    rw [ha.next, ha.current]
    exact h
  refine ⟨fun m₁ _ p h _ _ _ _ _ => hadv p h, fun m₁ _ p h _ _ _ _ => hadv p h, ?_,
    fun _ _ _ h _ _ => h, fun _ h _ _ _ _ => ⟨h.1, .inr rfl⟩, ?_⟩
  · intro m₁ k p h _ _ _ _
    rw [clear_next, clear_current]
    exact hadv p h
  · intro m₁ n h _ _ hn _
    rw [h.1] at hn
    cases hn

/-- A change that is accepted. -/
theorem Guarded.changeState (h : m.Guarded G) (hin : m.inTransition = false)
    (hs : m.current = some s) (hT : ∀ p, T = some p → G.role p = .transition) :
    (m.changeState G W n T false).Guarded G := by
  have hpending : ((m.planState G W n T).executePending G W false).2.Guarded G := by
    simp only [Machine.planState]
    split
    · next he =>
      obtain rfl : n = s := Option.some.inj (he.trans hs)
      exact (h.planSelf hin hs hT).executePending
    · next hne =>
      have hne : s ≠ n := by
        rintro rfl
        exact hne hs.symm
      obtain ⟨ho, herr⟩ := h.planChange (W := W) hin hs hne hT
      by_cases hst : ((m.record (.changeState (m.change G n T))).planChange G W n T).smStatus =
          .error
      · exact (herr hst).executePending
      · exact ho.executePending hst
  simp only [Machine.changeState, Bool.false_eq_true, if_false]
  refine hpending.runState fun s' hs' => ?_
  have hnext := planState_next (W := W) (n := n) h.wf hs hT
  rw [executePending_next, hnext] at hs'
  split at hs'
  · next he =>
    obtain rfl : n = s := Option.some.inj (he.trans hs)
    rcases h.next_of_free hin hs with hn | ⟨hn, -⟩
    · rw [hn] at hs'
      exact hs'.elim (fun h => (Option.some.inj h).symm) fun h => by cases h.1
    · rw [hn] at hs'
      have hs' := hs'.resolve_left (by simp)
      have hplan : (m.planState G W n T).current = some n :=
        planState_current h.wf hs hT
      rcases executePending_leaving (G := G) (W := W) (hnext.trans ((if_pos he).trans hn)) false
        with hc | hc
      · rw [hc, hplan] at hs'
        exact (Option.some.inj hs'.2).symm
      · rw [hc] at hs'
        cases hs'.2
  · exact hs'.elim (fun h => (Option.some.inj h).symm) fun h => by cases h.1

end Change

/-! ### Calls -/

theorem Guarded.searches {m' : Machine σ π γ ω} (h : m.Guarded G) (hs : Searches G m m') :
    m'.Guarded G := by
  have hw := hs.wellFormed h.wf
  obtain ⟨it, he⟩ := hs
  obtain ⟨l, hl, hq⟩ := he.log
  have hslot (k : Slot) : m'.slot k = m.slot k :=
    (slot_core { m with reqstep := it } he.core k).trans (by cases k <;> rfl)
  have htodo : m'.core.todo = m.core.todo := by
    rw [he.core]
    rfl
  have hnext : m'.next = m.next := congrArg Core.next he.core
  have hcur : m'.current = m.current := congrArg Core.current he.core
  have hprog : m'.currentProg = m.currentProg := congrArg Core.currentProg he.core
  have hhandle : m'.currentHandle = m.currentHandle := hslot .handle
  refine ⟨⟨hw, fun k p hk hp => ?_, fun p hp s hs => ?_, fun ht => ?_, fun hx => ?_, ?_⟩,
    fun ht => ?_, fun hst => ?_⟩
  · rw [he.programs]
    exact h.live k p hk ((hslot k).symm.trans hp)
  · rw [hnext, hcur] at hs
    exact h.run p ((hslot .run).symm.trans hp) s hs
  · rw [htodo, hhandle, hcur, hnext]
    exact h.trans fun hn => ht ((hslot .trans).trans hn)
  · rw [hcur, hnext]
    exact h.exit fun hn => hx ((hslot .exit).trans hn)
  · obtain ⟨ts, hts, hcase⟩ := h.follows
    refine ⟨ts, ?_, htodo ▸ hcase⟩
    rw [hl]
    refine followed_aside hts fun e he => ?_
    have hq := hq e he
    cases e <;> first | rfl | cases hq
  · rw [hprog, hhandle, hnext]
    exact h.blocked (htodo ▸ ht)
  · rw [hprog]
    exact h.busy ((congrArg Core.smStatus he.core).symm.trans hst)

theorem Guarded.record (h : m.Guarded G) {e : Event σ π γ} (he : e.aside G = true) :
    (m.record e).Guarded G := by
  refine ⟨⟨h.wf.record e, fun k p hk hp => h.live k p hk (by cases k <;> exact hp), h.run, h.trans,
    h.exit, ?_⟩, h.blocked, h.busy⟩
  obtain ⟨ts, hts, hcase⟩ := h.follows
  exact ⟨ts, followed_aside (r := [e]) hts (by simpa using he), hcase⟩

theorem Guarded.withStatus (h : m.Guarded G) {st : Status} (hst : st = .error → m.smStatus = .error)
    (sp : PrivateStatus) (b : Bool) :
    Guarded G { m with smStatus := st, smpStatus := sp, mstep := b } :=
  ⟨h.toOrdered.withStatus st sp b, h.blocked, fun he => h.busy (hst he)⟩

theorem Guarded.pendingThen (h : m.Guarded G) {st : Status} (hst : st ≠ .error) :
    (m.pendingThen G W st).Guarded G := by
  have hp := h.executePending (W := W)
  simp only [Machine.pendingThen]
  split
  · next m₁ he =>
    rw [he] at hp
    exact hp.withStatus (fun h => absurd h hst) _ _
  · next m₁ he =>
    rw [he] at hp
    exact hp

/-- A machine that has left its state, with nothing pending. -/
def AtRest (m : Machine σ π γ ω) : Prop :=
  m.current = none ∧ m.next = none ∧ ∀ k, m.slot k = none

/-- The initial state is entered. -/
theorem Guarded.enterInitialState (h : m.Guarded G) (hr : m.AtRest) (hst : m.smStatus = .inactive) :
    (m.enterInitialState G W).Guarded G := by
  obtain ⟨hc, hn, hs⟩ := hr
  have hp := planActivate_plans (G := G) (W := W) h.wf.loaded
  have hw := h.wf.planActivate (W := W)
  have hslot (k : Slot) (hk : k ≠ .entry) : (m.planActivate G W).slot k = none := by
    rw [hp.slot k (r := { m with
      next := some G.initstate
      currentProg := m.currentProg.or (G.getEntryProgram G.initstate)
      currentEntry := G.getEntryProgram G.initstate
      reqstep := some (begin G.initstate)
      reqend := some ⟨G.initstate, (G.stateMap G.initstate).length⟩
      connected := setHandles G none true (setHandles G (some G.initstate) true m.connected) }) rfl]
    have := hs k
    cases k <;> first | exact this | exact absurd rfl hk
  have ho : (m.planActivate G W).Ordered G := by
    refine ⟨hw, fun k p hk hq => ?_, fun p hq => ?_, fun ht => absurd (hslot .trans (by decide)) ht,
      fun hx => absurd (hslot .exit (by decide)) hx, [], ?_, .inl rfl⟩
    · by_cases he : k = .entry
      · subst he
        have hq : G.getEntryProgram G.initstate = some p :=
          (congrArg Core.currentEntry hp.core).symm.trans hq
        exact hp.live (.inl (by simp [hq]))
      · rw [hslot k he] at hq
        cases hq
    · rw [show (m.planActivate G W).currentRun = none from hslot .run (by decide)] at hq
      cases hq
    · obtain ⟨ts, hts, hcase⟩ := h.follows
      have he : ts = [] := hcase.elim id fun h => h.trans (Core.todo_none hn)
      rw [hp.log]
      refine followed_free (hts.trans (congrArg some he)) fun e he c => ?_
      rcases List.mem_append.mp he with he | he
      · obtain ⟨q, -, rfl⟩ := List.mem_map.mp he
        simp
      · rw [List.mem_singleton.mp he]
        simp
  have hst' : (m.planActivate G W).smStatus = .inactive :=
    (congrArg Core.smStatus hp.core).trans hst
  have hpend := ho.executePending (W := W) (by simp [hst'])
  simp only [Machine.enterInitialState]
  split
  · next he => simp [inError, hst'] at he
  · split
    · next m₁ he =>
      rw [he] at hpend
      exact hpend.withStatus (by simp) _ _
    · next m₁ he =>
      rw [he] at hpend
      split
      · exact hpend
      · exact hpend.withStatus (by simp) _ _

/-- A state is left for good when no change is under way. -/
theorem Guarded.planDeactivate (h : m.Guarded G) (hf : followed G [] m.log = some []) :
    (m.planDeactivate G W).Ordered G := by
  have hw := h.wf.planDeactivate (W := W)
  have hplan : (∀ p, (m.planDeactivate G W).currentTrans = some p →
        ((m.planDeactivate G W).programs p).Live) ∧
      (∀ p, (m.planDeactivate G W).currentExit = some p →
        ((m.planDeactivate G W).programs p).Live) ∧
      ∃ l : List (Event σ π γ), (m.planDeactivate G W).log = l ++ m.log ∧
        ∀ e ∈ l, ∀ c, e ≠ .changeState c := by
    by_cases hn : m.next = none ∨ m.current = none
    · have hp := planDeactivate_stalled (G := G) (W := W) hn
      refine ⟨fun p ht => ?_, fun p hx => ?_, _, hp.log, by simp⟩
      · cases (congrArg Core.currentTrans hp.core).symm.trans ht
      · cases (congrArg Core.currentExit hp.core).symm.trans hx
    · obtain ⟨hn, hc⟩ := not_or.mp hn
      obtain ⟨s, hs⟩ := Option.ne_none_iff_exists'.mp hc
      have hp := planDeactivate_leaving (G := G) (W := W) h.wf.loaded hn hs
      refine ⟨fun p ht => ?_, fun p hx => ?_, _, hp.log, fun e he c => ?_⟩
      · have ht : m.sparing m.currentTrans = some p :=
          (congrArg Core.currentTrans hp.core).symm.trans ht
        exact hp.live (.inr (h.live .trans p (by decide) (Option.filter_eq_some_iff.mp ht).1))
      · have hx : G.getExitProgram s = some p := (congrArg Core.currentExit hp.core).symm.trans hx
        exact hp.live (.inl (by simp [hx]))
      · rcases List.mem_append.mp he with he | he
        · obtain ⟨q, -, rfl⟩ := List.mem_map.mp he
          simp
        · rcases List.mem_cons.mp he with rfl | he
          · simp
          · rw [List.mem_singleton.mp he]
            simp
  obtain ⟨ht, hx, l, hl, hno⟩ := hplan
  refine ⟨hw, fun k p hk hp => ?_, fun p hp => (by cases hp), fun _ => .inl (Core.todo_none rfl),
    fun _ => .inl rfl, [], hl ▸ followed_free hf hno, .inl rfl⟩
  cases k with
  | trans => exact ht p hp
  | exit => exact hx p hp
  | entry => cases hp
  | handle => cases hp
  | run => exact absurd rfl hk

theorem Guarded.deactivate (h : m.Guarded G) (hf : followed G [] m.log = some []) :
    (m.deactivate G W).2.Guarded G := by
  have ho := h.planDeactivate (W := W) hf
  simp only [Machine.deactivate]
  split
  · exact h
  · by_cases hst : (m.planDeactivate G W).smStatus = .error
    · rw [executePending_inError hst]
      exact ⟨ho.withStatus .deactivating _ _, fun ht => absurd (Core.todo_none rfl) ht,
        fun he => (by cases he)⟩
    · have hp := ho.executePending (W := W) hst
      split
      · next m₁ he =>
        rw [he] at hp
        exact hp.withStatus (by simp) _ _
      · next m₁ he =>
        rw [he] at hp
        exact hp.withStatus (by simp) _ _

/-- A state that is not about to be left may be run again. -/
theorem Guarded.runCurrent (h : m.Guarded G) (hn : m.next = none ∨ m.current = m.next)
    {o : Option σ} (ho : o = m.current) : (m.runState G W o).Guarded G := by
  cases o with
  | none => exact h.record (e := .runState none m.currentProg m.currentRun) rfl
  | some s =>
    refine h.runState fun s' hs' => ?_
    rcases hs' with hs' | ⟨-, hs'⟩
    · have hc := hn.resolve_left (by simp [hs'])
      exact Option.some.inj (hs'.symm.trans (hc.symm.trans ho.symm))
    · exact Option.some.inj (hs'.symm.trans ho.symm)

/-! ### Without stepping -/

/-- The machine is not in stepping mode, nor is it to be. -/
def Awake (m : Machine σ π γ ω) : Prop := m.smStatus ≠ .paused ∧ m.smpStatus ≠ .pausing

theorem Awake.of_core {m' : Machine σ π γ ω} {c : Core σ π} (h : m.Awake) (hc : m'.core = c)
    (hst : c.smStatus = m.smStatus) (hsp : c.smpStatus = m.smpStatus) : m'.Awake :=
  ⟨fun hp => h.1 (hst.symm.trans ((congrArg Core.smStatus hc).symm.trans hp)),
    fun hp => h.2 (hsp.symm.trans ((congrArg Core.smpStatus hc).symm.trans hp))⟩

theorem Awake.executePending (h : m.Awake) (stepping : Bool) :
    (m.executePending G W stepping).2.Awake := by
  refine PendingRule.executePending (I := Awake) ?_ h
  have hadv {m₁ : Machine σ π γ ω} (p : π) (h : m₁.Awake) :
      (m₁.advanceProgram W stepping p).Awake := by
    have hc := (advanceProgram_advanced (W := W) stepping p m₁).core
    exact h.of_core hc rfl rfl
  refine ⟨fun m₁ _ p h _ _ _ _ _ => hadv p h, fun m₁ _ p h _ _ _ _ => ⟨by simp, by simp⟩, ?_,
    fun _ _ _ h _ _ => h, fun _ h _ _ _ _ => h, fun _ _ h _ _ _ _ => h⟩
  intro m₁ k p h _ _ _ _
  exact (hadv p h).of_core rfl (by cases k <;> rfl) (by cases k <;> rfl)

theorem Awake.runState (h : m.Awake) (hw : m.WellFormed G) (s : Option σ) :
    (m.runState G W s).Awake := by
  cases s with
  | none => exact h
  | some s =>
    have hc := (runState_plans (G := G) (W := W) s hw.loaded).core
    exact h.of_core hc rfl rfl

theorem Awake.searches {m' : Machine σ π γ ω} (h : m.Awake) (hs : Searches G m m') : m'.Awake := by
  obtain ⟨it, he⟩ := hs
  exact h.of_core he.core rfl rfl

theorem Awake.changeState {s n : σ} {T : Option π} (h : m.Awake) (hw : m.WellFormed G)
    (hs : m.current = some s) (hT : ∀ p, T = some p → G.role p = .transition) :
    (m.changeState G W n T false).Awake := by
  have hw₀ := hw.record (.changeState (m.change G n T))
  have hplan : (m.planState G W n T).Awake := by
    simp only [planState]
    split
    · cases T with
      | some p =>
        have hc := (planSelf_some_plans (G := G) (W := W) (p := p) hw₀.loaded hs).core
        exact h.of_core hc rfl rfl
      | none =>
        by_cases hh : m.currentHandle = none
        · have hc := (planSelf_none_plans (G := G) (W := W) hw₀.loaded hs hh).core
          exact h.of_core hc rfl rfl
        · have he : (m.record (.changeState (m.change G n none))).planSelf G W none =
              m.record (.changeState (m.change G n none)) := if_neg hh
          rw [he]
          exact h
    · have hc := (planChange_plans (G := G) (W := W) (n := n) hw₀ hs hT).core
      exact h.of_core hc (Core.change_smStatus _) (Core.change_smpStatus _)
  have hw₁ := hw.planState (W := W) (n := n) hs hT
  simp only [Machine.changeState, Bool.false_eq_true, if_false]
  exact (hplan.executePending false).runState (hw₁.executePending false) _

theorem Awake.withStatus (h : m.Awake) {st : Status} (hst : st ≠ .paused) :
    Awake { m with smStatus := st } := ⟨hst, h.2⟩

theorem Awake.pendingThen (h : m.Awake) {st : Status} (hst : st ≠ .paused) :
    (m.pendingThen G W st).Awake := by
  have hp := h.executePending (G := G) (W := W) false
  simp only [Machine.pendingThen]
  split
  · next m₁ he =>
    rw [he] at hp
    exact hp.withStatus hst
  · next m₁ he =>
    rw [he] at hp
    exact hp

theorem Awake.enterInitialState (h : m.Awake) (hw : m.WellFormed G) :
    (m.enterInitialState G W).Awake := by
  have ha : (m.planActivate G W).Awake :=
    h.of_core (planActivate_plans (G := G) (W := W) hw.loaded).core rfl rfl
  have hp := ha.executePending (G := G) (W := W) false
  simp only [Machine.enterInitialState]
  split
  · exact ha
  · split
    · next m₁ he =>
      rw [he] at hp
      exact hp.withStatus (by simp)
    · next m₁ he =>
      rw [he] at hp
      split
      · exact hp
      · exact hp.withStatus (by simp)

theorem Awake.deactivate (h : m.Awake) (hw : m.WellFormed G) : (m.deactivate G W).2.Awake := by
  have hd : (m.planDeactivate G W).Awake := by
    by_cases hn : m.next = none ∨ m.current = none
    · exact h.of_core (planDeactivate_stalled (G := G) (W := W) hn).core rfl rfl
    · obtain ⟨hn, hc⟩ := not_or.mp hn
      obtain ⟨s, hs⟩ := Option.ne_none_iff_exists'.mp hc
      exact h.of_core (planDeactivate_leaving (G := G) (W := W) hw.loaded hn hs).core rfl rfl
  have hp := hd.executePending (G := G) (W := W) false
  simp only [Machine.deactivate]
  split
  · exact h
  · split
    · next m₁ he =>
      rw [he] at hp
      exact hp.withStatus (by simp)
    · next m₁ he =>
      rw [he] at hp
      exact hp.withStatus (by simp)

/-! ### Runs -/

/-- The machine is not stepped, and it is neither activated nor deactivated in the middle of a
change; nor is a program scheduled for a state that is about to be left. -/
def keepsChange (G : StateGraph σ π γ) (m : Machine σ π γ ω) : Operation σ → Prop
  | .pause => m.smStatus = .inactive ∨ m.smStatus = .unloaded
  | .activate => m.smStatus = .inactive → m.AtRest
  | .deactivate => m.smStatus ≠ .inactive → followed G [] m.log = some []
  | .automatic => m.smStatus ≠ .inactive → m.smStatus ≠ .unloaded → m.smStatus ≠ .error →
      m.next = none ∨ m.current = m.next
  | _ => True

instance (m : Machine σ π γ ω) : Decidable m.AtRest :=
  decidable_of_iff (m.current = none ∧ m.next = none ∧ m.currentTrans = none ∧
    m.currentExit = none ∧ m.currentEntry = none ∧ m.currentHandle = none ∧ m.currentRun = none)
    ⟨fun h => ⟨h.1, h.2.1, fun k => by cases k <;> simp [slot, h.2.2]⟩, fun h =>
      ⟨h.1, h.2.1, h.2.2 .trans, h.2.2 .exit, h.2.2 .entry, h.2.2 .handle, h.2.2 .run⟩⟩

instance (m : Machine σ π γ ω) (op : Operation σ) : Decidable (keepsChange G m op) :=
  match op with
  | .pause => inferInstanceAs (Decidable (_ ∨ _))
  | .activate => inferInstanceAs (Decidable (_ → _))
  | .deactivate => inferInstanceAs (Decidable (_ → _))
  | .automatic => inferInstanceAs (Decidable (_ → _ → _ → _ ∨ _))
  | .reactive | .stop | .step | .reset | .requestState _ | .event .. | .execute => .isTrue trivial

theorem inOrder_callRule :
    CallRule G W (keepsChange G) (fun m : Machine σ π γ ω => m.Guarded G ∧ m.Awake) where
  pending m stepping h _ hst := by
    cases stepping with
    | true => exact absurd (hst rfl) h.2.1
    | false => exact ⟨h.1.executePending, h.2.executePending false⟩
  searches m m' h hs _ := ⟨h.1.searches hs, h.2.searches hs⟩
  advances m m' h hs :=
    have ha : m'.Awake := h.2.searches hs
    ⟨(h.1.searches hs).record rfl, ha⟩
  changes m m' s n T h hin hc hT _ hs := by
    have hg := h.1.searches hs
    have hc' := hs.current.trans hc
    have hin' : m'.inTransition = false := by
      obtain ⟨it, he⟩ := hs
      rw [← hin]
      have hprog : m'.currentProg = m.currentProg := congrArg Core.currentProg he.core
      have hrun : m'.currentRun = m.currentRun := congrArg Core.currentRun he.core
      have hhandle : m'.currentHandle = m.currentHandle := congrArg Core.currentHandle he.core
      simp only [Machine.inTransition, hprog, hrun, hhandle]
    exact ⟨hg.changeState hin' hc' hT, (h.2.searches hs).changeState hg.wf hc' hT⟩
  steps m m' s n T h hst _ _ _ _ _ _ := absurd hst h.2.1
  status m st sp ms h hst := by
    refine ⟨h.1.withStatus (fun he => ?_) sp ms, fun hp => ?_, fun hp => h.2.2 (hst.2.2 hp)⟩
    · exact (hst.1.resolve_right fun hno => hno.2.2.1 he).symm.trans he
    · exact (hst.2.1 hp).elim h.2.1 h.2.2
  automatics m h hop h₁ h₂ h₃ := by
    have hg : Guarded G { m with smStatus := .running } :=
      h.1.withStatus (by simp) m.smpStatus m.mstep
    have ha : Awake { m with smStatus := .running } := ⟨by simp, h.2.2⟩
    exact ⟨hg.runCurrent (hop h₁ h₂ h₃) rfl, ha.runState hg.wf m.current⟩
  pauses m h hop hst := by
    have he : (m.pause W).2 = m := by
      simp only [Machine.pause]
      rw [if_neg fun hno => hop.elim hst hno.2]
    rw [he]
    exact h
  activates m m' w h hop hst he _ := by
    obtain ⟨sp, hop⟩ := hop
    have hr : m.AtRest := hop hst
    have hs : Searches G m { m' with world := w } :=
      he.searches.trans (Evaluates.world m' w).searches
    have hst' : m'.smStatus = .inactive := (congrArg Core.smStatus he.core).trans hst
    have hr' : AtRest { m' with world := w } := by
      refine ⟨(congrArg Core.current he.core).trans hr.1,
        (congrArg Core.next he.core).trans hr.2.1, fun k => ?_⟩
      exact (slot_core m he.core k).trans (hr.2.2 k)
    have hg := h.1.searches hs
    exact ⟨hg.enterInitialState hr' hst', (h.2.searches hs).enterInitialState hg.wf⟩
  deactivates m h hop hst := ⟨h.1.deactivate (hop hst), h.2.deactivate h.1.wf⟩
  settles m h hst := ⟨h.1.pendingThen (by simp), h.2.pendingThen (by simp)⟩

theorem loading_guarded (unloadOnStop : π → Bool) (w : ω) :
    (loading unloadOnStop w : Machine σ π γ ω).Guarded G := by
  refine ⟨⟨loading_wellFormed unloadOnStop w, fun k p _ hp => ?_, fun p hp => (by cases hp),
    fun _ => .inl rfl, fun _ => .inl rfl, [], rfl, .inl rfl⟩, fun ht => absurd rfl ht,
    fun he => (by cases he)⟩
  cases k <;> cases hp

/-- Every change from a state to another begins when nothing is left of the one before, and all
that follows it in the log, up to any moment, follows its tasks in their order. As long as some
are left, nothing may interrupt the machine. -/
theorem changes_in_order (unloadOnStop : π → Bool) (w : ω) (ops : List (Operation σ))
    (hops : (loading unloadOnStop w : Machine σ π γ ω).Calls G W (keepsChange G) ops)
    {later earlier : List (Event σ π γ)} {c : Change σ π}
    (hlog : ((loading unloadOnStop w : Machine σ π γ ω).runOps G W ops).log =
      later ++ .changeState c :: earlier)
    (hne : c.source ≠ some c.target) :
    followed G [] earlier = some [] ∧ ∃ ts, followed G (c.tasks G) later = some ts ∧
      (ts ≠ [] → ((loading unloadOnStop w : Machine σ π γ ω).runOps G W ops).inTransition =
        true) := by
  obtain ⟨hg, -⟩ := inOrder_callRule.runOps (W := W)
    ⟨loading_guarded unloadOnStop w, by simp [loading], by simp [loading]⟩ hops
  obtain ⟨ts, hts, hcase⟩ := hg.follows
  rw [hlog, followed_append] at hts
  obtain ⟨ts₁, h₁, hlater⟩ := Option.bind_eq_some_iff.mp hts
  obtain ⟨ts₀, h₀, hchange⟩ := Option.bind_eq_some_iff.mp (show
    ((followed G [] earlier).bind fun ts => follow G ts (.changeState c)) = some ts₁ from h₁)
  obtain ⟨rfl, htasks⟩ := follow_change (hchange.trans_ne (Option.some_ne_none ts₁)) hne
  obtain rfl : c.tasks G = ts₁ := Option.some.inj (htasks.symm.trans hchange)
  refine ⟨h₀, ts, hlater, fun ht => hg.inTransition ?_⟩
  rw [← hcase.resolve_left ht]
  exact ht

/-! ### A change that is given up -/

/-- Two states. The first has a run and an exit program; the second, which is the final one, an
entry program. -/
def abandonGraph : StateGraph Bool (Role Bool) Unit where
  states := [false, true]
  getName s := if s then "B" else "A"
  getEntryProgram s := if s then some (.entry true) else none
  getRunProgram s := if s then none else some (.run false)
  getHandleProgram _ := none
  getExitProgram s := if s then none else some (.exit false)
  stateMap _ := []
  globalMap := []
  precondMap _ := []
  eventMap _ := []
  initstate := false
  finistate := true
  role p := p
  entry_role s p h := by cases s <;> cases h; rfl
  run_role s p h := by cases s <;> cases h; rfl
  handle_role _ _ h := by cases h
  exit_role s p h := by cases s <;> cases h; rfl
  local_role _ _ ht := by cases ht
  global_role _ ht := by cases ht
  event_role _ _ he := by cases he
  local_sorted _ := .nil
  global_sorted := .nil

/-- Run programs fail; every second execution of another program finishes it. -/
def abandonSurroundings : Surroundings (Role Bool) Unit ℕ where
  evaluate _ w := (true, w)
  resetCondition _ w := w
  resetProgram _ w := w
  executeUntil p w := match p with
    | .run _ => (.failed, w)
    | _ => (if w % 2 = 0 then .waiting else .exited, w + 1)
  executeStep _ w := (.waiting, w)
  initCommand := none

/-- The machine after some calls. -/
def abandoned (ops : List (Operation Bool)) : Machine Bool (Role Bool) Unit ℕ :=
  (loading (fun _ => false) 0).runOps abandonGraph abandonSurroundings ops

/-- The changes of a log, newest first. -/
def changes (l : List (Event σ π γ)) : List (Option σ × σ) :=
  l.filterMap fun e => match e with
    | .changeState c => some (c.source, c.target)
    | _ => none

/-- The exit program of the first state is done when the machine is executed again. -/
theorem changes_in_order_waiting :
    followed abandonGraph [] ((abandoned [.activate, .requestState "B", .execute]).log.drop 9) =
        some [] ∧
      ∃ ts, followed abandonGraph (Change.tasks abandonGraph
          ⟨some false, some false, true, none, some (.exit false), some (.entry true), none,
            .active, some ⟨false, 0⟩⟩)
          ((abandoned [.activate, .requestState "B", .execute]).log.take 8) = some ts ∧
        (ts ≠ [] →
          (abandoned [.activate, .requestState "B", .execute]).inTransition = true) :=
  changes_in_order (fun _ => false) 0 [.activate, .requestState "B", .execute] (by decide)
    (by decide) (by decide)

/-- `deactivate` comes while the exit program waits. -/
def deactivated : Machine Bool (Role Bool) Unit ℕ :=
  abandoned [.activate, .requestState "B", .deactivate, .execute]

/-- The run program fails, the final state is asked for by `stop`, and `automatic` schedules the
run program again. -/
def overtaken : Machine Bool (Role Bool) Unit ℕ :=
  abandoned [.activate, .automatic, .execute, .stop, .execute, .automatic, .requestState "B"]

/-- Deactivated in the middle of a change, the machine starts the exit program a second time and
never executes the entry program that it had started. After an error, `automatic` makes it
interruptible in the middle of a change, which is then begun again. -/
theorem change_abandoned :
    (changes deactivated.log = [(some false, true)] ∧ deactivated.smStatus = .inactive ∧
        deactivated.log.count (.start (.exit false)) = 2 ∧
        .start (.entry true) ∈ deactivated.log ∧
        .execute (.entry true) .waiting ∉ deactivated.log ∧
        .execute (.entry true) .exited ∉ deactivated.log ∧
        followed abandonGraph [] deactivated.log = none) ∧
      changes overtaken.log = [(some false, true), (some false, true)] ∧
        .current (some true) ∉ overtaken.log ∧
        followed abandonGraph [] overtaken.log = none := by
  decide

end Machine
end OrocosRtt.StateMachine
