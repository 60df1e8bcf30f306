import OrocosRtt.StateMachine.Pointers

/-! A machine without a current state has no state to enter and no transition program left, so
that its next activation enters the initial state at once. -/
set_option linter.unusedSectionVars false

namespace OrocosRtt.StateMachine

open Library.Log Library.Early

variable {σ π γ ω : Type} [DecidableEq σ] [DecidableEq π]
variable {G : StateGraph σ π γ} {W : Surroundings π γ ω}

/-- A state takes a transition to itself only while it is not being left for good. -/
def Event.staysEntered (e : Event σ π γ) (_ : List (Event σ π γ)) : Prop :=
  match e with
  | .changeState c => c.source = some c.target → c.pending ≠ none
  | _ => True

instance (e : Event σ π γ) (l : List (Event σ π γ)) : Decidable (e.staysEntered l) :=
  match e with
  | .changeState _ => inferInstanceAs (Decidable (_ → _))
  | .guard .. | .precondition .. | .check _ | .resume _ | .advance | .fallback _
  | .leaveState _ | .handleState _ | .runState .. | .requestNextState _ | .start _
  | .execute .. | .current _ | .activate | .deactivate => .isTrue trivial

namespace Machine

/-- What a machine without a current state, or without one to be in, has no more. -/
structure Anchor (c : Core σ π) : Prop where
  entered : c.current = none → c.next = none
  idle : c.current = none → c.currentTrans = none
  leaving : c.next = none → c.currentHandle = none

theorem Anchor.of_some {c : Core σ π} {s n : σ} (hs : c.current = some s)
    (hn : c.next = some n) : Anchor c := by
  constructor
  · intro h
    rw [hs] at h
    cases h
  · intro h
    rw [hs] at h
    cases h
  · intro h
    rw [hn] at h
    cases h

/-! ### Programs that finish -/

/-- `m'` has the states of `m`, and none but its programs. -/
structure Shrinks (m m' : Machine σ π γ ω) : Prop where
  current : m'.current = m.current
  next : m'.next = m.next
  slot : ∀ k, m'.slot k = none ∨ m'.slot k = m.slot k

theorem Shrinks.rfl {m : Machine σ π γ ω} : m.Shrinks m := ⟨Eq.refl _, Eq.refl _, fun _ => .inr (Eq.refl _)⟩

theorem Shrinks.anchor {m m' : Machine σ π γ ω} (h : m.Shrinks m') (ha : Anchor m.core) :
    Anchor m'.core := by
  constructor
  · intro hc
    exact h.next.trans (ha.entered (h.current.symm.trans hc))
  · intro hc
    rcases h.slot .trans with ht | ht
    · exact ht
    · exact ht.trans (ha.idle (h.current.symm.trans hc))
  · intro hn
    rcases h.slot .handle with hh | hh
    · exact hh
    · exact hh.trans (ha.leaving (h.next.symm.trans hn))

theorem Advanced.shrinks {p : π} {m m' : Machine σ π γ ω} (h : Advanced p m m') : m.Shrinks m' :=
  ⟨h.current, h.next, fun k => .inr (h.slot k)⟩

theorem Shrinks.withStatus {m m' : Machine σ π γ ω} (h : m.Shrinks m') (st : Status)
    (sp : PrivateStatus) : m.Shrinks { m' with smStatus := st, smpStatus := sp } := by
  refine ⟨h.current, h.next, fun k => ?_⟩
  have hk := h.slot k
  cases k <;> exact hk

theorem Shrinks.withProg {m m' : Machine σ π γ ω} (h : m.Shrinks m') (o : Option π) :
    m.Shrinks { m' with currentProg := o } :=
  ⟨h.current, h.next, fun k => by rw [slot_withProg]; exact h.slot k⟩

theorem Shrinks.clear {m m' : Machine σ π γ ω} (h : m.Shrinks m') (k : Slot) :
    m.Shrinks (m'.clear k) := by
  refine ⟨(clear_current _ k).trans h.current, (clear_next _ k).trans h.next, fun j => ?_⟩
  rw [slot_clear]
  split
  · exact .inl (Eq.refl _)
  · exact h.slot j

theorem executeStage_shrinks (k : Slot) (stepping : Bool) (after : Machine σ π γ ω → Option π)
    (m : Machine σ π γ ω) :
    Ends (m.executeStage W k stepping after) m.Shrinks (fun r => m.Shrinks r.2) := by
  have hp : m.Shrinks (m.executeProgram W k stepping).2 := by
    cases hk : m.slot k with
    | none =>
      rw [show m.executeProgram W k stepping = (false, m) by simp [executeProgram, hk]]
      exact .rfl
    | some p =>
      have ha := (advanceProgram_advanced (W := W) stepping p m).shrinks
      obtain ⟨he, -⟩ | ⟨he, -⟩ | ⟨he, -⟩ := executeProgram_cases (W := W) stepping hk
      · rw [he]; exact ha
      · rw [he]; exact ha.withStatus _ _
      · rw [he]; exact (ha.withProg none).clear k
  simp only [executeStage]
  split
  · next m₁ he => rw [he] at hp; exact hp
  · next m₁ he =>
    rw [he] at hp
    split
    · exact hp.withProg _
    · exact hp

theorem pendingSlot_shrinks (k : Slot) (stepping : Bool) (after : Machine σ π γ ω → Option π)
    (m : Machine σ π γ ω) :
    Ends (m.pendingSlot W k stepping after) m.Shrinks (fun r => m.Shrinks r.2) := by
  simp only [pendingSlot]
  split
  · exact .rfl
  · exact executeStage_shrinks k stepping after m

theorem pendingTrans_shrinks (stepping : Bool) (m : Machine σ π γ ω) :
    Ends (m.pendingTrans W stepping) m.Shrinks (fun r => m.Shrinks r.2) := by
  simp only [pendingTrans]
  split
  · exact .rfl
  · exact executeStage_shrinks _ stepping _ m

/-- Without a handle in progress the transition program is done first. -/
theorem pendingTrans_finishes (stepping : Bool) {m : Machine σ π γ ω}
    (h : m.currentHandle = none) :
    Ends (m.pendingTrans W stepping) (fun m' => m'.currentTrans = none) (fun _ => True) := by
  simp only [pendingTrans]
  split
  · next ht => exact ht
  · refine (executeStage_ends .trans _ m).imp (fun m' hf => ?_) fun _ _ => trivial
    have ht : m'.slot .trans = none := by simpa using hf.2.slot .trans
    exact ht

/-! ### `executePending` -/

theorem Anchor.executePending {m : Machine σ π γ ω} (h : Anchor m.core) (stepping : Bool) :
    Anchor (m.executePending G W stepping).2.core := by
  by_cases hst : m.smStatus = .error
  · rw [executePending_inError hst]
    exact h
  rw [executePending_eq hst]
  -- from the exit program on, a machine with no state to be in has no transition program
  let P : Machine σ π γ ω → Prop := fun m =>
    Anchor m.core ∧ (m.next = none → m.currentTrans = none)
  let Q : Bool × Machine σ π γ ω → Prop := fun r => Anchor r.2.core
  have hkeeps {m m' : Machine σ π γ ω} (hm : P m) (hs : m.Shrinks m') : P m' := by
    refine ⟨hs.anchor hm.1, fun hn => ?_⟩
    rcases hs.slot .trans with ht | ht
    · exact ht
    · exact ht.trans (hm.2 (hs.next.symm.trans hn))
  have hslot (k : Slot) (after : Machine σ π γ ω → Option π) {m : Machine σ π γ ω} (hm : P m) :
      Ends (m.pendingSlot W k stepping after) P Q :=
    (pendingSlot_shrinks k stepping after m).imp (fun _ hs => hkeeps hm hs)
      fun _ hs => hs.anchor hm.1
  refine Ends.result (Q := Q) ?_
  have ht : Ends (m.pendingTrans W stepping) P Q := by
    by_cases hn : m.next = none
    · refine ((pendingTrans_shrinks stepping m).and
        (pendingTrans_finishes stepping (h.leaving hn))).imp ?_ fun _ hs => hs.1.anchor h
      exact fun m' hs => ⟨hs.1.anchor h, fun _ => hs.2⟩
    · refine (pendingTrans_shrinks stepping m).imp ?_ fun _ hs => hs.anchor h
      exact fun m' hs => ⟨hs.anchor h, fun hn' => absurd (hs.next.symm.trans hn') hn⟩
  refine ht.bind fun m hm => ?_
  refine (hslot .exit _ hm).bind fun m hm => ?_
  have hc : Ends (m.pendingChange G) P Q := by
    simp only [pendingChange]
    split
    · exact hm
    · split
      · next hn => exact ⟨fun _ => hn, fun _ => hm.2 hn, hm.1.leaving⟩
      · next n hn => exact ⟨.of_some rfl hn, fun hn' => absurd (hn.symm.trans hn') (by simp)⟩
  refine hc.bind fun m hm => ?_
  refine (hslot .entry _ hm).bind fun m hm => ?_
  refine (hslot .handle _ hm).bind fun m hm => ?_
  refine (hslot .run _ hm).bind fun m hm => ?_
  exact hm.1

/-- When there is nothing to leave, the next state is entered at once. -/
theorem executePending_enters {m : Machine σ π γ ω} {n : σ} {stepping : Bool}
    (hst : m.smStatus ≠ .error) (ht : m.currentTrans = none) (hx : m.currentExit = none)
    (hn : m.next = some n) : (m.executePending G W stepping).2.current = some n := by
  have hx : m.slot .exit = none := hx
  rw [executePending_eq hst, pendingTrans_none ht, ok_bind, pendingExit, pendingSlot_none hx,
    ok_bind]
  have hslot (k : Slot) (after : Machine σ π γ ω → Option π) {m : Machine σ π γ ω}
      (hm : m.current = some n) :
      Ends (m.pendingSlot W k stepping after) (fun m => m.current = some n)
        (fun r => r.2.current = some n) :=
    (pendingSlot_shrinks k stepping after m).imp (fun _ hs => hs.current.trans hm)
      fun _ hs => hs.current.trans hm
  refine Ends.result (Q := fun r : Bool × Machine σ π γ ω => r.2.current = some n) ?_
  have hc : Ends (m.pendingChange G) (fun m => m.current = some n)
      (fun r => r.2.current = some n) := by
    by_cases hcn : m.current = m.next
    · rw [pendingChange_stays hcn]
      exact hcn.trans hn
    · rw [pendingChange_becomes hcn hn]
      rfl
  refine hc.bind fun m hm => ?_
  refine (hslot .entry _ hm).bind fun m hm => ?_
  refine (hslot .handle _ hm).bind fun m hm => ?_
  exact (hslot .run _ hm).bind fun m hm => hm

/-! ### Changes -/

section Change

variable {m : Machine σ π γ ω} {s n : σ} {T : Option π}

theorem planState_current (hw : m.WellFormed G) (hs : m.current = some s)
    (hT : ∀ p, T = some p → G.role p = .transition) :
    (m.planState G W n T).current = some s := by
  have h₀ := hw.record (.changeState (m.change G n T))
  simp only [planState]
  split
  · cases T with
    | some p => exact (congrArg Core.current (planSelf_some_plans (G := G) h₀.loaded hs).core).trans hs
    | none =>
      by_cases hh : m.currentHandle = none
      · exact (congrArg Core.current (planSelf_none_plans (G := G) h₀.loaded hs hh).core).trans hs
      · simpa [Machine.planSelf, Machine.record, hh] using hs
  · exact (congrArg Core.current (planChange_plans h₀ hs hT).core).trans
      ((Core.change_current _).trans hs)

theorem planState_next (hw : m.WellFormed G) (hs : m.current = some s)
    (hT : ∀ p, T = some p → G.role p = .transition) :
    (m.planState G W n T).next = if some n = m.current then m.next else some n := by
  have h₀ := hw.record (.changeState (m.change G n T))
  simp only [planState]
  split
  · next he =>
    have he : some n = m.current := he
    rw [if_pos he]
    cases T with
    | some p => exact congrArg Core.next (planSelf_some_plans (G := G) h₀.loaded hs).core
    | none =>
      by_cases hh : m.currentHandle = none
      · exact congrArg Core.next (planSelf_none_plans (G := G) h₀.loaded hs hh).core
      · simp [Machine.planSelf, Machine.record, hh]
  · next he =>
    have he : ¬ some n = m.current := he
    rw [if_neg he]
    exact (congrArg Core.next (planChange_plans h₀ hs hT).core).trans (Core.change_next _)

theorem runState_frame (hw : m.WellFormed G) (o : Option σ) :
    (m.runState G W o).current = m.current ∧ (m.runState G W o).next = m.next ∧
      (m.runState G W o).currentTrans = m.currentTrans ∧
      (m.runState G W o).currentHandle = m.currentHandle := by
  cases o with
  | none => exact ⟨rfl, rfl, rfl, rfl⟩
  | some s =>
    have hc := (runState_plans (G := G) (W := W) s hw.loaded).core
    exact ⟨congrArg Core.current hc, congrArg Core.next hc, congrArg Core.currentTrans hc,
      congrArg Core.currentHandle hc⟩

theorem Anchor.runState (h : Anchor m.core) (hw : m.WellFormed G) (o : Option σ) :
    Anchor (m.runState G W o).core := by
  obtain ⟨hc, hn, ht, hh⟩ := runState_frame (W := W) hw o
  constructor
  · intro hc'
    exact hn.trans (h.entered (hc.symm.trans hc'))
  · intro hc'
    exact ht.trans (h.idle (hc.symm.trans hc'))
  · intro hn'
    exact hh.trans (h.leaving (hn.symm.trans hn'))

/-- A change leaves the machine with a state to be in. -/
theorem changeState_next (hw : m.WellFormed G) (hs : m.current = some s)
    (hT : ∀ p, T = some p → G.role p = .transition) (stepping : Bool) :
    (m.changeState G W n T stepping).next = if some n = m.current then m.next else some n := by
  have hp := planState_next (W := W) (n := n) hw hs hT
  have hw' := hw.planState (W := W) (n := n) hs hT
  simp only [changeState]
  split
  · exact (runState_frame hw' _).2.1.trans hp
  · rw [(runState_frame (hw'.executePending stepping) _).2.1, executePending_next, hp]

theorem changeState_next_ne (hw : m.WellFormed G) (hs : m.current = some s)
    (hT : ∀ p, T = some p → G.role p = .transition) {stepping : Bool}
    (hl : Throughout Event.staysEntered (m.changeState G W n T stepping).log) :
    (m.changeState G W n T stepping).next ≠ none := by
  have hok := ((hl.of_suffix (changeState_log n T stepping m)).of_suffix (planState_log n T m)).1
  rw [changeState_next hw hs hT]
  split
  · next he => exact hok he.symm
  · simp

theorem Anchor.changeState (hw : m.WellFormed G) (hs : m.current = some s)
    (hT : ∀ p, T = some p → G.role p = .transition) {stepping : Bool}
    (hl : Throughout Event.staysEntered (m.changeState G W n T stepping).log) :
    Anchor (m.changeState G W n T stepping).core := by
  have hok := ((hl.of_suffix (changeState_log n T stepping m)).of_suffix (planState_log n T m)).1
  have hw' := hw.planState (W := W) (n := n) hs hT
  have hnext : ∃ n', (m.planState G W n T).next = some n' := by
    rw [planState_next hw hs hT]
    split
    · next he => exact Option.ne_none_iff_exists'.mp (hok he.symm)
    · exact ⟨n, rfl⟩
  obtain ⟨n', hn'⟩ := hnext
  have hp : Anchor (m.planState G W n T).core := .of_some (planState_current hw hs hT) hn'
  simp only [Machine.changeState]
  split
  · exact hp.runState hw' _
  · exact (hp.executePending stepping).runState (hw'.executePending stepping) _

end Change

/-! ### Calls -/

structure Anchored (G : StateGraph σ π γ) (m : Machine σ π γ ω) : Prop where
  wf : m.WellFormed G
  anchor : Anchor m.core

theorem Anchored.withStatus {m : Machine σ π γ ω} (h : m.Anchored G) (st : Status)
    (sp : PrivateStatus) (b : Bool) :
    Anchored G { m with smStatus := st, smpStatus := sp, mstep := b } :=
  ⟨h.wf.withStatus st sp b, ⟨h.anchor.entered, h.anchor.idle, h.anchor.leaving⟩⟩

theorem Anchored.executePending {m : Machine σ π γ ω} (h : m.Anchored G) (stepping : Bool) :
    (m.executePending G W stepping).2.Anchored G :=
  ⟨h.wf.executePending stepping, h.anchor.executePending stepping⟩

theorem Anchored.searches {m m' : Machine σ π γ ω} (h : m.Anchored G) (hs : Searches G m m') :
    m'.Anchored G := by
  refine ⟨hs.wellFormed h.wf, ?_⟩
  obtain ⟨it, he⟩ := hs
  rw [he.core]
  exact ⟨h.anchor.entered, h.anchor.idle, h.anchor.leaving⟩

theorem Anchored.pendingThen {m : Machine σ π γ ω} (h : m.Anchored G) (st : Status) :
    (m.pendingThen G W st).Anchored G := by
  have hp := h.executePending (W := W) false
  simp only [Machine.pendingThen]
  split
  · next m₁ he => rw [he] at hp; exact hp.withStatus _ _ _
  · next m₁ he => rw [he] at hp; exact hp

theorem Anchored.planDeactivate {m : Machine σ π γ ω} (h : m.Anchored G) :
    (m.planDeactivate G W).Anchored G := by
  refine ⟨h.wf.planDeactivate, ?_⟩
  by_cases hn : m.next = none ∨ m.current = none
  · rw [(planDeactivate_stalled (W := W) hn).core]
    exact ⟨fun _ => rfl, fun _ => rfl, fun _ => rfl⟩
  · obtain ⟨hn, hc⟩ := not_or.mp hn
    obtain ⟨s, hs⟩ := Option.ne_none_iff_exists'.mp hc
    rw [(planDeactivate_leaving (W := W) h.wf.loaded hn hs).core]
    exact ⟨fun _ => rfl, fun hc' => absurd hc' hc, fun _ => rfl⟩

theorem Anchored.deactivate {m : Machine σ π γ ω} (h : m.Anchored G) :
    (m.deactivate G W).2.Anchored G := by
  have hp := (h.planDeactivate (W := W)).executePending (W := W) false
  simp only [Machine.deactivate]
  split
  · exact h
  · split <;> next m₁ he => rw [he] at hp; exact hp.withStatus _ _ _

theorem Anchored.enterInitialState {m : Machine σ π γ ω} (h : m.Anchored G)
    (hst : m.smStatus = .inactive) : (m.enterInitialState G W).Anchored G := by
  have hpl := planActivate_plans (G := G) (W := W) h.wf.loaded
  have hw := h.wf.planActivate (W := W)
  have hn : (m.planActivate G W).next = some G.initstate := congrArg Core.next hpl.core
  have hst' : (m.planActivate G W).smStatus ≠ .error := by
    rw [show (m.planActivate G W).smStatus = .inactive from
      (congrArg Core.smStatus hpl.core).trans hst]
    decide
  have hp : ((m.planActivate G W).executePending G W false).2.Anchored G := by
    refine ⟨hw.executePending false, ?_⟩
    cases hc : m.current with
    | some s =>
      have hc' : (m.planActivate G W).current = some s :=
        (congrArg Core.current hpl.core).trans hc
      have ha : Anchor (m.planActivate G W).core := .of_some hc' hn
      exact ha.executePending false
    | none =>
      -- there is nothing to leave
      have ht : (m.planActivate G W).currentTrans = none :=
        (congrArg Core.currentTrans hpl.core).trans (h.anchor.idle hc)
      have hx : (m.planActivate G W).currentExit = none := by
        refine (congrArg Core.currentExit hpl.core).trans
          (Option.eq_none_iff_forall_ne_some.mpr fun p hp => ?_)
        obtain ⟨s, hs, -⟩ := h.wf.fits.exit p hp
        exact absurd (hc.symm.trans hs) (by simp)
      exact .of_some (executePending_enters hst' ht hx hn)
        ((executePending_next false _).trans hn)
  have hne : (m.planActivate G W).inError = false := by simpa [inError] using hst'
  simp only [Machine.enterInitialState, hne, Bool.false_eq_true, if_false]
  split
  · next m₁ he => rw [he] at hp; exact hp.withStatus _ _ _
  · next m₁ he =>
    rw [he] at hp
    split
    · exact hp
    · exact hp.withStatus _ _ _

theorem Executed.anchored {p : π} {m m' : Machine σ π γ ω} (he : Executed p m m')
    (h : m.Anchored G) : m'.Anchored G :=
  ⟨he.wellFormed h.wf, he.core ▸ h.anchor⟩

theorem Anchored.pause {m : Machine σ π γ ω} (h : m.Anchored G) : (m.pause W).2.Anchored G := by
  simp only [Machine.pause]
  split
  · split
    · next p _ => exact ((pauseProgram_executed p m).anchored h).withStatus _ _ _
    · exact h.withStatus _ _ _
  · exact h

theorem loading_anchored (unloadOnStop : π → Bool) (w : ω) :
    (loading unloadOnStop w : Machine σ π γ ω).Anchored G :=
  ⟨loading_wellFormed unloadOnStop w, ⟨fun _ => rfl, fun _ => rfl, fun _ => rfl⟩⟩

end Machine
end OrocosRtt.StateMachine
