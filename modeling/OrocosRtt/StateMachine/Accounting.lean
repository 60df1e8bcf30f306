import OrocosRtt.StateMachine.Pointers

/-! Keeping account of the programs of a state machine: the current one is pending, and
what is pending can go on. Shown of everything a call is put together from. -/
set_option linter.unusedSectionVars false

namespace OrocosRtt

/-- An execution of the program goes on with it, or finds it failed. -/
def Program.Live (p : Program) : Prop := p.pStatus = .running ∨ p.pStatus = .error

namespace StateMachine

open Library.Log

variable {σ π γ ω : Type} [DecidableEq σ] [DecidableEq π]

/-- A change to another state takes the place of the program it interrupts, a run program
is scheduled over itself only, and states are changed only while the machine is active. -/
def Event.keepsProgram (G : StateGraph σ π γ) (e : Event σ π γ)
    (_ : List (Event σ π γ)) : Prop :=
  match e with
  | .changeState c =>
    c.status ≠ .inactive ∧ (c.source = some c.target ∨ c.interrupted = none ∨
      c.status ≠ .error ∧
        (c.transprog ≠ none ∨ c.exitprog ≠ none ∨ c.entryprog ≠ none))
  | .runState (some s) prog run => prog ≠ none → prog = run → G.getRunProgram s = prog
  | _ => True

instance (G : StateGraph σ π γ) (e : Event σ π γ) (l : List (Event σ π γ)) :
    Decidable (e.keepsProgram G l) :=
  match e with
  | .changeState _ => inferInstanceAs (Decidable (_ ∧ _))
  | .runState (some _) _ _ => inferInstanceAs (Decidable (_ → _ → _))
  | .runState none _ _ | .guard .. | .precondition .. | .check _ | .resume _ | .advance
  | .fallback _ | .leaveState _ | .handleState _ | .requestNextState _ | .start _
  | .execute .. | .current _ | .activate | .deactivate => .isTrue trivial

namespace Machine

variable {G : StateGraph σ π γ} {W : Surroundings π γ ω}

/-- The current program is pending, and what is pending can go on. -/
structure Provided (G : StateGraph σ π γ) (m : Machine σ π γ ω) : Prop where
  wf : m.WellFormed G
  held : m.Held
  live : ∀ k p, k ≠ .run → m.slot k = some p → (m.programs p).Live
  busy : m.smStatus = .error → m.currentProg ≠ none

/-- Nothing waits in a state that was left but its exit and a transition. -/
structure Accounted (G : StateGraph σ π γ) (m : Machine σ π γ ω) : Prop
    extends Provided G m where
  leaving : m.next = none → m.current ≠ none → m.currentTrans = none →
    m.currentExit = none → m.interruptible = true

theorem interruptible_iff {m : Machine σ π γ ω} :
    m.interruptible = true ↔ m.currentProg = none ∨ m.currentProg = m.currentRun := by
  simp [interruptible]

theorem interruptible_core {m m' : Machine σ π γ ω} (hp : m'.currentProg = m.currentProg)
    (hr : m'.currentRun = m.currentRun) : m'.interruptible = m.interruptible := by
  simp [interruptible, hp, hr]

/-- The same pointers and programs. -/
theorem Accounted.congr {m m' : Machine σ π γ ω} (h : m.Accounted G)
    (hw : m'.WellFormed G) (hs : m'.slot = m.slot) (hp : m'.currentProg = m.currentProg)
    (hr : m'.programs = m.programs) (hst : m'.smStatus = .error → m.smStatus = .error)
    (hn : m'.next = m.next) (hc : m'.current = m.current) : m'.Accounted G where
  wf := hw
  held p hmp := by
    rw [hs]
    exact h.held p (hp ▸ hmp)
  live k p hk hkp := by
    rw [hr]
    exact h.live k p hk (hs ▸ hkp)
  busy he := hp ▸ h.busy (hst he)
  leaving h₁ h₂ h₃ h₄ := by
    have ht : m.currentTrans = none := (congrFun hs .trans).symm.trans h₃
    have hx : m.currentExit = none := (congrFun hs .exit).symm.trans h₄
    rw [interruptible_core hp (congrFun hs .run)]
    exact h.leaving (hn ▸ h₁) (hc ▸ h₂) ht hx

theorem Accounted.withStatus {m : Machine σ π γ ω} (h : m.Accounted G) {st : Status}
    (hst : st = .error → m.smStatus = .error) (sp : PrivateStatus) (b : Bool) :
    Accounted G { m with smStatus := st, smpStatus := sp, mstep := b } :=
  h.congr (h.wf.withStatus _ _ _) (by funext k; cases k <;> rfl) rfl rfl hst rfl rfl

/-! ### Work that is pending -/

/-- An execution leaves a live program live, or stopped. -/
theorem advanceProgram_live {p : π} {m : Machine σ π γ ω} (stepping : Bool)
    (h : (m.programs p).Live) (hp : (m.programs p).pausing = false) :
    ((m.advanceProgram W stepping p).programs p).Live ∨
      ((m.advanceProgram W stepping p).programs p).isStopped = true := by
  obtain h | h := h
  · cases stepping with
    | true => exact .inl (.inl (by rw [advanceProgram_stepping h, h]))
    | false =>
      obtain ⟨o, ho, -⟩ := advanceProgram_running (W := W) h hp
      rw [ho]
      cases o
      · exact .inl (.inl h)
      · exact .inr rfl
      · exact .inl (.inr rfl)
  · refine .inl (.inr ?_)
    cases stepping <;>
      simp [advanceProgram, stepProgram, Program.step, execProgram, Program.beginExecute,
        setProgram, h, hp]

theorem Advanced.held {p : π} {k : Slot} {m m' : Machine σ π γ ω} (ha : Advanced p m m')
    (hk : m.slot k = some p) : m'.Held := by
  intro q hq
  rw [ha.currentProg] at hq
  cases hq
  exact ⟨k, (ha.slot k).trans hk⟩

/-- The other pointers hold other programs, which are not touched. -/
theorem Advanced.live_others {p : π} {k : Slot} {m m' : Machine σ π γ ω}
    (ha : Advanced p m m') (h : m.Accounted G) (hk : m.slot k = some p) {j : Slot} {q : π}
    (hj : j ≠ .run) (hjk : j ≠ k) (hq : m'.slot j = some q) : (m'.programs q).Live := by
  rw [ha.slot] at hq
  have hne : q ≠ p := by
    rintro rfl
    exact hjk (h.wf.fits.slot_unique hq hk)
  rw [ha.others q hne]
  exact h.live j q hj hq

/-- In a state that is being left only a transition and the exit have their turn. -/
theorem Turn.leaving {m : Machine σ π γ ω} {k : Slot} (ht : m.Turn k) (h₁ : m.next = none)
    (h₂ : m.current ≠ none) (h₃ : m.currentTrans = none) (h₄ : m.currentExit = none) (p : π) :
    m.slot k ≠ some p := by
  have hno : m.current ≠ m.next := by rw [h₁]; exact h₂
  cases k with
  | trans => exact fun hk => absurd (h₃.symm.trans hk) (by simp)
  | exit => exact fun hk => absurd (h₄.symm.trans hk) (by simp)
  | entry => exact absurd ht.2 hno
  | handle => exact ht.elim (absurd h₃) fun ht => absurd ht.2.1 hno
  | run => exact absurd ht.2.1 hno

/-- Leaving a state that has nothing but its handle left. -/
theorem Provided.leaves {m : Machine σ π γ ω} (h : m.Provided G) (hx : m.currentExit = none) :
    Accounted G ({ m with current := none }.record (.current none)) where
  wf := h.wf.of_core rfl
    { h.wf.fits with exit := fun p hp => by simp [Machine.record, hx] at hp }
  held p hp := by
    obtain ⟨k, hk⟩ := h.held p hp
    exact ⟨k, by rw [← hk]; cases k <;> rfl⟩
  live k p hk hkp := h.live k p hk (by rw [← hkp]; cases k <;> rfl)
  busy := h.busy
  leaving _ h _ _ := absurd rfl h

theorem accounted_pendingRule (stepping : Bool) :
    PendingRule G W stepping (fun m => m.Accounted G) := by
  have hw := wellFormed_pendingRule (G := G) (W := W) stepping
  refine ⟨?_, ?_, ?_, ?_, ?_, ?_⟩
  · intro m k p h hst hk ht he hs
    have ha := advanceProgram_advanced (W := W) stepping p m
    refine ⟨⟨hw.waits m k p h.wf hst hk ht he hs, ha.held hk, fun j q hj hq => ?_, fun _ => ?_⟩, ?_⟩
    · by_cases hjk : j = k
      · rw [hjk, ha.slot, hk] at hq
        cases hq
        have hl := h.live k p (hjk ▸ hj) hk
        exact (advanceProgram_live stepping hl (h.wf.pausing p)).resolve_right (by simp [hs])
      · exact ha.live_others h hk hj hjk hq
    · simp [ha.currentProg]
    · intro h₁ h₂ h₃ h₄
      exact absurd hk (ht.leaving (ha.next.symm.trans h₁) (fun hc => h₂ (ha.current.trans hc))
        ((ha.slot .trans).symm.trans h₃) ((ha.slot .exit).symm.trans h₄) p)
  · intro m k p h hst hk ht he
    have ha := advanceProgram_advanced (W := W) stepping p m
    have hslot (j : Slot) : slot { m.advanceProgram W stepping p with
        smStatus := .error, smpStatus := .nill } j = m.slot j := by
      rw [← ha.slot j]
      cases j <;> rfl
    refine ⟨⟨hw.fails m k p h.wf hst hk ht he, ?_, fun j q hj hq => ?_, fun _ => ?_⟩, ?_⟩
    · intro q hq
      have hq : (m.advanceProgram W stepping p).currentProg = some q := hq
      rw [ha.currentProg] at hq
      cases hq
      exact ⟨k, (hslot k).trans hk⟩
    · rw [hslot] at hq
      by_cases hjk : j = k
      · rw [hjk, hk] at hq
        cases hq
        exact .inr (by simpa [Program.inError] using he)
      · exact ha.live_others h hk hj hjk ((ha.slot j).trans hq)
    · simp [ha.currentProg]
    · intro h₁ h₂ h₃ h₄
      exact absurd hk (ht.leaving (ha.next.symm.trans h₁) (fun hc => h₂ (ha.current.trans hc))
        ((hslot .trans).symm.trans h₃) ((hslot .exit).symm.trans h₄) p)
  · intro m k p h hst hk ht hs
    have ha := advanceProgram_advanced (W := W) stepping p m
    have hprog : ({ m.advanceProgram W stepping p with currentProg := none }.clear k :
        Machine σ π γ ω).currentProg = none := clear_currentProg _ k
    refine ⟨⟨hw.done m k p h.wf hst hk ht hs, ?_, fun j q hj hq => ?_, fun he => ?_⟩, ?_⟩
    · intro q hq
      rw [hprog] at hq
      cases hq
    · rw [slot_clear, slot_withProg] at hq
      rw [clear_programs]
      split at hq
      · cases hq
      · next hjk => exact ha.live_others h hk hj hjk hq
    · rw [clear_smStatus] at he
      exact absurd (ha.smStatus.symm.trans he) hst
    · intro _ _ _ _
      exact interruptible_iff.mpr (.inl hprog)
  · intro hstep m o h hst ho
    refine ⟨⟨hw.after hstep m o h.wf hst ho, ?_, ?_, fun he => absurd he hst⟩, ?_⟩
    · intro p hp
      obtain ⟨k, -, -, hk⟩ := ho p hp
      exact ⟨k, (slot_withProg m o k).trans hk⟩
    · exact fun k p hk hkp => h.live k p hk ((slot_withProg m o k).symm.trans hkp)
    · intro h₁ _ _ h₄
      refine interruptible_iff.mpr ?_
      cases o with
      | none => exact .inl rfl
      | some p =>
        obtain ⟨k, hkt, hkh, hk⟩ := ho p rfl
        cases k with
        | trans => exact absurd rfl hkt
        | handle => exact absurd rfl hkh
        | exit => exact absurd ((h₄ : m.currentExit = none).symm.trans hk) (by simp)
        | entry =>
          obtain ⟨s, hs, -⟩ := h.wf.fits.entry p hk
          exact absurd ((h₁ : m.next = none).symm.trans hs) (by simp)
        | run => exact .inr hk.symm
  · exact fun m h _ hx _ _ => h.toProvided.leaves hx
  · intro m n h hst hx hn hc
    refine ⟨⟨hw.becomes m n h.wf hst hx hn hc, fun p hp => ?_, fun k p hk hkp => ?_, h.busy⟩, ?_⟩
    · obtain ⟨k, hk⟩ := h.held p hp
      exact ⟨k, by rw [← hk]; cases k <;> rfl⟩
    · exact h.live k p hk (by rw [← hkp]; cases k <;> rfl)
    · intro h₁
      have h₁ : m.next = none := h₁
      rw [hn] at h₁
      cases h₁

theorem Accounted.executePending {m : Machine σ π γ ω} (h : m.Accounted G)
    (stepping : Bool) : (m.executePending G W stepping).2.Accounted G :=
  (accounted_pendingRule stepping).executePending h

/-! ### Plans -/

/-- A plan starts the programs it puts in the pointers. -/
theorem Provided.of_plans {c : Core σ π} {ps : List π} {l : List (Event σ π γ)}
    {m m' : Machine σ π γ ω} (h : m.Provided G) (hp : Plans c ps l m m')
    (hw : m'.WellFormed G)
    (hs : ∀ j p, j ≠ .run → m'.slot j = some p → p ∈ ps ∨ m.slot j = some p)
    (hheld : m'.Held) (hbusy : m'.smStatus = .error → m'.currentProg ≠ none) :
    m'.Provided G where
  wf := hw
  held := hheld
  live j p hj hjp := by
    rw [hp.programs]
    split
    · exact .inl rfl
    · next hps => exact h.live j p hj ((hs j p hj hjp).resolve_left hps)
  busy := hbusy

theorem Accounted.record {m : Machine σ π γ ω} (h : m.Accounted G) (e : Event σ π γ) :
    (m.record e).Accounted G :=
  h.congr (h.wf.record e) (by funext k; cases k <;> rfl) rfl rfl id rfl rfl

theorem Searches.accounted {m m' : Machine σ π γ ω} (hs : Searches G m m')
    (h : m.Accounted G) : m'.Accounted G := by
  obtain ⟨it, he⟩ := hs
  have hc := he.core
  refine h.congr (he.wellFormed ⟨h.wf.loaded, h.wf.pausing,
    h.wf.fits.congr rfl rfl rfl rfl rfl rfl rfl rfl⟩) ?_ (congrArg Core.currentProg hc)
    he.programs (fun hst => (congrArg Core.smStatus hc).symm.trans hst)
    (congrArg Core.next hc) (congrArg Core.current hc)
  funext k
  rw [slot_core _ hc k]
  cases k <;> rfl

/-- Scheduling a run program over the one that is scheduled already, or over none. -/
theorem Accounted.runState {m : Machine σ π γ ω} (h : m.Accounted G) (s : Option σ)
    (hl : Throughout (Event.keepsProgram G) (m.runState G W s).log) :
    (m.runState G W s).Accounted G := by
  cases s with
  | none => exact h.record _
  | some s =>
    have hp := runState_plans (G := G) (W := W) s h.wf.loaded
    have hkeep : m.currentProg ≠ none → m.currentProg = m.currentRun →
        G.getRunProgram s = m.currentProg :=
      (hl.of_suffix (runState_log (some s) m)).1
    have hprog : (m.runState G W (some s)).currentProg =
        m.currentProg.or (G.getRunProgram s) := congrArg Core.currentProg hp.core
    have hrun : (m.runState G W (some s)).currentRun = G.getRunProgram s :=
      congrArg Core.currentRun hp.core
    have hslot (j : Slot) (hj : j ≠ .run) : (m.runState G W (some s)).slot j = m.slot j := by
      rw [hp.slot j (r := { m with
        currentRun := G.getRunProgram s
        currentProg := m.currentProg.or (G.getRunProgram s) }) rfl]
      cases j with
      | run => exact absurd rfl hj
      | _ => rfl
    refine ⟨h.of_plans hp (h.wf.runState (some s)) (fun j p hj hjp => .inr (hslot j hj ▸ hjp))
      ?_ ?_, ?_⟩
    · intro p hmp
      cases hm : m.currentProg with
      | none =>
        rw [hprog, hm, Option.none_or] at hmp
        exact ⟨.run, hrun.trans hmp⟩
      | some q =>
        rw [hprog, hm, Option.some_or] at hmp
        cases hmp
        obtain ⟨k, hk⟩ := h.held p hm
        by_cases hkr : k = .run
        · rw [hkr] at hk
          exact ⟨.run, hrun.trans ((hkeep (by simp [hm]) (hm.trans hk.symm)).trans hm)⟩
        · exact ⟨k, (hslot k hkr).trans hk⟩
    · intro hst
      have hne := h.busy ((congrArg Core.smStatus hp.core).symm.trans hst)
      obtain ⟨q, hq⟩ := Option.ne_none_iff_exists'.mp hne
      simp [hprog, hq]
    · intro h₁ h₂ h₃ h₄
      have hi := h.leaving ((congrArg Core.next hp.core).symm.trans h₁)
        (fun hc => h₂ ((congrArg Core.current hp.core).trans hc))
        ((hslot .trans (by decide)).symm.trans h₃) ((hslot .exit (by decide)).symm.trans h₄)
      rw [interruptible_iff] at hi ⊢
      rw [hprog, hrun]
      by_cases hm : m.currentProg = none
      · exact .inr (by rw [hm, Option.none_or])
      · have hr := hkeep hm (hi.resolve_left hm)
        refine .inr ?_
        rw [hr]
        cases hq : m.currentProg <;> rfl

section Change

variable {m : Machine σ π γ ω} {s n : σ} {T : Option π}

/-- A transition program takes over at once. -/
theorem Accounted.planSelf_some {p : π} (h : m.Accounted G) (hs : m.current = some s)
    (hp : G.role p = .transition) : (m.planSelf G W (some p)).Accounted G := by
  have hpl := planSelf_some_plans (G := G) (W := W) (p := p) h.wf.loaded hs
  have hslot (j : Slot) : (m.planSelf G W (some p)).slot j =
      if j = .trans then some p else m.slot j := by
    rw [hpl.slot j (r := { m with
      currentTrans := some p
      currentProg := some p
      reqstep := some (begin s) }) rfl]
    cases j <;> rfl
  have hprog : (m.planSelf G W (some p)).currentProg = some p :=
    congrArg Core.currentProg hpl.core
  have hw : (m.planSelf G W (some p)).WellFormed G :=
    h.wf.planSelf hs fun q hq => by cases hq; exact hp
  refine ⟨h.of_plans hpl hw (fun j q _ hq => ?_) (fun q hq => ?_) (fun _ => by simp [hprog]),
    fun _ _ ht => ?_⟩
  · rw [hslot] at hq
    split at hq
    · cases hq
      exact .inl List.mem_cons_self
    · exact .inr hq
  · rw [hprog] at hq
    cases hq
    exact ⟨.trans, by rw [hslot, if_pos rfl]⟩
  · have := (hslot .trans).symm.trans ht
    simp at this

theorem planSelf_none_slot (h : m.Loaded) (hs : m.current = some s)
    (hh : m.currentHandle = none) (j : Slot) : (m.planSelf G W none).slot j =
      if j = .handle then G.getHandleProgram s else m.slot j := by
  rw [(planSelf_none_plans (G := G) (W := W) h hs hh).slot j (r := { m with
    currentHandle := G.getHandleProgram s
    currentProg := m.currentProg.or (G.getHandleProgram s) }) rfl]
  cases j <;> rfl

/-- A handle is scheduled, and is the current program if there was none. -/
theorem Provided.planSelf_none (h : m.Provided G) (hs : m.current = some s)
    (hh : m.currentHandle = none) : (m.planSelf G W none).Provided G := by
  have hpl := planSelf_none_plans (G := G) (W := W) h.wf.loaded hs hh
  have hslot := planSelf_none_slot (G := G) (W := W) h.wf.loaded hs hh
  have hprog : (m.planSelf G W none).currentProg =
      m.currentProg.or (G.getHandleProgram s) := congrArg Core.currentProg hpl.core
  refine h.of_plans hpl (h.wf.planSelf hs (by simp)) (fun j q _ hq => ?_) (fun q hq => ?_)
    fun hst => ?_
  · rw [hslot] at hq
    split at hq
    · exact .inl (Option.mem_toList.mpr hq)
    · exact .inr hq
  · rw [hprog] at hq
    cases hm : m.currentProg with
    | none =>
      rw [hm, Option.none_or] at hq
      exact ⟨.handle, by rw [hslot, if_pos rfl, hq]⟩
    | some r =>
      rw [hm, Option.some_or] at hq
      cases hq
      obtain ⟨k, hk⟩ := h.held q hm
      have hkh : k ≠ .handle := by
        rintro rfl
        exact absurd (hh.symm.trans hk) (by simp)
      exact ⟨k, by rw [hslot, if_neg hkh, hk]⟩
  · have hne := h.busy ((congrArg Core.smStatus hpl.core).symm.trans hst)
    obtain ⟨q, hq⟩ := Option.ne_none_iff_exists'.mp hne
    simp [hprog, hq]

theorem Accounted.planSelf_none (h : m.Accounted G) (hs : m.current = some s)
    (hh : m.currentHandle = none)
    (hl : m.next = none → m.currentTrans = none → m.currentExit = none →
      m.currentProg ≠ none) : (m.planSelf G W none).Accounted G := by
  have hpl := planSelf_none_plans (G := G) (W := W) h.wf.loaded hs hh
  have hslot := planSelf_none_slot (G := G) (W := W) h.wf.loaded hs hh
  refine ⟨h.toProvided.planSelf_none hs hh, fun h₁ _ h₃ h₄ => ?_⟩
  have h₁ := (congrArg Core.next hpl.core).symm.trans h₁
  have h₃ := (hslot .trans).symm.trans h₃
  have h₄ := (hslot .exit).symm.trans h₄
  obtain ⟨q, hq⟩ := Option.ne_none_iff_exists'.mp (hl h₁ h₃ h₄)
  have hprog : (m.planSelf G W none).currentProg = m.currentProg := by
    rw [hq]
    refine (congrArg Core.currentProg hpl.core).trans ?_
    simp [Core.handle, Core.launch, hq]
  rw [interruptible_core hprog ((hslot .run).trans (by rfl))]
  exact h.leaving h₁ (by simp [hs]) h₃ h₄

theorem planChange_currentProg (h : m.WellFormed G) (hs : m.current = some s)
    (hT : ∀ p, T = some p → G.role p = .transition) (hp : m.currentProg = none) :
    (m.planChange G W n T).currentProg = (m.exitProgram G).or (G.getEntryProgram n) := by
  have hc := (planChange_plans (G := G) (W := W) (n := n) h hs hT).core
  rw [exitProgram_eq hs]
  refine (congrArg Core.currentProg hc).trans ((Core.change_currentProg _).trans ?_)
  rw [core_currentProg, hp, Option.none_or]

variable (G) in
/-- The pointers once a change from `m` to `n` is planned. -/
def planned (m : Machine σ π γ ω) (n : σ) (T : Option π) : Slot → Option π
  | .trans => T
  | .exit => m.exitProgram G
  | .entry => G.getEntryProgram n
  | .handle | .run => none

/-- A change with a current program out of its exit and entry, or none. -/
theorem Accounted.planChange (h : m.Accounted G) (hs : m.current = some s)
    (hT : ∀ p, T = some p → G.role p = .transition) (o : Option π)
    (ho : ∀ p, o = some p → m.exitProgram G = some p ∨ G.getEntryProgram n = some p)
    (hst : m.smStatus = .error → o ≠ none) :
    Accounted G { m.planChange G W n T with currentProg := o } := by
  have hpl := planChange_plans (G := G) (W := W) (n := n) h.wf hs hT
  have hw : (m.planChange G W n T).WellFormed G := h.wf.planChange hs hT
  have hslot (j : Slot) :
      slot { m.planChange G W n T with currentProg := o } j = m.planned G n T j := by
    have hc := hpl.core
    rw [slot_withProg]
    cases j with
    | trans => exact (congrArg Core.currentTrans hc).trans (Core.change_currentTrans _)
    | exit =>
      have hx := (congrArg Core.currentExit hc).trans (Core.change_currentExit _)
      exact hx.trans (exitProgram_eq hs).symm
    | entry => exact congrArg Core.currentEntry hc
    | handle => exact (congrArg Core.currentHandle hc).trans (Core.change_currentHandle _)
    | run => exact (congrArg Core.currentRun hc).trans (Core.change_currentRun _)
  refine ⟨⟨?_, fun p hp => ?_, fun k p _ hkp => ?_, fun he => ?_⟩, fun hn => ?_⟩
  · exact hw.of_core rfl (hw.fits.congr rfl rfl rfl rfl rfl rfl rfl rfl)
  · obtain hx | he := ho p hp
    · exact ⟨.exit, (hslot .exit).trans hx⟩
    · exact ⟨.entry, (hslot .entry).trans he⟩
  · have hps : p ∈ T.toList ++ (m.exitProgram G).toList ++ (G.getEntryProgram n).toList := by
      rw [hslot] at hkp
      cases k <;> simp_all [planned]
    have := hpl.programs p
    rw [if_pos hps] at this
    exact .inl (by rw [this])
  · refine hst ?_
    have := (congrArg Core.smStatus hpl.core).trans (Core.change_smStatus _)
    exact this.symm.trans he
  · have := (congrArg Core.next hpl.core).symm.trans hn
    simp at this

theorem Accounted.planSelf_pending (h : m.Accounted G) (hs : m.current = some s)
    (hT : ∀ p, T = some p → G.role p = .transition) :
    ((m.planSelf G W T).executePending G W false).2.Accounted G := by
  cases T with
  | some p => exact (h.planSelf_some hs (hT p rfl)).executePending false
  | none =>
    by_cases hh : m.currentHandle = none
    · by_cases hl : m.next = none ∧ m.currentTrans = none ∧ m.currentExit = none ∧
          m.currentProg = none
      · -- the state was left already: that is completed, and the handle waits
        obtain ⟨hn, ht, hx, hp⟩ := hl
        have h₁ := h.toProvided.planSelf_none (W := W) hs hh
        have hc := (planSelf_none_plans (G := G) (W := W) h.wf.loaded hs hh).core
        have hcur : (m.planSelf G W none).current = some s :=
          (congrArg Core.current hc).trans hs
        have hst : m.smStatus ≠ .error := fun he => h.busy he hp
        rw [executePending_leaves (fun he => hst ((congrArg Core.smStatus hc).symm.trans he))
          ((congrArg Core.currentTrans hc).trans ht) ((congrArg Core.currentExit hc).trans hx)
          ((congrArg Core.next hc).trans hn) (by simp [hcur])]
        exact h₁.leaves ((congrArg Core.currentExit hc).trans hx)
      · exact (h.planSelf_none hs hh fun hn ht hx hp => hl ⟨hn, ht, hx, hp⟩).executePending
          false
    · have he : m.planSelf G W none = m := by simp [Machine.planSelf, hh]
      rw [he]
      exact h.executePending false

/-- Nothing was interrupted: the current program is the exit or the entry, if any. -/
theorem Accounted.planChange_none (h : m.Accounted G) (hs : m.current = some s)
    (hT : ∀ p, T = some p → G.role p = .transition) (hp : m.currentProg = none) :
    (m.planChange G W n T).Accounted G := by
  have h₁ := h.planChange (W := W) (n := n) hs hT _
    (fun p hp' => (Option.or_eq_some_iff.mp hp').imp id And.right)
    (fun he => absurd hp (h.busy he))
  rw [← planChange_currentProg (W := W) h.wf hs hT hp] at h₁
  exact h₁

/-- What is planned takes the place of the interrupted program, or there was none. -/
theorem Accounted.planChange_pending (h : m.Accounted G) (hs : m.current = some s)
    (hT : ∀ p, T = some p → G.role p = .transition)
    (hk : m.currentProg = none ∨ m.smStatus ≠ .error ∧
      (T ≠ none ∨ m.exitProgram G ≠ none ∨ G.getEntryProgram n ≠ none)) :
    ((m.planChange G W n T).executePending G W false).2.Accounted G := by
  have hc := (planChange_plans (G := G) (W := W) (n := n) h.wf hs hT).core
  have h₁ := fun o => h.planChange (W := W) (n := n) hs hT o
  have hst' : (m.planChange G W n T).smStatus = m.smStatus :=
    (congrArg Core.smStatus hc).trans (Core.change_smStatus _)
  obtain hp | ⟨hst, hk⟩ := hk
  · exact (h.planChange_none hs hT hp).executePending false
  · -- the interrupted program is forgotten at once
    rw [← executePending_withProg (hst' ▸ hst) ?_ none]
    · exact (h₁ none (by simp) fun he => absurd he hst).executePending false
    · refine hk.imp (fun hk => ?_) (.imp (fun hk => ?_) fun hk => ⟨?_, ?_⟩)
      · exact ((congrArg Core.currentTrans hc).trans (Core.change_currentTrans _)).trans_ne hk
      · rw [exitProgram_eq hs] at hk
        exact ((congrArg Core.currentExit hc).trans (Core.change_currentExit _)).trans_ne hk
      · exact (congrArg Core.currentEntry hc).trans_ne hk
      · exact (congrArg Core.next hc).trans_ne (by simp)

theorem Accounted.changeState (h : m.Accounted G) (hs : m.current = some s)
    (hT : ∀ p, T = some p → G.role p = .transition)
    (hl : Throughout (Event.keepsProgram G) (m.changeState G W n T false).log) :
    (m.changeState G W n T false).Accounted G := by
  have hkeep := ((hl.of_suffix (changeState_log n T false m)).of_suffix
    (planState_log n T m)).1.2
  have h₀ := h.record (.changeState (m.change G n T))
  simp only [Machine.changeState] at hl ⊢
  refine Accounted.runState ?_ _ hl
  rw [if_neg (by decide)]
  simp only [planState]
  split
  · exact h₀.planSelf_pending hs hT
  · next hne => exact h₀.planChange_pending hs hT (hkeep.resolve_left fun he => hne he.symm)

/-- In stepping mode there was no current program, and nothing is executed yet. -/
theorem Accounted.changeState_stepping (h : m.Accounted G) (hp : m.currentProg = none)
    (hs : m.current = some s) (hn : m.next ≠ none)
    (hT : ∀ p, T = some p → G.role p = .transition)
    (hl : Throughout (Event.keepsProgram G) (m.changeState G W n T true).log) :
    (m.changeState G W n T true).Accounted G := by
  have h₀ := h.record (.changeState (m.change G n T))
  simp only [Machine.changeState] at hl ⊢
  refine Accounted.runState ?_ _ hl
  rw [if_pos trivial]
  simp only [planState]
  split
  · cases T with
    | some p => exact h₀.planSelf_some hs (hT p rfl)
    | none =>
      by_cases hh : m.currentHandle = none
      · exact h₀.planSelf_none hs hh fun hn' => absurd hn' hn
      · have he : (m.record (.changeState (m.change G n none))).planSelf G W none =
            m.record (.changeState (m.change G n none)) := by
          simp [Machine.planSelf, Machine.record, hh]
        rw [he]
        exact h₀
  · exact h₀.planChange_none hs hT hp

end Change

end Machine
end StateMachine
end OrocosRtt
