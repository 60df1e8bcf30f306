import OrocosRtt.StateMachine.Growth

/-! `executePending` as a scheduler: which program it turns to first, that it really
executes it, and that the current program is of no account then. -/
set_option linter.unusedSectionVars false

namespace OrocosRtt.StateMachine.Machine

open Library.Early

variable {σ π γ ω : Type} [DecidableEq σ] [DecidableEq π]
variable {G : StateGraph σ π γ} {W : Surroundings π γ ω}

/-- The pointer whose program is executed first. -/
def first (m : Machine σ π γ ω) : Option Slot :=
  if m.currentTrans ≠ none then some (if m.currentHandle = none then .trans else .handle)
  else if m.currentExit ≠ none then some .exit
  else if m.current ≠ m.next ∧ m.next = none then none
  else if m.currentEntry ≠ none then some .entry
  else if m.currentHandle ≠ none then some .handle
  else if m.currentRun ≠ none then some .run
  else none

/-- The program that is executed first. -/
def pending (m : Machine σ π γ ω) : Option π := m.first.bind m.slot

theorem executePending_smStatus (stepping : Bool) (m : Machine σ π γ ω) :
    (m.executePending G W stepping).2.smStatus = m.smStatus ∨
      (m.executePending G W stepping).2.smStatus = .error := by
  refine PendingRule.executePending
    (I := fun m' => m'.smStatus = m.smStatus ∨ m'.smStatus = .error) ?_ (.inl rfl)
  refine ⟨?_, fun _ _ _ _ _ _ _ _ => .inr rfl, ?_, fun _ _ _ h _ _ => h, fun _ h _ _ _ _ => h,
    fun _ _ h _ _ _ _ => h⟩
  · intro m₁ _ p h _ _ _ _ _
    rwa [(advanceProgram_advanced stepping p m₁).smStatus]
  · intro m₁ k p h _ _ _ _
    rw [clear_smStatus]
    exact (advanceProgram_advanced stepping p m₁).smStatus ▸ h

/-- What is to become the current state is not decided here. -/
theorem executePending_next (stepping : Bool) (m : Machine σ π γ ω) :
    (m.executePending G W stepping).2.next = m.next := by
  refine PendingRule.executePending (I := fun m' => m'.next = m.next) ?_ rfl
  refine ⟨?_, ?_, ?_, fun _ _ _ h _ _ => h, fun _ h _ _ _ _ => h, fun _ _ h _ _ _ _ => h⟩
  · intro m₁ _ p h _ _ _ _ _
    exact (advanceProgram_advanced stepping p m₁).next.trans h
  · intro m₁ _ p h _ _ _ _
    exact (advanceProgram_advanced stepping p m₁).next.trans h
  · intro m₁ k p h _ _ _ _
    rw [clear_next]
    exact (advanceProgram_advanced stepping p m₁).next.trans h

/-- A machine in error executes nothing. -/
theorem executePending_inError {stepping : Bool} {m : Machine σ π γ ω}
    (h : m.smStatus = .error) : m.executePending G W stepping = (false, m) := by
  simp [Machine.executePending, inError, h]

theorem executePending_eq {stepping : Bool} {m : Machine σ π γ ω} (h : m.smStatus ≠ .error) :
    m.executePending G W stepping = result (do
      let m ← m.pendingTrans W stepping
      let m ← m.pendingExit W stepping
      let m ← m.pendingChange G
      let m ← m.pendingEntry W stepping
      let m ← m.pendingHandle W stepping
      let m ← m.pendingRun W stepping
      pure (true, m)) := by
  simp [Machine.executePending, inError, h]

theorem pendingTrans_none {stepping : Bool} {m : Machine σ π γ ω}
    (h : m.currentTrans = none) : m.pendingTrans W stepping = .ok m := by
  simp [pendingTrans, h]

theorem pendingSlot_none {k : Slot} {stepping : Bool} {m : Machine σ π γ ω}
    {after : Machine σ π γ ω → Option π} (h : m.slot k = none) :
    m.pendingSlot W k stepping after = .ok m := by
  simp [pendingSlot, h]

theorem pendingSlot_some {k : Slot} {stepping : Bool} {m : Machine σ π γ ω}
    {after : Machine σ π γ ω → Option π} (h : m.slot k ≠ none) :
    m.pendingSlot W k stepping after = m.executeStage W k stepping after := by
  simp [pendingSlot, h]

theorem pendingChange_stays {m : Machine σ π γ ω} (h : m.current = m.next) :
    m.pendingChange G = .ok m := by simp [pendingChange, h]

theorem pendingChange_becomes {m : Machine σ π γ ω} {n : σ} (h : m.current ≠ m.next)
    (hn : m.next = some n) : m.pendingChange G = .ok (m.becomeCurrent G n) := by
  simp only [pendingChange, if_neg h]
  split
  · next h' => rw [hn] at h'; cases h'
  · next n' h' =>
    rw [hn] at h'
    cases h'
    rfl

theorem pendingChange_leaves {m : Machine σ π γ ω} (h : m.current ≠ none)
    (hn : m.next = none) :
    m.pendingChange G = .error (true, { m with current := none }.record (.current none)) := by
  simp only [pendingChange, if_neg (hn ▸ h)]
  split
  · rfl
  · next n' h' => rw [hn] at h'; cases h'

/-- The last thing of a state that was left: it is not the current one any more. -/
theorem executePending_leaves {stepping : Bool} {m : Machine σ π γ ω}
    (h : m.smStatus ≠ .error) (ht : m.currentTrans = none) (hx : m.currentExit = none)
    (hn : m.next = none) (hc : m.current ≠ none) :
    m.executePending G W stepping =
      (true, { m with current := none }.record (.current none)) := by
  have hx : m.slot .exit = none := hx
  rw [executePending_eq h, pendingTrans_none ht, ok_bind, pendingExit, pendingSlot_none hx,
    ok_bind, pendingChange_leaves hc hn, error_bind]
  rfl

/-- A machine at rest has nothing to work off. -/
theorem executePending_idle {stepping : Bool} {m : Machine σ π γ ω}
    (h : m.smStatus ≠ .error) (hc : m.current = m.next) (hs : ∀ k, m.slot k = none) :
    m.executePending G W stepping = (true, m) := by
  rw [executePending_eq h, pendingTrans_none (hs .trans), ok_bind, pendingExit,
    pendingSlot_none (hs .exit), ok_bind, pendingChange_stays hc, ok_bind, pendingEntry,
    pendingSlot_none (hs .entry), ok_bind, pendingHandle, pendingSlot_none (hs .handle),
    ok_bind, pendingRun, pendingSlot_none (hs .run), ok_bind]
  rfl

theorem requestNextState_refused {stepping : Bool} {m : Machine σ π γ ω}
    (h : m.interruptible = false) :
    m.requestNextState G W stepping = m.record (.requestNextState m.current) := by
  have h' (e : Event σ π γ) : (m.record e).interruptible = false := h
  have hc : (m.record (.requestNextState m.current)).current = m.current := rfl
  simp only [requestNextState]
  split
  · rfl
  · rw [if_pos (.inl (h' _))]

/-- A program that is executed becomes the current one. -/
theorem executeStage_withProg {k : Slot} {stepping : Bool} {m : Machine σ π γ ω}
    (hk : m.slot k ≠ none) (after : Machine σ π γ ω → Option π) (o : Option π) :
    ({ m with currentProg := o } : Machine σ π γ ω).executeStage W k stepping after =
      m.executeStage W k stepping after := by
  obtain ⟨p, hp⟩ := Option.ne_none_iff_exists'.mp hk
  simp only [executeStage, executeProgram, slot_withProg, hp]
  rfl

/-- With something to execute it does not matter which program was the current one. -/
theorem executePending_withProg {stepping : Bool} {m : Machine σ π γ ω}
    (h : m.smStatus ≠ .error)
    (hw : m.currentTrans ≠ none ∨ m.currentExit ≠ none ∨
      m.currentEntry ≠ none ∧ m.next ≠ none) (o : Option π) :
    ({ m with currentProg := o } : Machine σ π γ ω).executePending G W stepping =
      m.executePending G W stepping := by
  rw [executePending_eq h, executePending_eq (m := { m with currentProg := o }) h]
  by_cases ht : m.currentTrans = none
  · rw [pendingTrans_none ht, pendingTrans_none (m := { m with currentProg := o }) ht,
      ok_bind, ok_bind]
    by_cases hx : m.slot .exit = none
    · obtain ⟨he, hn⟩ := (hw.resolve_left (not_not.mpr ht)).resolve_left (not_not.mpr hx)
      obtain ⟨n, hn⟩ := Option.ne_none_iff_exists'.mp hn
      have hentry (m' : Machine σ π γ ω) (hm : m'.slot .entry ≠ none) :
          ({ m' with currentProg := o } : Machine σ π γ ω).pendingEntry W stepping =
            m'.pendingEntry W stepping := by
        rw [pendingEntry, pendingEntry, pendingSlot_some hm,
          pendingSlot_some (k := .entry) (m := { m' with currentProg := o }) hm]
        exact executeStage_withProg hm _ o
      rw [pendingExit, pendingExit, pendingSlot_none hx,
        pendingSlot_none (k := .exit) (m := { m with currentProg := o }) hx, ok_bind, ok_bind]
      by_cases hc : m.current = m.next
      · rw [pendingChange_stays hc, pendingChange_stays (m := { m with currentProg := o }) hc,
          ok_bind, ok_bind, hentry m he]
      · rw [pendingChange_becomes hc hn,
          pendingChange_becomes (m := { m with currentProg := o }) hc hn, ok_bind, ok_bind,
          ← hentry (m.becomeCurrent G n) he]
        rfl
    · rw [pendingExit, pendingExit, pendingSlot_some hx,
        pendingSlot_some (k := .exit) (m := { m with currentProg := o }) hx, executeStage_withProg hx]
  · have htrans : ({ m with currentProg := o } : Machine σ π γ ω).pendingTrans W stepping =
        m.pendingTrans W stepping := by
      simp only [pendingTrans, if_neg ht]
      refine executeStage_withProg ?_ _ o
      split
      · exact ht
      · next hh => exact hh
    rw [htrans]

/-! ### What is executed first -/

theorem executeStage_log (k : Slot) (after : Machine σ π γ ω → Option π)
    {m : Machine σ π γ ω} {l : List (Event σ π γ)} {stepping : Bool} (h : l <:+ m.log) :
    Ends (m.executeStage W k stepping after) (fun m' => l <:+ m'.log)
      (fun r => l <:+ r.2.log) := by
  have hp : l <:+ (m.executeProgram W k stepping).2.log := by
    cases hk : m.slot k with
    | none => simpa [executeProgram, hk] using h
    | some p =>
      have ha := (advanceProgram_advanced (W := W) stepping p m).log_suffix
      obtain ⟨he, -⟩ | ⟨he, -⟩ | ⟨he, -⟩ := executeProgram_cases (W := W) stepping hk
      · rw [he]; exact h.trans ha
      · rw [he]; exact h.trans ha
      · rw [he, clear_log]; exact h.trans ha
  simp only [executeStage]
  split
  · next m₁ he => rw [he] at hp; exact hp
  · next m₁ he =>
    rw [he] at hp
    split <;> exact hp

theorem pendingSlot_log (k : Slot) (after : Machine σ π γ ω → Option π)
    {m : Machine σ π γ ω} {l : List (Event σ π γ)} {stepping : Bool} (h : l <:+ m.log) :
    Ends (m.pendingSlot W k stepping after) (fun m' => l <:+ m'.log)
      (fun r => l <:+ r.2.log) := by
  simp only [pendingSlot]
  split
  · exact h
  · exact executeStage_log k after h

theorem pendingChange_log {m : Machine σ π γ ω} {l : List (Event σ π γ)} (h : l <:+ m.log) :
    Ends (m.pendingChange G) (fun m' => l <:+ m'.log) (fun r => l <:+ r.2.log) := by
  simp only [pendingChange]
  split
  · exact h
  · split
    · exact h.trans (List.suffix_cons _ _)
    · exact h.trans (List.suffix_cons _ _)

/-- A running program is executed when its turn has come. -/
theorem executeStage_executes {k : Slot} {p : π} {m : Machine σ π γ ω}
    (after : Machine σ π γ ω → Option π) (hk : m.slot k = some p)
    (hr : (m.programs p).pStatus = .running) (hp : (m.programs p).pausing = false) :
    ∃ o, Ends (m.executeStage W k false after) (fun m' => .execute p o :: m.log <:+ m'.log)
      (fun r => .execute p o :: m.log <:+ r.2.log) := by
  obtain ⟨o, -, ho⟩ := advanceProgram_running (W := W) hr hp
  have hs : .execute p o :: m.log <:+ (m.advanceProgram W false p).log :=
    ho ▸ List.suffix_rfl
  refine ⟨o, ?_⟩
  simp only [executeStage]
  obtain ⟨he, -⟩ | ⟨he, -⟩ | ⟨he, -⟩ := executeProgram_cases (W := W) false hk
  · rw [he]; exact hs
  · rw [he]; exact hs
  · rw [he]
    simp only [Bool.false_eq_true, if_false, ends_ok, clear_log]
    exact hs

/-- The program that comes first is executed, if it is running. -/
theorem executePending_executes {p : π} {m : Machine σ π γ ω} (h : m.smStatus ≠ .error)
    (hp : m.pending = some p) (hr : (m.programs p).pStatus = .running)
    (hnp : (m.programs p).pausing = false) :
    ∃ o l, m.log <:+ l ∧ .execute p o :: l <:+ (m.executePending G W false).2.log := by
  obtain ⟨k, hf, hk⟩ := Option.bind_eq_some_iff.mp hp
  rw [executePending_eq h]
  -- the stages after the one that executes the program only add to the log
  have hrun {E : List (Event σ π γ)} {m : Machine σ π γ ω} (hm : E <:+ m.log) :
      Ends (do let m ← m.pendingRun W false; pure (true, m))
        (fun r => E <:+ r.2.log) (fun r => E <:+ r.2.log) :=
    (pendingSlot_log .run _ hm).bind fun _ h => h
  have hhandle {E : List (Event σ π γ)} {m : Machine σ π γ ω} (hm : E <:+ m.log) :
      Ends (do
        let m ← m.pendingHandle W false
        let m ← m.pendingRun W false
        pure (true, m)) (fun r => E <:+ r.2.log) (fun r => E <:+ r.2.log) :=
    (pendingSlot_log .handle _ hm).bind fun _ h => hrun h
  have hentry {E : List (Event σ π γ)} {m : Machine σ π γ ω} (hm : E <:+ m.log) :
      Ends (do
        let m ← m.pendingEntry W false
        let m ← m.pendingHandle W false
        let m ← m.pendingRun W false
        pure (true, m)) (fun r => E <:+ r.2.log) (fun r => E <:+ r.2.log) :=
    (pendingSlot_log .entry _ hm).bind fun _ h => hhandle h
  have hchange {E : List (Event σ π γ)} {m : Machine σ π γ ω} (hm : E <:+ m.log) :
      Ends (do
        let m ← m.pendingChange G
        let m ← m.pendingEntry W false
        let m ← m.pendingHandle W false
        let m ← m.pendingRun W false
        pure (true, m)) (fun r => E <:+ r.2.log) (fun r => E <:+ r.2.log) :=
    (pendingChange_log hm).bind fun _ h => hentry h
  simp only [first] at hf
  split at hf
  · next ht =>
    obtain ⟨o, ho⟩ := executeStage_executes (W := W)
      (fun m => m.currentExit <|> m.currentEntry <|> m.currentRun) hk hr hnp
    refine ⟨o, m.log, List.suffix_rfl, ?_⟩
    have hk' : (if m.currentHandle = none then Slot.trans else Slot.handle) = k := by
      simpa using hf
    refine Ends.result (Q := fun r : Bool × Machine σ π γ ω => _ <:+ r.2.log) ?_
    simp only [pendingTrans, if_neg ht, hk']
    exact ho.bind fun m' h => (pendingSlot_log .exit _ h).bind fun _ h => hchange h
  · next ht =>
    rw [pendingTrans_none (not_not.mp ht), ok_bind]
    split at hf
    · next hx =>
      cases hf
      obtain ⟨o, ho⟩ := executeStage_executes (W := W)
        (fun m => m.currentEntry <|> m.currentRun) hk hr hnp
      refine ⟨o, m.log, List.suffix_rfl, ?_⟩
      refine Ends.result (Q := fun r : Bool × Machine σ π γ ω => _ <:+ r.2.log) ?_
      rw [pendingExit, pendingSlot_some (k := .exit) hx]
      exact ho.bind fun m' h => hchange h
    · next hx =>
      have hx : m.slot .exit = none := not_not.mp hx
      rw [pendingExit, pendingSlot_none hx, ok_bind]
      split at hf
      · cases hf
      · next hc =>
        -- the current state is the next one from here on
        have hcur : ∃ m₁ : Machine σ π γ ω, m.pendingChange G = .ok m₁ ∧ m.log <:+ m₁.log ∧
            m₁.slot = m.slot ∧ m₁.programs = m.programs := by
          by_cases hcn : m.current = m.next
          · exact ⟨m, pendingChange_stays hcn, List.suffix_rfl, rfl, rfl⟩
          · have hn : m.next ≠ none := fun hn => hc ⟨hcn, hn⟩
            obtain ⟨n, hn⟩ := Option.ne_none_iff_exists'.mp hn
            refine ⟨_, pendingChange_becomes hcn hn, List.suffix_cons _ _, ?_, rfl⟩
            funext j
            cases j <;> rfl
        obtain ⟨m₁, he, hl, hs, hpr⟩ := hcur
        rw [he, ok_bind]
        rw [← hpr] at hr hnp
        rw [← hs] at hk
        have hslot (j : Slot) : m₁.slot j = m.slot j := by rw [hs]
        split at hf
        · next hj =>
          cases hf
          obtain ⟨o, ho⟩ := executeStage_executes (W := W) (fun m => m.currentRun) hk hr hnp
          refine ⟨o, m₁.log, hl, ?_⟩
          refine Ends.result (Q := fun r : Bool × Machine σ π γ ω => _ <:+ r.2.log) ?_
          rw [pendingEntry, pendingSlot_some ((hslot .entry).trans_ne hj)]
          exact ho.bind fun m' h => hhandle h
        · next hj =>
          have hj : m.slot .entry = none := not_not.mp hj
          rw [pendingEntry, pendingSlot_none ((hslot .entry).trans hj), ok_bind]
          split at hf
          · next hj =>
            cases hf
            obtain ⟨o, ho⟩ := executeStage_executes (W := W) (fun m => m.currentRun) hk hr hnp
            refine ⟨o, m₁.log, hl, ?_⟩
            refine Ends.result (Q := fun r : Bool × Machine σ π γ ω => _ <:+ r.2.log) ?_
            rw [pendingHandle, pendingSlot_some ((hslot .handle).trans_ne hj)]
            exact ho.bind fun m' h => hrun h
          · next hj =>
            have hj : m.slot .handle = none := not_not.mp hj
            rw [pendingHandle, pendingSlot_none ((hslot .handle).trans hj), ok_bind]
            split at hf
            · next hj =>
              cases hf
              obtain ⟨o, ho⟩ := executeStage_executes (W := W) (fun m => m.currentProg) hk hr hnp
              refine ⟨o, m₁.log, hl, ?_⟩
              refine Ends.result (Q := fun r : Bool × Machine σ π γ ω => _ <:+ r.2.log) ?_
              rw [pendingRun, pendingSlot_some ((hslot .run).trans_ne hj)]
              exact ho.bind fun m' h => h
            · cases hf

/-! ### Nothing pending -/

/-- From `m` to `m'` a program was executed to its end, or nothing was and the pointers
`ks` are empty. -/
def Passed (ks : List Slot) (m m' : Machine σ π γ ω) : Prop :=
  m'.currentProg = none ∨
    m'.currentProg = m.currentProg ∧ m'.slot = m.slot ∧ ∀ k ∈ ks, m.slot k = none

theorem Passed.pendingSlot {ks : List Slot} {m m₁ : Machine σ π γ ω} {stepping : Bool}
    (h : Passed ks m m₁) (k : Slot) (after : Machine σ π γ ω → Option π) :
    Ends (m₁.pendingSlot W k stepping after) (Passed (k :: ks) m) (fun r => r.1 = false) := by
  refine (pendingSlot_ends k after m₁).imp (fun m' hm => ?_) (fun _ h => h)
  obtain ⟨rfl, hk⟩ | ⟨-, hf⟩ := hm
  · obtain h | ⟨hp, hs, hks⟩ := h
    · exact .inl h
    · refine .inr ⟨hp, hs, fun j hj => ?_⟩
      obtain rfl | hj := List.mem_cons.mp hj
      · exact (congrFun hs j).symm.trans hk
      · exact hks j hj
  · exact .inl hf.currentProg

/-- The current program is one of the programs that are pending. -/
def Held (m : Machine σ π γ ω) : Prop :=
  ∀ p, m.currentProg = some p → ∃ k, m.slot k = some p

/-- Once nothing is pending the machine can be interrupted. -/
theorem executePending_interruptible {stepping : Bool} {m m' : Machine σ π γ ω}
    (hh : m.Held) (hl : m.next = none → m.current ≠ none → m.currentTrans = none →
      m.currentExit = none → m.interruptible = true)
    (h : m.executePending G W stepping = (true, m')) : m'.interruptible = true := by
  suffices hq : (m.executePending G W stepping).1 = true →
      (m.executePending G W stepping).2.interruptible = true by
    rw [h] at hq
    exact hq rfl
  have hf : ∀ r : Bool × Machine σ π γ ω, r.1 = false → r.1 = true →
      r.2.interruptible = true := by
    intro r h h'
    rw [h] at h'
    cases h'
  have hnone {m : Machine σ π γ ω} (h : m.currentProg = none) : m.interruptible = true := by
    simp [interruptible, h]
  simp only [Machine.executePending]
  split
  · exact fun h => by cases h
  · refine Ends.result
      (Q := fun r : Bool × Machine σ π γ ω => r.1 = true → r.2.interruptible = true) ?_
    have ht : Ends (m.pendingTrans W stepping)
        (fun m' => m'.currentProg = none ∨ m' = m ∧ m.currentTrans = none)
        (fun r => r.1 = true → r.2.interruptible = true) := by
      refine (pendingTrans_ends m).imp (fun m' hm => ?_) hf
      obtain hm | ⟨-, k, hk⟩ := hm
      · exact .inr hm
      · exact .inl hk.currentProg
    refine ht.bind fun m₁ h₁ => ?_
    have hx : Ends (m₁.pendingExit W stepping)
        (fun m' => m'.currentProg = none ∨
          m' = m ∧ m.currentTrans = none ∧ m.currentExit = none)
        (fun r => r.1 = true → r.2.interruptible = true) := by
      refine (pendingSlot_ends .exit _ m₁).imp (fun m' hm => ?_) hf
      obtain ⟨rfl, hk⟩ | ⟨-, hk⟩ := hm
      · obtain h₁ | ⟨rfl, h₁⟩ := h₁
        · exact .inl h₁
        · exact .inr ⟨rfl, h₁, hk⟩
      · exact .inl hk.currentProg
    refine hx.bind fun m₂ h₂ => ?_
    have hc : Ends (m₂.pendingChange G) (Passed [.trans, .exit] m)
        (fun r => r.1 = true → r.2.interruptible = true) := by
      simp only [Machine.pendingChange]
      split
      · obtain h₂ | ⟨rfl, h₂⟩ := h₂
        · exact .inl h₂
        · refine .inr ⟨rfl, rfl, fun k hk => ?_⟩
          simp only [List.mem_cons, List.not_mem_nil, or_false] at hk
          obtain rfl | rfl := hk
          exacts [h₂.1, h₂.2]
      · next hcn =>
        split
        · next hn =>
          intro _
          obtain h₂ | ⟨rfl, h₂⟩ := h₂
          · exact hnone h₂
          · exact hl hn (hn ▸ hcn) h₂.1 h₂.2
        · obtain h₂ | ⟨rfl, h₂⟩ := h₂
          · exact .inl h₂
          · refine .inr ⟨rfl, by funext k; cases k <;> rfl, fun k hk => ?_⟩
            simp only [List.mem_cons, List.not_mem_nil, or_false] at hk
            obtain rfl | rfl := hk
            exacts [h₂.1, h₂.2]
    refine hc.bind fun m₃ h₃ => ?_
    refine ((h₃.pendingSlot .entry _).imp (fun _ h => h) hf).bind fun m₄ h₄ => ?_
    refine ((h₄.pendingSlot .handle _).imp (fun _ h => h) hf).bind fun m₅ h₅ => ?_
    refine ((h₅.pendingSlot .run _).imp (fun _ h => h) hf).bind fun m₆ h₆ _ => ?_
    obtain h₆ | ⟨hp, hs, hks⟩ := h₆
    · exact hnone h₆
    · -- nothing was executed, and there is no program that could be the current one
      refine hnone (hp.trans (Option.eq_none_iff_forall_ne_some.mpr fun p hmp => ?_))
      obtain ⟨k, hk⟩ := hh p hmp
      have := hks k (by cases k <;> decide)
      rw [hk] at this
      cases this

end OrocosRtt.StateMachine.Machine
