import OrocosRtt.StateMachine.Pointers

/-! The request to go to the final state, which `requestFinalState` means to grant to a machine in
error too, and which `requestStateChange` refuses whenever the machine is not interruptible. -/
set_option linter.unusedSectionVars false

namespace OrocosRtt.StateMachine.Machine

variable {σ π γ ω : Type} [DecidableEq σ] [DecidableEq π]
variable {G : StateGraph σ π γ} {W : Surroundings π γ ω}

/-- The request is granted, or it starts a change to the final state. -/
def Proceeds (G : StateGraph σ π γ) (W : Surroundings π γ ω) (m : Machine σ π γ ω) : Prop :=
  (m.requestFinalState G W).1 = true ∨
    ∃ l c, (m.requestFinalState G W).2.log = l ++ m.log ∧ .changeState c ∈ l ∧
      c.target = G.finistate

theorem interruptible_eq_true {m : Machine σ π γ ω} :
    m.interruptible = true ↔ m.currentProg = none ∨ m.currentProg = m.currentRun := by
  simp [interruptible]

/-- The final state needs no transition to it. -/
theorem requestStateChange_final {m : Machine σ π γ ω} (hc : m.current ≠ none)
    (hi : m.interruptible = true) : (m.requestStateChange G W G.finistate).1 = true := by
  obtain ⟨s, hs⟩ := Option.ne_none_iff_exists'.mp hc
  unfold requestStateChange
  rw [hs]
  dsimp only
  rw [if_neg (by rw [hi]; decide)]
  split
  · rfl
  · split
    · rfl
    · split
      · rfl
      · rw [if_pos (Or.inl rfl)]

theorem requestStateChange_refused {m : Machine σ π γ ω} (hi : m.interruptible = false) (s : σ) :
    m.requestStateChange G W s = (false, m) := by
  unfold requestStateChange
  cases m.current with
  | none => rfl
  | some t => exact if_pos hi

theorem not_proceeds {m : Machine σ π γ ω} (hi : m.interruptible = false) : ¬ Proceeds G W m := by
  have hcall : m.requestFinalState G W = (false, m) := by
    unfold requestFinalState
    split
    · rfl
    · exact requestStateChange_refused hi _
  rintro (hyes | ⟨l, c, hl, hmem, -⟩)
  · rw [hcall] at hyes
    cases hyes
  · rw [hcall] at hl
    have hnil : l = [] := List.append_left_eq_self.mp hl.symm
    rw [hnil] at hmem
    cases hmem

/-- The request proceeds if and only if no program is current or it is the run program. -/
theorem requestFinalState_proceeds {m : Machine σ π γ ω} (hc : m.current ≠ none)
    (h : m.interruptible = true ∨ m.inError = true) :
    Proceeds G W m ↔ m.currentProg = none ∨ m.currentProg = m.currentRun := by
  have hpass : ¬ (m.current = none ∨ m.inError = false ∧ m.interruptible = false) := by
    rintro (hno | ⟨he, hi⟩)
    · exact hc hno
    · rw [he, hi] at h
      rcases h with h | h <;> cases h
  have hcall : m.requestFinalState G W = m.requestStateChange G W G.finistate := by
    unfold requestFinalState
    rw [if_neg hpass]
  rw [← interruptible_eq_true]
  constructor
  · intro hproceeds
    by_contra hno
    exact not_proceeds (Bool.eq_false_iff.mpr hno) hproceeds
  · intro hi
    rw [Proceeds, hcall]
    exact Or.inl (requestStateChange_final hc hi)

/-- A program that fails stays the current one. So it depends on whose program failed whether the
machine can be sent to its final state: only an error of a run program is recovered from. -/
theorem requestFinalState_failed {m : Machine σ π γ ω} {k : Slot} {p : π} {stepping : Bool}
    (hw : m.WellFormed G) (hk : m.slot k = some p)
    (hfail : ((m.executeProgram W k stepping).2.programs p).inError = true)
    (hc : (m.executeProgram W k stepping).2.current ≠ none) :
    Proceeds G W (m.executeProgram W k stepping).2 ↔ k = .run := by
  have hadv := advanceProgram_advanced (W := W) stepping p m
  have hin : (m.executeProgram W k stepping).2.currentProg = some p ∧
      (m.executeProgram W k stepping).2.currentRun = m.currentRun ∧
      (m.executeProgram W k stepping).2.inError = true := by
    obtain ⟨he, hno, -⟩ | ⟨he, -⟩ | ⟨he, hstop⟩ := executeProgram_cases (W := W) stepping hk
    · rw [he, hno] at hfail
      cases hfail
    · rw [he]
      exact ⟨hadv.currentProg, hadv.slot .run, by simp [inError]⟩
    · have hprog : ((m.advanceProgram W stepping p).programs p).inError = true := by
        rw [he] at hfail
        cases k <;> exact hfail
      simp only [Program.inError, Program.isStopped, decide_eq_true_eq] at hprog hstop
      rw [hprog] at hstop
      cases hstop
  obtain ⟨hp, hr, he⟩ := hin
  rw [requestFinalState_proceeds hc (Or.inr he), hp, hr]
  constructor
  · rintro (hno | hrun)
    · cases hno
    · exact hw.fits.slot_unique hk hrun.symm
  · rintro rfl
    exact Or.inr hk.symm

/-! A state that is entered with a program, and another one that is the final state. -/

def entryGraph : StateGraph Bool Unit Bool where
  states := [false, true]
  getName s := if s then "final" else "initial"
  getEntryProgram s := if s then none else some ()
  getRunProgram _ := none
  getHandleProgram _ := none
  getExitProgram _ := none
  stateMap _ := []
  globalMap := []
  precondMap _ := []
  eventMap _ := []
  initstate := false
  finistate := true
  role _ := .entry false
  entry_role := by decide
  run_role := by simp
  handle_role := by simp
  exit_role := by simp
  local_role := by simp
  global_role := by simp
  event_role := by simp
  local_sorted := by simp
  global_sorted := by simp

/-- Programs that end at once, or fail, as the number tells. -/
def numberedPrograms : Surroundings Unit Bool ℕ where
  evaluate _ n := (true, n)
  resetCondition _ n := n
  resetProgram _ n := n
  executeUntil _ n := (if n = 0 then .exited else .failed, n)
  executeStep _ n := (if n = 0 then .exited else .failed, n)
  initCommand := none

theorem requestFinalState_proceeds_active :
    Proceeds entryGraph numberedPrograms
      ((loading (fun _ => true) 0 : Machine Bool Unit Bool ℕ).runOps entryGraph numberedPrograms
        [.activate]) :=
  (requestFinalState_proceeds (by decide) (by decide)).mpr (by decide)

/-- The entry program of the initial state fails: the machine is in error, and its request to go to
the final state is refused. -/
theorem requestFinalState_refused_entry :
    let m := (loading (fun _ => true) 1 : Machine Bool Unit Bool ℕ).runOps entryGraph
      numberedPrograms [.activate]
    m.current = some false ∧ m.inError = true ∧
      ¬ Proceeds entryGraph numberedPrograms m ∧
      (m.requestFinalState entryGraph numberedPrograms).1 = false := by
  exact ⟨by decide, by decide, not_proceeds (by decide), by decide⟩

end OrocosRtt.StateMachine.Machine
