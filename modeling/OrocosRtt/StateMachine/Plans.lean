import OrocosRtt.StateMachine.Calls

/-! What the functions that plan a change do to a machine whose programs are loaded: which
programs they start, and the core they leave behind. -/
set_option linter.unusedSectionVars false

namespace OrocosRtt.StateMachine

namespace Core

variable {σ π γ : Type} [DecidableEq σ] (G : StateGraph σ π γ)

/-- `if (currentProg == 0) currentProg = o` -/
def launch (o : Option π) (c : Core σ π) : Core σ π :=
  { c with currentProg := c.currentProg.or o }

def leave (s : σ) (c : Core σ π) : Core σ π :=
  launch (G.getExitProgram s) { c with
    connected := Machine.setHandles G (some s) false c.connected
    currentExit := G.getExitProgram s }

def run (s : σ) (c : Core σ π) : Core σ π :=
  launch (G.getRunProgram s) { c with currentRun := G.getRunProgram s }

def handle (s : σ) (c : Core σ π) : Core σ π :=
  launch (G.getHandleProgram s) { c with currentHandle := G.getHandleProgram s }

def enter (s : σ) (c : Core σ π) : Core σ π :=
  launch (G.getEntryProgram s) { c with
    connected := Machine.setHandles G (some s) true c.connected
    next := some s
    currentEntry := G.getEntryProgram s }

def trans (T : Option π) (c : Core σ π) : Core σ π :=
  { c with currentRun := none, currentHandle := none, currentTrans := T }

/-- Nothing but the exit program is left to do, and no state is to be entered. -/
def vacate (c : Core σ π) : Core σ π :=
  { c with
    currentProg := none
    currentEntry := none
    currentHandle := none
    currentRun := none
    next := none }

/-- Left by `executePending` when the program of a pointer has stopped. -/
def clear (c : Core σ π) : Slot → Core σ π
  | .trans => { c with currentTrans := none }
  | .exit => { c with currentExit := none }
  | .entry => { c with currentEntry := none }
  | .handle => { c with currentHandle := none }
  | .run => { c with currentRun := none }

def become (n : σ) (c : Core σ π) : Core σ π :=
  { c with
    reqstep := some (Machine.begin n)
    reqend := some ⟨n, (G.stateMap n).length⟩
    current := some n }

/-- The initial state is to be entered, with the search at its first transition. -/
def activate (c : Core σ π) : Core σ π :=
  { c.enter G G.initstate with
    reqstep := some (Machine.begin G.initstate)
    reqend := some ⟨G.initstate, (G.stateMap G.initstate).length⟩
    connected := Machine.setHandles G none true (c.enter G G.initstate).connected }

/-- The core once a change from `s` to `n` is planned; `skip` tells that the exit program
is in error. -/
def change (skip : Bool) (s n : σ) (T : Option π) (c : Core σ π) : Core σ π :=
  (if skip then { c.trans T with currentExit := none } else (c.trans T).leave G s).enter G n

variable {G} {skip : Bool} {s n : σ} {T : Option π} (c : Core σ π)

@[simp] theorem change_smStatus : (c.change G skip s n T).smStatus = c.smStatus := by
  cases skip <;> rfl

@[simp] theorem change_smpStatus : (c.change G skip s n T).smpStatus = c.smpStatus := by
  cases skip <;> rfl

@[simp] theorem change_current : (c.change G skip s n T).current = c.current := by
  cases skip <;> rfl

@[simp] theorem change_next : (c.change G skip s n T).next = some n := rfl

@[simp] theorem change_currentTrans : (c.change G skip s n T).currentTrans = T := by
  cases skip <;> rfl

@[simp] theorem change_currentExit : (c.change G skip s n T).currentExit =
    if skip then none else G.getExitProgram s := by
  cases skip <;> rfl

@[simp] theorem change_currentEntry :
    (c.change G skip s n T).currentEntry = G.getEntryProgram n := rfl

@[simp] theorem change_currentHandle : (c.change G skip s n T).currentHandle = none := by
  cases skip <;> rfl

@[simp] theorem change_currentRun : (c.change G skip s n T).currentRun = none := by
  cases skip <;> rfl

@[simp] theorem change_reqstep : (c.change G skip s n T).reqstep = c.reqstep := by
  cases skip <;> rfl

@[simp] theorem change_reqend : (c.change G skip s n T).reqend = c.reqend := by
  cases skip <;> rfl

@[simp] theorem change_connected : (c.change G skip s n T).connected =
    Machine.setHandles G (some n) true
      (if skip then c.connected else Machine.setHandles G (some s) false c.connected) := by
  cases skip <;> rfl

@[simp] theorem change_currentProg : (c.change G skip s n T).currentProg =
    (c.currentProg.or (if skip then none else G.getExitProgram s)).or
      (G.getEntryProgram n) := by
  cases skip
  · rfl
  · simp only [change, enter, launch, if_true, Option.or_none]
    rfl

end Core

namespace Event

variable {σ π γ : Type}

/-- Logged while programs are started and executed. -/
def isWork : Event σ π γ → Bool
  | .leaveState _ | .handleState _ | .runState .. | .start _ | .execute .. | .current none
  | .deactivate => true
  | _ => false

@[simp] theorem isWork_start (p : π) : (start p : Event σ π γ).isWork = true := rfl

@[simp] theorem isWork_execute (p : π) (o : Outcome) :
    (execute p o : Event σ π γ).isWork = true := rfl

@[simp] theorem isWork_leaveState (s : Option σ) :
    (leaveState s : Event σ π γ).isWork = true := rfl

@[simp] theorem isWork_handleState (s : Option σ) :
    (handleState s : Event σ π γ).isWork = true := rfl

@[simp] theorem isWork_runState (s : Option σ) (p q : Option π) :
    (runState s p q : Event σ π γ).isWork = true := rfl

@[simp] theorem isWork_deactivate : (deactivate : Event σ π γ).isWork = true := rfl

@[simp] theorem isWork_vacant : (current none : Event σ π γ).isWork = true := rfl

end Event

namespace Machine

variable {σ π γ ω : Type} [DecidableEq σ] [DecidableEq π]
variable {G : StateGraph σ π γ} {W : Surroundings π γ ω}

/-- Every program can be started. -/
def Loaded (m : Machine σ π γ ω) : Prop := ∀ p, (m.programs p).isLoaded = true

/-- From `m` to `m'` the programs `ps` were started and the core became `c`; `l` was
logged, and the check of preconditions was left alone. -/
structure Plans (c : Core σ π) (ps : List π) (l : List (Event σ π γ))
    (m m' : Machine σ π γ ω) : Prop where
  core : m'.core = c
  programs : ∀ q, m'.programs q =
    if q ∈ ps then { m.programs q with pStatus := .running } else m.programs q
  log : m'.log = l ++ m.log
  precIt : m'.precIt = m.precIt
  checkingPrecond : m'.checkingPrecond = m.checkingPrecond

namespace Plans

variable {c c' : Core σ π} {ps ps' : List π} {l l' : List (Event σ π γ)}
variable {m m₁ m₂ : Machine σ π γ ω}

theorem trans (h : Plans c ps l m m₁) (h' : Plans c' ps' l' m₁ m₂) :
    Plans c' (ps ++ ps') (l' ++ l) m m₂ where
  core := h'.core
  programs q := by
    rw [h'.programs, h.programs]
    by_cases h₁ : q ∈ ps <;> by_cases h₂ : q ∈ ps' <;> simp [h₁, h₂]
  log := by rw [h'.log, h.log, List.append_assoc]
  precIt := h'.precIt.trans h.precIt
  checkingPrecond := h'.checkingPrecond.trans h.checkingPrecond

/-- A change of the core alone. -/
theorem of_core {r : Machine σ π γ ω} (hp : r.programs = m.programs)
    (hl : r.log = l ++ m.log) (hi : r.precIt = m.precIt)
    (hc : r.checkingPrecond = m.checkingPrecond) : Plans r.core [] l m r :=
  ⟨rfl, by simp [hp], hl, hi, hc⟩

theorem loaded (h : Plans c ps l m m₁) (hm : m.Loaded) : m₁.Loaded := by
  intro q
  rw [h.programs]
  split <;> exact hm q

theorem pausing (h : Plans c ps l m m₁) (q : π) :
    (m₁.programs q).pausing = (m.programs q).pausing := by
  rw [h.programs]
  split <;> rfl

theorem slot (h : Plans c ps l m m₁) (k : Slot) {r : Machine σ π γ ω} (hc : r.core = c) :
    m₁.slot k = r.slot k := slot_core r (h.core.trans hc.symm) k

end Plans

theorem startProgram_plans {p : π} {m : Machine σ π γ ω} (h : m.Loaded) :
    Plans m.core [p] [.start p] m (m.startProgram W p) := by
  have hs := Program.start_reset (h p)
  simp only [startProgram, setProgram_same, hs]
  refine ⟨rfl, fun q => ?_, rfl, rfl, rfl⟩
  simp only [programs_record, setProgram, List.mem_singleton]
  split
  · next hq => rw [hq]
  · rfl

theorem launch_plans (o : Option π) {m : Machine σ π γ ω} (h : m.Loaded) :
    Plans (m.core.launch o) o.toList (o.toList.map .start) m (m.launch W o) := by
  cases o with
  | none => exact ⟨by simp only [Core.launch, Option.or_none]; rfl, by simp [launch], rfl, rfl, rfl⟩
  | some p =>
    have hp := startProgram_plans (W := W) (p := p) h
    have hprog : (m.startProgram W p).currentProg = m.currentProg :=
      congrArg Core.currentProg hp.core
    simp only [launch, hprog]
    split
    · next hn =>
      refine ⟨?_, hp.programs, hp.log, hp.precIt, hp.checkingPrecond⟩
      rw [← hp.core]
      have hc : (m.startProgram W p).core.currentProg = none := hprog.trans hn
      simp only [Core.launch, hc, Option.none_or]
      rfl
    · next hn =>
      refine ⟨?_, hp.programs, hp.log, hp.precIt, hp.checkingPrecond⟩
      obtain ⟨q, hq⟩ := Option.ne_none_iff_exists'.mp hn
      have hc : m.core.currentProg = some q := hq
      rw [hp.core, Core.launch, hc, Option.some_or, ← hc]

/-- A change of the core, and then a launch. -/
theorem launch_after (m m₁ : Machine σ π γ ω) (o : Option π) (l : List (Event σ π γ))
    (h : m.Loaded) (hp : m₁.programs = m.programs) (hl : m₁.log = l ++ m.log)
    (hi : m₁.precIt = m.precIt) (hc : m₁.checkingPrecond = m.checkingPrecond) :
    Plans (m₁.core.launch o) o.toList (o.toList.map .start ++ l) m (m₁.launch W o) :=
  (Plans.of_core hp hl hi hc).trans (launch_plans o fun p => hp ▸ h p)

theorem leaveState_plans (s : σ) {m : Machine σ π γ ω} (h : m.Loaded) :
    Plans (m.core.leave G s) (G.getExitProgram s).toList
      ((G.getExitProgram s).toList.map .start ++ [.leaveState (some s)]) m
      (m.leaveState G W (some s)) :=
  launch_after m { (m.record (.leaveState (some s))).disableEvents G (some s) with
    currentExit := G.getExitProgram s } _ _ h rfl rfl rfl rfl

theorem runState_plans (s : σ) {m : Machine σ π γ ω} (h : m.Loaded) :
    Plans (m.core.run G s) (G.getRunProgram s).toList
      ((G.getRunProgram s).toList.map .start ++
        [.runState (some s) m.currentProg m.currentRun]) m
      (m.runState G W (some s)) :=
  launch_after m { m.record (.runState (some s) m.currentProg m.currentRun) with
    currentRun := G.getRunProgram s } _ _ h rfl rfl rfl rfl

theorem handleState_plans (s : σ) {m : Machine σ π γ ω} (h : m.Loaded) :
    Plans (m.core.handle G s) (G.getHandleProgram s).toList
      ((G.getHandleProgram s).toList.map .start ++ [.handleState (some s)]) m
      (m.handleState G W (some s)) :=
  launch_after m { m.record (.handleState (some s)) with
    currentHandle := G.getHandleProgram s } _ _ h rfl rfl rfl rfl

theorem enterState_plans (s : σ) {m : Machine σ π γ ω} (h : m.Loaded) :
    Plans (m.core.enter G s) (G.getEntryProgram s).toList
      ((G.getEntryProgram s).toList.map .start) m (m.enterState G W s) := by
  have hp := launch_after (W := W) m { m with
    world := resetConditions W (G.stateMap s) m.world
    connected := setHandles G (some s) true m.connected
    next := some s
    currentEntry := G.getEntryProgram s } (G.getEntryProgram s) [] h rfl rfl rfl rfl
  rw [List.append_nil] at hp
  exact hp

end Machine
end OrocosRtt.StateMachine
