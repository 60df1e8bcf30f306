import OrocosRtt.StateMachine.CoreRule

/-! The preconditions of a state: a state is entered only after every one of them was true in
the evaluation that selected it; and which checks and requests break that. -/
set_option linter.unusedSectionVars false

namespace OrocosRtt.StateMachine

open Library.Log

variable {σ π γ ω : Type} [DecidableEq σ] [DecidableEq π]
variable {G : StateGraph σ π γ} {W : Surroundings π γ ω}

/-- The state that was selected last. A transition of a state to itself selects none. -/
def selected (G : StateGraph σ π γ) : List (Event σ π γ) → Option σ
  | [] => none
  | .activate :: _ => some G.initstate
  | .changeState c :: l => if c.source = some c.target then selected G l else some c.target
  | _ :: l => selected G l

namespace Event

/-- The target of a change, other than the final state, has just been found to meet all of
its preconditions, and only the state that was selected last becomes the current one. -/
def entersVerified (G : StateGraph σ π γ) (e : Event σ π γ) (l : List (Event σ π γ)) : Prop :=
  match e with
  | .changeState c => c.source = some c.target ∨ c.target = G.finistate ∨
      G.precondMap (some c.target) = [] ∨ Verified G (some c.target) l
  | .activate => Verified G (some G.initstate) l
  | .current (some n) => selected G l = some n
  | _ => True

instance [DecidableEq γ] (e : Event σ π γ) (l : List (Event σ π γ)) :
    Decidable (e.entersVerified G l) :=
  match e with
  | .changeState _ => inferInstanceAs (Decidable (_ ∨ _ ∨ _ ∨ _ = _))
  | .activate => inferInstanceAs (Decidable (_ = _))
  | .current (some _) => inferInstanceAs (Decidable (_ = _))
  | .current none | .resume _ | .fallback _ | .runState .. | .guard .. | .precondition ..
  | .check _ | .advance | .leaveState _ | .handleState _ | .requestNextState _ | .start _
  | .execute .. | .deactivate => .isTrue trivial

/-- A check goes on only with the preconditions it was begun with, and a request is granted
without a transition only where there are none to check. -/
def checksOwn (G : StateGraph σ π γ) (e : Event σ π γ) (l : List (Event σ π γ)) : Prop :=
  match e with
  | .resume s => (evidence l).1 = some s
  | .fallback s => s = G.finistate ∨ G.precondMap (some s) = []
  | _ => True

instance (e : Event σ π γ) (l : List (Event σ π γ)) : Decidable (e.checksOwn G l) :=
  match e with
  | .resume _ => inferInstanceAs (Decidable (_ = _))
  | .fallback _ => inferInstanceAs (Decidable (_ ∨ _))
  | .runState .. | .guard .. | .precondition .. | .check _ | .changeState _ | .advance
  | .leaveState _ | .handleState _ | .requestNextState _ | .start _ | .execute .. | .current _
  | .activate | .deactivate => .isTrue trivial

theorem checksOwn.resumesOwn {e : Event σ π γ} {l : List (Event σ π γ)} (h : e.checksOwn G l) :
    e.resumesOwn l := by
  cases e with
  | resume s => exact h
  | _ => trivial

end Event

theorem selected_evaluation {e : Event σ π γ} (h : e.isEvaluation = true)
    (l : List (Event σ π γ)) : selected G (e :: l) = selected G l := by
  cases e <;> first | rfl | simp [Event.isEvaluation] at h

theorem selected_work {e : Event σ π γ} (h : e.isWork = true) (l : List (Event σ π γ)) :
    selected G (e :: l) = selected G l := by
  cases e <;> first | rfl | simp [Event.isWork] at h

theorem entersVerified_evaluation {e : Event σ π γ} (h : e.isEvaluation = true)
    (l : List (Event σ π γ)) : e.entersVerified G l := by
  cases e <;> trivial

theorem entersVerified_work {e : Event σ π γ} (h : e.isWork = true)
    (l : List (Event σ π γ)) : e.entersVerified G l := by
  cases e with
  | current s =>
    cases s with
    | none => trivial
    | some s => simp [Event.isWork] at h
  | _ => trivial

/-- Whatever state is next was selected, and the states so far were entered verified. -/
structure Vetted (G : StateGraph σ π γ) (c : Core σ π) (l : List (Event σ π γ)) : Prop where
  next : ∀ n, c.next = some n → selected G l = some n
  entered : Throughout (Event.entersVerified G) l

/-- The next state and the log are all that matters. -/
theorem Vetted.congr {c c' : Core σ π} {l : List (Event σ π γ)} (h : Vetted G c l)
    (hn : c'.next = c.next ∨ c'.next = none) : Vetted G c' l := by
  refine ⟨fun n hc => ?_, h.entered⟩
  rcases hn with hn | hn
  · exact h.next n (hn.symm.trans hc)
  · rw [hn] at hc
    cases hc

/-- An entry that selects no state. -/
theorem Vetted.log {c : Core σ π} {l : List (Event σ π γ)} (h : Vetted G c l)
    (e : Event σ π γ) (hs : selected G (e :: l) = selected G l) (he : e.entersVerified G l) :
    Vetted G c (e :: l) :=
  ⟨fun n hn => hs.trans (h.next n hn), he, h.entered⟩

/-- What was granted may be entered. -/
theorem Granted.enterable {n : σ} {l : List (Event σ π γ)} (h : Granted G n l)
    (hl : Throughout (Event.checksOwn G) l) :
    n = G.finistate ∨ G.precondMap (some n) = [] ∨ Verified G (some n) l := by
  rcases h with h | h | h
  · exact .inl h
  · obtain ⟨l', -, hok⟩ := hl.mem h
    exact hok.imp id .inl
  · exact .inr (.inr (h (hl.imp fun _ _ => Event.checksOwn.resumesOwn)))

namespace Machine

theorem vetted_coreRule : CoreRule (ω := ω) G (fun _ _ => True) (Event.checksOwn G)
    (fun _ => True) (Vetted G) where
  evaluates h he := h.log _ (selected_evaluation he _) (entersVerified_evaluation he _)
  works h he := h.log _ (selected_work he _) (entersVerified_work he _)
  advances _ h := (h.log .advance rfl trivial).congr (.inl rfl)
  progs _ h := h.congr (.inl rfl)
  fails h := h.congr (.inl rfl)
  clears k h := h.congr (.inl (by cases k <;> rfl))
  leaves h _ _ := (h.log (.current none) rfl trivial).congr (.inl rfl)
  becomes h _ hn := (h.log (.current (some _)) rfl (h.next _ hn)).congr (.inl rfl)
  runs _ h := h.congr (.inl rfl)
  handles _ h _ _ := h.congr (.inl rfl)
  selfs := by
    intro c l s T ch it h hs hof _
    -- a transition of the current state to itself selects nothing
    have hch : ch.source = some ch.target := by rw [hof.source, hof.target, hs]
    exact (h.log (.changeState ch) (if_pos hch) (.inl hch)).congr (.inl rfl)
  changes := by
    intro c l s n T ch skip it h _ hs hne hof hn hl
    have hch : ch.source ≠ some ch.target := by
      rw [hof.source, hof.target, hs]
      exact fun he => hne (Option.some.inj he)
    constructor
    · intro n' hn'
      rw [Core.change_next] at hn'
      rw [← hn', ← hof.target]
      exact if_neg hch
    · exact ⟨.inr (hof.target ▸ hn.enterable hl.2), h.entered⟩
  statuses _ _ _ h _ := h.congr (.inl rfl)
  activates h _ _ hv hl :=
    ⟨fun _ hn => hn, hv (hl.imp fun _ _ => Event.checksOwn.resumesOwn), h.entered⟩
  vacates h _ _ _ _ := (h.log .deactivate rfl trivial).congr (.inr rfl)
  stalls h _ _ := (h.log .deactivate rfl trivial).congr (.inr rfl)
  deactivates h _ := h.congr (.inl rfl)
  settles h _ _ := h.congr (.inl rfl)

theorem loading_vetted (unloadOnStop : π → Bool) (w : ω) :
    CoreRule.Keeps G (Vetted G) (loading unloadOnStop w : Machine σ π γ ω) :=
  ⟨loading_wellFormed unloadOnStop w, .of_new rfl, ⟨(fun _ h => by cases h), trivial⟩⟩

/-- In every run in which checks go on with their own preconditions only, and requests are
granted without a transition only to states without preconditions, every state is entered
after all its preconditions were true in the evaluation that selected it. -/
theorem entered_verified {unloadOnStop : π → Bool} {w : ω} {ops : List (Operation σ)}
    (hlog : Throughout (Event.checksOwn G)
      ((loading unloadOnStop w : Machine σ π γ ω).runOps G W ops).log) :
    Throughout (Event.entersVerified G)
      ((loading unloadOnStop w : Machine σ π γ ω).runOps G W ops).log := by
  have hops := Library.Run.along_trivial (fun (m : Machine σ π γ ω) op => m.call G W op)
    (loading unloadOnStop w) ops
  have hm := (vetted_coreRule.logRule .trivial fun _ _ _ => trivial).runOps
    ⟨loading_vetted unloadOnStop w, trivial⟩ hops hlog
  exact hm.1.core.entered

/-! The initial state `A` with transitions to `X` and `Y`, and a final state `Z`. All but `Z`
have a precondition. -/

inductive CheckedState where
  | a | x | y | z
  deriving DecidableEq

inductive CheckedCondition where
  | toX | toY | preA | preX | preY
  deriving DecidableEq

def checkedGraph : StateGraph CheckedState Empty CheckedCondition where
  states := [.a, .x, .y, .z]
  getName
    | .a => "A"
    | .x => "X"
    | .y => "Y"
    | .z => "Z"
  getEntryProgram _ := none
  getRunProgram _ := none
  getHandleProgram _ := none
  getExitProgram _ := none
  stateMap
    | .a => [⟨.toX, .x, 0, 1, none⟩, ⟨.toY, .y, 0, 2, none⟩]
    | _ => []
  globalMap := []
  precondMap
    | some .a => [(.preA, 3)]
    | some .x => [(.preX, 4)]
    | some .y => [(.preY, 5)]
    | _ => []
  eventMap _ := []
  initstate := .a
  finistate := .z
  role p := p.elim
  entry_role := by simp
  run_role := by simp
  handle_role := by simp
  exit_role := by simp
  local_role := fun _ _ _ p => p.elim
  global_role := by simp
  event_role := by simp
  local_sorted s := by cases s <;> simp [ByPriority]
  global_sorted := by simp

/-- The world counts the evaluations: `A` may be entered at first only, the transition to
`X` is open for two evaluations, and `Y` may never be entered. -/
def changingConditions : Surroundings Empty CheckedCondition ℕ where
  evaluate c n :=
    (match c with
      | .preA => n = 0
      | .toX => n < 2
      | .toY | .preX => true
      | .preY => false, n + 1)
  resetCondition _ n := n
  resetProgram p := p.elim
  executeUntil p := p.elim
  executeStep p := p.elim
  initCommand := none

theorem entered_verified_request :
    Throughout (Event.entersVerified checkedGraph)
      ((loading (fun _ => true) 0 : Machine CheckedState Empty CheckedCondition ℕ).runOps
        checkedGraph changingConditions [.activate, .requestState "X"]).log :=
  entered_verified (by decide)

/-- From the final state the initial one is entered again without a look at its
precondition; and a step that finds the transition to `X` closed goes on to `Y` with the
precondition of `X`. -/
theorem entered_unverified :
    let entered (ops : List (Operation CheckedState)) :=
      Throughout (Event.entersVerified checkedGraph)
        ((loading (fun _ => true) 0 : Machine CheckedState Empty CheckedCondition ℕ).runOps
          checkedGraph changingConditions ops).log
    ¬ entered [.activate, .requestState "Z", .requestState "A"] ∧
      ¬ entered [.activate, .pause, .execute, .step, .execute, .step, .execute, .step, .execute,
        .step, .execute] := by
  decide

end Machine
end OrocosRtt.StateMachine
