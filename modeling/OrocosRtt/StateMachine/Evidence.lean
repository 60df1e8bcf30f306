import OrocosRtt.Library.Log
import OrocosRtt.StateMachine.Operations

/-! What the log of a state machine tells about the preconditions of a state: the last state
they were looked up for, and how those evaluated since came out. -/
set_option linter.unusedSectionVars false

namespace OrocosRtt.StateMachine

open Library.Log

variable {σ π γ : Type}

/-- The state of the last look-up, with the outcomes of the preconditions since. Whatever
ends an evaluation, or grants a request without one, is a new start. -/
def evidence : List (Event σ π γ) → Option (Option σ) × List (γ × Bool)
  | [] | .advance :: _ | .fallback _ :: _ | .changeState _ :: _ | .activate :: _ => (none, [])
  | .check s :: _ => (some s, [])
  | .precondition c b :: l => ((evidence l).1, (evidence l).2 ++ [(c, b)])
  | _ :: l => evidence l

/-- Every precondition of `s` was evaluated since it was looked up, and was true. -/
def Verified (G : StateGraph σ π γ) (s : Option σ) (l : List (Event σ π γ)) : Prop :=
  evidence l = (some s, (G.precondMap s).map fun c => (c.1, true))

/-- A check goes on only with the preconditions of the state it is about. -/
def Event.resumesOwn (e : Event σ π γ) (l : List (Event σ π γ)) : Prop :=
  match e with
  | .resume s => (evidence l).1 = some s
  | _ => True

instance [DecidableEq σ] (e : Event σ π γ) (l : List (Event σ π γ)) :
    Decidable (e.resumesOwn l) :=
  match e with
  | .resume _ => inferInstanceAs (Decidable (_ = _))
  | .runState .. | .guard .. | .precondition .. | .check _ | .changeState _ | .advance
  | .fallback _ | .leaveState _ | .handleState _ | .requestNextState _ | .start _
  | .execute .. | .current _ | .activate | .deactivate => .isTrue trivial

namespace Machine

variable {ω : Type} [DecidableEq σ] [DecidableEq π]
variable {G : StateGraph σ π γ} {W : Surroundings π γ ω}

/-- The iterators of `checkConditions` stand where the evaluations of the log ended. -/
def AtCursor (G : StateGraph σ π γ) (m : Machine σ π γ ω) : Prop :=
  ∀ s, (evidence m.log).1 = some s →
    ∃ done, (evidence m.log).2 = done.map (fun c => (c.1, true)) ∧
      G.precondMap s = done ++ m.precIt

/-- A check that is not finished can be continued. -/
def Consistent (G : StateGraph σ π γ) (m : Machine σ π γ ω) : Prop :=
  m.checkingPrecond = true → m.AtCursor G

theorem Consistent.congr {m m' : Machine σ π γ ω} (h : m.Consistent G)
    (he : evidence m'.log = evidence m.log) (hp : m'.precIt = m.precIt)
    (hc : m'.checkingPrecond = m.checkingPrecond) : m'.Consistent G := by
  intro ht s hs
  rw [he] at hs ⊢
  rw [hp]
  exact h (hc ▸ ht) s hs

/-- Where an evaluation has ended there is nothing to be continued. -/
theorem Consistent.of_new {m : Machine σ π γ ω} (h : (evidence m.log).1 = none) :
    m.Consistent G := by
  intro _ s hs
  rw [h] at hs
  cases hs

/-- The loop of `checkConditions` keeps the iterators in place, and succeeds only at the
end of the preconditions. -/
theorem checkLoop_atCursor {stepping : Bool} {m : Machine σ π γ ω} (h : m.AtCursor G) :
    ((m.checkLoop W stepping m.precIt).2).Consistent G ∧
      ((m.checkLoop W stepping m.precIt).1 = .success →
        ∀ s, (evidence m.log).1 = some s →
          Verified G s (m.checkLoop W stepping m.precIt).2.log) := by
  generalize hl : m.precIt = l
  induction l generalizing m with
  | nil =>
    constructor
    · simp [checkLoop, Consistent]
    · intro _ s hs
      obtain ⟨done, he, hp⟩ := h s hs
      rw [hl, List.append_nil] at hp
      exact Prod.ext hs (hp ▸ he)
  | cons c rest ih =>
    obtain ⟨c, line⟩ := c
    simp only [checkLoop]
    split
    · exact ⟨fun _ => h, by simp⟩
    · cases hb : (W.evaluate c m.world).1 with
      | false => simp [evaluatePrecondition, hb, Consistent]
      | true =>
        have hcur : AtCursor G
            { (m.evaluatePrecondition W c).2 with precIt := rest } := by
          intro s hs
          obtain ⟨done, he, hp⟩ := h s hs
          refine ⟨done ++ [(c, line)], ?_, by simp [hp, hl]⟩
          simp [evaluatePrecondition, record, evidence, he, hb]
        simp only [evaluatePrecondition, hb] at hcur ⊢
        split
        · exact ⟨fun _ => hcur, by simp⟩
        · exact ih hcur rfl

theorem checkLoop_log (stepping : Bool) (l : List (γ × ℕ)) (m : Machine σ π γ ω) :
    m.log <:+ (m.checkLoop W stepping l).2.log := by
  induction l generalizing m with
  | nil => exact List.suffix_rfl
  | cons c rest ih =>
    obtain ⟨c, line⟩ := c
    simp only [checkLoop]
    split
    · exact List.suffix_rfl
    · cases hb : (W.evaluate c m.world).1 with
      | false => simp [evaluatePrecondition, hb, record]
      | true =>
        simp only [evaluatePrecondition, hb]
        split
        · exact List.suffix_cons _ _
        · have hs := ih { (m.evaluatePrecondition W c).2 with precIt := rest }
          simp only [evaluatePrecondition, hb] at hs
          exact (List.suffix_cons _ _).trans hs

/-- The preconditions of `s` have just been looked up. -/
theorem atCursor_check (s : Option σ) (m : Machine σ π γ ω) :
    AtCursor G ({ m with precIt := G.precondMap s }.record (.check s)) := by
  intro s' hs
  cases hs
  exact ⟨[], rfl, rfl⟩

theorem checkConditions_consistent {s : Option σ} {stepping : Bool} {m : Machine σ π γ ω}
    (h : m.Consistent G) : (m.checkConditions G W s stepping).2.Consistent G := by
  simp only [checkConditions]
  split
  · exact (checkLoop_atCursor (atCursor_check s m)).1
  · next hno =>
    have hc : m.checkingPrecond = true := by
      simpa using (not_or.mp hno).1
    exact (checkLoop_atCursor (m := m.record (.resume s)) (h hc)).1

/-- A successful check has found every precondition of its state true, as long as no check
went on with the preconditions of another state. -/
theorem checkConditions_verified {s : Option σ} {stepping : Bool} {m : Machine σ π γ ω}
    (h : m.Consistent G) (hv : (m.checkConditions G W s stepping).1 = .success)
    (hr : Throughout Event.resumesOwn (m.checkConditions G W s stepping).2.log) :
    Verified G s (m.checkConditions G W s stepping).2.log := by
  simp only [checkConditions] at hv hr ⊢
  split at hv
  · next hc =>
    rw [if_pos hc] at hr ⊢
    exact (checkLoop_atCursor (atCursor_check s m)).2 hv s rfl
  · next hno =>
    rw [if_neg hno] at hr ⊢
    have hc : m.checkingPrecond = true := by simpa using (not_or.mp hno).1
    have hl := checkLoop_log (W := W) stepping m.precIt (m.record (.resume s))
    have hown : (evidence m.log).1 = some s := (hr.of_suffix hl).1
    exact (checkLoop_atCursor (m := m.record (.resume s)) (h hc)).2 hv s hown

end Machine
end OrocosRtt.StateMachine
