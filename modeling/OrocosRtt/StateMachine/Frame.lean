import OrocosRtt.StateMachine.Evidence
import Mathlib.Tactic.Simps.Basic

/-! What the functions of a state machine leave alone. The members a change of state goes
through are collected in `Core`; evaluations change nothing of it but the cursor, and
executing a program changes only `currentProg`, its own pointer and, on an error, the status. -/
set_option linter.unusedSectionVars false

namespace OrocosRtt.StateMachine

/-- The members besides the programs, the world, the log and the preconditions' cursor. -/
structure Core (σ π : Type) where
  smStatus : Status
  smpStatus : PrivateStatus
  current : Option σ
  next : Option σ
  currentProg : Option π
  currentExit : Option π
  currentHandle : Option π
  currentEntry : Option π
  currentRun : Option π
  currentTrans : Option π
  reqstep : Option (TransIter σ)
  reqend : Option (TransIter σ)
  mstep : Bool
  connected : Option σ → ℕ → Bool

namespace Event

variable {σ π γ : Type}

/-- Logged while conditions are evaluated, before anything is changed. -/
def isEvaluation : Event σ π γ → Bool
  | .guard .. | .precondition .. | .check .. | .resume .. | .fallback ..
  | .requestNextState .. => true
  | _ => false

end Event

namespace Machine

open Library.Early Library.Log

variable {σ π γ ω : Type} [DecidableEq σ] [DecidableEq π]
variable {G : StateGraph σ π γ} {W : Surroundings π γ ω}

@[simps]
def core (m : Machine σ π γ ω) : Core σ π where
  smStatus := m.smStatus
  smpStatus := m.smpStatus
  current := m.current
  next := m.next
  currentProg := m.currentProg
  currentExit := m.currentExit
  currentHandle := m.currentHandle
  currentEntry := m.currentEntry
  currentRun := m.currentRun
  currentTrans := m.currentTrans
  reqstep := m.reqstep
  reqend := m.reqend
  mstep := m.mstep
  connected := m.connected

@[simp] theorem core_record (m : Machine σ π γ ω) (e : Event σ π γ) :
    (m.record e).core = m.core := rfl

@[simp] theorem core_setProgram (m : Machine σ π γ ω) (p : π) (q : Program) :
    (m.setProgram p q).core = m.core := rfl

@[simp] theorem programs_record (m : Machine σ π γ ω) (e : Event σ π γ) :
    (m.record e).programs = m.programs := rfl

@[simp] theorem log_record (m : Machine σ π γ ω) (e : Event σ π γ) :
    (m.record e).log = e :: m.log := rfl

@[simp] theorem log_setProgram (m : Machine σ π γ ω) (p : π) (q : Program) :
    (m.setProgram p q).log = m.log := rfl

@[simp] theorem setProgram_same (m : Machine σ π γ ω) (p : π) (q : Program) :
    (m.setProgram p q).programs p = q := by simp [setProgram]

theorem setProgram_other (m : Machine σ π γ ω) {p r : π} (q : Program) (h : r ≠ p) :
    (m.setProgram p q).programs r = m.programs r := by simp [setProgram, h]

theorem slot_core (m : Machine σ π γ ω) {m' : Machine σ π γ ω} (h : m'.core = m.core)
    (k : Slot) : m'.slot k = m.slot k := by
  cases k
  · exact congrArg Core.currentTrans h
  · exact congrArg Core.currentExit h
  · exact congrArg Core.currentEntry h
  · exact congrArg Core.currentHandle h
  · exact congrArg Core.currentRun h

/-! ### Evaluations -/

/-- `m'` differs from `m` only in the world, the check of preconditions and the evaluations
logged. -/
structure Observes (m m' : Machine σ π γ ω) : Prop where
  core : m'.core = m.core
  programs : m'.programs = m.programs
  log : ∃ l : List (Event σ π γ), m'.log = l ++ m.log ∧ ∀ e ∈ l, e.isEvaluation = true

theorem Observes.refl (m : Machine σ π γ ω) : Observes m m :=
  ⟨rfl, rfl, [], rfl, by simp⟩

theorem Observes.trans {m₁ m₂ m₃ : Machine σ π γ ω} (h : Observes m₁ m₂)
    (h' : Observes m₂ m₃) : Observes m₁ m₃ := by
  obtain ⟨l, hl, hq⟩ := h.log
  obtain ⟨l', hl', hq'⟩ := h'.log
  refine ⟨h'.core.trans h.core, h'.programs.trans h.programs, l' ++ l, ?_, ?_⟩
  · rw [hl', hl, List.append_assoc]
  · intro e he
    exact (List.mem_append.mp he).elim (hq' e) (hq e)

/-- Changes outside of the core, the programs and the log. -/
theorem Observes.of_eq {m m' : Machine σ π γ ω} (hc : m'.core = m.core)
    (hp : m'.programs = m.programs) (hl : m'.log = m.log) : Observes m m' :=
  ⟨hc, hp, [], hl, by simp⟩

theorem Observes.record (m : Machine σ π γ ω) {e : Event σ π γ}
    (h : e.isEvaluation = true) : Observes m (m.record e) :=
  ⟨rfl, rfl, [e], rfl, by simpa using h⟩

/-- Observations that leave the check of preconditions fit to be continued. -/
structure Evaluates (G : StateGraph σ π γ) (m m' : Machine σ π γ ω) : Prop
    extends Observes m m' where
  consistent : m.Consistent G → m'.Consistent G

theorem Evaluates.refl (m : Machine σ π γ ω) : Evaluates G m m := ⟨.refl m, id⟩

theorem Evaluates.trans {m₁ m₂ m₃ : Machine σ π γ ω} (h : Evaluates G m₁ m₂)
    (h' : Evaluates G m₂ m₃) : Evaluates G m₁ m₃ :=
  ⟨h.toObserves.trans h'.toObserves, h'.consistent ∘ h.consistent⟩

theorem Evaluates.world (m : Machine σ π γ ω) (w : ω) : Evaluates G m { m with world := w } :=
  ⟨.of_eq rfl rfl rfl, fun h => h.congr rfl rfl rfl⟩

theorem Evaluates.request (s : Option σ) (m : Machine σ π γ ω) :
    Evaluates G m (m.record (.requestNextState s)) :=
  ⟨.record m rfl, fun hm => hm.congr rfl rfl rfl⟩

theorem Evaluates.fallback (s : σ) (m : Machine σ π γ ω) :
    Evaluates G m (m.record (.fallback s)) :=
  ⟨.record m rfl, fun _ => .of_new rfl⟩

theorem Observes.current {m m' : Machine σ π γ ω} (h : Observes m m') :
    m'.current = m.current := congrArg Core.current h.core

theorem evaluateGuard_evaluates (c : γ) (m : Machine σ π γ ω) :
    Evaluates G m (m.evaluateGuard W c).2 :=
  ⟨⟨rfl, rfl, [_], rfl, by simp [Event.isEvaluation]⟩,
    fun h => h.congr rfl rfl rfl⟩

theorem checkLoop_observes (stepping : Bool) (l : List (γ × ℕ)) (m : Machine σ π γ ω) :
    Observes m (m.checkLoop W stepping l).2 := by
  induction l generalizing m with
  | nil => exact .of_eq rfl rfl rfl
  | cons c rest ih =>
    obtain ⟨c, line⟩ := c
    have he : Observes m (m.evaluatePrecondition W c).2 :=
      ⟨rfl, rfl, [_], rfl, by simp [Event.isEvaluation]⟩
    simp only [checkLoop]
    split
    · exact .of_eq rfl rfl rfl
    · split
      · next m₁ hm =>
        rw [hm] at he
        exact he.trans (.of_eq rfl rfl rfl)
      · next m₁ hm =>
        rw [hm] at he
        split
        · exact he.trans (.of_eq rfl rfl rfl)
        · refine he.trans (Observes.trans ?_ (ih _))
          exact .of_eq rfl rfl rfl

/-- Only a stepping check is not done at once. -/
theorem checkConditions_decided (s : Option σ) (m : Machine σ π γ ω) :
    (m.checkConditions G W s false).1 ≠ .busy := by
  have hloop (l : List (γ × ℕ)) (m : Machine σ π γ ω) : (m.checkLoop W false l).1 ≠ .busy := by
    induction l generalizing m with
    | nil => simp [checkLoop]
    | cons c rest ih =>
      simp only [checkLoop, Bool.false_eq_true, and_false, if_false]
      split
      · simp
      · exact ih _
  exact hloop _ _

theorem checkConditions_evaluates (s : Option σ) (stepping : Bool) (m : Machine σ π γ ω) :
    Evaluates G m (m.checkConditions G W s stepping).2 := by
  refine ⟨?_, checkConditions_consistent⟩
  simp only [checkConditions]
  refine Observes.trans ?_ (checkLoop_observes ..)
  split
  · exact ⟨rfl, rfl, [_], rfl, by simp [Event.isEvaluation]⟩
  · exact .record m rfl

theorem tryTransition_evaluates {τ : Type} (target : τ → Option σ)
    (t : Transition τ π γ) (m : Machine σ π γ ω) :
    Evaluates G m (m.tryTransition G W target t).2 := by
  have hg := evaluateGuard_evaluates (G := G) (W := W) t.cnd m
  simp only [tryTransition]
  split
  · next m₁ h => rw [h] at hg; exact hg
  · next m₁ h =>
    rw [h] at hg
    have hc := checkConditions_evaluates (G := G) (W := W) (target t.target) false m₁
    split <;> next m₂ h₂ => rw [h₂] at hc; exact hg.trans hc

theorem findTransition_evaluates {τ : Type} (target : τ → Option σ)
    (ts : List (Transition τ π γ)) (m : Machine σ π γ ω) :
    Evaluates G m (m.findTransition G W target ts).2 := by
  induction ts generalizing m with
  | nil => exact .refl m
  | cons t ts ih =>
    have ht := tryTransition_evaluates (G := G) (W := W) target t m
    simp only [findTransition]
    split
    · next m₁ h => rw [h] at ht; exact ht
    · next m₁ h => rw [h] at ht; exact ht.trans (ih m₁)

/-! ### Selected targets -/

/-- The preconditions of `n` are found true at the end of `m'`, if checks can be trusted. -/
def Checked (G : StateGraph σ π γ) (n : Option σ) (m m' : Machine σ π γ ω) : Prop :=
  m.Consistent G → Throughout Event.resumesOwn m'.log → Verified G n m'.log

theorem checkConditions_checked {s : Option σ} {stepping : Bool} {m m' : Machine σ π γ ω}
    (h : m.checkConditions G W s stepping = (.success, m')) : Checked G s m m' := by
  intro hm hr
  have hv : (m.checkConditions G W s stepping).1 = .success := by rw [h]
  have hl : (m.checkConditions G W s stepping).2 = m' := by rw [h]
  exact hl ▸ checkConditions_verified hm hv (hl ▸ hr)

theorem Checked.of_evaluates {n : Option σ} {m m₁ m' : Machine σ π γ ω}
    (h : Evaluates G m m₁) (hc : Checked G n m₁ m') : Checked G n m m' :=
  fun hm => hc (h.consistent hm)

theorem findTransition_checked {τ : Type} {target : τ → Option σ}
    {ts : List (Transition τ π γ)} {m m' : Machine σ π γ ω} {t : Transition τ π γ}
    (h : m.findTransition G W target ts = (some t, m')) : Checked G (target t.target) m m' := by
  induction ts generalizing m with
  | nil => simp [findTransition] at h
  | cons u ts ih =>
    have hg := evaluateGuard_evaluates (G := G) (W := W) u.cnd m
    simp only [findTransition, tryTransition] at h
    cases hb : m.evaluateGuard W u.cnd with
    | mk b m₁ =>
      rw [hb] at hg h
      cases b with
      | false => exact (ih h).of_evaluates hg
      | true =>
        have hc := checkConditions_evaluates (G := G) (W := W) (target u.target) false m₁
        cases hv : m₁.checkConditions G W (target u.target) false with
        | mk v m₂ =>
          simp only [hv] at hc h
          cases v with
          | success =>
            simp only [Prod.mk.injEq, Option.some.injEq] at h
            obtain ⟨rfl, rfl⟩ := h
            exact (checkConditions_checked hv).of_evaluates hg
          | busy => exact (ih h).of_evaluates (hg.trans hc)
          | failed => exact (ih h).of_evaluates (hg.trans hc)

theorem findTransition_mem {τ : Type} {target : τ → Option σ}
    {ts : List (Transition τ π γ)} {m m' : Machine σ π γ ω} {t : Transition τ π γ}
    (h : m.findTransition G W target ts = (some t, m')) : t ∈ ts := by
  induction ts generalizing m with
  | nil => simp [findTransition] at h
  | cons u ts ih =>
    simp only [findTransition] at h
    split at h
    · simp only [Prod.mk.injEq, Option.some.injEq] at h
      exact h.1 ▸ List.mem_cons_self
    · exact List.mem_cons_of_mem _ (ih h)

/-! ### Decisions -/

/-- Evaluations, and moves of the search's cursor. -/
def Searches (G : StateGraph σ π γ) (m m' : Machine σ π γ ω) : Prop :=
  ∃ it, Evaluates G { m with reqstep := it } m'

theorem Evaluates.withCursor {m m' : Machine σ π γ ω} (h : Evaluates G m m')
    (it : Option (TransIter σ)) :
    Evaluates G { m with reqstep := it } { m' with reqstep := it } :=
  ⟨⟨congrArg (fun c : Core σ π => { c with reqstep := it }) h.core, h.programs, h.log⟩,
    fun hm => h.consistent hm⟩

theorem Evaluates.searches {m m' : Machine σ π γ ω} (h : Evaluates G m m') :
    Searches G m m' := ⟨m.reqstep, h⟩

theorem Searches.trans {m₁ m₂ m₃ : Machine σ π γ ω} (h : Searches G m₁ m₂)
    (h' : Searches G m₂ m₃) : Searches G m₁ m₃ := by
  obtain ⟨it, h⟩ := h
  obtain ⟨it', h'⟩ := h'
  exact ⟨it', (h.withCursor it').trans h'⟩

theorem Searches.current {m m' : Machine σ π γ ω} (h : Searches G m m') :
    m'.current = m.current := by
  obtain ⟨it, h⟩ := h
  exact h.current

theorem Searches.consistent {m m' : Machine σ π γ ω} (h : Searches G m m')
    (hm : m.Consistent G) : m'.Consistent G := by
  obtain ⟨it, h⟩ := h
  exact h.consistent hm

theorem Searches.cursor (m : Machine σ π γ ω) (it : Option (TransIter σ)) (e : ℕ) :
    Searches G m { m with reqstep := it, evaluating := e } :=
  ⟨it, .of_eq rfl rfl rfl, fun h => h.congr rfl rfl rfl⟩

/-- Why a search or a request may go to `n` from the current state `s`. -/
inductive Selected (G : StateGraph σ π γ) (s n : σ) (m m' : Machine σ π γ ω) : Prop where
  | same : n = s → Selected G s n m m'
  | final : n = G.finistate → Selected G s n m m'
  | fallback : Event.fallback n ∈ m'.log → Selected G s n m m'
  | checked : Checked G (some n) m m' → Selected G s n m m'

theorem Selected.of_searches {s n : σ} {m m₁ m' : Machine σ π γ ω} (h : Searches G m m₁)
    (hn : Selected G s n m₁ m') : Selected G s n m m' := by
  cases hn with
  | same h => exact .same h
  | final h => exact .final h
  | fallback h => exact .fallback h
  | checked hc => exact .checked fun hm => hc (h.consistent hm)

/-- The cursor of the search is at its end although there are transitions left. -/
def Halted (G : StateGraph σ π γ) (m : Machine σ π γ ω) : Prop :=
  ∃ it, m.reqstep = some it ∧ m.reqend = some it ∧ it.pos < (G.stateMap it.state).length

variable (G W) in
/-- What a search or a request comes to: it does nothing but evaluate, it moves on to the
next transition, or it calls `changeState` once, which `ok` allows. -/
inductive Decides (stepping : Bool) (ok : Prop) (m : Machine σ π γ ω) :
    Machine σ π γ ω → Prop where
  | stay {m' : Machine σ π γ ω} : Evaluates G m m' → Decides stepping ok m m'
  | halt {m' : Machine σ π γ ω} : Searches G m m' → Halted G m' → Decides stepping ok m m'
  | advance {m' : Machine σ π γ ω} : Searches G m m' →
      Decides stepping ok m (m'.record .advance)
  | change {m' : Machine σ π γ ω} (s n : σ) (T : Option π) :
      ok → m.current = some s → (∀ p, T = some p → G.role p = .transition) →
      Selected G s n m m' → Searches G m m' →
      Decides stepping ok m (m'.changeState G W n T stepping)

theorem Decides.of_evaluates {stepping : Bool} {ok : Prop} {m m₁ m₂ : Machine σ π γ ω}
    (h : Evaluates G m m₁) (h' : Decides G W stepping ok m₁ m₂) :
    Decides G W stepping ok m m₂ := by
  cases h' with
  | stay he => exact .stay (h.trans he)
  | halt hs hh => exact .halt (h.searches.trans hs) hh
  | advance ha => exact .advance (h.searches.trans ha)
  | change s n T hok hs hT hn he =>
    exact .change s n T hok (h.current ▸ hs) hT (hn.of_searches h.searches)
      (h.searches.trans he)

theorem resetGlobals_evaluates (m : Machine σ π γ ω) : Evaluates G m (m.resetGlobals G W) :=
  .world m _

theorem rewind_searches (s : σ) (m : Machine σ π γ ω) : Searches G m (rewind G s m) :=
  .cursor m _ _

theorem moveOn_searches (ts : List (Transition σ π γ)) (m : Machine σ π γ ω) :
    Searches G m (m.moveOn ts) := .cursor m _ _

/-- The search of the global transitions always ends in `changeState`. -/
theorem searchGlobal_changes {s : σ} {m : Machine σ π γ ω} (stepping : Bool)
    (f : Machine σ π γ ω → Machine σ π γ ω) (hf : ∀ m, Searches G m (f m)) :
    ∃ n T m', m.searchGlobal G W s stepping f = m'.changeState G W n T stepping ∧
      (∀ p, T = some p → G.role p = .transition) ∧ Selected G s n m m' ∧ Searches G m m' := by
  have he := findTransition_evaluates (G := G) (W := W) id G.globalMap m
  simp only [searchGlobal]
  split
  · next t m₁ h =>
    have hm : t ∈ G.globalMap := findTransition_mem h
    have hc : Checked G t.target m m₁ := findTransition_checked h
    rw [h] at he
    refine ⟨_, _, m₁, rfl, G.global_role t hm, ?_, he.searches⟩
    cases ht : t.target with
    | none => exact .same rfl
    | some n => exact .checked (ht ▸ hc)
  · next m₁ h =>
    rw [h] at he
    exact ⟨s, none, _, rfl, by simp, .same rfl, he.searches.trans (hf _)⟩

theorem searchGlobal_decides {s : σ} {m m₁ : Machine σ π γ ω} {ok : Prop} (stepping : Bool)
    (f : Machine σ π γ ω → Machine σ π γ ω) (hf : ∀ m, Searches G m (f m))
    (h : Searches G m m₁) (hs : m.current = some s) (hok : ok) :
    Decides G W stepping ok m (m₁.searchGlobal G W s stepping f) := by
  obtain ⟨n, T, m', he, hT, hn, hm⟩ :=
    searchGlobal_changes (G := G) (W := W) (s := s) (m := m₁) stepping f hf
  rw [he]
  exact .change s n T hok hs hT (hn.of_searches h) (h.trans hm)

theorem Observes.reqstep {m m' : Machine σ π γ ω} (h : Observes m m') :
    m'.reqstep = m.reqstep := congrArg Core.reqstep h.core

/-- `m₁` is where the loop of the search stands, at the first of the transitions `ts`. -/
theorem searchLocal_decides {s : σ} {ok : Prop} (stepping : Bool)
    (ts : List (Transition σ π γ)) {m m₁ : Machine σ π γ ω} {it : TransIter σ}
    (hit : m₁.reqstep = some it) (hts : (G.stateMap it.state).drop it.pos = ts)
    (hstay : ts ≠ [] ∨ Evaluates G m m₁) (hm : Searches G m m₁)
    (hs : m.current = some s) (hok : ok)
    (hkeep : stepping = false ∨ Evaluates G m m₁) :
    Decides G W stepping ok m (m₁.searchLocal G W s stepping ts) := by
  induction ts generalizing m₁ it with
  | nil => exact .stay (hstay.resolve_left (by simp))
  | cons t ts ih =>
    have hpos : it.pos < (G.stateMap it.state).length := by
      by_contra hge
      rw [List.drop_eq_nil_of_le (by omega)] at hts
      cases hts
    -- the transition at the cursor is not taken
    have hnext (m₂ : Machine σ π γ ω) (he : Evaluates G m₁ m₂) :
        Decides G W stepping ok m
          (if ts = [] then m₂.searchGlobal G W s stepping (rewind G s)
            else if stepping then (m₂.moveOn ts).record .advance
            else (m₂.moveOn ts).searchLocal G W s stepping ts) := by
      have hm₂ : Searches G m m₂ := hm.trans he.searches
      split
      · exact searchGlobal_decides stepping _ (rewind_searches s) hm₂ hs hok
      · next hne =>
        have hm₃ : Searches G m (m₂.moveOn ts) := hm₂.trans (moveOn_searches ts m₂)
        split
        · exact .advance hm₃
        · next hst =>
          have hst : stepping = false := by simpa using hst
          refine @ih (m₂.moveOn ts) it.next ?_ ?_ (.inl hne) hm₃ (.inl hst)
          · simp [moveOn, he.reqstep, hit]
          · have := congrArg List.tail hts
            simpa [TransIter.next] using this
    have hg := evaluateGuard_evaluates (G := G) (W := W) t.cnd m₁
    simp only [searchLocal]
    split
    · next m₂ h => rw [h] at hg; exact hnext m₂ hg
    · next m₂ h =>
      rw [h] at hg
      have hc := checkConditions_evaluates (G := G) (W := W) (some t.target) stepping m₂
      split
      · next hend =>
        have hstep : m₂.reqstep = some it := hg.reqstep.trans hit
        exact .halt (hm.trans hg.searches) ⟨it, hstep, hend.symm.trans hstep, hpos⟩
      · split
        · next m₃ h₃ =>
          rw [h₃] at hc
          cases stepping with
          | true =>
            have hk : Evaluates G m m₁ := hkeep.resolve_left (by simp)
            exact .stay (hk.trans (hg.trans hc))
          | false => exact absurd (congrArg Prod.fst h₃) (checkConditions_decided _ m₂)
        · next m₃ h₃ =>
          rw [h₃] at hc
          have ht : t ∈ G.stateMap it.state :=
            List.mem_of_mem_drop (hts ▸ List.mem_cons_self)
          have hck := (checkConditions_checked h₃).of_evaluates hg
          exact .change s _ _ hok hs (G.local_role _ t ht)
            (.checked fun hmc => hck (hm.consistent hmc)) (hm.trans (hg.trans hc).searches)
        · next m₃ h₃ => rw [h₃] at hc; exact hnext m₃ (hg.trans hc)

/-- A search changes the state only while the current one may be left. -/
theorem requestNextState_decides (stepping : Bool) (m : Machine σ π γ ω) :
    Decides G W stepping (m.interruptible = true ∧ m.currentTrans = none) m
      (m.requestNextState G W stepping) := by
  have hr : Evaluates G m (m.record (.requestNextState m.current)) := .request _ m
  simp only [requestNextState]
  split
  · exact .stay hr
  · next s hs =>
    split
    · exact .stay hr
    · next hno =>
      have hok : m.interruptible = true ∧ m.currentTrans = none := by
        obtain ⟨hi, ht⟩ := not_or.mp hno
        exact ⟨(Bool.not_eq_false _).mp hi, not_not.mp ht⟩
      have hsearch (m₁ : Machine σ π γ ω) (he : Evaluates G m m₁) :
          Decides G W stepping (m.interruptible = true ∧ m.currentTrans = none) m
            (if m₁.reqstep = m₁.reqend then m₁.searchGlobal G W s stepping id
              else m₁.searchLocal G W s stepping (m₁.remaining G)) := by
        split
        · exact searchGlobal_decides stepping id (fun m => (Evaluates.refl m).searches)
            he.searches hs hok
        · cases hit : m₁.reqstep with
          | none => simp only [remaining, hit]; exact .stay he
          | some it =>
            simp only [remaining, hit]
            exact searchLocal_decides stepping _ hit rfl (.inr he) he.searches hs hok (.inr he)
      split
      · exact hsearch _ (hr.trans (resetGlobals_evaluates _))
      · exact hsearch _ hr

theorem requestStateChange_decides (n : σ) (m : Machine σ π γ ω) :
    Decides G W false (m.interruptible = true) m (m.requestStateChange G W n).2 := by
  simp only [requestStateChange]
  split
  · exact .stay (.refl m)
  · next s hs =>
    split
    · exact .stay (.refl m)
    · next hi =>
      have hok : m.interruptible = true := by simpa using hi
      split
      · next hsn =>
        exact .change s n none hok hs (by simp) (.same hsn.symm) (Evaluates.refl m).searches
      · have hl := findTransition_evaluates (G := G) (W := W) some
          ((G.stateMap s).filter fun t => t.target = n) m
        split
        · next t m₁ h =>
          have ht := List.mem_filter.mp (findTransition_mem h)
          have htn : t.target = n := by simpa using ht.2
          have hc := findTransition_checked h
          rw [h] at hl
          exact .change s n _ hok hs (G.local_role s t ht.1) (.checked (htn ▸ hc)) hl.searches
        · next m₁ h =>
          rw [h] at hl
          have hl' := hl.trans (resetGlobals_evaluates (G := G) (W := W) m₁)
          have hg := findTransition_evaluates (G := G) (W := W) id
            (G.globalMap.filter fun t => t.target = some n) (m₁.resetGlobals G W)
          split
          · next t m₂ h₂ =>
            have ht := List.mem_filter.mp (findTransition_mem h₂)
            have htn : t.target = some n := by simpa using ht.2
            have hc := (findTransition_checked h₂).of_evaluates hl'
            rw [h₂] at hg
            exact .change s n _ hok hs (G.global_role t ht.1) (.checked (htn ▸ hc))
              (hl'.trans hg).searches
          · next m₂ h₂ =>
            rw [h₂] at hg
            split
            · next hf =>
              have hfb : Evaluates G m₂ (m₂.record (.fallback n)) := .fallback n m₂
              exact .change s n none hok hs (by simp) (.fallback List.mem_cons_self)
                (hl'.trans (hg.trans hfb)).searches
            · exact .stay (hl'.trans hg)

theorem requestFinalState_decides (m : Machine σ π γ ω) :
    Decides G W false (m.interruptible = true) m (m.requestFinalState G W).2 := by
  simp only [requestFinalState]
  split
  · exact .stay (.refl m)
  · exact requestStateChange_decides _ m

theorem requestInitialState_decides (m : Machine σ π γ ω) :
    Decides G W false (m.interruptible = true) m (m.requestInitialState G W).2 := by
  simp only [requestInitialState]
  split
  · exact requestStateChange_decides _ m
  · exact .stay (.refl m)

theorem requestState_decides (name : String) (m : Machine σ π γ ω) :
    Decides G W false (m.interruptible = true) m (m.requestState G W name).2 := by
  simp only [requestState]
  split
  · exact requestStateChange_decides _ m
  · exact .stay (.refl m)

theorem eventTransition_decides (source : Option σ) {k : Option σ}
    {e : EventTransition σ π γ} (he : e ∈ G.eventMap k) (m : Machine σ π γ ω) :
    Decides G W false (m.inTransition = false) m (m.eventTransition G W source e) := by
  simp only [eventTransition]
  split
  · exact .stay (.refl m)
  · next s hs =>
    split
    · next hok =>
      have hg := evaluateGuard_evaluates (G := G) (W := W) e.guard m
      split
      · next m₁ h => rw [h] at hg; exact .stay hg
      · next m₁ h =>
        rw [h] at hg
        have hc := checkConditions_evaluates (G := G) (W := W) (some (e.target.getD s)) false m₁
        split
        · next m₂ h₂ =>
          rw [h₂] at hc
          exact .change s _ _ hok.2 hs (G.event_role k e he)
            (.checked ((checkConditions_checked h₂).of_evaluates hg)) (hg.trans hc).searches
        · next m₂ _ h₂ => rw [h₂] at hc; exact .stay (hg.trans hc)
    · exact .stay (.refl m)

end Machine
end OrocosRtt.StateMachine
