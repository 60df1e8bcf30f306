import OrocosRtt.StateMachine.TransitionOrder

/-! What one evaluation pass over the transitions decides, as a function of the world alone. -/
set_option linter.unusedSectionVars false

namespace OrocosRtt.StateMachine

open Library.Scan

/-- The transition that a pass takes, if it takes one. -/
inductive Choice (σ π γ : Type) where
  | own (t : Transition σ π γ)
  | global (t : Transition (Option σ) π γ)
  | handle

variable {σ π γ ω : Type} [DecidableEq σ] [DecidableEq π]

namespace Choice

/-- The state that is changed to: a global transition without a target handles the state. -/
def target (s : σ) : Choice σ π γ → σ
  | own t => t.target
  | global t => t.target.getD s
  | handle => s

def transprog : Choice σ π γ → Option π
  | own t => t.transprog
  | global t => t.transprog
  | handle => none

end Choice

section World

variable (G : StateGraph σ π γ) (W : Surroundings π γ ω)

/-- The conditions are evaluated up to the first that does not hold. -/
def Surroundings.allHold (W : Surroundings π γ ω) : List (γ × ℕ) → ω → Bool × ω
  | [], w => (true, w)
  | c :: cs, w =>
    match W.evaluate c.1 w with
    | (false, w) => (false, w)
    | (true, w) => W.allHold cs w

/-- The guard of a transition and, if it holds, the preconditions of its target. -/
def attempt {τ : Type} (target : τ → Option σ) (t : Transition τ π γ) (w : ω) : Bool × ω :=
  match W.evaluate t.cnd w with
  | (false, w) => (false, w)
  | (true, w) => W.allHold (G.precondMap (target t.target)) w

/-- The transitions `ts` of the state are tried before the global ones. -/
def choose (ts : List (Transition σ π γ)) (w : ω) : Choice σ π γ × ω :=
  match scan (attempt G W some) ts w with
  | (some t, w) => (.own t, w)
  | (none, w) =>
    match scan (attempt G W id) G.globalMap w with
    | (some t, w) => (.global t, w)
    | (none, w) => (.handle, w)

end World

variable {G : StateGraph σ π γ} {W : Surroundings π γ ω}

theorem choose_own_iff {ts : List (Transition σ π γ)} {t : Transition σ π γ} {w : ω} :
    (choose G W ts w).1 = .own t ↔ ∃ w', First (attempt G W some) ts t w w' := by
  constructor
  · intro h
    cases hs : scan (attempt G W some) ts w with
    | mk o w' =>
      cases o with
      | some t' =>
        simp only [choose, hs, Choice.own.injEq] at h
        subst h
        exact ⟨w', first_of_scan hs⟩
      | none =>
        simp only [choose, hs] at h
        split at h <;> cases h
  · rintro ⟨w', h⟩
    simp only [choose, scan_of_first h]

namespace Machine

theorem checkLoop_world (cs : List (γ × ℕ)) (m : Machine σ π γ ω) :
    W.allHold cs m.world = (decide ((m.checkLoop W false cs).1 = .success),
      (m.checkLoop W false cs).2.world) := by
  induction cs generalizing m with
  | nil => rfl
  | cons c cs ih =>
    have hp : m.evaluatePrecondition W c.1 = ((W.evaluate c.1 m.world).1,
        { m with world := (W.evaluate c.1 m.world).2 }.record
          (.precondition c.1 (W.evaluate c.1 m.world).1)) := rfl
    simp only [checkLoop, Surroundings.allHold, hp, Bool.false_eq_true, and_false, if_false]
    rcases W.evaluate c.1 m.world with ⟨b, w⟩
    cases b with
    | false => rfl
    | true =>
      exact ih { { m with world := w }.record (.precondition c.1 true) with precIt := cs }

theorem checkConditions_world (s : Option σ) (m : Machine σ π γ ω) :
    W.allHold (G.precondMap s) m.world = (decide ((m.checkConditions G W s false).1 = .success),
      (m.checkConditions G W s false).2.world) := by
  simp only [checkConditions, or_true, if_true]
  exact checkLoop_world (G.precondMap s)
    ({ m with precIt := G.precondMap s }.record (.check s))

theorem tryTransition_world {τ : Type} (target : τ → Option σ) (t : Transition τ π γ)
    (m : Machine σ π γ ω) : attempt G W target t m.world =
      ((m.tryTransition G W target t).1, (m.tryTransition G W target t).2.world) := by
  have hg : m.evaluateGuard W t.cnd = ((W.evaluate t.cnd m.world).1,
      { m with world := (W.evaluate t.cnd m.world).2 }.record
        (.guard t.cnd (W.evaluate t.cnd m.world).1)) := rfl
  simp only [attempt, tryTransition, hg]
  rcases W.evaluate t.cnd m.world with ⟨b, w⟩
  cases b with
  | false => rfl
  | true =>
    have hc := checkConditions_world (G := G) (W := W) (target t.target)
      ({ m with world := w }.record (.guard t.cnd true))
    refine Eq.trans hc ?_
    simp only
    rcases checkConditions G W (target t.target) false _ with ⟨v, m₂⟩
    cases v <;> rfl

theorem findTransition_world {τ : Type} (target : τ → Option σ) (ts : List (Transition τ π γ))
    (m : Machine σ π γ ω) : scan (attempt G W target) ts m.world =
      ((m.findTransition G W target ts).1, (m.findTransition G W target ts).2.world) := by
  rw [findTransition_eq_scan]
  exact scan_project (tryTransition_world target) ts m

variable (G W) in
/-- `r` is left by a pass that tries the transitions `ts` of the state `s` first. -/
def Chosen (s : σ) (ts : List (Transition σ π γ)) (m r : Machine σ π γ ω) : Prop :=
  ∃ m' : Machine σ π γ ω, m'.current = m.current ∧ m'.world = (choose G W ts m.world).2 ∧
    r = m'.changeState G W ((choose G W ts m.world).1.target s)
      (choose G W ts m.world).1.transprog false

theorem searchGlobal_chosen {s : σ} {ts : List (Transition σ π γ)} {m m₁ : Machine σ π γ ω}
    (hts : scan (attempt G W some) ts m.world = (none, m₁.world)) (hc : m₁.current = m.current)
    {f : Machine σ π γ ω → Machine σ π γ ω}
    (hf : ∀ m₂ : Machine σ π γ ω, (f m₂).world = m₂.world ∧ (f m₂).current = m₂.current) :
    Chosen G W s ts m (m₁.searchGlobal G W s false f) := by
  have hw := findTransition_world (G := G) (W := W) id G.globalMap m₁
  have he := (findTransition_evaluates (G := G) (W := W) id G.globalMap m₁).core
  simp only [Chosen, choose, hts, searchGlobal]
  cases hfind : m₁.findTransition G W id G.globalMap with
  | mk o m₂ =>
    rw [hfind] at hw he
    have hc₂ : m₂.current = m.current := (congrArg Core.current he).trans hc
    simp only [hw]
    cases o with
    | some t => exact ⟨m₂, hc₂, rfl, rfl⟩
    | none => exact ⟨f m₂, (hf m₂).2.trans hc₂, (hf m₂).1, rfl⟩

theorem searchLocal_chosen {s : σ} {ts : List (Transition σ π γ)} {m : Machine σ π γ ω} {k : ℕ}
    (hts : ts ≠ []) (hstep : m.reqstep = some ⟨s, k⟩)
    (hend : m.reqend = some ⟨s, k + ts.length⟩) :
    Chosen G W s ts m (m.searchLocal G W s false ts) := by
  induction ts generalizing m k with
  | nil => exact absurd rfl hts
  | cons t ts ih =>
    have hne : m.reqstep ≠ m.reqend := by simp [hstep, hend]
    have hw := tryTransition_world (G := G) (W := W) some t m
    have he := tryTransition_evaluates (G := G) (W := W) some t m
    rw [searchLocal_cons hne]
    cases ht : m.tryTransition G W some t with
    | mk b m₂ =>
      rw [ht] at hw he
      have hc : m₂.current = m.current := congrArg Core.current he.core
      have hend₂ : m₂.reqend = m.reqend := congrArg Core.reqend he.core
      cases b with
      | true =>
        simp only [Chosen, choose, scan, hw]
        exact ⟨m₂, hc, rfl, rfl⟩
      | false =>
        by_cases hnil : ts = []
        · subst hnil
          simp only [if_true]
          have hnone : scan (attempt G W some) [t] m.world = (none, m₂.world) := by
            simp only [scan, hw]
          exact searchGlobal_chosen (f := rewind G s) hnone hc fun _ => ⟨rfl, rfl⟩
        · have hlen : k + (t :: ts).length = k + 1 + ts.length := by
            simp only [List.length_cons]
            omega
          have hreq : m₂.reqstep = m.reqstep := he.reqstep
          have := @ih (m₂.moveOn ts) (k + 1) hnil
            (by simp [moveOn, hreq, hstep, TransIter.next])
            (by rw [show (m₂.moveOn ts).reqend = m₂.reqend from rfl, hend₂, hend, hlen])
          simp only [if_neg hnil]
          simp only [Chosen, choose, scan, hw] at this ⊢
          obtain ⟨m', hcur, hrest⟩ := this
          exact ⟨m', hcur.trans hc, hrest⟩

/-- The world in which a pass begins: the global conditions are reset, if it begins with the first
transition. -/
def passWorld (G : StateGraph σ π γ) (W : Surroundings π γ ω) (k : ℕ) (w : ω) : ω :=
  if k = 0 then resetConditions W G.globalMap w else w

/-- A pass can begin: the machine is interruptible in the state `s` and has reached the `k`-th of its
transitions. -/
structure Stands (G : StateGraph σ π γ) (m : Machine σ π γ ω) (s : σ) (k : ℕ) : Prop where
  current : m.current = some s
  interruptible : m.interruptible = true
  currentTrans : m.currentTrans = none
  reqstep : m.reqstep = some ⟨s, k⟩
  le : k ≤ (G.stateMap s).length
  reqend : m.reqend = some ⟨s, (G.stateMap s).length⟩

variable (G W) in
/-- The pass that begins now chooses `c`, and that is what it does. -/
def Takes (m : Machine σ π γ ω) (s : σ) (k : ℕ) (c : Choice σ π γ) : Prop :=
  (choose G W ((G.stateMap s).drop k) (passWorld G W k m.world)).1 = c ∧
    ∃ m' : Machine σ π γ ω, m'.current = some s ∧
      m'.world = (choose G W ((G.stateMap s).drop k) (passWorld G W k m.world)).2 ∧
      m.requestNextState G W false = m'.changeState G W (c.target s) c.transprog false

/-- A pass does what was chosen on the world alone. -/
theorem Stands.takes_iff {m : Machine σ π γ ω} {s : σ} {k : ℕ} (h : m.Stands G s k)
    {c : Choice σ π γ} : m.Takes G W s k c ↔
      (choose G W ((G.stateMap s).drop k) (passWorld G W k m.world)).1 = c := by
  obtain ⟨hs, hi, ht, hstep, hk, hend⟩ := h
  let m₁ := m.record (.requestNextState (some s))
  let m₀ := if k = 0 then m₁.resetGlobals G W else m₁
  have hno : ¬ (m₁.interruptible = false ∨ m₁.currentTrans ≠ none) := by
    have hi' : m₁.interruptible = true := hi
    have ht' : m₁.currentTrans = none := ht
    simp [hi', ht']
  have hbegin : m₁.reqstep = some (begin s) ↔ k = 0 := by
    rw [show m₁.reqstep = some ⟨s, k⟩ from hstep]
    simp [begin]
  have hreq : m.requestNextState G W false =
      if m₀.reqstep = m₀.reqend then m₀.searchGlobal G W s false id
      else m₀.searchLocal G W s false (m₀.remaining G) := by
    have hcur : m₁.current = some s := hs
    simp only [requestNextState, hs, hcur, if_neg hno, m₁, m₀, ← hbegin]
  have hw : m₀.world = passWorld G W k m.world := by
    simp only [m₀, passWorld]
    split <;> rfl
  have hcore : m₀.current = some s ∧ m₀.reqstep = some ⟨s, k⟩ ∧
      m₀.reqend = some ⟨s, (G.stateMap s).length⟩ := by
    simp only [m₀]
    split <;> exact ⟨hs, hstep, hend⟩
  obtain ⟨hcur, hstep₀, hend₀⟩ := hcore
  have hrem : m₀.remaining G = (G.stateMap s).drop k := by simp [remaining, hstep₀]
  have hchosen : Chosen G W s ((G.stateMap s).drop k) m₀ (m.requestNextState G W false) := by
    rw [hreq]
    by_cases hlen : k = (G.stateMap s).length
    · rw [if_pos (by rw [hstep₀, hend₀, hlen]), hlen, List.drop_length]
      exact searchGlobal_chosen rfl rfl fun _ => ⟨rfl, rfl⟩
    · have hne : m₀.reqstep ≠ m₀.reqend := by simp [hstep₀, hend₀, hlen]
      have hdrop : (G.stateMap s).drop k ≠ [] := by
        rw [ne_eq, List.drop_eq_nil_iff]
        omega
      rw [if_neg hne, hrem]
      apply searchLocal_chosen hdrop hstep₀
      rw [hend₀, List.length_drop, Nat.add_sub_cancel' hk]
  obtain ⟨m', hc, hworld, hdone⟩ := hchosen
  rw [hw] at hworld hdone
  refine ⟨And.left, fun he => ⟨he, m', hc.trans hcur, hworld, ?_⟩⟩
  rw [hdone, he]

end Machine
end OrocosRtt.StateMachine
