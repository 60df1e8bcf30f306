import OrocosRtt.Library.Scan
import OrocosRtt.StateMachine.Pointers
import Mathlib.Data.List.Sort

/-! The order in which the transitions of a state are tried: they are kept by priority, and a
search begins with the first one and takes the first that it can; and what makes a search
begin somewhere else. -/
set_option linter.unusedSectionVars false

namespace OrocosRtt.StateMachine

open Library.Log Library.Scan

variable {σ π γ ω : Type} [DecidableEq σ] [DecidableEq π]

/-! ### The lists of transitions -/

section TransitionSet

variable {τ : Type}

/-- `transitionSet`: the new entry comes after all that have its priority or a higher one. -/
def transitionSet (t : Transition τ π γ) (l : List (Transition τ π γ)) :
    List (Transition τ π γ) :=
  l.orderedInsert (fun a b => b.priority < a.priority) t

/-- Where the new entry goes: the others keep their order. -/
theorem transitionSet_split (t : Transition τ π γ) {l : List (Transition τ π γ)}
    (h : ByPriority l) : ∃ pre post, l = pre ++ post ∧ transitionSet t l = pre ++ t :: post ∧
      (∀ a ∈ pre, t.priority ≤ a.priority) ∧ ∀ b ∈ post, b.priority < t.priority := by
  induction l with
  | nil => exact ⟨[], [], rfl, rfl, by simp, by simp⟩
  | cons a l ih =>
    obtain ⟨ha, hl⟩ := List.pairwise_cons.mp h
    by_cases hat : a.priority < t.priority
    · refine ⟨[], a :: l, rfl, by simp [transitionSet, hat], by simp, fun b hb => ?_⟩
      rcases List.mem_cons.mp hb with rfl | hb
      · exact hat
      · exact (ha b hb).trans_lt hat
    · obtain ⟨pre, post, rfl, hi, hpre, hpost⟩ := ih hl
      refine ⟨a :: pre, post, rfl, ?_, fun b hb => ?_, hpost⟩
      · rw [transitionSet, List.orderedInsert_cons, if_neg hat]
        exact congrArg (a :: ·) hi
      · rcases List.mem_cons.mp hb with rfl | hb
        · exact not_lt.mp hat
        · exact hpre b hb

/-- With a priority that is not above the others the new entry comes last. -/
theorem transitionSet_last {t : Transition τ π γ} {l : List (Transition τ π γ)}
    (h : ∀ u ∈ l, t.priority ≤ u.priority) : transitionSet t l = l ++ [t] := by
  induction l with
  | nil => rfl
  | cons u l ih =>
    have hu : ¬ u.priority < t.priority := not_lt_of_ge (h u List.mem_cons_self)
    rw [transitionSet, List.orderedInsert_cons, if_neg hu]
    exact congrArg (u :: ·) (ih fun v hv => h v (List.mem_cons_of_mem u hv))

theorem transitionSet_byPriority (t : Transition τ π γ) {l : List (Transition τ π γ)}
    (h : ByPriority l) : ByPriority (transitionSet t l) := by
  obtain ⟨pre, post, rfl, he, hpre, hpost⟩ := transitionSet_split t h
  obtain ⟨h₁, h₂, h₃⟩ := List.pairwise_append.mp h
  rw [he, ByPriority, List.pairwise_append, List.pairwise_cons]
  refine ⟨h₁, ⟨fun b hb => (hpost b hb).le, h₂⟩, fun a ha b hb => ?_⟩
  rcases List.mem_cons.mp hb with rfl | hb
  · exact hpre a ha
  · exact h₃ a ha b hb

/-- A sorted list that is built again comes out as it was. -/
theorem foldl_transitionSet (ts : List (Transition τ π γ)) : ∀ l, ByPriority (l ++ ts) →
    ts.foldl (fun l t => transitionSet t l) l = l ++ ts := by
  induction ts with
  | nil => simp
  | cons t ts ih =>
    intro l h
    have hlast : transitionSet t l = l ++ [t] :=
      transitionSet_last fun u hu => (List.pairwise_append.mp h).2.2 u hu t List.mem_cons_self
    rw [List.foldl_cons, hlast, ih _ (by simpa using h)]
    simp

/-- The list of a state as it is parsed, one `transitionSet` after the other. -/
theorem transitionSets_byPriority (ts : List (Transition τ π γ)) :
    ByPriority (ts.foldl (fun l t => transitionSet t l) []) := by
  suffices h : ∀ l, ByPriority l → ByPriority (ts.foldl (fun l t => transitionSet t l) l) from
    h [] List.Pairwise.nil
  induction ts with
  | nil => exact fun _ h => h
  | cons t ts ih => exact fun l h => ih _ (transitionSet_byPriority t h)

end TransitionSet

namespace Machine

variable {G : StateGraph σ π γ} {W : Surroundings π γ ω}

/-! ### The search -/

theorem findTransition_eq_scan {τ : Type} (target : τ → Option σ)
    (ts : List (Transition τ π γ)) (m : Machine σ π γ ω) :
    m.findTransition G W target ts = scan (fun t m => m.tryTransition G W target t) ts m := by
  induction ts generalizing m with
  | nil => rfl
  | cons t ts ih =>
    simp only [findTransition, scan, ih]
    rcases m.tryTransition G W target t with ⟨b, m₁⟩
    cases b <;> rfl

/-- The cursor of the search and the line it shows. -/
def withCursor (it : Option (TransIter σ)) (e : ℕ) (m : Machine σ π γ ω) : Machine σ π γ ω :=
  { m with reqstep := it, evaluating := e }

theorem checkLoop_withCursor (l : List (γ × ℕ)) (it : Option (TransIter σ)) (e : ℕ)
    (m : Machine σ π γ ω) : (m.withCursor it e).checkLoop W false l =
      ((m.checkLoop W false l).1, (m.checkLoop W false l).2.withCursor it e) := by
  induction l generalizing m with
  | nil => rfl
  | cons c l ih =>
    simp only [checkLoop, Bool.false_eq_true, and_false, if_false]
    cases hb : (W.evaluate c.1 m.world).1 with
    | false => simp [evaluatePrecondition, withCursor, record, hb]
    | true =>
      have := ih { (m.evaluatePrecondition W c.1).2 with precIt := l }
      simpa [evaluatePrecondition, withCursor, record, hb] using this

/-- Without stepping no test depends on the cursor. -/
theorem tryTransition_withCursor {τ : Type} (target : τ → Option σ) (t : Transition τ π γ)
    (it : Option (TransIter σ)) (e : ℕ) (m : Machine σ π γ ω) :
    (m.withCursor it e).tryTransition G W target t =
      ((m.tryTransition G W target t).1,
        (m.tryTransition G W target t).2.withCursor it e) := by
  have hc (s : Option σ) (m : Machine σ π γ ω) :
      (m.withCursor it e).checkConditions G W s false =
        ((m.checkConditions G W s false).1,
          (m.checkConditions G W s false).2.withCursor it e) := by
    simp only [checkConditions, or_true, if_true]
    exact checkLoop_withCursor (G.precondMap s) it e
      ({ m with precIt := G.precondMap s }.record (.check s))
  have hg : (m.withCursor it e).evaluateGuard W t.cnd =
      ((m.evaluateGuard W t.cnd).1, (m.evaluateGuard W t.cnd).2.withCursor it e) := rfl
  simp only [tryTransition, hg]
  rcases m.evaluateGuard W t.cnd with ⟨b, m₁⟩
  cases b with
  | false => rfl
  | true =>
    simp only [hc]
    rcases m₁.checkConditions G W (target t.target) false with ⟨v, m₂⟩
    cases v <;> rfl

theorem findTransition_withCursor {τ : Type} (target : τ → Option σ)
    (ts : List (Transition τ π γ)) (it : Option (TransIter σ)) (e : ℕ) (m : Machine σ π γ ω) :
    (m.withCursor it e).findTransition G W target ts =
      ((m.findTransition G W target ts).1,
        (m.findTransition G W target ts).2.withCursor it e) := by
  rw [findTransition_eq_scan, findTransition_eq_scan]
  exact scan_comm (f := withCursor it e)
    (fun t m => tryTransition_withCursor target t it e m) ts m

variable (G W) in
/-- `r` is left by a search in the state `s` that tries the transitions `ts` in their order,
then the global ones, takes the first that it can, and handles the state if there is none. -/
inductive Searched (s : σ) (ts : List (Transition σ π γ)) (m : Machine σ π γ ω) :
    Machine σ π γ ω → Prop where
  | own {t : Transition σ π γ} {m' : Machine σ π γ ω} (it : Option (TransIter σ)) (e : ℕ) :
      First (fun t m => m.tryTransition G W some t) ts t m m' →
      Searched s ts m ((m'.withCursor it e).changeState G W t.target t.transprog false)
  | global {t : Transition (Option σ) π γ} {m₁ m' : Machine σ π γ ω}
      (it : Option (TransIter σ)) (e : ℕ) :
      Refused (fun t m => m.tryTransition G W some t) ts m m₁ →
      First (fun t m => m.tryTransition G W id t) G.globalMap t m₁ m' →
      Searched s ts m ((m'.withCursor it e).changeState G W (t.target.getD s) t.transprog false)
  | handle {m₁ m' : Machine σ π γ ω} (it : Option (TransIter σ)) (e : ℕ) :
      Refused (fun t m => m.tryTransition G W some t) ts m m₁ →
      Refused (fun t m => m.tryTransition G W id t) G.globalMap m₁ m' →
      Searched s ts m ((m'.withCursor it e).changeState G W s none false)

theorem searchGlobal_searched {s : σ} {ts : List (Transition σ π γ)} {m m₁ : Machine σ π γ ω}
    (h : Refused (fun t m => m.tryTransition G W some t) ts m m₁) (it : Option (TransIter σ))
    (e : ℕ) {f : Machine σ π γ ω → Machine σ π γ ω}
    (hf : ∀ m it e, ∃ it' e', f (withCursor it e m) = withCursor it' e' m) :
    Searched G W s ts m ((m₁.withCursor it e).searchGlobal G W s false f) := by
  simp only [searchGlobal, findTransition_withCursor]
  cases hfind : m₁.findTransition G W id G.globalMap with
  | mk o m₂ =>
    rw [findTransition_eq_scan] at hfind
    cases o with
    | some t => exact .global it e h (first_of_scan hfind)
    | none =>
      obtain ⟨it', e', he⟩ := hf m₂ it e
      simp only [he]
      exact .handle it' e' h (refused_of_scan hfind)

/-- One round of the search, as long as there are transitions left. -/
theorem searchLocal_cons {s : σ} {t : Transition σ π γ} {ts : List (Transition σ π γ)}
    {m : Machine σ π γ ω} (h : m.reqstep ≠ m.reqend) :
    m.searchLocal G W s false (t :: ts) =
      match m.tryTransition G W some t with
      | (true, m') => m'.changeState G W t.target t.transprog false
      | (false, m') =>
        if ts = [] then m'.searchGlobal G W s false (rewind G s)
        else (m'.moveOn ts).searchLocal G W s false ts := by
  have hg := evaluateGuard_evaluates (G := G) (W := W) t.cnd m
  simp only [searchLocal, tryTransition, Bool.false_eq_true, if_false]
  cases hb : m.evaluateGuard W t.cnd with
  | mk b m₁ =>
    rw [hb] at hg
    cases b with
    | false => rfl
    | true =>
      have hne : m₁.reqstep ≠ m₁.reqend := by
        rw [hg.reqstep, show m₁.reqend = m.reqend from congrArg Core.reqend hg.core]
        exact h
      have hd := checkConditions_decided (G := G) (W := W) (some t.target) m₁
      simp only [if_neg hne]
      cases hv : m₁.checkConditions G W (some t.target) false with
      | mk v m₂ =>
        cases v with
        | success => rfl
        | failed => rfl
        | busy => exact absurd (congrArg Prod.fst hv) hd

theorem searchLocal_searched {s : σ} {pre ts : List (Transition σ π γ)}
    {m m₁ : Machine σ π γ ω} (h : Refused (fun t m => m.tryTransition G W some t) pre m m₁)
    (hts : ts ≠ []) (hend : m₁.reqend = some ⟨s, (pre ++ ts).length⟩) (e : ℕ) :
    Searched G W s (pre ++ ts) m
      ((m₁.withCursor (some ⟨s, pre.length⟩) e).searchLocal G W s false ts) := by
  induction ts generalizing pre m₁ e with
  | nil => exact absurd rfl hts
  | cons t ts ih =>
    have hne : (m₁.withCursor (some ⟨s, pre.length⟩) e).reqstep ≠
        (m₁.withCursor (some ⟨s, pre.length⟩) e).reqend := by
      simp [withCursor, hend]
    have hev := tryTransition_evaluates (G := G) (W := W) some t m₁
    rw [searchLocal_cons hne, tryTransition_withCursor]
    cases ht : m₁.tryTransition G W some t with
    | mk b m₂ =>
      rw [ht] at hev
      cases b with
      | true => exact .own _ e ⟨pre, ts, m₁, rfl, h, ht⟩
      | false =>
        have hpre := h.snoc ht
        by_cases hnil : ts = []
        · subst hnil
          simp only [if_true]
          exact searchGlobal_searched hpre _ e fun m it e => ⟨some (begin s), _, rfl⟩
        · have hend₂ : m₂.reqend = some ⟨s, (pre ++ [t] ++ ts).length⟩ := by
            rw [show m₂.reqend = m₁.reqend from congrArg Core.reqend hev.core, hend]
            simp
          have := ih hpre hnil hend₂ (lineOf ts)
          rw [List.append_assoc, List.length_append] at this
          simp only [if_neg hnil]
          exact this

/-- A search that begins with the first transition. -/
theorem requestNextState_searched {m : Machine σ π γ ω} {s : σ} (hs : m.current = some s)
    (hi : m.interruptible = true) (ht : m.currentTrans = none)
    (hstep : m.reqstep = some (begin s))
    (hend : m.reqend = some ⟨s, (G.stateMap s).length⟩) :
    Searched G W s (G.stateMap s) ((m.record (.requestNextState (some s))).resetGlobals G W)
      (m.requestNextState G W false) := by
  let m₀ := (m.record (.requestNextState (some s))).resetGlobals G W
  have hm₀ : m₀.withCursor (some (begin s)) m.evaluating = m₀ := by
    simp only [m₀, withCursor, resetGlobals, record, ← hstep]
  have hreq : m.requestNextState G W false =
      if m₀.reqstep = m₀.reqend then m₀.searchGlobal G W s false id
      else m₀.searchLocal G W s false (m₀.remaining G) := by
    have hno : ¬ ((m.record (.requestNextState (some s))).interruptible = false ∨
        (m.record (.requestNextState (some s))).currentTrans ≠ none) := by
      have hi' : (m.record (.requestNextState (some s))).interruptible = true := hi
      have ht' : (m.record (.requestNextState (some s))).currentTrans = none := ht
      simp [hi', ht']
    have hst : (m.record (.requestNextState (some s))).reqstep = some (begin s) := hstep
    have hcur : (m.record (.requestNextState (some s))).current = some s := hs
    simp only [requestNextState, hs, hcur, if_neg hno, if_pos hst]
    rfl
  have hstep₀ : m₀.reqstep = some (begin s) := hstep
  have hend₀ : m₀.reqend = some ⟨s, (G.stateMap s).length⟩ := hend
  have hrem : m₀.remaining G = G.stateMap s := by
    simp [remaining, hstep₀, begin]
  have hnone : Refused (fun t m => m.tryTransition G W some t) [] m₀ m₀ := .nil m₀
  rw [hreq, hrem]
  by_cases hnil : G.stateMap s = []
  · have heq : m₀.reqstep = m₀.reqend := by
      rw [hstep₀, hend₀, hnil]
      rfl
    rw [if_pos heq, ← hm₀, hnil]
    rw [hm₀]
    have := searchGlobal_searched (s := s) hnone (some (begin s)) m.evaluating (f := id)
      fun m it e => ⟨it, e, rfl⟩
    rwa [hm₀] at this
  · have hne : m₀.reqstep ≠ m₀.reqend := by
      rw [hstep₀, hend₀]
      intro he
      exact hnil (List.eq_nil_of_length_eq_zero (congrArg (fun o => (o.map TransIter.pos).getD 0) he).symm)
    rw [if_neg hne]
    have := searchLocal_searched hnone hnil hend₀ m.evaluating
    rwa [List.length_nil, show (⟨s, 0⟩ : TransIter σ) = begin s from rfl, hm₀] at this

theorem tryTransition_log {τ : Type} (target : τ → Option σ) (t : Transition τ π γ)
    (m : Machine σ π γ ω) : (∃ b, .guard t.cnd b :: m.log <:+ (m.tryTransition G W target t).2.log) := by
  refine ⟨(m.evaluateGuard W t.cnd).1, ?_⟩
  have hg : (m.evaluateGuard W t.cnd).2.log = .guard t.cnd (m.evaluateGuard W t.cnd).1 :: m.log :=
    rfl
  simp only [tryTransition]
  cases hb : m.evaluateGuard W t.cnd with
  | mk b m₁ =>
    rw [hb] at hg
    rw [← hg]
    cases b with
    | false => exact List.suffix_rfl
    | true =>
      have hc := (checkConditions_evaluates (G := G) (W := W) (target t.target) false m₁).log_suffix
      simp only
      split <;> next m₂ hv => rw [hv] at hc; exact hc

/-- The first thing in a search is the guard of the first transition. -/
theorem Searched.guard {s : σ} {t : Transition σ π γ} {ts : List (Transition σ π γ)}
    {m r : Machine σ π γ ω} (h : Searched G W s (t :: ts) m r) :
    ∃ b, .guard t.cnd b :: m.log <:+ r.log := by
  obtain ⟨b, hb⟩ := tryTransition_log (G := G) (W := W) some t m
  refine ⟨b, ?_⟩
  let R : Machine σ π γ ω → Prop := fun m₁ => .guard t.cnd b :: m.log <:+ m₁.log
  have hkeep {τ : Type} (target : τ → Option σ) (t : Transition τ π γ) (m₁ : Machine σ π γ ω)
      (h : R m₁) : R (m₁.tryTransition G W target t).2 :=
    h.trans (tryTransition_evaluates target t m₁).log_suffix
  have hchange (it : Option (TransIter σ)) (e : ℕ) (n : σ) (T : Option π)
      (m₁ : Machine σ π γ ω) (h : R m₁) :
      R ((m₁.withCursor it e).changeState G W n T false) := by
    have hl := (planState_log (G := G) (W := W) n T (m₁.withCursor it e)).trans
      (changeState_log n T false _)
    exact h.trans ((List.suffix_cons _ _).trans hl)
  cases h with
  | own it e hf =>
    apply hchange
    rcases hf.head with he | hf
    · exact he ▸ hb
    · exact hf.keeps (hkeep some) hb
  | global it e hr hf =>
    apply hchange
    exact hf.keeps (hkeep id) (hr.head.keeps (hkeep some) hb)
  | handle it e hr hr' =>
    apply hchange
    exact hr'.keeps (hkeep id) (hr.head.keeps (hkeep some) hb)

end Machine
end OrocosRtt.StateMachine
