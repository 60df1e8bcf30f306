import OrocosRtt.StateMachine.CoreRule
import OrocosRtt.StateMachine.TransitionOrder

/-! The cursor of the search for a transition. It is shared by all searches, and has to be
back at the first transition whenever a search is over. -/
set_option linter.unusedSectionVars false

namespace OrocosRtt.StateMachine

open Library.Log Library.Scan

variable {σ π γ ω : Type} [DecidableEq σ] [DecidableEq π]
variable {G : StateGraph σ π γ} {W : Surroundings π γ ω}

/-- A stepping search has moved on from the first transition and is not over. -/
def searchOpen : List (Event σ π γ) → Bool
  | [] | .activate :: _ | .current (some _) :: _ => false
  | .advance :: _ => true
  | .changeState c :: l =>
    c.source = some c.target ∧ c.transprog = none ∧ c.cursor ≠ some (Machine.begin c.target) ∧
      searchOpen l = true
  | _ :: l => searchOpen l

/-- A transition of a state to itself without a program is taken as the first of the list, or
in stepping mode. -/
def Event.keepsCursor (e : Event σ π γ) (l : List (Event σ π γ)) : Prop :=
  match e with
  | .changeState c => c.source = some c.target → c.transprog = none →
      c.cursor = some (Machine.begin c.target) ∨ searchOpen l = true
  | _ => True

instance (e : Event σ π γ) (l : List (Event σ π γ)) : Decidable (e.keepsCursor l) :=
  match e with
  | .changeState _ => inferInstanceAs (Decidable (_ → _ → _))
  | .guard .. | .precondition .. | .check _ | .resume _ | .advance | .fallback _
  | .leaveState _ | .handleState _ | .runState .. | .requestNextState _ | .start _
  | .execute .. | .current _ | .activate | .deactivate => .isTrue trivial

theorem searchOpen_evaluation {e : Event σ π γ} (h : e.isEvaluation = true)
    (l : List (Event σ π γ)) : searchOpen (e :: l) = searchOpen l := by
  cases e <;> first | rfl | simp [Event.isEvaluation] at h

theorem searchOpen_work {e : Event σ π γ} (h : e.isWork = true) (l : List (Event σ π γ)) :
    searchOpen (e :: l) = searchOpen l := by
  cases e with
  | current s =>
    cases s with
    | none => rfl
    | some s => simp [Event.isWork] at h
  | _ => first | rfl | simp [Event.isWork] at h

/-- In a state that is not being left, the next search begins with the first transition, if
none is open. -/
def Aligned (G : StateGraph σ π γ) (c : Core σ π) (l : List (Event σ π γ)) : Prop :=
  ∀ s, c.current = some s → c.next = some s →
    c.reqend = some ⟨s, (G.stateMap s).length⟩ ∧
      (searchOpen l = false → c.reqstep = some (Machine.begin s))

/-- Nothing but the two cursors matters, in the same state or out of it. -/
theorem Aligned.congr {c c' : Core σ π} {l : List (Event σ π γ)} (h : Aligned G c l)
    (hq : c'.reqstep = c.reqstep) (he : c'.reqend = c.reqend)
    (hs : ∀ s, c'.current = some s → c'.next = some s → c.current = some s ∧ c.next = some s) :
    Aligned G c' l := by
  intro s hc hn
  obtain ⟨h₁, h₂⟩ := hs s hc hn
  rw [hq, he]
  exact h s h₁ h₂

theorem Aligned.log {c : Core σ π} {l : List (Event σ π γ)} {e : Event σ π γ}
    (h : Aligned G c l) (he : searchOpen (e :: l) = searchOpen l) : Aligned G c (e :: l) := by
  unfold Aligned
  rw [he]
  exact h

theorem Aligned.of_vacant {c : Core σ π} {l : List (Event σ π γ)}
    (h : c.current = none ∨ c.next = none) : Aligned G c l := by
  intro s hc hn
  rcases h with h | h
  · rw [h] at hc
    cases hc
  · rw [h] at hn
    cases hn

namespace Machine

theorem aligned_coreRule :
    CoreRule (ω := ω) G (fun _ _ => True) Event.keepsCursor (fun _ => True) (Aligned G) where
  evaluates h he := h.log (searchOpen_evaluation he _)
  works h he := h.log (searchOpen_work he _)
  advances it h := fun s hc hn => ⟨(h s hc hn).1, fun ho => by cases ho⟩
  progs _ h := h.congr rfl rfl fun _ hc hn => ⟨hc, hn⟩
  fails h := h.congr rfl rfl fun _ hc hn => ⟨hc, hn⟩
  clears k h := by cases k <;> exact h
  leaves _ _ _ := .of_vacant (.inl rfl)
  becomes := by
    intro c l n h hx hn s hc _
    cases hc
    exact ⟨rfl, fun _ => rfl⟩
  runs _ h := h.congr rfl rfl fun _ hc hn => ⟨hc, hn⟩
  handles _ h _ _ := h.congr rfl rfl fun _ hc hn => ⟨hc, hn⟩
  selfs := by
    intro c l s T ch it h hs hof hok s' hc hn
    obtain ⟨hend, -⟩ := h s' hc hn
    refine ⟨hend, fun ho => ?_⟩
    obtain rfl : s = s' := Option.some.inj (hs.symm.trans hc)
    cases T with
    | some p => rfl
    | none =>
      -- the search is over, so that the cursor was at the first transition
      have hch : ch.source = some ch.target := by rw [hof.source, hof.target, hs]
      by_contra hne
      have hcur : ch.cursor ≠ some (begin ch.target) := by
        rw [hof.cursor, hof.target]
        exact hne
      have hopen := (hok hch hof.transprog).resolve_left hcur
      simp [searchOpen, hch, hof.transprog, hcur, hopen] at ho
  changes := by
    intro c l s n T ch skip it h _ hs hne _ _ _ s' hc hn
    rw [Core.change_current] at hc
    rw [Core.change_next] at hn
    exact absurd (Option.some.inj (hs.symm.trans hc)) fun he =>
      hne (he.trans (Option.some.inj hn).symm)
  statuses _ _ _ h _ := h.congr rfl rfl fun _ hc hn => ⟨hc, hn⟩
  activates := by
    intro c l h _ _ _ _ s _ hn
    cases hn
    exact ⟨rfl, fun _ => rfl⟩
  vacates _ _ _ _ _ := .of_vacant (.inr rfl)
  stalls _ _ _ := .of_vacant (.inr rfl)
  deactivates h _ := h.congr rfl rfl fun _ hc hn => ⟨hc, hn⟩
  settles h _ _ := h.congr rfl rfl fun _ hc hn => ⟨hc, hn⟩

variable (G W) in
/-- The next search without stepping tries all transitions of the current state, if that is
not being left and nothing else is to be done in it. -/
def SearchesAll (m : Machine σ π γ ω) : Prop :=
  ∀ s, m.current = some s → m.next = some s → m.interruptible = true → m.currentTrans = none →
    Searched G W s (G.stateMap s) ((m.record (.requestNextState (some s))).resetGlobals G W)
      (m.requestNextState G W false)

theorem loading_aligned (unloadOnStop : π → Bool) (w : ω) :
    CoreRule.Keeps G (Aligned G) (loading unloadOnStop w : Machine σ π γ ω) :=
  ⟨loading_wellFormed unloadOnStop w, .of_new rfl, .of_vacant (.inl rfl)⟩

theorem searchesAll_of_aligned {m : Machine σ π γ ω} (h : Aligned G m.core m.log)
    (ho : searchOpen m.log = false) : m.SearchesAll G W := by
  intro s hc hn hi ht
  obtain ⟨hend, hstep⟩ := h s hc hn
  exact requestNextState_searched hc hi ht (hstep ho) hend

/-- In every run in which a state takes a transition to itself without a program only as its
first one, a search begins with the first transition: called after the run, or by the next
execution once nothing is pending; unless a stepping search is still open. -/
theorem requestNextState_searchesAll {unloadOnStop : π → Bool} {w : ω}
    {ops : List (Operation σ)}
    (hlog : Throughout Event.keepsCursor
      ((loading unloadOnStop w : Machine σ π γ ω).runOps G W ops).log) :
    let m := (loading unloadOnStop w : Machine σ π γ ω).runOps G W ops
    (searchOpen m.log = false → m.SearchesAll G W) ∧
      ∀ m', m.executePending G W false = (true, m') →
        searchOpen m'.log = false → m'.SearchesAll G W := by
  intro m
  have hops := Library.Run.along_trivial (fun (m : Machine σ π γ ω) op => m.call G W op)
    (loading unloadOnStop w) ops
  have hm : CoreRule.Keeps G (Aligned G) m :=
    ((aligned_coreRule.logRule .trivial fun _ _ _ => trivial).runOps
      ⟨loading_aligned unloadOnStop w, trivial⟩ hops hlog).1
  refine ⟨searchesAll_of_aligned hm.core, fun m' he => ?_⟩
  have hm' := hm.executePending (W := W) aligned_coreRule false
  rw [he] at hm'
  exact searchesAll_of_aligned hm'.core

/-! The initial state `A` with a transition to `X`, and one to itself after it. -/

inductive LoopState where
  | a | x
  deriving DecidableEq

inductive LoopCondition where
  | toX | toSelf
  deriving DecidableEq

def loopGraph : StateGraph LoopState Empty LoopCondition where
  states := [.a, .x]
  getName
    | .a => "A"
    | .x => "X"
  getEntryProgram _ := none
  getRunProgram _ := none
  getHandleProgram _ := none
  getExitProgram _ := none
  stateMap
    | .a => [⟨.toX, .x, 0, 1, none⟩, ⟨.toSelf, .a, 0, 2, none⟩]
    | .x => []
  globalMap := []
  precondMap _ := []
  eventMap _ := []
  initstate := .a
  finistate := .x
  role p := p.elim
  entry_role := by simp
  run_role := by simp
  handle_role := by simp
  exit_role := by simp
  local_role := fun _ _ _ p => p.elim
  global_role := by simp
  event_role := by simp
  local_sorted s := by cases s <;> simp [ByPriority]
  global_sorted := by simp

/-- The world counts the evaluations. The transition to `X` is open after `k` of them, the
one of `A` to itself as `toSelf` says. -/
def loopConditions (k : ℕ) (toSelf : Bool) : Surroundings Empty LoopCondition ℕ where
  evaluate c n :=
    (match c with
      | .toX => k ≤ n
      | .toSelf => toSelf, n + 1)
  resetCondition _ n := n
  resetProgram p := p.elim
  executeUntil p := p.elim
  executeStep p := p.elim
  initCommand := none

theorem requestNextState_searchesAll_loop :
    let m := (loading (fun _ => true) 0 : Machine LoopState Empty LoopCondition ℕ).runOps
      loopGraph (loopConditions 4 false) [.activate, .automatic, .execute]
    m.current = some .a ∧ m.SearchesAll loopGraph (loopConditions 4 false) := by
  have hlog : Throughout Event.keepsCursor
      ((loading (fun _ => true) 0 : Machine LoopState Empty LoopCondition ℕ).runOps
        loopGraph (loopConditions 4 false) [.activate, .automatic, .execute]).log := by decide
  have h := requestNextState_searchesAll hlog
  exact ⟨by decide, h.1 (by decide)⟩

/-- After the transition to itself, `A` does not try the one to `X` any more. -/
theorem requestNextState_skips :
    ¬ ((loading (fun _ => true) 0 : Machine LoopState Empty LoopCondition ℕ).runOps
      loopGraph (loopConditions 1 true) [.activate, .automatic, .execute]).SearchesAll
        loopGraph (loopConditions 1 true) := by
  intro h
  obtain ⟨b, hb⟩ := (h .a (by decide) (by decide) (by decide) (by decide)).guard
  revert hb
  cases b <;> decide

end Machine
end OrocosRtt.StateMachine
