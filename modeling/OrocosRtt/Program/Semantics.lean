import OrocosRtt.Library.Run
import OrocosRtt.Program.Structured
import OrocosRtt.Program.Visits

/-! What a script means, by the rules of the language, and that its program comes to the same end. -/
namespace OrocosRtt.Scripting
set_option linter.unusedSectionVars false

namespace Structured
open TryCatch FunctionGraph FunctionGraphBuilder
open Library.Run (EndsIn endsIn_step endsIn_unique)

variable {K C S W : Type}

/-! ### The language -/

inductive Ending where
  | normal | broke | returned | failed
  deriving DecidableEq, Repr

section Rules

variable (B : Commands (Command K S) (Condition C S) W)

/-- A command is executed until it is valid, or throws: then the result is false. -/
inductive Performs (k : Command K S) : W → Bool → W → Prop
  | threw {w : W} (h : (B.execute k w).1.threw = true) : Performs k w false (B.execute k w).2
  | valid {w : W} (h : (B.execute k w).1.threw = false) (hv : B.valid k (B.execute k w).2 = true) :
    Performs k w true (B.execute k w).2
  | again {w w' : W} {r : Bool} (h : (B.execute k w).1.threw = false)
    (hv : B.valid k (B.execute k w).2 = false) (hrest : Performs k (B.execute k w).2 r w') :
    Performs k w r w'

/-- A command is started and executed; without a command there is nothing to do. -/
inductive Does : Option (Command K S) → W → Bool → W → Prop
  | nop {w : W} : Does none w true w
  | startThrew {k : Command K S} {w : W} (h : (B.startExecution k w).1 = true) :
    Does (some k) w false (B.startExecution k w).2
  | started {k : Command K S} {w w' : W} {r : Bool} (h : (B.startExecution k w).1 = false)
    (hp : Performs B k (B.startExecution k w).2 r w') : Does (some k) w r w'

/-- A condition is evaluated until it holds, or throws. -/
inductive Waits (c : Condition C S) : W → Bool → W → Prop
  | threw {w : W} (h : (B.evaluate c w).1 = none) : Waits c w false (B.evaluate c w).2
  | holds {w : W} (h : (B.evaluate c w).1 = some true) : Waits c w true (B.evaluate c w).2
  | again {w w' : W} {r : Bool} (h : (B.evaluate c w).1 = some false)
    (hrest : Waits c (B.evaluate c w).2 r w') : Waits c w r w'

/-- The condition of an `if` or a loop is reset, its command done and it is evaluated once. -/
inductive Tests (k : Option (Command K S)) (cond : Condition C S) : W → Option Bool → W → Prop
  | failed {w w' : W} (h : Does B k (B.resetCondition cond w) false w') : Tests k cond w none w'
  | evaluated {w w' : W} (h : Does B k (B.resetCondition cond w) true w') :
    Tests k cond w (B.evaluate cond w').1 (B.evaluate cond w').2

/-- The lines take the world into another one, and end in some way. -/
inductive Runs : Script K C S → W → Ending → W → Prop
  | done {w : W} : Runs .done w .normal w
  | command {k : Command K S} {rest : Script K C S} {w w₁ w' : W} {e : Ending}
    (h : Does B (some k) w true w₁) (hrest : Runs rest w₁ e w') : Runs (.command k rest) w e w'
  | commandFails {k : Command K S} {rest : Script K C S} {w w' : W}
    (h : Does B (some k) w false w') : Runs (.command k rest) w .failed w'
  | yield {once : Condition C S} {rest : Script K C S} {w w₁ w' : W} {e : Ending}
    (h : Waits B once (B.resetCondition once w) true w₁) (hrest : Runs rest w₁ e w') :
    Runs (.yield once rest) w e w'
  | yieldFails {once : Condition C S} {rest : Script K C S} {w w' : W}
    (h : Waits B once (B.resetCondition once w) false w') : Runs (.yield once rest) w .failed w'
  | ifFails {k : Option (Command K S)} {cond : Condition C S} {block orElse rest : Script K C S}
    {w w' : W} (h : Tests B k cond w none w') : Runs (.ifThen k cond block orElse rest) w .failed w'
  | ifDone {k : Option (Command K S)} {cond : Condition C S} {block orElse rest : Script K C S}
    {w w₁ w₂ w' : W} {b : Bool} {e : Ending} (h : Tests B k cond w (some b) w₁)
    (hpart : Runs (if b then block else orElse) w₁ .normal w₂) (hrest : Runs rest w₂ e w') :
    Runs (.ifThen k cond block orElse rest) w e w'
  | ifLeaves {k : Option (Command K S)} {cond : Condition C S} {block orElse rest : Script K C S}
    {w w₁ w' : W} {b : Bool} {e : Ending} (h : Tests B k cond w (some b) w₁)
    (hpart : Runs (if b then block else orElse) w₁ e w') (he : e ≠ .normal) :
    Runs (.ifThen k cond block orElse rest) w e w'
  | whileFails {k : Command K S} {cond : Condition C S} {block rest : Script K C S} {w w' : W}
    (h : Tests B (some k) cond w none w') : Runs (.whileDo k cond block rest) w .failed w'
  | whileExits {k : Command K S} {cond : Condition C S} {block rest : Script K C S} {w w₁ w' : W}
    {e : Ending} (h : Tests B (some k) cond w (some false) w₁) (hrest : Runs rest w₁ e w') :
    Runs (.whileDo k cond block rest) w e w'
  | whileAgain {k : Command K S} {cond : Condition C S} {block rest : Script K C S}
    {w w₁ w₂ w' : W} {e : Ending} (h : Tests B (some k) cond w (some true) w₁)
    (hblock : Runs block w₁ .normal w₂) (hloop : Runs (.whileDo k cond block rest) w₂ e w') :
    Runs (.whileDo k cond block rest) w e w'
  | whileBreaks {k : Command K S} {cond : Condition C S} {block rest : Script K C S}
    {w w₁ w₂ w' : W} {e : Ending} (h : Tests B (some k) cond w (some true) w₁)
    (hblock : Runs block w₁ .broke w₂) (hrest : Runs rest w₂ e w') :
    Runs (.whileDo k cond block rest) w e w'
  | whileLeaves {k : Command K S} {cond : Condition C S} {block rest : Script K C S}
    {w w₁ w' : W} {e : Ending} (h : Tests B (some k) cond w (some true) w₁)
    (hblock : Runs block w₁ e w') (he : e = .returned ∨ e = .failed) :
    Runs (.whileDo k cond block rest) w e w'
  | breaks {rest : Script K C S} {w : W} : Runs (.breakLoop rest) w .broke w
  | returns {rest : Script K C S} {w : W} : Runs (.returnNow rest) w .returned w

end Rules

/-- `ConditionTrue` holds and does nothing. -/
structure Plain (B : Commands (Command K S) (Condition C S) W) : Prop where
  reset : ∀ w, B.resetCondition .conditionTrue w = w
  evaluate : ∀ w, B.evaluate .conditionTrue w = (some true, w)

/-! ### Single nodes -/

section Nodes

variable {V : Type} {G : ProgramGraph V (Command K S) (Condition C S)}
  {B : Commands (Command K S) (Condition C S) W} {v : V}

theorem attempt_threw {k : Command K S} (hk : G.command v = some k) {w : W}
    (h : (B.execute k w).1.threw = true) : attempt G B v w = (none, (B.execute k w).2) := by
  unfold attempt
  rw [hk]
  exact if_pos h

theorem attempt_valid {k : Command K S} (hk : G.command v = some k) {w : W}
    (h : (B.execute k w).1.threw = false) (hv : B.valid k (B.execute k w).2 = true) :
    attempt G B v w = settle B v (G.outEdges v) (B.execute k w).2 := by
  unfold attempt
  rw [hk]
  dsimp only
  rw [h, if_neg Bool.false_ne_true, if_pos hv]

theorem attempt_waits {k : Command K S} (hk : G.command v = some k) {w : W}
    (h : (B.execute k w).1.threw = false) (hv : B.valid k (B.execute k w).2 = false) :
    attempt G B v w = (some (v, false), (B.execute k w).2) := by
  unfold attempt
  rw [hk]
  dsimp only
  rw [h, if_neg Bool.false_ne_true, hv, if_neg Bool.false_ne_true]

theorem attempt_nop (hk : G.command v = none) (w : W) :
    attempt G B v w = settle B v (G.outEdges v) w := by
  unfold attempt
  rw [hk]

/-- A failure, or the node is left. -/
def performed (G : ProgramGraph V (Command K S) (Condition C S))
    (B : Commands (Command K S) (Condition C S) W) (v : V) (r : Bool) (w : W) : Config V W :=
  if r then settle B v (G.outEdges v) w else (none, w)

theorem Performs.endsIn {k : Command K S} (hk : G.command v = some k) {w w' : W} {r : Bool}
    (h : Performs B k w r w') {τ : Config V W}
    (hend : EndsIn (visit G B) (performed G B v r w') τ) :
    EndsIn (visit G B) (attempt G B v w) τ := by
  induction h with
  | threw h =>
    rw [attempt_threw hk h]
    exact hend
  | valid h hv =>
    rw [attempt_valid hk h hv]
    exact hend
  | again h hv _ ih =>
    rw [attempt_waits hk h hv, ← endsIn_step]
    exact ih hend

theorem Does.endsIn {w w' : W} {r : Bool} (h : Does B (G.command v) w r w') {τ : Config V W}
    (hend : EndsIn (visit G B) (performed G B v r w') τ) :
    EndsIn (visit G B) (perform G B v w) τ := by
  unfold perform
  generalize hk : G.command v = k at h
  cases h with
  | nop =>
    dsimp only
    rw [attempt_nop hk]
    exact hend
  | startThrew h =>
    dsimp only
    rw [if_pos h]
    exact hend
  | started h hp =>
    dsimp only
    rw [h, if_neg Bool.false_ne_true]
    exact hp.endsIn hk hend

theorem Waits.endsIn {c : Condition C S} {u : V} (hk : G.command v = none)
    (he : G.outEdges v = [(c, u)]) {w w' : W} {r : Bool} (h : Waits B c w r w') {τ : Config V W}
    (hend : EndsIn (visit G B) (if r then (some (u, true), w') else (none, w')) τ) :
    EndsIn (visit G B) (attempt G B v w) τ := by
  have hattempt : ∀ w, attempt G B v w = settle B v [(c, u)] w := by
    intro w
    rw [attempt_nop hk, he]
  induction h with
  | threw h =>
    rw [hattempt]
    unfold settle
    dsimp only
    rw [h]
    exact hend
  | holds h =>
    rw [hattempt]
    unfold settle
    dsimp only
    rw [h]
    exact hend
  | @again w w' r h _ ih =>
    have hwait : attempt G B v w = (some (v, false), (B.evaluate c w).2) := by
      rw [hattempt]
      unfold settle
      dsimp only
      rw [h]
      rfl
    rw [hwait, ← endsIn_step]
    exact ih hend

/-- Where a test leads to. -/
def tested (vb ve : V) : Option Bool → W → Config V W
  | none, w => (none, w)
  | some b, w => (some (if b then vb else ve, true), w)

theorem settle_test (hB : Plain B) {cond : Condition C S} {vb ve : V} (w : W) :
    settle B v [(cond, vb), (.conditionTrue, ve)] w =
      tested vb ve (B.evaluate cond w).1 (B.evaluate cond w).2 := by
  unfold settle settle
  dsimp only
  rw [hB.evaluate]
  cases (B.evaluate cond w).1 with
  | none => rfl
  | some b => cases b <;> rfl

theorem enter_test (hB : Plain B) {cond : Condition C S} {vb ve : V}
    (he : G.outEdges v = [(cond, vb), (.conditionTrue, ve)]) (w : W) :
    enter G B v w = perform G B v (B.resetCondition cond w) := by
  unfold enter
  rw [he]
  show perform G B v (B.resetCondition .conditionTrue (B.resetCondition cond w)) = _
  rw [hB.reset]

theorem Tests.endsIn (hB : Plain B) {cond : Condition C S} {vb ve : V}
    (he : G.outEdges v = [(cond, vb), (.conditionTrue, ve)]) {w w' : W} {r : Option Bool}
    (h : Tests B (G.command v) cond w r w') {τ : Config V W}
    (hend : EndsIn (visit G B) (tested vb ve r w') τ) : EndsIn (visit G B) (enter G B v w) τ := by
  rw [enter_test hB he]
  cases h with
  | failed h => exact h.endsIn hend
  | evaluated h =>
    refine h.endsIn ?_
    show EndsIn _ (settle B v (G.outEdges v) _) τ
    rw [he, settle_test hB]
    exact hend

theorem enter_next (hB : Plain B) {u : V} (he : G.outEdges v = [(.conditionTrue, u)]) (w : W) :
    enter G B v w = perform G B v w := by
  unfold enter
  rw [he]
  show perform G B v (B.resetCondition .conditionTrue w) = _
  rw [hB.reset]

theorem performed_next (hB : Plain B) {u : V} (he : G.outEdges v = [(.conditionTrue, u)]) (r : Bool)
    (w : W) : performed G B v r w = if r then (some (u, true), w) else (none, w) := by
  unfold performed
  rw [he]
  unfold settle
  dsimp only
  rw [hB.evaluate]

/-- A node that only leads on. -/
theorem enter_goto (hB : Plain B) {u : V} (hk : G.command v = none)
    (he : G.outEdges v = [(.conditionTrue, u)]) (w : W) :
    enter G B v w = (some (u, true), w) := by
  rw [enter_next hB he]
  unfold perform
  rw [hk]
  exact (attempt_nop hk w).trans (performed_next hB he true w)

/-! ### And back -/

/-- At the exit node, once that was executed, or after a failure. -/
def Ended (G : ProgramGraph V (Command K S) (Condition C S)) (τ : Config V W) : Prop :=
  τ.1 = none ∨ τ.1 = some (G.exitv, false)

theorem Ended.step {τ : Config V W} (hτ : Ended G τ) {n : ℕ} {u : V} {fresh : Bool} {w : W}
    (hn : (visit G B)^[n] (some (u, fresh), w) = τ) (hu : u = G.exitv → fresh = true) :
    ∃ m, n = m + 1 ∧ (visit G B)^[m] (visit G B (some (u, fresh), w)) = τ := by
  cases n with
  | succ m => exact ⟨m, rfl, hn⟩
  | zero =>
    subst hn
    rcases hτ with hτ | hτ
    · cases hτ
    · obtain ⟨rfl, rfl⟩ := Prod.mk.inj (Option.some.inj hτ)
      cases hu rfl

/-- An execution that ends is one by the rules, and the rest of the run is not longer. -/
theorem Ended.performs {τ : Config V W} (hτ : Ended G τ) {k : Command K S}
    (hk : G.command v = some k) (n : ℕ) :
    ∀ w, (visit G B)^[n] (attempt G B v w) = τ → ∃ r w', ∃ m ≤ n, Performs B k w r w' ∧
      (visit G B)^[m] (performed G B v r w') = τ := by
  have hne : v ≠ G.exitv := by
    rintro rfl
    rw [G.exit_command] at hk
    cases hk
  induction n using Nat.strongRecOn with
  | ind n ih =>
    intro w hn
    cases ht : (B.execute k w).1.threw with
    | true =>
      rw [attempt_threw hk ht] at hn
      exact ⟨false, _, n, Nat.le_refl n, .threw ht, hn⟩
    | false =>
      cases hv : B.valid k (B.execute k w).2 with
      | true =>
        rw [attempt_valid hk ht hv] at hn
        exact ⟨true, _, n, Nat.le_refl n, .valid ht hv, hn⟩
      | false =>
        rw [attempt_waits hk ht hv] at hn
        obtain ⟨m, rfl, hm⟩ := hτ.step hn fun h => absurd h hne
        obtain ⟨r, w', m', hle, hp, hend⟩ := ih m (Nat.lt_succ_self m) _ hm
        exact ⟨r, w', m', Nat.le_succ_of_le hle, .again ht hv hp, hend⟩

theorem Ended.does {τ : Config V W} (hτ : Ended G τ) {n : ℕ} {w : W}
    (hn : (visit G B)^[n] (perform G B v w) = τ) : ∃ r w', ∃ m ≤ n, Does B (G.command v) w r w' ∧
      (visit G B)^[m] (performed G B v r w') = τ := by
  unfold perform at hn
  cases hk : G.command v with
  | none =>
    rw [hk] at hn
    dsimp only at hn
    rw [attempt_nop hk] at hn
    exact ⟨true, w, n, Nat.le_refl n, .nop, hn⟩
  | some k =>
    rw [hk] at hn
    dsimp only at hn
    cases ht : (B.startExecution k w).1 with
    | true =>
      rw [if_pos ht] at hn
      exact ⟨false, _, n, Nat.le_refl n, .startThrew ht, hn⟩
    | false =>
      rw [ht, if_neg Bool.false_ne_true] at hn
      obtain ⟨r, w', m, hle, hp, hend⟩ := hτ.performs hk n _ hn
      exact ⟨r, w', m, hle, .started ht hp, hend⟩

theorem Ended.waits {τ : Config V W} (hτ : Ended G τ) {c : Condition C S} {u : V}
    (hk : G.command v = none) (he : G.outEdges v = [(c, u)]) (n : ℕ) :
    ∀ w, (visit G B)^[n] (attempt G B v w) = τ → ∃ r w', ∃ m ≤ n, Waits B c w r w' ∧
      (visit G B)^[m] (if r then (some (u, true), w') else (none, w')) = τ := by
  have hne : v ≠ G.exitv := by
    rintro rfl
    rw [G.exit_outEdges] at he
    cases he
  have hattempt : ∀ w, attempt G B v w = settle B v [(c, u)] w := by
    intro w
    rw [attempt_nop hk, he]
  induction n using Nat.strongRecOn with
  | ind n ih =>
    intro w hn
    rw [hattempt] at hn
    unfold settle settle at hn
    dsimp only at hn
    cases hc : (B.evaluate c w).1 with
    | none =>
      rw [hc] at hn
      exact ⟨false, _, n, Nat.le_refl n, .threw hc, hn⟩
    | some b =>
      rw [hc] at hn
      cases b with
      | true => exact ⟨true, _, n, Nat.le_refl n, .holds hc, hn⟩
      | false =>
        obtain ⟨m, rfl, hm⟩ := hτ.step hn fun h => absurd h hne
        obtain ⟨r, w', m', hle, hp, hend⟩ := ih m (Nat.lt_succ_self m) _ hm
        exact ⟨r, w', m', Nat.le_succ_of_le hle, .again hc hp, hend⟩

theorem Ended.tests (hB : Plain B) {τ : Config V W} (hτ : Ended G τ) {cond : Condition C S}
    {vb ve : V} (he : G.outEdges v = [(cond, vb), (.conditionTrue, ve)]) {n : ℕ} {w : W}
    (hn : (visit G B)^[n] (enter G B v w) = τ) : ∃ r w', ∃ m ≤ n,
      Tests B (G.command v) cond w r w' ∧ (visit G B)^[m] (tested vb ve r w') = τ := by
  rw [enter_test hB he] at hn
  obtain ⟨r, w', m, hle, hdoes, hend⟩ := hτ.does hn
  cases r with
  | false => exact ⟨none, w', m, hle, .failed hdoes, hend⟩
  | true =>
    have hperformed : performed G B v true w' =
        tested vb ve (B.evaluate cond w').1 (B.evaluate cond w').2 := by
      show settle B v (G.outEdges v) w' = _
      rw [he, settle_test hB]
    rw [hperformed] at hend
    exact ⟨_, _, m, hle, .evaluated hdoes, hend⟩

end Nodes

/-! ### Whole scripts -/

section Scripts

variable {B : Commands (Command K S) (Condition C S) W} {body : Script K C S}

/-- Where the lines of a block lead to. -/
def after (fs : List (Frame K C S)) : Ending → W → Config (Point K C S) W
  | .normal, w => (some (some (.done, fs), true), w)
  | .broke, w => (some (afterLoop fs, true), w)
  | .returned, w => (some (none, true), w)
  | .failed, w => (none, w)

theorem after_block (fs : List (Frame K C S)) (rest : Script K C S) {e : Ending}
    (he : e ≠ .normal) (w : W) : after (.block rest :: fs) e w = after fs e w := by
  cases e with
  | normal => exact absurd rfl he
  | broke => rfl
  | returned => rfl
  | failed => rfl

theorem after_again (fs : List (Frame K C S)) (k : Command K S) (cond : Condition C S)
    (block rest : Script K C S) {e : Ending} (he : e = .returned ∨ e = .failed) (w : W) :
    after (.again k cond block rest :: fs) e w = after fs e w := by
  rcases he with rfl | rfl <;> rfl

theorem Tests.ifThen (hB : Plain B) {k : Option (Command K S)} {cond : Condition C S}
    {block orElse rest : Script K C S} {fs : List (Frame K C S)} {w w' : W} {r : Option Bool}
    (h : Tests B k cond w r w') {τ : Config (Point K C S) W}
    (hend : EndsIn (visit (structured body) B) (tested (some (block, .block rest :: fs))
      (some (orElse, .block rest :: fs)) r w') τ) :
    EndsIn (visit (structured body) B) (some (some (.ifThen k cond block orElse rest, fs), true), w)
      τ := by
  rw [← endsIn_step]
  exact Tests.endsIn (v := (some (.ifThen k cond block orElse rest, fs) : Point K C S)) hB rfl h hend

theorem Tests.whileDo (hB : Plain B) {k : Command K S} {cond : Condition C S}
    {block rest : Script K C S} {fs : List (Frame K C S)} {w w' : W} {r : Option Bool}
    (h : Tests B (some k) cond w r w') {τ : Config (Point K C S) W}
    (hend : EndsIn (visit (structured body) B) (tested (some (block, .again k cond block rest :: fs))
      (some (rest, fs)) r w') τ) :
    EndsIn (visit (structured body) B) (some (some (.whileDo k cond block rest, fs), true), w) τ := by
  rw [← endsIn_step]
  exact Tests.endsIn (v := (some (.whileDo k cond block rest, fs) : Point K C S)) hB rfl h hend

/-- What the rules say of the lines is what the graph does with them, whatever comes after them. -/
theorem Runs.endsIn (hB : Plain B) {s : Script K C S} {w w' : W} {e : Ending}
    (h : Runs B s w e w') : ∀ (fs : List (Frame K C S)) {τ : Config (Point K C S) W},
      EndsIn (visit (structured body) B) (after fs e w') τ →
        EndsIn (visit (structured body) B) (some (some (s, fs), true), w) τ := by
  induction h with
  | done => exact fun fs τ hend => hend
  | @command k rest w w₁ w' e h _ ih =>
    intro fs τ hend
    rw [← endsIn_step]
    show EndsIn _ (enter (structured body) B (some (.command k rest, fs)) w) τ
    rw [enter_next hB rfl]
    refine Does.endsIn h ?_
    rw [performed_next hB rfl, if_pos rfl]
    exact ih fs hend
  | @commandFails k rest w w' h =>
    intro fs τ hend
    rw [← endsIn_step]
    show EndsIn _ (enter (structured body) B (some (.command k rest, fs)) w) τ
    rw [enter_next hB rfl]
    refine Does.endsIn h ?_
    exact hend
  | @yield once rest w w₁ w' e h _ ih =>
    intro fs τ hend
    rw [← endsIn_step]
    exact h.endsIn (v := (some (.yield once rest, fs) : Point K C S)) rfl rfl (ih fs hend)
  | @yieldFails once rest w w' h =>
    intro fs τ hend
    rw [← endsIn_step]
    exact h.endsIn (v := (some (.yield once rest, fs) : Point K C S)) rfl rfl hend
  | @ifFails k cond block orElse rest w w' h =>
    intro fs τ hend
    refine h.ifThen hB ?_
    exact hend
  | @ifDone k cond block orElse rest w w₁ w₂ w' b e h _ _ ihpart ihrest =>
    intro fs τ hend
    refine h.ifThen hB ?_
    have hpart := ihpart (.block rest :: fs) (τ := τ) (by
      show EndsIn _ (some (some (.done, .block rest :: fs), true), w₂) τ
      rw [← endsIn_step]
      show EndsIn _ (enter (structured body) B (some (.done, .block rest :: fs)) w₂) τ
      rw [enter_goto hB rfl rfl]
      exact ihrest fs hend)
    cases b <;> exact hpart
  | @ifLeaves k cond block orElse rest w w₁ w' b e h _ he ihpart =>
    intro fs τ hend
    refine h.ifThen hB ?_
    have hpart := ihpart (.block rest :: fs) (τ := τ) (by rw [after_block fs rest he]; exact hend)
    cases b <;> exact hpart
  | @whileFails k cond block rest w w' h =>
    intro fs τ hend
    refine h.whileDo hB ?_
    exact hend
  | @whileExits k cond block rest w w₁ w' e h _ ih =>
    intro fs τ hend
    refine h.whileDo hB ?_
    exact ih fs hend
  | @whileAgain k cond block rest w w₁ w₂ w' e h _ _ ihblock ihloop =>
    intro fs τ hend
    refine h.whileDo hB ?_
    refine ihblock (.again k cond block rest :: fs) ?_
    show EndsIn _ (some (some (.done, .again k cond block rest :: fs), true), w₂) τ
    rw [← endsIn_step]
    show EndsIn _ (enter (structured body) B (some (.done, .again k cond block rest :: fs)) w₂) τ
    rw [enter_goto hB rfl rfl]
    exact ihloop fs hend
  | @whileBreaks k cond block rest w w₁ w₂ w' e h _ _ ihblock ihrest =>
    intro fs τ hend
    refine h.whileDo hB ?_
    exact ihblock (.again k cond block rest :: fs) (ihrest fs hend)
  | @whileLeaves k cond block rest w w₁ w' e h _ he ihblock =>
    intro fs τ hend
    refine h.whileDo hB ?_
    refine ihblock (.again k cond block rest :: fs) ?_
    rw [after_again fs k cond block rest he]
    exact hend
  | @breaks rest w =>
    intro fs τ hend
    rw [← endsIn_step]
    show EndsIn _ (enter (structured body) B (some (.breakLoop rest, fs)) w) τ
    rw [enter_goto hB rfl rfl]
    exact hend
  | @returns rest w =>
    intro fs τ hend
    rw [← endsIn_step]
    show EndsIn _ (enter (structured body) B (some (.returnNow rest, fs)) w) τ
    rw [enter_goto hB rfl rfl]
    exact hend

/-- A run of the graph that ends is one by the rules of the lines it starts with, and the rest of
it is not longer. -/
theorem Ended.runs (hB : Plain B) {τ : Config (Point K C S) W} (hτ : Ended (structured body) τ)
    (n : ℕ) : ∀ (s : Script K C S) (fs : List (Frame K C S)) (w : W),
      (visit (structured body) B)^[n] (some (some (s, fs), true), w) = τ →
        ∃ e w', ∃ m ≤ n, Runs B s w e w' ∧
          (visit (structured body) B)^[m] (after fs e w') = τ := by
  induction n using Nat.strongRecOn with
  | ind n ih =>
    intro s fs w hn
    by_cases hdone : s = .done
    · subst hdone
      exact ⟨.normal, w, n, Nat.le_refl n, .done, hn⟩
    obtain ⟨n, rfl, hn⟩ := hτ.step hn fun _ => rfl
    cases s with
    | done => exact absurd rfl hdone
    | command k rest =>
      have henter := enter_next (G := structured body)
        (v := (some (.command k rest, fs) : Point K C S)) hB rfl w
      have hn : (visit (structured body) B)^[n]
          (enter (structured body) B (some (.command k rest, fs)) w) = τ := hn
      rw [henter] at hn
      obtain ⟨r, w₁, m, hle, hdoes, hm⟩ := hτ.does hn
      cases r with
      | false => exact ⟨.failed, w₁, m, Nat.le_succ_of_le hle, .commandFails hdoes, hm⟩
      | true =>
        rw [performed_next hB rfl, if_pos rfl] at hm
        obtain ⟨e, w', m', hle', hruns, hend⟩ := ih m (Nat.lt_succ_of_le hle) rest fs w₁ hm
        exact ⟨e, w', m', by omega, .command hdoes hruns, hend⟩
    | yield once rest =>
      obtain ⟨r, w₁, m, hle, hwaits, hm⟩ := hτ.waits (G := structured body)
        (v := (some (.yield once rest, fs) : Point K C S)) rfl rfl n _ hn
      cases r with
      | false => exact ⟨.failed, w₁, m, Nat.le_succ_of_le hle, .yieldFails hwaits, hm⟩
      | true =>
        obtain ⟨e, w', m', hle', hruns, hend⟩ := ih m (Nat.lt_succ_of_le hle) rest fs w₁ hm
        exact ⟨e, w', m', by omega, .yield hwaits hruns, hend⟩
    | ifThen k cond block orElse rest =>
      obtain ⟨r, w₁, m, hle, htests, hm⟩ := hτ.tests (G := structured body)
        (v := (some (.ifThen k cond block orElse rest, fs) : Point K C S)) hB rfl hn
      cases r with
      | none => exact ⟨.failed, w₁, m, Nat.le_succ_of_le hle, .ifFails htests, hm⟩
      | some b =>
        have hm : (visit (structured body) B)^[m]
            (some (some (if b then block else orElse, .block rest :: fs), true), w₁) = τ := by
          cases b <;> exact hm
        obtain ⟨e, w₂, m', hle', hpart, hend⟩ := ih m (Nat.lt_succ_of_le hle) _ _ w₁ hm
        by_cases he : e = .normal
        · subst he
          obtain ⟨m'', rfl, hend⟩ := hτ.step hend fun _ => rfl
          have hend : (visit (structured body) B)^[m'']
              (enter (structured body) B (some (.done, .block rest :: fs)) w₂) = τ := hend
          rw [enter_goto hB rfl rfl] at hend
          obtain ⟨e, w', m', hle'', hruns, hend⟩ := ih m'' (by omega) rest fs w₂ hend
          exact ⟨e, w', m', by omega, .ifDone htests hpart hruns, hend⟩
        · rw [after_block fs rest he] at hend
          exact ⟨e, w₂, m', by omega, .ifLeaves htests hpart he, hend⟩
    | whileDo k cond block rest =>
      obtain ⟨r, w₁, m, hle, htests, hm⟩ := hτ.tests (G := structured body)
        (v := (some (.whileDo k cond block rest, fs) : Point K C S)) hB rfl hn
      cases r with
      | none => exact ⟨.failed, w₁, m, Nat.le_succ_of_le hle, .whileFails htests, hm⟩
      | some b =>
        cases b with
        | false =>
          obtain ⟨e, w', m', hle', hruns, hend⟩ := ih m (Nat.lt_succ_of_le hle) rest fs w₁ hm
          exact ⟨e, w', m', by omega, .whileExits htests hruns, hend⟩
        | true =>
          obtain ⟨e, w₂, m', hle', hblock, hend⟩ := ih m (Nat.lt_succ_of_le hle) block
            (.again k cond block rest :: fs) w₁ hm
          cases e with
          | normal =>
            obtain ⟨m'', rfl, hend⟩ := hτ.step hend fun _ => rfl
            have hend : (visit (structured body) B)^[m'']
                (enter (structured body) B (some (.done, .again k cond block rest :: fs)) w₂) =
                  τ := hend
            rw [enter_goto hB rfl rfl] at hend
            obtain ⟨e, w', m', hle'', hruns, hend⟩ := ih m'' (by omega) _ fs w₂ hend
            exact ⟨e, w', m', by omega, .whileAgain htests hblock hruns, hend⟩
          | broke =>
            obtain ⟨e, w', m'', hle'', hruns, hend⟩ := ih m' (by omega) rest fs w₂ hend
            exact ⟨e, w', m'', by omega, .whileBreaks htests hblock hruns, hend⟩
          | returned => exact ⟨_, w₂, m', by omega, .whileLeaves htests hblock (.inl rfl), hend⟩
          | failed => exact ⟨_, w₂, m', by omega, .whileLeaves htests hblock (.inr rfl), hend⟩
    | breakLoop rest =>
      have hn : (visit (structured body) B)^[n]
          (enter (structured body) B (some (.breakLoop rest, fs)) w) = τ := hn
      rw [enter_goto hB rfl rfl] at hn
      exact ⟨.broke, w, n, Nat.le_succ n, .breaks, hn⟩
    | returnNow rest =>
      have hn : (visit (structured body) B)^[n]
          (enter (structured body) B (some (.returnNow rest, fs)) w) = τ := hn
      rw [enter_goto hB rfl rfl] at hn
      exact ⟨.returned, w, n, Nat.le_succ n, .returns, hn⟩

theorem structured_leaves (p : Point K C S) : ∀ e ∈ (structured body).outEdges p, e.2 ≠ p := by
  cases p with
  | none => intro e he; cases he
  | some q => exact pointEdges_leaves q.1 q.2

theorem after_ends (hB : Plain B) {e : Ending} (he : e ≠ .failed) (w : W) :
    EndsIn (visit (structured body) B) (after [] e w) (some (none, false), w) := by
  have hexit : EndsIn (visit (structured body) B) (some (none, true), w) (some (none, false), w) :=
    ⟨1, rfl, rfl⟩
  cases e with
  | normal =>
    rw [← endsIn_step]
    show EndsIn _ (enter (structured body) B (some (.done, [])) w) _
    rw [enter_goto hB rfl rfl]
    exact hexit
  | broke => exact hexit
  | returned => exact hexit
  | failed => exact absurd rfl he

theorem endsIn_exit_iff (hB : Plain B) (w w' : W) :
    EndsIn (visit (structured body) B) (some (some (body, []), true), w)
        (some (none, false), w') ↔ ∃ e, e ≠ .failed ∧ Runs B body w e w' := by
  constructor
  · rintro ⟨n, hn, hstay⟩
    have hτ : Ended (structured body) (some (none, false), w') := .inr rfl
    obtain ⟨e, w₁, m, -, hruns, hend⟩ := hτ.runs hB n _ _ _ hn
    by_cases he : e = .failed
    · subst he
      have hfail : EndsIn (visit (structured body) B) (none, w₁) (none, w₁) := ⟨0, rfl, rfl⟩
      cases endsIn_unique hfail ⟨m, hend, hstay⟩
    · cases endsIn_unique (after_ends hB he w₁) ⟨m, hend, hstay⟩
      exact ⟨e, he, hruns⟩
  · rintro ⟨e, he, hruns⟩
    exact hruns.endsIn hB [] (after_ends hB he w')

theorem endsIn_failed_iff (hB : Plain B) (w w' : W) :
    EndsIn (visit (structured body) B) (some (some (body, []), true), w) (none, w') ↔
      Runs B body w .failed w' := by
  constructor
  · rintro ⟨n, hn, hstay⟩
    have hτ : Ended (structured body) (none, w') := .inl rfl
    obtain ⟨e, w₁, m, -, hruns, hend⟩ := hτ.runs hB n _ _ _ hn
    by_cases he : e = .failed
    · subst he
      have hfail : EndsIn (visit (structured body) B) (none, w₁) (none, w₁) := ⟨0, rfl, rfl⟩
      cases endsIn_unique hfail ⟨m, hend, hstay⟩
      exact hruns
    · cases endsIn_unique (after_ends hB he w₁) ⟨m, hend, hstay⟩
  · intro hruns
    exact hruns.endsIn hB [] ⟨0, rfl, rfl⟩

end Scripts

theorem commands_plain [DecidableEq S] (B : Commands K C W) (expr : S → Expr W) :
    Plain (commands B expr) := ⟨fun _ => rfl, fun _ => rfl⟩

theorem commands_quiet [DecidableEq S] {B : Commands K C W} (hq : Quiet B) (expr : S → Expr W) :
    Quiet (commands B expr) := by
  intro k w
  cases k with
  | other k => exact hq k w.1
  | commandDataSource s => rfl
  | tryCommand s => rfl

/-- A `break` is a line of a loop. -/
theorem Runs.ne_broke {B : Commands (Command K S) (Condition C S) W}
    {command : ℕ → Option (Command K S)} {outEdges : ℕ → List (Condition C S × ℕ)}
    {s : Script K C S} {w w' : W} {e : Ending} (h : Runs B s w e w') :
    ∀ {v x : ℕ}, Laid command outEdges none s v x → e ≠ .broke := by
  induction h with
  | done => intro v x _ he; cases he
  | command _ _ ih =>
    rintro v x ⟨u, -, hrest⟩
    exact ih hrest
  | commandFails => intro v x _ he; cases he
  | yield _ _ ih =>
    rintro v x ⟨u, -, hrest⟩
    exact ih hrest
  | yieldFails => intro v x _ he; cases he
  | ifFails => intro v x _ he; cases he
  | ifDone _ _ _ _ ih =>
    rintro v x ⟨vb, eb, ve, ee, u, -, -, -, -, -, hrest⟩
    exact ih hrest
  | @ifLeaves k cond block orElse rest w w₁ w' b e _ _ _ ih =>
    rintro v x ⟨vb, eb, ve, ee, u, -, hblock, -, helse, -, -⟩
    cases b with
    | true => exact ih hblock
    | false => exact ih helse
  | whileFails => intro v x _ he; cases he
  | whileExits _ _ ih =>
    rintro v x ⟨vb, eb, u, -, -, -, hrest⟩
    exact ih hrest
  | whileAgain _ _ _ _ ih => exact fun hlaid => ih hlaid
  | whileBreaks _ _ _ _ ih =>
    rintro v x ⟨vb, eb, u, -, -, -, hrest⟩
    exact ih hrest
  | whileLeaves _ _ he =>
    rintro v x - rfl
    rcases he with he | he <;> cases he
  | breaks =>
    rintro v x ⟨⟨u, hu, -⟩, -⟩
    cases hu
  | returns => intro v x _ he; cases he

/-- The program of a script ends in the worlds that the rules give for its lines, and fails in those
where they fail; where the rules give none it never ends. -/
theorem program_means [DecidableEq S] {body : Script K C S} {b : FunctionGraphBuilder K C S}
    (h : parse body startFunction = some b) {B : Commands K C W} (hq : Quiet B) (expr : S → Expr W)
    (w w' : Store S W) :
    let run := (loadedScript (program h) w).running (program h) (commands B expr)
    ((∃ n, (run n).pStatus = .stopped ∧ (run n).world = w') ↔
        Runs (commands B expr) body w .normal w' ∨ Runs (commands B expr) body w .returned w') ∧
      ((∃ n, (run n).pStatus = .error ∧ (run n).world = w') ↔
        Runs (commands B expr) body w .failed w') := by
  classical
  have hB := commands_plain B expr
  have hsim := program_simulates h
  have hwait := running_waiting (B := commands B expr) hsim (loaded_waiting hsim false w)
  have htracks : ∀ n, Tracks (structured body)
      ((loadedScript (structured body) w).running (structured body) (commands B expr) n)
      ((visit (structured body) (commands B expr))^[n] (some (some (body, []), true), w)) :=
    fun n => (running_tracks (commands_quiet hq expr) structured_leaves
      (loadedScript_startable w) n).2
  have hstep : ∀ n,
      ((loadedScript (program h) w).running (program h) (commands B expr) n).pStatus =
        ((loadedScript (structured body) w).running (structured body) (commands B expr) n).pStatus ∧
      ((loadedScript (program h) w).running (program h) (commands B expr) n).world =
        ((loadedScript (structured body) w).running (structured body) (commands B expr) n).world :=
    fun n => ⟨(hwait n).pStatus.symm, (hwait n).world.symm⟩
  have hends : (∃ e, e ≠ .failed ∧ Runs (commands B expr) body w e w') ↔
      Runs (commands B expr) body w .normal w' ∨ Runs (commands B expr) body w .returned w' := by
    constructor
    · rintro ⟨e, he, hruns⟩
      cases e with
      | normal => exact .inl hruns
      | broke => exact absurd rfl (hruns.ne_broke (program_laid h).1)
      | returned => exact .inr hruns
      | failed => exact absurd rfl he
    · rintro (hruns | hruns)
      · exact ⟨_, by simp, hruns⟩
      · exact ⟨_, by simp, hruns⟩
  dsimp only
  rw [← hends, ← endsIn_exit_iff hB, ← endsIn_failed_iff hB]
  constructor
  · refine exists_congr fun n => ?_
    rw [(hstep n).1, (hstep n).2, (tracks_cases (htracks n) w').1]
    exact (and_iff_left rfl).symm
  · refine exists_congr fun n => ?_
    rw [(hstep n).1, (hstep n).2, (tracks_cases (htracks n) w').2]
    exact (and_iff_left rfl).symm

/-- From seven the loop counts down to three and is left. -/
theorem breakOut_means :
    let B := commands counting (Empty.elim : Empty → Expr ℕ)
    Runs B breakOut (7, Empty.elim) .normal (3, Empty.elim) ∨
      Runs B breakOut (7, Empty.elim) .returned (3, Empty.elim) :=
  (program_means (b := _) rfl (fun _ _ => rfl) Empty.elim (7, Empty.elim) (3, Empty.elim)).1.mp
    ⟨30, rfl, rfl⟩

end Structured
end OrocosRtt.Scripting
