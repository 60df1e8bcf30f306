import Mathlib.Data.List.Basic
import Mathlib.Logic.Function.Iterate

/-! Runs of a deterministic step function under a condition on each step, and the
induction that carries an invariant along them. -/
namespace Library.Run

variable {S O : Type*}

/-- The state reached by a list of operations, one after the other. -/
def run (step : S → O → S) (s : S) (ops : List O) : S := ops.foldl step s

@[simp] theorem run_nil (step : S → O → S) (s : S) : run step s [] = s := rfl

@[simp] theorem run_cons (step : S → O → S) (s : S) (o : O) (ops : List O) :
    run step s (o :: ops) = run step (step s o) ops := rfl

theorem run_append (step : S → O → S) (s : S) (ops ops' : List O) :
    run step s (ops ++ ops') = run step (run step s ops) ops' := List.foldl_append

/-- Every operation of the list meets `ok` in the state it is applied to. -/
def Along (step : S → O → S) (ok : S → O → Prop) : S → List O → Prop
  | _, [] => True
  | s, o :: ops => ok s o ∧ Along step ok (step s o) ops

@[simp] theorem along_nil (step : S → O → S) (ok : S → O → Prop) (s : S) :
    Along step ok s [] := trivial

@[simp] theorem along_cons (step : S → O → S) (ok : S → O → Prop) (s : S) (o : O)
    (ops : List O) :
    Along step ok s (o :: ops) ↔ ok s o ∧ Along step ok (step s o) ops := Iff.rfl

theorem along_append {step : S → O → S} {ok : S → O → Prop} {s : S} {ops ops' : List O} :
    Along step ok s (ops ++ ops') ↔ Along step ok s ops ∧ Along step ok (run step s ops) ops' := by
  induction ops generalizing s with
  | nil => simp
  | cons o ops ih => simp [ih, and_assoc]

theorem along_trivial (step : S → O → S) (s : S) (ops : List O) :
    Along step (fun _ _ => True) s ops := by
  induction ops generalizing s with
  | nil => exact trivial
  | cons o ops ih => exact ⟨trivial, ih (step s o)⟩

instance decidableAlong (step : S → O → S) (ok : S → O → Prop)
    [∀ s o, Decidable (ok s o)] : ∀ s ops, Decidable (Along step ok s ops)
  | _, [] => .isTrue trivial
  | s, o :: ops =>
    have := decidableAlong step ok (step s o) ops
    inferInstanceAs (Decidable (ok s o ∧ Along step ok (step s o) ops))

/-- An invariant that every allowed step keeps holds at the end of an allowed run. -/
theorem run_invariant {step : S → O → S} {ok : S → O → Prop} {I : S → Prop}
    (hstep : ∀ s o, I s → ok s o → I (step s o)) :
    ∀ {ops : List O} {s : S}, I s → Along step ok s ops → I (run step s ops) := by
  intro ops
  induction ops with
  | nil => intro s h _; exact h
  | cons o ops ih =>
    intro s h ha
    exact ih (hstep s o h ha.1) ha.2

/-- Each step keeps `P` exactly when a run that has met `P` never leaves it again. -/
theorem along_keeps_iff {step : S → O → S} {P : S → Prop} :
    ∀ {ops : List O} {s : S}, Along step (fun s o => P s → P (step s o)) s ops ↔
      ∀ as bs cs, ops = as ++ bs ++ cs → P (run step s as) → P (run step s (as ++ bs)) := by
  intro ops
  induction ops with
  | nil =>
    intro s
    constructor
    · intro _ as bs cs he h
      obtain ⟨rfl, rfl, rfl⟩ : as = [] ∧ bs = [] ∧ cs = [] := by simpa using he.symm
      exact h
    · intro _; exact trivial
  | cons o ops ih =>
    intro s
    rw [along_cons]
    constructor
    · rintro ⟨ho, ha⟩ as bs cs he h
      cases as with
      | cons a as =>
        obtain ⟨rfl, htail⟩ : o = a ∧ ops = as ++ bs ++ cs := by simpa using he
        exact ih.mp ha as bs cs htail h
      | nil =>
        cases bs with
        | nil => exact h
        | cons b bs =>
          obtain ⟨rfl, htail⟩ : o = b ∧ ops = bs ++ cs := by simpa using he
          exact ih.mp ha [] bs cs (by simpa using htail) (ho h)
    · intro hall
      constructor
      · intro h
        exact hall [] [o] ops (by simp) h
      · apply ih.mpr
        intro as bs cs he h
        exact hall (o :: as) bs cs (by simp [he]) h

/-- Conditions that agree wherever an invariant holds agree along a run. -/
theorem along_congr {step : S → O → S} {ok ok' : S → O → Prop} {I : S → Prop}
    (hI : ∀ s o, I s → I (step s o)) (hok : ∀ s o, I s → (ok s o ↔ ok' s o)) :
    ∀ {ops : List O} {s : S}, I s → (Along step ok s ops ↔ Along step ok' s ops) := by
  intro ops
  induction ops with
  | nil => intro s _; exact Iff.rfl
  | cons o ops ih =>
    intro s h
    rw [along_cons, along_cons, hok s o h, ih (hI s o h)]

/-- A property that is never regained holds at the end exactly when no step loses it. -/
theorem run_keeps_iff {step : S → O → S} {ok : S → O → Prop} {I P : S → Prop}
    (hI : ∀ s o, I s → P s → I (step s o)) (hlost : ∀ s o, ¬ P s → ¬ P (step s o))
    (hstep : ∀ s o, I s → P s → (P (step s o) ↔ ok s o)) :
    ∀ {ops : List O} {s : S}, I s → P s → (P (run step s ops) ↔ Along step ok s ops) := by
  have hgone : ∀ ops s, ¬ P s → ¬ P (run step s ops) := by
    intro ops
    induction ops with
    | nil => intro s h; exact h
    | cons o ops ih => intro s h; exact ih (step s o) (hlost s o h)
  intro ops
  induction ops with
  | nil => intro s _ h; exact ⟨fun _ => trivial, fun _ => h⟩
  | cons o ops ih =>
    intro s hi hp
    rw [run_cons, along_cons, ← hstep s o hi hp]
    by_cases hs : P (step s o)
    · rw [ih (hI s o hi hp) hs]
      exact ⟨fun h => ⟨hs, h⟩, fun h => h.2⟩
    · exact ⟨fun h => absurd h (hgone ops _ hs), fun h => absurd h.1 hs⟩

/-- The same where it is never regained in the states of an invariant. -/
theorem run_keeps_iff_of_invariant {step : S → O → S} {ok : S → O → Prop} {I P : S → Prop}
    (hI : ∀ s o, I s → I (step s o)) (hlost : ∀ s o, I s → ¬ P s → ¬ P (step s o))
    (hstep : ∀ s o, I s → P s → (P (step s o) ↔ ok s o)) {ops : List O} {s : S} (hi : I s)
    (hp : P s) : P (run step s ops) ↔ Along step ok s ops := by
  have hend : I (run step s ops) :=
    run_invariant (fun s o h (_ : True) => hI s o h) hi (along_trivial step s ops)
  have hiff : (I (run step s ops) → P (run step s ops)) ↔ Along step ok s ops := by
    refine run_keeps_iff (P := fun s => I s → P s) (fun s o h _ => hI s o h) ?_ ?_ hi fun _ => hp
    · intro s o hs h
      obtain ⟨his, hps⟩ := Classical.not_imp.mp hs
      exact hlost s o his hps (h (hI s o his))
    · intro s o his hps
      rw [← hstep s o his (hps his)]
      exact ⟨fun h => h (hI s o his), fun h _ => h⟩
  rw [← hiff]
  exact ⟨fun h _ => h, fun h => h hend⟩

/-- Where `ok` is what a step takes to meet `K`, all steps of a run meet the one or all the other. -/
theorem along_iff_of_invariant {step : S → O → S} {ok K : S → O → Prop} {I : S → Prop}
    (hI : ∀ s o, I s → ok s o → I (step s o)) (hK : ∀ s o, I s → (K s o ↔ ok s o)) :
    ∀ {ops : List O} {s : S}, I s → (Along step K s ops ↔ Along step ok s ops) := by
  intro ops
  induction ops with
  | nil => exact fun _ => Iff.rfl
  | cons o ops ih =>
    intro s h
    rw [along_cons, along_cons, hK s o h]
    exact and_congr_right fun ho => ih (hI s o h ho)

/-- A condition that keeps every step within `K`, and that is needed: after a step that breaks it
the run can go on, by steps that meet it, to one outside `K`. -/
theorem along_iff_safe {step : S → O → S} {ok K : S → O → Prop} {I : S → Prop}
    (hI : ∀ s o, I s → ok s o → I (step s o)) (hK : ∀ s o, I s → ok s o → K s o)
    (hbad : ∀ s o, I s → ¬ ok s o →
      ∃ more, Along step ok (step s o) more ∧ ¬ Along step K s (o :: more)) :
    ∀ {ops : List O} {s : S}, I s → (Along step ok s ops ↔
      ∀ as bs more, ops = as ++ bs → Along step ok (run step s as) more →
        Along step K s (as ++ more)) := by
  have hsafe : ∀ ops s, I s → Along step ok s ops → Along step K s ops := by
    intro ops
    induction ops with
    | nil => intro s _ _; exact trivial
    | cons o ops ih => intro s h ha; exact ⟨hK s o h ha.1, ih _ (hI s o h ha.1) ha.2⟩
  intro ops
  induction ops with
  | nil =>
    intro s h
    refine ⟨fun _ as bs more he hmore => ?_, fun _ => trivial⟩
    obtain ⟨rfl, -⟩ : as = [] ∧ bs = [] := by simpa using he.symm
    exact hsafe more s h hmore
  | cons o ops ih =>
    intro s h
    constructor
    · rintro ha as bs more he hmore
      have has : Along step ok s as := (along_append.mp (he ▸ ha)).1
      exact hsafe _ s h (along_append.mpr ⟨has, hmore⟩)
    · intro hall
      by_cases ho : ok s o
      · refine ⟨ho, (ih (hI s o h ho)).mpr fun as bs more he hmore => ?_⟩
        exact (hall (o :: as) bs more (by rw [he]; rfl) hmore).2
      · obtain ⟨more, hmore, hfails⟩ := hbad s o h ho
        exact absurd (hall [o] ops more rfl hmore) hfails

/-- What every allowed step of a run has, with an invariant to rely on. -/
theorem Along.imp_of_invariant {step : S → O → S} {ok ok' : S → O → Prop} {I : S → Prop}
    (hI : ∀ s o, I s → ok s o → I (step s o)) (hok : ∀ s o, I s → ok s o → ok' s o) :
    ∀ {ops : List O} {s : S}, I s → Along step ok s ops → Along step ok' s ops := by
  intro ops
  induction ops with
  | nil => intro s _ _; exact trivial
  | cons o ops ih =>
    intro s h ha
    exact ⟨hok s o h ha.1, ih (hI s o h ha.1) ha.2⟩

/-! ### A call on its own -/

section Finish

variable {E R : Type*} {turn : E → S → S × (E ⊕ R)}

/-- A call that takes one turn after the other, for as long as the fuel lasts. -/
def finish (turn : E → S → S × (E ⊕ R)) : ℕ → E → S → Option (S × R)
  | 0, _, _ => none
  | n + 1, e, s =>
    match turn e s with
    | (s', .inl e') => finish turn n e' s'
    | (s', .inr r) => some (s', r)

theorem finish_on {n : ℕ} {e e' : E} {s s' : S} (h : turn e s = (s', .inl e')) :
    finish turn (n + 1) e s = finish turn n e' s' := by
  rw [finish, h]

theorem finish_done {n : ℕ} {e : E} {s s' : S} {r : R} (h : turn e s = (s', .inr r)) :
    finish turn (n + 1) e s = some (s', r) := by
  rw [finish, h]

/-- The rest of a call after a turn. -/
def finishFrom (turn : E → S → S × (E ⊕ R)) (n : ℕ) : S × (E ⊕ R) → Option (S × R)
  | (s, .inl e) => finish turn n e s
  | (s, .inr r) => some (s, r)

theorem finish_succ (n : ℕ) (e : E) (s : S) :
    finish turn (n + 1) e s = finishFrom turn n (turn e s) := by
  rw [finish]
  split
  · next he => rw [he, finishFrom]
  · next he => rw [he, finishFrom]

/-- More fuel does not change the result. -/
theorem finish_mono {n k : ℕ} {e : E} {s : S} {x : S × R} (h : finish turn n e s = some x) :
    finish turn (n + k) e s = some x := by
  induction n generalizing e s with
  | zero => cases h
  | succ n ih =>
    rw [Nat.succ_add, finish]
    rw [finish] at h
    split
    · next he =>
      rw [he] at h
      exact ih h
    · next he =>
      rw [he] at h
      exact h

theorem finishFrom_mono {n k : ℕ} {y : S × (E ⊕ R)} {x : S × R}
    (h : finishFrom turn n y = some x) : finishFrom turn (n + k) y = some x := by
  obtain ⟨s, e | r⟩ := y
  · have hinl : finish turn n e s = some x := h
    exact finish_mono hinl
  · exact h

/-- A turn of a call within a call: it works on a part of the state, and when it is over the outer
call goes on with its result. -/
def within {S' E' R' : Type*} (put : S' → S) (f : E' → E) (next : R' → S → S × (E ⊕ R)) :
    S' × (E' ⊕ R') → S × (E ⊕ R)
  | (s, .inl e) => (put s, .inl (f e))
  | (s, .inr r) => next r (put s)

theorem finish_within {S' E' R' : Type*} {inner : E' → S' → S' × (E' ⊕ R')} {put : S' → S}
    {f : E' → E} {next : R' → S → S × (E ⊕ R)}
    (hturn : ∀ e s, turn (f e) (put s) = within put f next (inner e s))
    {n m : ℕ} {e : E'} {s s' : S'} {r : R'} (h : finish inner n e s = some (s', r)) {x : S × R}
    (hnext : finishFrom turn m (next r (put s')) = some x) :
    finish turn (m + n) (f e) (put s) = some x := by
  induction n generalizing e s with
  | zero => cases h
  | succ n ih =>
    have ht := hturn e s
    rw [finish_succ] at h
    rw [← Nat.add_assoc, finish_succ, ht]
    match hi : inner e s, h with
    | (s₁, .inl e₁), h => exact ih h
    | (s₁, .inr r₁), h =>
      cases h
      exact finishFrom_mono hnext

end Finish

/-- After some steps it is in `b`, where it stays. -/
def EndsIn {α : Type*} (f : α → α) (a b : α) : Prop := ∃ n, f^[n] a = b ∧ f b = b

theorem endsIn_step {α : Type*} {f : α → α} {a b : α} : EndsIn f (f a) b ↔ EndsIn f a b := by
  constructor
  · rintro ⟨n, hn, hb⟩
    exact ⟨n + 1, hn, hb⟩
  · rintro ⟨n, hn, hb⟩
    cases n with
    | zero =>
      obtain rfl : a = b := hn
      exact ⟨0, hb, hb⟩
    | succ n => exact ⟨n, hn, hb⟩

theorem endsIn_unique {α : Type*} {f : α → α} {a b c : α} (hb : EndsIn f a b)
    (hc : EndsIn f a c) : b = c := by
  obtain ⟨n, rfl, hb⟩ := hb
  obtain ⟨m, rfl, hc⟩ := hc
  rcases Nat.le_total n m with hle | hle
  · obtain ⟨d, rfl⟩ := Nat.exists_eq_add_of_le' hle
    rw [Function.iterate_add_apply, Function.iterate_fixed hb]
  · obtain ⟨d, rfl⟩ := Nat.exists_eq_add_of_le' hle
    rw [Function.iterate_add_apply, Function.iterate_fixed hc]

end Library.Run
