import Mathlib.Data.List.Basic

/-! Threads that call an object. A log has an entry for each call, for the moment in which the call
takes effect, and for its return; the effects, one after the other, are what the object does when it
is used by one thread. -/
namespace Library.Linearize

variable {σ τ ι ο : Type*}

inductive Entry (τ ι ο : Type*) where
  | call (t : τ) (op : ι)
  | effect (t : τ) (op : ι) (r : ο)
  | returned (t : τ) (r : ο)

def Entry.thread : Entry τ ι ο → τ
  | .call t _ | .effect t _ _ | .returned t _ => t

/-- Calls and returns are what can be seen from outside. -/
def Entry.visible : Entry τ ι ο → Bool
  | .call .. | .returned .. => true
  | .effect .. => false

/-- Where a thread is between two calls. -/
inductive Status (ι ο : Type*) where
  | idle
  | called (op : ι)
  | done (op : ι) (r : ο)

/-- The thread calls, then its call takes effect, then it returns with the result. -/
inductive Follows (t : τ) : List (Entry τ ι ο) → Status ι ο → Prop
  | start : Follows t [] .idle
  | call {log : List (Entry τ ι ο)} (op : ι) (h : Follows t log .idle) :
    Follows t (log ++ [.call t op]) (.called op)
  | effect {log : List (Entry τ ι ο)} {op : ι} (r : ο) (h : Follows t log (.called op)) :
    Follows t (log ++ [.effect t op r]) (.done op r)
  | returned {log : List (Entry τ ι ο)} {op : ι} {r : ο} (h : Follows t log (.done op r)) :
    Follows t (log ++ [.returned t r]) .idle
  | other {log : List (Entry τ ι ο)} {st : Status ι ο} {e : Entry τ ι ο} (h : Follows t log st)
    (he : e.thread ≠ t) : Follows t (log ++ [e]) st

/-- The effects of the log lead from `s₀` to a state. -/
inductive Legal (perform : σ → ι → σ × ο) (s₀ : σ) : List (Entry τ ι ο) → σ → Prop
  | start : Legal perform s₀ [] s₀
  | effect {log : List (Entry τ ι ο)} {s : σ} (t : τ) (op : ι) (h : Legal perform s₀ log s) :
    Legal perform s₀ (log ++ [.effect t op (perform s op).2]) (perform s op).1
  | visible {log : List (Entry τ ι ο)} {s : σ} {e : Entry τ ι ο} (h : Legal perform s₀ log s)
    (he : e.visible = true) : Legal perform s₀ (log ++ [e]) s

/-- The calls and returns are those of a run in which each call takes effect in one moment between
its call and its return, and `s` is the state then. -/
def Linearizable (perform : σ → ι → σ × ο) (s₀ : σ) (history : List (Entry τ ι ο)) (s : σ) : Prop :=
  ∃ log, log.filter Entry.visible = history ∧ Legal perform s₀ log s ∧ ∀ t, ∃ st, Follows t log st

/-- What the operations keep that take effect is true of the state. -/
theorem Legal.invariant {perform : σ → ι → σ × ο} {s₀ s : σ} {log : List (Entry τ ι ο)} {I : σ → Prop}
    (h : Legal perform s₀ log s) (h₀ : I s₀)
    (hI : ∀ t op r, .effect t op r ∈ log → ∀ s, I s → I (perform s op).1) : I s := by
  induction h with
  | start => exact h₀
  | effect t op _ ih =>
    apply hI t op _ (List.mem_append_right _ List.mem_cons_self)
    exact ih fun t op r he => hI t op r (List.mem_append_left _ he)
  | visible _ _ ih => exact ih fun t op r he => hI t op r (List.mem_append_left _ he)

/-- Entries of another thread leave a thread where it is. -/
theorem Follows.append {t : τ} {log es : List (Entry τ ι ο)} {st : Status ι ο} (h : Follows t log st)
    (hes : ∀ e ∈ es, e.thread ≠ t) : Follows t (log ++ es) st := by
  induction es generalizing log with
  | nil =>
    rw [List.append_nil]
    exact h
  | cons e es ih =>
    rw [List.append_cons]
    apply ih (h.other (hes e List.mem_cons_self))
    exact fun e' he' => hes e' (List.mem_cons_of_mem _ he')

/-- An effect has the result that the object gives. -/
theorem Legal.result {perform : σ → ι → σ × ο} {s₀ s : σ} {log : List (Entry τ ι ο)}
    (h : Legal perform s₀ log s) {t : τ} {op : ι} {r : ο} (he : .effect t op r ∈ log) :
    ∃ s, (perform s op).2 = r := by
  induction h with
  | start => cases he
  | @effect log s t' op' _ ih =>
    rcases List.mem_append.mp he with hold | hnew
    · exact ih hold
    · cases List.mem_singleton.mp hnew
      exact ⟨s, rfl⟩
  | visible _ hv ih =>
    rcases List.mem_append.mp he with hold | hnew
    · exact ih hold
    · rw [← List.mem_singleton.mp hnew] at hv
      cases hv

/-- What is true of each operation that a thread calls is true of those that take effect; and it returns
what one of them resulted in. -/
theorem Follows.entries {t : τ} {log : List (Entry τ ι ο)} {st : Status ι ο} {P : ι → Prop}
    {Q : ο → Prop} (h : Follows t log st) (hcalls : ∀ op, .call t op ∈ log → P op)
    (heffects : ∀ op r, P op → .effect t op r ∈ log → Q r) :
    (∀ op r, .effect t op r ∈ log → P op) ∧ (∀ r, .returned t r ∈ log → Q r) ∧
      match st with
      | .idle => True
      | .called op => P op
      | .done _ r => Q r := by
  induction h with
  | start => exact ⟨fun _ _ => nofun, fun _ => nofun, trivial⟩
  | call op _ ih =>
    obtain ⟨he, hr, -⟩ := ih (fun op ho => hcalls op (List.mem_append_left _ ho))
      fun op r hp he => heffects op r hp (List.mem_append_left _ he)
    refine ⟨fun op r hm => he op r ?_, fun r hm => hr r ?_, hcalls op (by simp)⟩
    · simpa using hm
    · simpa using hm
  | @effect _ op r _ ih =>
    obtain ⟨he, hr, hp⟩ := ih (fun op ho => hcalls op (List.mem_append_left _ ho))
      fun op r hp he => heffects op r hp (List.mem_append_left _ he)
    refine ⟨fun op' r' hm => ?_, fun r hm => hr r (by simpa using hm), heffects op r hp (by simp)⟩
    rcases List.mem_append.mp hm with hold | hnew
    · exact he op' r' hold
    · cases List.mem_singleton.mp hnew
      exact hp
  | @returned _ _ r _ ih =>
    obtain ⟨he, hr, hq⟩ := ih (fun op ho => hcalls op (List.mem_append_left _ ho))
      fun op r hp he => heffects op r hp (List.mem_append_left _ he)
    refine ⟨fun op r hm => he op r (by simpa using hm), fun r' hm => ?_, trivial⟩
    rcases List.mem_append.mp hm with hold | hnew
    · exact hr r' hold
    · cases List.mem_singleton.mp hnew
      exact hq
  | @other log st e _ hne ih =>
    have hold (e' : Entry τ ι ο) (he' : e'.thread = t) (hm : e' ∈ log ++ [e]) : e' ∈ log := by
      rcases List.mem_append.mp hm with hold | hnew
      · exact hold
      · rw [List.mem_singleton.mp hnew] at he'
        exact absurd he' hne
    obtain ⟨he, hr, hst⟩ := ih (fun op ho => hcalls op (List.mem_append_left _ ho))
      fun op r hp he => heffects op r hp (List.mem_append_left _ he)
    exact ⟨fun op r hm => he op r (hold _ rfl hm), fun r hm => hr r (hold _ rfl hm), hst⟩

/-- A thread returns what the object gives for one of the operations that it calls. -/
theorem Linearizable.result {perform : σ → ι → σ × ο} {s₀ s : σ} {history : List (Entry τ ι ο)}
    (h : Linearizable perform s₀ history s) {t : τ} {P : ι → Prop}
    (hcalls : ∀ op, .call t op ∈ history → P op) {r : ο} (hr : .returned t r ∈ history) :
    ∃ op s, P op ∧ (perform s op).2 = r := by
  obtain ⟨log, rfl, hlegal, hfollows⟩ := h
  obtain ⟨st, hst⟩ := hfollows t
  have hresult (op : ι) (r : ο) (hp : P op) (he : .effect t op r ∈ log) :
      ∃ op s, P op ∧ (perform s op).2 = r := by
    obtain ⟨s, hs⟩ := hlegal.result he
    exact ⟨op, s, hp, hs⟩
  obtain ⟨-, hreturned, -⟩ :=
    hst.entries (fun op ho => hcalls op (List.mem_filter.mpr ⟨ho, rfl⟩)) hresult
  exact hreturned r (List.mem_filter.mp hr).1

/-- What the operations keep that are called is true of the state. -/
theorem Linearizable.invariant {perform : σ → ι → σ × ο} {s₀ s : σ} {history : List (Entry τ ι ο)}
    {I : σ → Prop} (h : Linearizable perform s₀ history s) (h₀ : I s₀)
    (hI : ∀ t op, .call t op ∈ history → ∀ s, I s → I (perform s op).1) : I s := by
  obtain ⟨log, rfl, hlegal, hfollows⟩ := h
  apply hlegal.invariant h₀
  intro t op r he
  obtain ⟨st, hst⟩ := hfollows t
  obtain ⟨hcalled, -⟩ := hst.entries (P := fun op => ∀ s, I s → I (perform s op).1)
    (Q := fun _ => True) (fun op ho => hI t op (List.mem_filter.mpr ⟨ho, rfl⟩))
    fun _ _ _ _ => trivial
  exact hcalled op r he

end Library.Linearize
