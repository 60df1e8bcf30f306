import OrocosRtt.Library.Run
import Mathlib.Algebra.BigOperators.Group.Finset.Basic
import Mathlib.Algebra.Order.BigOperators.Group.Finset
import Mathlib.Data.Fintype.Basic
import Mathlib.Data.Int.Order.Basic
import Mathlib.Logic.Function.Basic

/-! Threads that share a state and take one atomic step at a time, in any order. An invariant
is about the shared state and, for each thread, about the shared state and where the thread is;
it may be told with the help of a value that no step uses. -/
namespace Library.Interleaving

open Library.Run

variable {σ τ κ ο γ : Type*} [DecidableEq τ]

/-- The shared state, and where each thread is. -/
structure System (σ τ κ : Type*) where
  shared : σ
  locals : τ → κ

variable (turn : τ → ο → σ → κ → σ × κ)

/-- One thread takes its turn; `e.2` tells a thread at rest what to do next. -/
def System.step (m : System σ τ κ) (e : τ × ο) : System σ τ κ where
  shared := (turn e.1 e.2 m.shared (m.locals e.1)).1
  locals := Function.update m.locals e.1 (turn e.1 e.2 m.shared (m.locals e.1)).2

/-- The system after a schedule of turns. -/
abbrev System.run (m : System σ τ κ) (es : List (τ × ο)) : System σ τ κ :=
  Library.Run.run (System.step turn) m es

/-- Every turn of the schedule meets `ok`. -/
abbrev System.Schedule (ok : System σ τ κ → τ × ο → Prop) (m : System σ τ κ)
    (es : List (τ × ο)) : Prop :=
  Along (System.step turn) ok m es

variable {turn}

theorem System.step_self (m : System σ τ κ) (t : τ) (o : ο) :
    (m.step turn (t, o)).locals t = (turn t o m.shared (m.locals t)).2 :=
  Function.update_self ..

theorem System.step_other (m : System σ τ κ) {t u : τ} (o : ο) (h : u ≠ t) :
    (m.step turn (t, o)).locals u = m.locals u :=
  Function.update_of_ne h ..

/-- The shared state is as `S` says, and every thread as `L` says. -/
structure Holds (S : γ → σ → Prop) (L : γ → τ → σ → κ → Prop) (g : γ) (m : System σ τ κ) :
    Prop where
  shared : S g m.shared
  locals : ∀ t, L g t m.shared (m.locals t)

variable {S : γ → σ → Prop} {L : γ → τ → σ → κ → Prop}

/-- The turn of one thread keeps what holds of the others. -/
theorem Holds.step {g' : γ} {m : System σ τ κ} {t : τ} {o : ο}
    (hs : S g' (turn t o m.shared (m.locals t)).1)
    (ht : L g' t (turn t o m.shared (m.locals t)).1 (turn t o m.shared (m.locals t)).2)
    (hu : ∀ u, u ≠ t → L g' u (turn t o m.shared (m.locals t)).1 (m.locals u)) :
    Holds S L g' (m.step turn (t, o)) := by
  refine ⟨hs, fun u => ?_⟩
  by_cases he : u = t
  · rw [he, System.step_self]
    exact ht
  · rw [System.step_other m o he]
    exact hu u he

/-- What each allowed turn keeps holds at the end of an allowed schedule. -/
theorem holds_run {ok : System σ τ κ → τ × ο → Prop}
    (hstep : ∀ g m t o, Holds S L g m → ok m (t, o) → ∃ g', Holds S L g' (m.step turn (t, o)))
    {m : System σ τ κ} {es : List (τ × ο)} (h : ∃ g, Holds S L g m)
    (hok : m.Schedule turn ok es) : ∃ g, Holds S L g (m.run turn es) := by
  refine run_invariant (I := fun m => ∃ g, Holds S L g m) ?_ h hok
  rintro m ⟨t, o⟩ ⟨g, hg⟩ ho
  exact hstep g m t o hg ho

theorem sum_update [Fintype τ] (f : τ → ℤ) (t : τ) (x : ℤ) :
    ∑ u, Function.update f t x u = ∑ u, f u - f t + x := by
  have hrest : ∑ u ∈ Finset.univ.erase t, Function.update f t x u =
      ∑ u ∈ Finset.univ.erase t, f u := by
    apply Finset.sum_congr rfl
    intro u hu
    rw [Function.update_of_ne (Finset.ne_of_mem_erase hu)]
  rw [← Finset.sum_erase_add _ _ (Finset.mem_univ t), hrest,
    ← Finset.sum_erase_add _ f (Finset.mem_univ t), Function.update_self]
  omega

/-- How many threads are where `P` says. -/
def tally [Fintype τ] (P : κ → Prop) [DecidablePred P] (locals : τ → κ) : ℤ :=
  ∑ t, if P (locals t) then 1 else 0

theorem tally_update [Fintype τ] {P : κ → Prop} [DecidablePred P] (locals : τ → κ) (t : τ) (k : κ) :
    tally P (Function.update locals t k) =
      tally P locals - (if P (locals t) then 1 else 0) + if P k then 1 else 0 := by
  have hpoint : (fun u => if P (Function.update locals t k u) then (1 : ℤ) else 0) =
      Function.update (fun u => if P (locals u) then 1 else 0) t (if P k then 1 else 0) := by
    funext u
    by_cases hu : u = t
    · rw [hu, Function.update_self, Function.update_self]
    · rw [Function.update_of_ne hu, Function.update_of_ne hu]
  rw [tally, hpoint, sum_update]
  rfl

theorem tally_eq_zero_iff {τ : Type*} [Fintype τ] {P : κ → Prop} [DecidablePred P] {locals : τ → κ} :
    tally P locals = 0 ↔ ∀ t, ¬ P (locals t) := by
  rw [tally, Finset.sum_eq_zero_iff_of_nonneg fun t _ => by split <;> omega]
  simp

/-! ### A thread that runs alone -/

/-- The thread comes to `P` when no other one takes a turn. -/
inductive Alone (turn : τ → ο → σ → κ → σ × κ) (t : τ) (o : ο) (P : σ → κ → Prop) : σ → κ → Prop
  | here {s : σ} {k : κ} (h : P s k) : Alone turn t o P s k
  | turn {s : σ} {k : κ} (h : Alone turn t o P (turn t o s k).1 (turn t o s k).2) :
    Alone turn t o P s k

theorem Alone.run {t : τ} {o : ο} {P : σ → κ → Prop} {s : σ} {k : κ} (h : Alone turn t o P s k)
    {m : System σ τ κ} (hs : m.shared = s) (hk : m.locals t = k) :
    ∃ n, P (m.run turn (List.replicate n (t, o))).shared
      ((m.run turn (List.replicate n (t, o))).locals t) := by
  induction h generalizing m with
  | here h =>
    subst hs hk
    exact ⟨0, h⟩
  | turn h ih =>
    subst hs hk
    obtain ⟨n, hn⟩ := ih (m := m.step turn (t, o)) rfl (System.step_self m t o)
    exact ⟨n + 1, hn⟩

end Library.Interleaving
