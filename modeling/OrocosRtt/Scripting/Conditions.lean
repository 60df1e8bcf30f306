import Mathlib.Data.List.Basic
import Mathlib.Logic.Function.Basic

/-! Trees of conditions, what they keep between two evaluations, and what `reset` makes of it. -/
namespace OrocosRtt.Scripting.Conditions

/-- The boolean results of the caches, which other conditions may read, and all other data. -/
structure World (D : Type) where
  results : ℕ → Bool
  data : D

/-- Subclasses of `ConditionInterface`. A cache is known by the data source of its result. -/
inductive Condition (D : Type)
  | conditionTrue
  | conditionFalse
  | once (what ran : Bool)
  | invert (mc : Condition D)
  | compositeNOT (cond : Condition D)
  | compositeAND (lhs rhs : Condition D)
  | compositeOR (lhs rhs : Condition D)
  /-- `data->get()` and `data->reset()`; both may change the data. -/
  | boolDataSource (get : World D → Bool × D) (reset : World D → D)
  | cache (mc : Condition D) (result : ℕ)

variable {D : Type}

def World.set (w : World D) (v : ℕ) (b : Bool) : World D :=
  { w with results := Function.update w.results v b }

namespace Condition

/-- The result, and the tree and the data as they are afterwards. -/
def evaluate : Condition D → World D → Bool × Condition D × World D
  | conditionTrue, w => (true, conditionTrue, w)
  | conditionFalse, w => (false, conditionFalse, w)
  | once what ran, w => (if ran then !what else what, once what true, w)
  | invert mc, w =>
    let (b, mc, w) := mc.evaluate w
    (!b, invert mc, w)
  | compositeNOT cond, w =>
    let (b, cond, w) := cond.evaluate w
    (!b, compositeNOT cond, w)
  | compositeAND lhs rhs, w =>
    let (b, lhs, w) := lhs.evaluate w
    if b then
      let (b, rhs, w) := rhs.evaluate w
      (b, compositeAND lhs rhs, w)
    else (false, compositeAND lhs rhs, w)
  | compositeOR lhs rhs, w =>
    let (b, lhs, w) := lhs.evaluate w
    if b then (true, compositeOR lhs rhs, w)
    else
      let (b, rhs, w) := rhs.evaluate w
      (b, compositeOR lhs rhs, w)
  | boolDataSource get reset, w =>
    let (b, data) := get w
    (b, boolDataSource get reset, { w with data := data })
  | cache mc result, w =>
    let (b, mc, w) := mc.evaluate w
    (b, cache mc result, w.set result b)

/-- `ConditionInvert` has none of its own, and inherits that of `ConditionInterface`. -/
def reset : Condition D → World D → Condition D × World D
  | conditionTrue, w => (conditionTrue, w)
  | conditionFalse, w => (conditionFalse, w)
  | once what _, w => (once what false, w)
  | invert mc, w => (invert mc, w)
  | compositeNOT cond, w =>
    let (cond, w) := cond.reset w
    (compositeNOT cond, w)
  | compositeAND lhs rhs, w =>
    let (lhs, w) := lhs.reset w
    let (rhs, w) := rhs.reset w
    (compositeAND lhs rhs, w)
  | compositeOR lhs rhs, w =>
    let (lhs, w) := lhs.reset w
    let (rhs, w) := rhs.reset w
    (compositeOR lhs rhs, w)
  | boolDataSource get reset, w => (boolDataSource get reset, { w with data := reset w })
  | cache mc result, w => (cache mc result, w.set result false)

/-- The clone shares its data sources with the original. -/
def clone : Condition D → Condition D
  | conditionTrue => conditionTrue
  | conditionFalse => conditionFalse
  | once what _ => once what false
  | invert mc => invert mc.clone
  | compositeNOT cond => compositeNOT cond.clone
  | compositeAND lhs rhs => compositeAND lhs.clone rhs.clone
  | compositeOR lhs rhs => compositeOR lhs.clone rhs.clone
  | boolDataSource get reset => boolDataSource get reset
  | cache mc result => cache mc.clone result

/-- The results of one evaluation after the other; the data change before each of them. -/
def outcomes (c : Condition D) (w : World D) : List (World D → World D) → List Bool
  | [] => []
  | change :: changes =>
    let (b, c, w) := c.evaluate (change w)
    b :: c.outcomes w changes

/-! ### What is stateful -/

/-- Some `ConditionOnce` was evaluated since it was constructed or reset. -/
def ran : Condition D → Bool
  | conditionTrue | conditionFalse | boolDataSource .. => false
  | once _ ran => ran
  | invert mc => mc.ran
  | compositeNOT cond => cond.ran
  | compositeAND lhs rhs => lhs.ran || rhs.ran
  | compositeOR lhs rhs => lhs.ran || rhs.ran
  | cache mc _ => mc.ran

def caches : Condition D → List ℕ
  | conditionTrue | conditionFalse | once .. | boolDataSource .. => []
  | invert mc => mc.caches
  | compositeNOT cond => cond.caches
  | compositeAND lhs rhs => lhs.caches ++ rhs.caches
  | compositeOR lhs rhs => lhs.caches ++ rhs.caches
  | cache mc result => result :: mc.caches

/-- Some `ConditionOnce` was evaluated that is below a `ConditionInvert` or a `ConditionCache`. -/
def ranBelow : Condition D → Bool
  | conditionTrue | conditionFalse | boolDataSource .. | once .. => false
  | invert mc => mc.ran
  | compositeNOT cond => cond.ranBelow
  | compositeAND lhs rhs => lhs.ranBelow || rhs.ranBelow
  | compositeOR lhs rhs => lhs.ranBelow || rhs.ranBelow
  | cache mc _ => mc.ran

/-- The caches that are not below a `ConditionInvert` or another `ConditionCache`. -/
def cachesAbove : Condition D → List ℕ
  | conditionTrue | conditionFalse | once .. | boolDataSource .. | invert _ => []
  | compositeNOT cond => cond.cachesAbove
  | compositeAND lhs rhs => lhs.cachesAbove ++ rhs.cachesAbove
  | compositeOR lhs rhs => lhs.cachesAbove ++ rhs.cachesAbove
  | cache _ result => [result]

/-- A tree that was just constructed has false in its caches. -/
def construct (c : Condition D) (w : World D) : World D :=
  { w with results := fun v => if v ∈ c.caches then false else w.results v }

/-- `reset` makes the tree what a clone of it is, and it goes on like that. -/
structure Restores (c : Condition D) (w : World D) : Prop where
  nodes : (c.reset w).1 = c.clone
  caches : ∀ v ∈ c.caches, (c.reset w).2.results v = false
  outcomes : ∀ changes, (c.reset w).1.outcomes (c.reset w).2 changes =
    c.clone.outcomes (c.construct (c.reset w).2) changes

theorem clone_eq_iff (c : Condition D) : c = c.clone ↔ c.ran = false := by
  induction c with
  | conditionTrue | conditionFalse | boolDataSource get again => simp [clone, ran]
  | once what ran => simp [clone, Condition.ran]
  | invert mc ih | compositeNOT mc ih | cache mc result ih => simpa [clone, ran] using ih
  | compositeAND lhs rhs ihl ihr | compositeOR lhs rhs ihl ihr => simp [clone, ran, ← ihl, ← ihr]

/-- `reset` comes to every `ConditionOnce` that is not below a `ConditionInvert` or a
`ConditionCache`, and to no other. -/
theorem reset_nodes (c : Condition D) (w : World D) :
    (c.reset w).1 = c.clone ↔ c.ranBelow = false := by
  induction c generalizing w with
  | conditionTrue | conditionFalse | boolDataSource get again | once what ran =>
    simp [reset, clone, ranBelow]
  | invert mc | cache mc result => simp [reset, clone, ranBelow, clone_eq_iff]
  | compositeNOT cond ih =>
    have h := ih w
    simpa [reset, clone, ranBelow] using h
  | compositeAND lhs rhs ihl ihr | compositeOR lhs rhs ihl ihr =>
    have hl := ihl w
    have hr := ihr (lhs.reset w).2
    simp [reset, clone, ranBelow, hl, hr]

theorem reset_results (c : Condition D) (w : World D) (v : ℕ) :
    (c.reset w).2.results v = if v ∈ c.cachesAbove then false else w.results v := by
  induction c generalizing w with
  | conditionTrue | conditionFalse | boolDataSource get again | once what ran | invert mc =>
    simp [reset, cachesAbove]
  | cache mc result =>
    by_cases hv : v = result
    · simp [reset, cachesAbove, World.set, hv]
    · simp [reset, cachesAbove, World.set, hv]
  | compositeNOT cond ih => exact ih w
  | compositeAND lhs rhs ihl ihr | compositeOR lhs rhs ihl ihr =>
    have hl := ihl w
    have hr := ihr (lhs.reset w).2
    simp only [reset, cachesAbove, List.mem_append, hr, hl]
    by_cases hml : v ∈ lhs.cachesAbove
    · simp [hml]
    · simp [hml]

theorem construct_eq {c : Condition D} {w : World D} (h : ∀ v ∈ c.caches, w.results v = false) :
    c.construct w = w := by
  have hresults : (fun v => if v ∈ c.caches then false else w.results v) = w.results := by
    funext v
    split
    · rename_i hv
      exact (h v hv).symm
    · rfl
  unfold construct
  rw [hresults]

/-- `reset` restores a tree if and only if no `ConditionOnce` below a `ConditionInvert` or a
`ConditionCache` was evaluated before, and no cache there holds true. -/
theorem restores_iff (c : Condition D) (w : World D) :
    c.Restores w ↔
      c.ranBelow = false ∧ ∀ v ∈ c.caches, v ∈ c.cachesAbove ∨ w.results v = false := by
  have hcaches : (∀ v ∈ c.caches, (c.reset w).2.results v = false) ↔
      ∀ v ∈ c.caches, v ∈ c.cachesAbove ∨ w.results v = false := by
    refine forall_congr' fun v => imp_congr_right fun _ => ?_
    rw [reset_results]
    by_cases hv : v ∈ c.cachesAbove
    · simp [hv]
    · simp [hv]
  constructor
  · exact fun h => ⟨(reset_nodes c w).mp h.nodes, hcaches.mp h.caches⟩
  · rintro ⟨hran, hfalse⟩
    have hnodes := (reset_nodes c w).mpr hran
    have hresults := hcaches.mpr hfalse
    exact ⟨hnodes, hresults, fun changes => by rw [construct_eq hresults, hnodes]⟩

/-- The reset does not come to the `ConditionOnce`, which stays what it was after its first
evaluation. -/
theorem invert_once :
    ¬ ∀ w : World Unit, ((invert (once true false)).evaluate w).2.1.Restores w := by
  intro h
  have hout := (h ⟨fun _ => false, ()⟩).outcomes [id]
  revert hout
  decide

end Condition

end OrocosRtt.Scripting.Conditions
