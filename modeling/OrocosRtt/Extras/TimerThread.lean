import Mathlib.Data.List.Basic

/-! The list of activities of a timer thread: stopping an activity clears its slot, and the
cleared slots are removed at the end of the thread's step. -/
namespace OrocosRtt.Extras

def maxActivities : ℕ := 64

/-- A cleared slot is `none`. The vector never grows over the capacity it reserves. -/
structure TimerThread (A : Type) where
  tasks : List (Option A)
  cleanup : Bool
  bounded : tasks.length ≤ maxActivities

namespace TimerThread

variable {A : Type}

def create : TimerThread A := ⟨[], false, Nat.zero_le _⟩

def addActivity (t : TimerThread A) (a : A) : TimerThread A × Bool :=
  if h : t.tasks.length = maxActivities then (t, false)
  else
    (⟨t.tasks ++ [some a], t.cleanup, by
      have := t.bounded
      rw [List.length_append, List.length_singleton]
      omega⟩, true)

def removeActivity [DecidableEq A] (t : TimerThread A) (a : A) : TimerThread A × Bool :=
  if some a ∈ t.tasks then
    (⟨t.tasks.set (t.tasks.idxOf (some a)) none, true, by
      rw [List.length_set]
      exact t.bounded⟩, true)
  else (t, false)

/-! ### Removing the cleared slots -/

/-- `while ( begin != end ) { *it = *begin; ++begin; ++it; }` over `n` slots. -/
def copySlots (tasks : List (Option A)) (it first : ℕ) : ℕ → List (Option A)
  | 0 => tasks
  | n + 1 => copySlots (tasks.set it (tasks.getD first none)) (it + 1) (first + 1) n

@[simp] theorem copySlots_length (n : ℕ) : ∀ (tasks : List (Option A)) (it first : ℕ),
    (copySlots tasks it first n).length = tasks.length := by
  induction n with
  | zero => intro tasks it first; rfl
  | succ n ih => intro tasks it first; rw [copySlots, ih, List.length_set]

/-- The first slot from `first` on that meets `p`, or the end of the list. -/
def findFrom (p : Option A → Bool) (tasks : List (Option A)) (first : ℕ) : ℕ :=
  first + (tasks.drop first).findIdx p

theorem findFrom_isNone {tasks : List (Option A)} {first : ℕ}
    (h : findFrom Option.isSome tasks first < tasks.length) :
    findFrom Option.isSome tasks first <
      findFrom Option.isNone tasks (findFrom Option.isSome tasks first) := by
  generalize hb : findFrom Option.isSome tasks first = b at h
  have hsome : (tasks.get ⟨b, h⟩).isSome = true := by
    subst hb
    have hl : (tasks.drop first).findIdx Option.isSome < (tasks.drop first).length := by
      rw [List.length_drop]
      unfold findFrom at h
      omega
    have hp := List.findIdx_getElem (w := hl)
    rw [List.getElem_drop] at hp
    exact hp
  have hdrop : tasks.drop b = tasks.get ⟨b, h⟩ :: tasks.drop (b + 1) :=
    List.drop_eq_getElem_cons h
  unfold findFrom
  rw [hdrop, List.findIdx_cons]
  cases hg : tasks.get ⟨b, h⟩ with
  | none => rw [hg] at hsome; cases hsome
  | some a => simp

/-- The loop of `reorderList`: `it` is the next slot to be filled, and the slots from `it` up to
`first` are done with. -/
def fillFrom (tasks : List (Option A)) (it first : ℕ) : List (Option A) :=
  if it = tasks.length then tasks
  else if _h : findFrom Option.isSome tasks first < tasks.length then
    let first' := findFrom Option.isSome tasks first
    let last := findFrom Option.isNone tasks first'
    fillFrom (copySlots tasks it first' (last - first')) (it + (last - first')) last
  else tasks.take it
termination_by tasks.length - first
decreasing_by
  have hlast := findFrom_isNone _h
  have hfirst : first ≤ findFrom Option.isSome tasks first := Nat.le_add_right _ _
  rw [copySlots_length]
  omega

/-- `reorderList` keeps the capacity of the vector. -/
def reordered (tasks : List (Option A)) : List (Option A) :=
  let it := tasks.findIdx Option.isNone
  fillFrom tasks it (it + 1)

theorem copySlots_spec (n : ℕ) : ∀ (tasks : List (Option A)) (it first : ℕ), it < first →
    first + n ≤ tasks.length →
      (copySlots tasks it first n).take (it + n) = tasks.take it ++ (tasks.drop first).take n ∧
        (copySlots tasks it first n).drop (first + n) = tasks.drop (first + n) := by
  induction n with
  | zero => intro tasks it first _ _; simp [copySlots]
  | succ n ih =>
    intro tasks it first hit hn
    have hfirst : first < tasks.length := by omega
    obtain ⟨htake, hdrop⟩ := ih (tasks.set it (tasks.getD first none)) (it + 1) (first + 1)
      (by omega) (by rw [List.length_set]; omega)
    have hone : it + (n + 1) = it + 1 + n := by omega
    have hone' : first + (n + 1) = first + 1 + n := by omega
    rw [copySlots, hone, hone', htake, hdrop]
    constructor
    · have hset : it < (tasks.set it (tasks.getD first none)).length := by
        rw [List.length_set]
        omega
      rw [List.drop_set_of_lt (by omega), List.drop_eq_getElem_cons hfirst, List.take_succ_cons,
        List.take_succ_eq_append_getElem hset, List.take_set_of_le (Nat.le_refl it),
        List.append_assoc]
      simp [hfirst]
    · rw [List.drop_set_of_lt (by omega)]

theorem filter_drop_findIdx {α : Type} (p : α → Bool) (l : List α) :
    (l.drop (l.findIdx p)).filter p = l.filter p := by
  induction l with
  | nil => rfl
  | cons a l ih =>
    cases ha : p a with
    | true => simp [List.findIdx_cons, ha]
    | false => simp [List.findIdx_cons, ha, ih]

theorem filter_isSome_split (l : List (Option A)) : l.filter Option.isSome =
    l.take (l.findIdx Option.isNone) ++ (l.drop (l.findIdx Option.isNone)).filter Option.isSome := by
  induction l with
  | nil => rfl
  | cons a l ih =>
    cases a with
    | none => simp [List.findIdx_cons]
    | some a => simpa [List.findIdx_cons] using ih

/-- The slots that are done with keep their activities, and the cleared ones are left out. -/
theorem fillFrom_spec (tasks : List (Option A)) (it first : ℕ) (hit : it < first)
    (hfirst : first ≤ tasks.length) :
    fillFrom tasks it first = tasks.take it ++ (tasks.drop first).filter Option.isSome := by
  induction tasks, it, first using fillFrom.induct with
  | case1 tasks first => omega
  | case2 tasks it first hne h first' last ih =>
    have hlast : first' < last := findFrom_isNone h
    have hge : first ≤ first' := Nat.le_add_right _ _
    have hle : last ≤ tasks.length := by
      have hidx : (tasks.drop first').findIdx Option.isNone ≤ (tasks.drop first').length :=
        List.findIdx_le_length
      rw [List.length_drop] at hidx
      have hdef : last = first' + (tasks.drop first').findIdx Option.isNone := rfl
      omega
    have hcount : last = first' + (last - first') := by omega
    obtain ⟨htake, hdrop⟩ := copySlots_spec (last - first') tasks it first' (by omega) (by omega)
    rw [← hcount] at hdrop
    unfold fillFrom
    rw [if_neg hne, dif_pos h]
    show fillFrom (copySlots tasks it first' (last - first')) (it + (last - first')) last = _
    rw [ih (by omega) (by rw [copySlots_length]; exact hle), htake, hdrop, List.append_assoc]
    congr 1
    -- what is skipped is cleared, and what is copied is not
    have hskip : (tasks.drop first).filter Option.isSome =
        (tasks.drop first').filter Option.isSome := by
      rw [← filter_drop_findIdx, List.drop_drop]
      rfl
    have hidx : (tasks.drop first').findIdx Option.isNone = last - first' :=
      (Nat.add_sub_cancel_left _ _).symm
    rw [hskip, filter_isSome_split (tasks.drop first'), hidx, List.drop_drop, ← hcount]
  | case3 tasks it first hne h =>
    have hend : (tasks.drop first).filter Option.isSome = [] := by
      rw [← filter_drop_findIdx, List.drop_drop]
      have hover : tasks.length ≤ first + (tasks.drop first).findIdx Option.isSome := by
        unfold findFrom at h
        omega
      rw [List.drop_eq_nil_of_le hover, List.filter_nil]
    unfold fillFrom
    rw [if_neg hne, dif_neg h, hend, List.append_nil]

/-- Exactly the cleared slots are removed, and the others keep their order. -/
theorem reordered_eq (tasks : List (Option A)) :
    reordered tasks = tasks.filter Option.isSome := by
  show fillFrom tasks (tasks.findIdx Option.isNone) (tasks.findIdx Option.isNone + 1) = _
  have hle : tasks.findIdx Option.isNone ≤ tasks.length := List.findIdx_le_length
  rw [filter_isSome_split]
  rcases Nat.lt_or_eq_of_le hle with hlt | heq
  · rw [fillFrom_spec _ _ _ (Nat.lt_succ_self _) hlt, List.drop_eq_getElem_cons hlt]
    congr 1
    have hnone := List.findIdx_getElem (w := hlt)
    rw [List.filter_cons_of_neg (by simpa using hnone)]
  · unfold fillFrom
    rw [if_pos heq, heq, List.take_length, List.drop_length, List.filter_nil, List.append_nil]

def reorderList (t : TimerThread A) : TimerThread A where
  tasks := reordered t.tasks
  cleanup := false
  bounded := by
    rw [reordered_eq]
    exact Nat.le_trans (List.length_filter_le _ _) t.bounded

end TimerThread
end OrocosRtt.Extras
