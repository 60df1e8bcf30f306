import OrocosRtt.Os.TimerRuns
import Mathlib.Algebra.BigOperators.Group.Finset.Basic
import Mathlib.Data.Finset.Option

/-! A timer that is due gets its turn: the loop has only so many other timeouts to make before. -/
namespace OrocosRtt.Os.Timer

open Alarms

variable {τ : Type} [DecidableEq τ]

/-! ### The timeouts that come first -/

/-- How many timeouts a slot has up to time `due`. -/
def Slot.turns (due : ℕ) (t : Slot) : ℕ :=
  if t.first = 0 ∨ due < t.first then 0
  else if t.second = 0 then 1 else (due - t.first) / t.second + 1

/-- What a call is about to add. -/
def Call.turns (due : ℕ) : Call → ℕ
  | .write _ start wait period => Slot.turns due ⟨start + wait, period⟩
  | _ => 0

theorem turns_next {due : ℕ} {t : Slot} (h : t.turns due ≠ 0) :
    t.next.turns due + 1 = t.turns due := by
  unfold Slot.turns at h
  split at h
  · exact absurd rfl h
  · rename_i hlive
    unfold Slot.next
    by_cases hs : t.second = 0
    · rw [if_neg (not_not.mpr hs), Slot.turns, if_pos (.inl rfl), Slot.turns, if_neg hlive,
        if_pos hs]
    · rw [if_pos hs, Slot.turns, Slot.turns, if_neg hlive, if_neg hs, if_neg hs]
      by_cases hlate : due < t.first + t.second
      · rw [if_pos (.inr hlate), Nat.div_eq_of_lt (by omega)]
      · rw [if_neg (by dsimp only; omega)]
        have hdiv : (due - t.first) / t.second = (due - (t.first + t.second)) / t.second + 1 := by
          rw [Nat.div_eq_sub_div (by omega) (by omega), Nat.sub_sub]
        rw [hdiv]

theorem turns_next_zero {due : ℕ} {t : Slot} (h : t.turns due = 0) (h0 : t.first ≠ 0) :
    t.next.turns due = 0 := by
  have hlate : due < t.first := by
    by_contra hge
    rw [Slot.turns, if_neg (by omega)] at h
    split at h
    · cases h
    · cases h
  unfold Slot.next
  by_cases hs : t.second = 0
  · rw [if_neg (not_not.mpr hs)]
    rfl
  · rw [if_pos hs]
    exact if_pos (.inr (by dsimp only; omega))

theorem turns_due {due : ℕ} {t : Slot} (h0 : t.first ≠ 0) (h : t.first ≤ due) :
    t.turns due ≠ 0 := by
  rw [Slot.turns, if_neg (by omega)]
  split
  · exact Nat.one_ne_zero
  · exact Nat.succ_ne_zero _

/-- How many timeouts slot `id` has up to time `due`. -/
def turnsAt (due : ℕ) (l : List Slot) (id : ℕ) : ℕ := l[id]?.elim 0 (Slot.turns due)

def turnsOf (due : ℕ) (l : List Slot) : ℕ := (l.map (Slot.turns due)).sum

theorem turnsOf_set {due : ℕ} (u : Slot) : ∀ {l : List Slot} {id : ℕ}, id < l.length →
    turnsOf due (l.set id u) + turnsAt due l id = turnsOf due l + u.turns due
  | t :: l, 0, _ => by
    simp only [turnsOf, turnsAt, List.set_cons_zero, List.map_cons, List.sum_cons,
      List.getElem?_cons_zero, Option.elim_some]
    omega
  | t :: l, id + 1, h => by
    have ih := @turnsOf_set due u l id (by simpa using h)
    simp only [turnsOf, turnsAt, List.set_cons_succ, List.map_cons, List.sum_cons,
      List.getElem?_cons_succ] at ih ⊢
    omega

theorem turnsAt_set_ne {due : ℕ} {l : List Slot} {id n : ℕ} (h : id ≠ n) (u : Slot) :
    turnsAt due (l.set id u) n = turnsAt due l n := by
  rw [turnsAt, turnsAt, List.getElem?_set_ne h]

theorem turnsAt_le (due : ℕ) : ∀ (l : List Slot) (id : ℕ), turnsAt due l id ≤ turnsOf due l
  | [], _ => Nat.zero_le _
  | t :: l, 0 => by
    simp only [turnsOf, turnsAt, List.map_cons, List.sum_cons, List.getElem?_cons_zero,
      Option.elim_some]
    omega
  | t :: l, id + 1 => by
    have ih := turnsAt_le due l id
    simp only [turnsOf, turnsAt, List.map_cons, List.sum_cons, List.getElem?_cons_succ] at ih ⊢
    omega

theorem turnsOf_resize (due : ℕ) (l : List Slot) (max : ℕ) :
    turnsOf due (resize l max) + turnsOf due (l.drop max) = turnsOf due l := by
  have hnew : ((List.replicate (max - l.length) (⟨0, 0⟩ : Slot)).map (Slot.turns due)).sum = 0 := by
    rw [List.map_replicate]
    simp [Slot.turns]
  have hall : (l.map (Slot.turns due)).sum =
      ((l.take max).map (Slot.turns due)).sum + ((l.drop max).map (Slot.turns due)).sum := by
    rw [← List.sum_append, ← List.map_append, List.take_append_drop]
  rw [turnsOf, turnsOf, turnsOf, resize, List.map_append, List.sum_append, hnew, hall]
  omega

theorem turnsAt_resize {due : ℕ} {l : List Slot} {max id : ℕ} (h : id < max) :
    turnsAt due (resize l max) id = turnsAt due l id := by
  unfold turnsAt resize
  by_cases hi : id < l.length
  · rw [List.getElem?_append_left (by rw [List.length_take]; omega), List.getElem?_take_of_lt h]
  · have hlen : (l.take max).length = l.length := by
      rw [List.length_take]
      omega
    have hlt : id - l.length < max - l.length := by omega
    rw [List.getElem?_append_right (by omega), hlen, List.getElem?_replicate, if_pos hlt,
      List.getElem?_eq_none (by omega)]
    rfl

theorem turnsAt_drop (due : ℕ) (l : List Slot) {max id : ℕ} (h : max ≤ id) :
    turnsAt due (l.drop max) (id - max) = turnsAt due l id := by
  rw [turnsAt, turnsAt, List.getElem?_drop, Nat.add_sub_cancel' h]

/-! ### How far the loop is from a timer that is due -/

/-- The timeouts up to time `due` that the slots and the calls of `B` may still bring. -/
def State.turns (due : ℕ) (B : Finset τ) (s : State τ) : ℕ :=
  turnsOf due s.mtimers + ∑ t ∈ B, (s.calls t).turns due

/-- A timer that was selected and has lost its turn costs the loop a round. -/
def debt (turns : ℕ) : ℕ := if turns = 0 then 6 else 0

def State.phase (due : ℕ) (s : State τ) : ℕ :=
  match s.place with
  | .select => 5
  | .test wake id => if due < wake then 11 else 4 + debt (turnsAt due s.mtimers id)
  | .wait _ => 6
  | .reprogram id => 3 + debt (turnsAt due s.mtimers id)
  | .call _ => 8
  | .timeout _ => 7

/-- No more than so many moves of the loop are left. -/
def State.distance (due : ℕ) (B : Finset τ) (s : State τ) : ℕ := 6 * s.turns due B + s.phase due

/-- The timer `i` is armed and due, and only the calls of `B` may be late. -/
structure Due (i : ℕ) (a : Arming) (B : Finset τ) (s : State τ) : Prop where
  sync : Sync s
  armed : pending i s.log = some a
  late : a.due < s.clock
  soon : a.due < infinite
  rest : ∀ t, t ∉ B → (s.calls t).turns a.due = 0

omit [DecidableEq τ] in
/-- Whatever the slots lose is paid for. -/
theorem distance_edit {due : ℕ} {B : Finset τ} {s s' : State τ} (hp : s'.place = s.place)
    (hle : s'.turns due B ≤ s.turns due B)
    (hlost : ∀ n, turnsAt due s.mtimers n ≠ 0 → turnsAt due s'.mtimers n = 0 →
      s'.turns due B + 1 ≤ s.turns due B) : s'.distance due B ≤ s.distance due B := by
  have hdebt : ∀ n, 6 * s'.turns due B + debt (turnsAt due s'.mtimers n) ≤
      6 * s.turns due B + debt (turnsAt due s.mtimers n) := by
    intro n
    have hn := hlost n
    unfold debt
    split <;> split <;> omega
  unfold State.distance State.phase
  rw [hp]
  cases s.place with
  | test wake id =>
    have hid := hdebt id
    dsimp only
    split <;> omega
  | reprogram id =>
    have hid := hdebt id
    dsimp only
    omega
  | select | wait | call | timeout => dsimp only; omega

theorem sum_call {due : ℕ} {B : Finset τ} {f : τ → Call} {t : τ} {k : Call}
    (ht : t ∉ B → (f t).turns due = 0) (hk : k.turns due = 0) :
    ∑ u ∈ B, (Function.update f t k u).turns due + (f t).turns due =
      ∑ u ∈ B, (f u).turns due := by
  by_cases hB : t ∈ B
  · rw [← Finset.sum_erase_add B _ hB, ← Finset.sum_erase_add B (fun u => (f u).turns due) hB,
      Function.update_self, hk]
    have hrest : ∑ u ∈ B.erase t, (Function.update f t k u).turns due =
        ∑ u ∈ B.erase t, (f u).turns due := by
      apply Finset.sum_congr rfl
      intro u hu
      rw [Function.update_of_ne (Finset.ne_of_mem_erase hu)]
    rw [hrest]
    omega
  · rw [ht hB, Nat.add_zero]
    apply Finset.sum_congr rfl
    intro u hu
    rw [Function.update_of_ne (ne_of_mem_of_not_mem hu hB)]

omit [DecidableEq τ] in
theorem loop_distance {i : ℕ} {a : Arming} {B : Finset τ} {s : State τ} (h : Due i a B s)
    (hc : Clear s .loop) (hb : s.blocked = false) :
    (loopMove s).distance a.due B + 1 ≤ s.distance a.due B := by
  have hlate := h.late
  unfold loopMove
  cases hp : s.place with
  | select =>
    have hkept := h.sync.kept i (by simp [hp])
    rw [h.armed] at hkept
    obtain ⟨t, ht, hfirst, -, h0⟩ := hkept.of_pending
    obtain ⟨-, hall, hone⟩ := earliest_spec s.mtimers 0 (infinite, 0)
    have hwake := hall i t ht h0
    have hsoon := h.soon
    rcases hone with heq | ⟨n, u, hu, hu0, heq⟩
    · rw [heq] at hwake
      omega
    · rw [heq] at hwake ⊢
      have hturns : turnsAt a.due s.mtimers (0 + n) ≠ 0 := by
        rw [Nat.zero_add, turnsAt, hu]
        exact turns_due hu0 (by omega)
      have hdebt : debt (turnsAt a.due s.mtimers (0 + n)) = 0 := if_neg hturns
      have hle : ¬ a.due < u.first := by omega
      simp only [State.distance, State.phase, State.turns, hp, if_neg hle, hdebt]
      omega
  | test wake id =>
    have hdebt : debt (turnsAt a.due s.mtimers id) ≤ 6 := by
      unfold debt
      split <;> omega
    dsimp only
    split
    · have hlt : a.due < wake := by omega
      simp only [State.distance, State.phase, State.turns, hp, if_pos hlt]
      omega
    · simp only [State.distance, State.phase, State.turns, hp]
      split <;> omega
  | wait wake =>
    dsimp only
    split
    · simp only [State.distance, State.phase, State.turns, hp]
      omega
    · split
      · simp only [State.distance, State.phase, State.turns, hp]
        omega
      · rename_i hsem hwake
        have hblocked := s.blocked_iff.mpr ⟨wake, hp, by omega, by omega⟩
        rw [hb] at hblocked
        cases hblocked
  | reprogram id =>
    obtain ⟨t, ht, h0, -⟩ := hc id hp
    have hlt : id < s.mtimers.length := by
      by_contra hge
      rw [List.getElem?_eq_none (by omega)] at ht
      cases ht
    have hat : turnsAt a.due s.mtimers id = t.turns a.due := by
      rw [turnsAt, ht]
      rfl
    have hset := @turnsOf_set a.due t.next _ _ hlt
    rw [hat] at hset
    dsimp only
    rw [ht]
    simp only [State.distance, State.phase, State.turns, hp, hat, debt]
    by_cases hz : t.turns a.due = 0
    · have hnext := turns_next_zero hz h0
      rw [if_pos hz]
      omega
    · have hnext := turns_next hz
      rw [if_neg hz]
      omega
  | call id =>
    simp only [State.distance, State.phase, State.turns, hp]
    omega
  | timeout id =>
    simp only [State.distance, State.phase, State.turns, hp]
    omega

/-- A call goes on and leaves the slots alone. -/
theorem Due.call_distance {i : ℕ} {a : Arming} {B : Finset τ} {s : State τ} (h : Due i a B s)
    {t : τ} {k : Call} {n : ℕ} (hk : k.turns a.due = 0) :
    ({ s with sem := n }.call t k).distance a.due B ≤ s.distance a.due B := by
  have hsum := sum_call (h.rest t) hk
  refine distance_edit rfl ?_ fun _ hne hz => absurd hz hne
  simp only [State.turns, State.call]
  omega

/-- A call writes the slot `id`. -/
theorem Due.write_distance {i : ℕ} {a : Arming} {B : Finset τ} {s : State τ} (h : Due i a B s)
    {t : τ} {k : Call} {id : ℕ} {u : Slot} {l : List Event} (hk : k.turns a.due = 0)
    (hid : id < s.mtimers.length) (hu : u.turns a.due = (s.calls t).turns a.due) :
    ({ s with mtimers := s.mtimers.set id u, log := l }.call t k).distance a.due B ≤
      s.distance a.due B := by
  have hsum := sum_call (h.rest t) hk
  have hset := @turnsOf_set a.due u _ _ hid
  refine distance_edit rfl ?_ ?_
  · simp only [State.turns, State.call]
    omega
  · intro n hne hz
    simp only [State.turns, State.call] at hz ⊢
    by_cases hn : id = n
    · subst hn
      omega
    · rw [turnsAt_set_ne hn] at hz
      exact absurd hz hne

theorem call_distance {i : ℕ} {a : Arming} {B : Finset τ} {s : State τ} (h : Due i a B s) {t : τ}
    (hc : (s.calls t).clear s) : (callMove s t).distance a.due B ≤ s.distance a.due B := by
  unfold callMove
  cases hk : s.calls t with
  | idle => exact Nat.le_refl _
  | startTimer id period =>
    dsimp only
    split
    · exact h.call_distance rfl
    · exact h.call_distance rfl
  | arm id wait =>
    dsimp only
    split
    · exact h.call_distance rfl
    · exact h.call_distance rfl
  | readClock id wait period =>
    have hlate := h.late
    exact h.call_distance (if_pos (.inr (by dsimp only; omega)))
  | write id start wait period =>
    rw [hk] at hc
    dsimp only [State.write]
    rw [if_pos hc.1]
    exact h.write_distance rfl hc.1 (by rw [hk]; rfl)
  | signal => exact h.call_distance rfl
  | killTimer id =>
    rw [hk] at hc
    dsimp only
    split
    · exact h.call_distance rfl
    · have hne : id ≠ s.mtimers.length := hc.1
      have hid : id.toNat < s.mtimers.length := by omega
      unfold State.write
      rw [if_pos hid]
      exact h.write_distance rfl hid (by rw [hk]; rfl)
  | setMaxTimers max =>
    have hsum := sum_call (k := .idle) (h.rest t) rfl
    have hsize := turnsOf_resize a.due s.mtimers max
    refine distance_edit rfl ?_ ?_
    · simp only [State.turns, State.call]
      omega
    · intro n hne hz
      simp only [State.turns, State.call] at hz ⊢
      by_cases hn : n < max
      · rw [turnsAt_resize hn] at hz
        exact absurd hz hne
      · have hdrop := turnsAt_drop a.due s.mtimers (Nat.le_of_not_lt hn)
        have hle := turnsAt_le a.due (s.mtimers.drop max) (n - max)
        omega

/-! ### Every step -/

omit [DecidableEq τ] in
theorem State.write_rest (s : State τ) (id : ℕ) (slot : Slot) :
    (s.write id slot).clock = s.clock ∧ (s.write id slot).calls = s.calls ∧
      (s.write id slot).log = s.log := by
  unfold State.write
  split
  · exact ⟨rfl, rfl, rfl⟩
  · exact ⟨rfl, rfl, rfl⟩

theorem callMove_clock (s : State τ) (t : τ) : (callMove s t).clock = s.clock := by
  unfold callMove
  cases s.calls t with
  | idle | readClock | signal | setMaxTimers => rfl
  | startTimer id period => dsimp only; split <;> rfl
  | arm id wait => dsimp only; split <;> rfl
  | write id start wait period => exact (s.write_rest id _).1
  | killTimer id =>
    dsimp only
    split
    · rfl
    · exact (s.write_rest id.toNat _).1

theorem step_clock (s : State τ) (a : Act τ) : s.clock ≤ (step s a).clock := by
  cases a with
  | loop =>
    apply Nat.le_of_eq
    simp only [step, loopMove]
    split <;> first | rfl | (split <;> first | rfl | (split <;> rfl))
  | call t => exact Nat.le_of_eq (callMove_clock s t).symm
  | begins t k => dsimp only [step]; split <;> exact Nat.le_refl _
  | tick n => exact Nat.le_add_right _ _

/-- A step adds one event at most. -/
theorem step_log (s : State τ) (a : Act τ) :
    (step s a).log = s.log ∨ ∃ e, (step s a).log = e :: s.log := by
  cases a with
  | loop =>
    simp only [step, loopMove]
    cases s.place with
    | select | timeout => exact .inl rfl
    | test wake id => dsimp only; split <;> exact .inl rfl
    | wait wake => dsimp only; split <;> first | exact .inl rfl | (split <;> exact .inl rfl)
    | reprogram id => dsimp only; split <;> exact .inl rfl
    | call id => exact .inr ⟨_, rfl⟩
  | call t =>
    simp only [step, callMove]
    cases s.calls t with
    | idle | readClock | signal => exact .inl rfl
    | startTimer id period => dsimp only; split <;> exact .inl rfl
    | arm id wait => dsimp only; split <;> exact .inl rfl
    | write id start wait period => exact .inr ⟨_, rfl⟩
    | killTimer id => dsimp only; split <;> first | exact .inl rfl | exact .inr ⟨_, rfl⟩
    | setMaxTimers max => exact .inr ⟨_, rfl⟩
  | begins t k => dsimp only [step]; split <;> exact .inl rfl
  | tick n => exact .inl rfl

/-- A step changes the call of one thread, and one that is late by then is not new. -/
theorem step_calls {s : State τ} {a : Act τ} {due : ℕ} (hlate : due < s.clock) {u : τ}
    (hu : (s.calls u).turns due = 0) : ((step s a).calls u).turns due = 0 := by
  have hcall : ∀ (s' : State τ) (t : τ) (k : Call), k.turns due = 0 →
      (s'.calls u).turns due = 0 → ((s'.call t k).calls u).turns due = 0 := by
    intro s' t k hk hs
    by_cases hut : u = t
    · rw [hut, State.call_self]
      exact hk
    · rw [State.call_other s' k hut]
      exact hs
  cases a with
  | loop =>
    have hsame : (step s .loop).calls = s.calls := by
      simp only [step, loopMove]
      split <;> first | rfl | (split <;> first | rfl | (split <;> rfl))
    rw [hsame]
    exact hu
  | call t =>
    simp only [step, callMove]
    cases s.calls t with
    | idle => exact hu
    | readClock id wait period =>
      exact hcall s t _ (if_pos (.inr (by dsimp only; omega))) hu
    | signal => exact hcall _ t _ rfl hu
    | setMaxTimers max => exact hcall _ t _ rfl hu
    | startTimer id period =>
      dsimp only
      split
      · exact hcall s t _ rfl hu
      · exact hcall s t _ rfl hu
    | arm id wait =>
      dsimp only
      split
      · exact hcall s t _ rfl hu
      · exact hcall s t _ rfl hu
    | write id start wait period =>
      refine hcall _ t _ rfl ?_
      show ((s.write id _).calls u).turns due = 0
      rw [(s.write_rest id _).2.1]
      exact hu
    | killTimer id =>
      dsimp only
      split
      · exact hcall s t _ rfl hu
      · refine hcall _ t _ rfl ?_
        show ((s.write id.toNat _).calls u).turns due = 0
        rw [(s.write_rest id.toNat _).2.1]
        exact hu
  | begins t k =>
    dsimp only [step]
    split
    · rename_i hk
      refine hcall s t k ?_ hu
      cases k with
      | write => exact absurd hk.2 Bool.false_ne_true
      | _ => rfl
    · exact hu
  | tick n => exact hu

theorem Due.step {i : ℕ} {a : Arming} {B : Finset τ} {s : State τ} (h : Due i a B s) {e : Act τ}
    (hc : Clear s e) (hd : disturbances i (step s e).log = disturbances i s.log)
    (ht : timeouts i (step s e).log = timeouts i s.log) : Due i a B (step s e) where
  sync := step_sync h.sync hc
  armed := by
    rcases step_log s e with heq | ⟨ev, heq⟩
    · rw [heq]
      exact h.armed
    · rw [heq] at hd ht ⊢
      rw [disturbances_cons] at hd
      rw [timeouts_cons] at ht
      rw [pending_cons, h.armed]
      · cases he : ev.disturbs i with
        | false => rfl
        | true => rw [he, if_pos rfl] at hd; omega
      · cases he : ev.isTimeout i with
        | false => rfl
        | true => rw [he, if_pos rfl] at ht; omega
  late := Nat.lt_of_lt_of_le h.late (step_clock s e)
  soon := h.soon
  rest u hu := step_calls h.late (h.rest u hu)

/-- The moves that the loop makes; a loop that is blocked makes none. -/
def moves : State τ → List (Act τ) → ℕ
  | _, [] => 0
  | s, .loop :: acts => (if s.blocked then 0 else 1) + moves (step s .loop) acts
  | s, a :: acts => moves (step s a) acts

theorem step_counts (i : ℕ) (s : State τ) (a : Act τ) :
    disturbances i s.log ≤ disturbances i (step s a).log ∧
      timeouts i s.log ≤ timeouts i (step s a).log := by
  rcases step_log s a with heq | ⟨e, heq⟩
  · rw [heq]
    exact ⟨Nat.le_refl _, Nat.le_refl _⟩
  · rw [heq, disturbances_cons, timeouts_cons]
    exact ⟨Nat.le_add_right _ _, Nat.le_add_right _ _⟩

theorem run_counts (i : ℕ) (acts : List (Act τ)) : ∀ s : State τ,
    disturbances i s.log ≤ disturbances i (Library.Run.run Timer.step s acts).log ∧
      timeouts i s.log ≤ timeouts i (Library.Run.run Timer.step s acts).log := by
  induction acts with
  | nil => exact fun s => ⟨Nat.le_refl _, Nat.le_refl _⟩
  | cons a acts ih =>
    intro s
    have hstep := step_counts i s a
    have hrun := ih (Timer.step s a)
    exact ⟨Nat.le_trans hstep.1 hrun.1, Nat.le_trans hstep.2 hrun.2⟩

theorem Due.step_distance {i : ℕ} {a : Arming} {B : Finset τ} {s : State τ} (h : Due i a B s)
    {e : Act τ} (hc : Clear s e) (he : e ≠ .loop ∨ s.blocked = true) :
    (Timer.step s e).distance a.due B ≤ s.distance a.due B := by
  cases e with
  | loop =>
    have hb : s.blocked = true := he.resolve_left (fun hne => hne rfl)
    obtain ⟨wake, hp, hsem, hlt⟩ := s.blocked_iff.mp hb
    have hstay : Timer.step s .loop = s := by
      simp only [Timer.step, loopMove, hp]
      rw [if_neg (by omega), if_neg (by omega)]
    rw [hstay]
  | call t => exact Timer.call_distance h hc
  | begins t k =>
    dsimp only [Timer.step]
    split
    · rename_i hk
      refine h.call_distance (t := t) (k := k) ?_
      cases k with
      | write => exact absurd hk.2 Bool.false_ne_true
      | _ => rfl
    · exact Nat.le_refl _
  | tick n => exact Nat.le_refl _

/-- As long as the timer has neither been disturbed nor had its timeout, the loop has made no more
moves than it was away. -/
theorem Due.moves_le {i : ℕ} {a : Arming} {B : Finset τ} (acts : List (Act τ)) :
    ∀ {s : State τ}, Due i a B s → Library.Run.Along Timer.step Clear s acts →
      disturbances i (Library.Run.run Timer.step s acts).log = disturbances i s.log →
      timeouts i (Library.Run.run Timer.step s acts).log = timeouts i s.log →
      moves s acts ≤ s.distance a.due B := by
  induction acts with
  | nil => exact fun _ _ _ _ => Nat.zero_le _
  | cons e acts ih =>
    intro s h hc hd ht
    rw [Library.Run.run_cons] at hd ht
    have hstep := step_counts i s e
    have hrun := run_counts i acts (Timer.step s e)
    have hdue := h.step hc.1 (by omega) (by omega)
    have hle := ih hdue hc.2 (by omega) (by omega)
    by_cases he : e ≠ .loop ∨ s.blocked = true
    · have hdist := h.step_distance hc.1 he
      have hmoves : moves s (e :: acts) = moves (Timer.step s e) acts := by
        cases e with
        | loop => simp [moves, he.resolve_left (fun hne => hne rfl)]
        | call | begins | tick => rfl
      omega
    · rw [not_or, not_not] at he
      obtain ⟨rfl, hb⟩ := he
      have hdist := loop_distance h hc.1 (by simpa using hb)
      have hmoves : moves s (.loop :: acts) = 1 + moves (Timer.step s .loop) acts := by
        simp [moves, hb]
      have hmove : Timer.step s .loop = loopMove s := rfl
      rw [hmove] at hle hmoves
      omega

/-- Every step moves the call of one thread at most. -/
theorem step_others (s : State τ) (a : Act τ) :
    ∃ t : Option τ, ∀ u, t ≠ some u → (step s a).calls u = s.calls u := by
  cases a with
  | loop =>
    refine ⟨none, fun u _ => congrFun ?_ u⟩
    simp only [step, loopMove]
    split <;> first | rfl | (split <;> first | rfl | (split <;> rfl))
  | call t =>
    refine ⟨some t, fun u hu => ?_⟩
    have hut : u ≠ t := fun he => hu (by rw [he])
    simp only [step, callMove]
    cases s.calls t with
    | idle => rfl
    | readClock | signal | setMaxTimers => exact State.call_other _ _ hut
    | startTimer id period => dsimp only; split <;> exact State.call_other _ _ hut
    | arm id wait => dsimp only; split <;> exact State.call_other _ _ hut
    | write id start wait period =>
      refine (State.call_other _ _ hut).trans ?_
      exact congrFun (s.write_rest id _).2.1 u
    | killTimer id =>
      dsimp only
      split
      · exact State.call_other _ _ hut
      · refine (State.call_other _ _ hut).trans ?_
        exact congrFun (s.write_rest id.toNat _).2.1 u
  | begins t k =>
    refine ⟨some t, fun u hu => ?_⟩
    have hut : u ≠ t := fun he => hu (by rw [he])
    dsimp only [step]
    split
    · exact State.call_other _ _ hut
    · rfl
  | tick n => exact ⟨none, fun _ _ => rfl⟩

/-- Only so many threads have called. -/
theorem callers_finite (n : ℕ) (acts : List (Act τ)) :
    ∃ B : Finset τ, ∀ t, t ∉ B → (after n acts).calls t = .idle := by
  refine Library.Run.run_invariant (I := fun s : State τ => ∃ B : Finset τ, ∀ t, t ∉ B →
    s.calls t = .idle) ?_ ⟨∅, fun _ _ => rfl⟩ (Library.Run.along_trivial step (create n) acts)
  rintro s a ⟨B, hB⟩ -
  obtain ⟨t, ht⟩ := step_others s a
  refine ⟨B ∪ t.toFinset, fun u hu => ?_⟩
  rw [Finset.mem_union, not_or, Option.mem_toFinset] at hu
  rw [ht u hu.2, hB u hu.1]

/-! ### Timers and their timeouts -/

structure Reliable (s : State τ) : Prop where
  inside : s.outside = false
  /-- A timeout comes when its timer is armed and due, and was not disturbed since. -/
  legal : Legal s.log
  once : ∀ l' l i start wait, s.log = l' ++ .armed i start wait 0 :: l → disturbances i l' = 0 →
    timeouts i l' ≤ 1
  periodic : ∀ l'' l' l i now start wait period, period ≠ 0 →
    s.log = l'' ++ .timeout i now :: (l' ++ .armed i start wait period :: l) →
      disturbances i l' = 0 →
        pending i (l' ++ .armed i start wait period :: l) =
            some ⟨start, wait, period, timeouts i l'⟩ ∧
          start + wait + timeouts i l' * period ≤ now
  awake : ∀ i a, pending i s.log = some a → a.due ≤ s.clock → s.blocked = true →
    ∃ t, s.calls t = .signal
  /-- A timer that is due has its timeout within so many moves of the loop. -/
  fires : ∀ i a, pending i s.log = some a → a.due < s.clock → a.due < infinite →
    ∃ n, ∀ acts, Library.Run.Along step Clear s acts →
      disturbances i (Library.Run.run step s acts).log = disturbances i s.log →
        n < moves s acts → timeouts i s.log < timeouts i (Library.Run.run step s acts).log

/-- In a run whose steps are clear, a timer has its timeouts when they are due, all of them and no
others. -/
theorem timers_reliable (max_timers : ℕ) (acts : List (Act τ))
    (h : Library.Run.Along step Clear (create max_timers) acts) :
    Reliable (after max_timers acts) := by
  have hsync : Sync (after max_timers acts) :=
    Library.Run.run_invariant (fun _ _ => step_sync) (create_sync max_timers) h
  have hawake : Awake (after max_timers acts) := by
    refine Library.Run.run_invariant (fun _ _ ha _ => step_awake ha) ?_ h
    rintro wake (hp | ⟨id, hp⟩) <;> cases hp
  refine ⟨hsync.inside, hsync.legal, ?_, ?_, ?_, ?_⟩
  · intro l' l i start wait hlog hd
    exact Legal.once (hlog ▸ hsync.legal) hd
  · intro l'' l' l i now start wait period hp hlog hd
    have hlegal := hsync.legal
    rw [hlog] at hlegal
    exact hlegal.of_append.periodic hp hd
  · exact fun i a hi hdue hb => hsync.not_blocked hawake hi hdue hb
  · intro i a hi hlate hsoon
    obtain ⟨B, hB⟩ := callers_finite max_timers acts
    have hdue : Due i a B (after max_timers acts) :=
      ⟨hsync, hi, hlate, hsoon, fun t ht => by rw [hB t ht]; rfl⟩
    refine ⟨(after max_timers acts).distance a.due B, fun acts' hc hd hmoves => ?_⟩
    have hcount := (run_counts i acts' (after max_timers acts)).2
    by_contra hnone
    have hle := hdue.moves_le acts' hc hd (by omega)
    omega

/-- A call of `arm(0, 5e-9)`, and the loop until it finds the timer expired. -/
def armed : List (Act Unit) :=
  [.begins () (.arm 0 5), .call (), .call (), .call (), .call (), .loop, .loop, .tick 5, .loop,
    .loop, .loop]

theorem timers_reliable_armed :
    Reliable (after 1 (armed ++ [.loop, .loop])) ∧
      (after 1 (armed ++ [.loop, .loop])).log = [.timeout 0 5, .armed 0 0 5 0] :=
  ⟨timers_reliable 1 _ (by decide), by decide⟩

/-- The timer is killed after the loop has found it expired and before it takes the mutex again. -/
theorem killed_timeout :
    ¬ Reliable (after 1 (armed ++ [.begins () (.killTimer 0), .call (), .loop, .loop])) := by
  intro h
  obtain ⟨⟨a, ha, -⟩, -⟩ := h.legal
  cases ha

end OrocosRtt.Os.Timer
