import Mathlib.Data.Nat.Notation
import Mathlib.Logic.Function.Iterate
import Mathlib.Tactic.ByContra

/-! What a table of timers is for, told by the list of what happened to it: a timer is armed, and
from then on until it is disturbed its timeouts come at its first due time and every period. -/
namespace OrocosRtt.Os.Alarms

/-- The latest event stands first. `start` is the time a timer was armed at. -/
inductive Event
  | armed (id start wait period : ℕ)
  | killed (id : ℕ)
  | resized (max : ℕ)
  | timeout (id now : ℕ)
deriving DecidableEq, Repr

/-- The event arms timer `i` anew, kills it or removes it. -/
def Event.disturbs (i : ℕ) : Event → Bool
  | .armed id _ _ _ => id = i
  | .killed id => id = i
  | .resized max => max ≤ i
  | .timeout _ _ => false

def Event.isTimeout (i : ℕ) : Event → Bool
  | .timeout id _ => id = i
  | _ => false

/-- How often timer `i` was disturbed, and how many timeouts it had. -/
def disturbances (i : ℕ) (l : List Event) : ℕ := l.countP (Event.disturbs i)

def timeouts (i : ℕ) (l : List Event) : ℕ := l.countP (Event.isTimeout i)

/-- An armed timer. A one-shot timer has period zero. -/
structure Arming where
  start : ℕ
  wait : ℕ
  period : ℕ
  fired : ℕ
deriving DecidableEq, Repr

/-- The due time of the next timeout. -/
def Arming.due (a : Arming) : ℕ := a.start + a.wait + a.fired * a.period

/-- What a timeout leaves of it. -/
def Arming.next (a : Arming) : Option Arming :=
  if a.period = 0 then none else some { a with fired := a.fired + 1 }

/-- What timer `i` is armed for. -/
def pending (i : ℕ) : List Event → Option Arming
  | [] => none
  | .armed id start wait period :: l =>
    if id = i then some ⟨start, wait, period, 0⟩ else pending i l
  | .killed id :: l => if id = i then none else pending i l
  | .resized max :: l => if max ≤ i then none else pending i l
  | .timeout id _ :: l => if id = i then (pending i l).bind Arming.next else pending i l

/-- Every timeout comes when its timer is armed and due. -/
def Legal : List Event → Prop
  | [] => True
  | .timeout id now :: l => (∃ a, pending id l = some a ∧ a.due ≤ now) ∧ Legal l
  | .armed .. :: l | .killed _ :: l | .resized _ :: l => Legal l

theorem Legal.of_cons {e : Event} {l : List Event} (h : Legal (e :: l)) : Legal l := by
  cases e with
  | timeout id now => exact h.2
  | armed | killed | resized => exact h

theorem Legal.of_append {l l' : List Event} (h : Legal (l' ++ l)) : Legal l := by
  induction l' with
  | nil => exact h
  | cons e l' ih => exact ih h.of_cons

/-- An event that neither disturbs timer `i` nor is a timeout of it leaves it as it was. -/
theorem pending_cons {i : ℕ} {e : Event} (hd : e.disturbs i = false) (ht : e.isTimeout i = false)
    (l : List Event) : pending i (e :: l) = pending i l := by
  cases e with
  | armed id start wait period => exact if_neg (by simpa [Event.disturbs] using hd)
  | killed id => exact if_neg (by simpa [Event.disturbs] using hd)
  | resized max => exact if_neg (by simpa [Event.disturbs] using hd)
  | timeout id now => exact if_neg (by simpa [Event.isTimeout] using ht)

theorem pending_timeout (i now : ℕ) (l : List Event) :
    pending i (.timeout i now :: l) = (pending i l).bind Arming.next := if_pos rfl

theorem disturbances_cons (i : ℕ) (e : Event) (l : List Event) :
    disturbances i (e :: l) = disturbances i l + if e.disturbs i then 1 else 0 :=
  List.countP_cons ..

theorem undisturbed_cons {i : ℕ} {e : Event} {l : List Event}
    (h : disturbances i (e :: l) = 0) : e.disturbs i = false ∧ disturbances i l = 0 := by
  rw [disturbances_cons] at h
  cases he : e.disturbs i with
  | true =>
    rw [he, if_pos rfl] at h
    omega
  | false => exact ⟨rfl, by omega⟩

theorem timeouts_cons (i : ℕ) (e : Event) (l : List Event) :
    timeouts i (e :: l) = timeouts i l + if e.isTimeout i then 1 else 0 := List.countP_cons ..

/-- As long as a timer is undisturbed, only its timeouts matter. -/
theorem pending_undisturbed {i : ℕ} {l l' : List Event} (hd : disturbances i l' = 0) :
    pending i (l' ++ l) = (fun a : Option Arming => a.bind Arming.next)^[timeouts i l'] (pending i l) := by
  induction l' with
  | nil => rfl
  | cons e l' ih =>
    obtain ⟨he, hl⟩ := undisturbed_cons hd
    rw [List.cons_append, timeouts_cons]
    cases ht : e.isTimeout i with
    | false =>
      rw [pending_cons he ht, ih hl]
      rfl
    | true =>
      cases e with
      | timeout id now =>
        obtain rfl : id = i := by simpa [Event.isTimeout] using ht
        rw [pending_timeout, ih hl, if_pos rfl, Function.iterate_succ_apply']
      | armed | killed | resized => cases ht

theorem iterate_next {start wait period fired : ℕ} (hp : period ≠ 0) (n : ℕ) :
    (fun a : Option Arming => a.bind Arming.next)^[n] (some ⟨start, wait, period, fired⟩) =
      some ⟨start, wait, period, fired + n⟩ := by
  induction n with
  | zero => rfl
  | succ n ih =>
    rw [Function.iterate_succ_apply', ih]
    exact if_neg hp

/-- The timeouts of an undisturbed timer belong to its first due time and the times that follow it
at its period. -/
theorem Legal.periodic {i now start wait period : ℕ} {l l' : List Event} (hp : period ≠ 0)
    (h : Legal (.timeout i now :: (l' ++ .armed i start wait period :: l)))
    (hd : disturbances i l' = 0) :
    pending i (l' ++ .armed i start wait period :: l) =
        some ⟨start, wait, period, timeouts i l'⟩ ∧
      start + wait + timeouts i l' * period ≤ now := by
  obtain ⟨⟨a, ha, hdue⟩, -⟩ := h
  have harmed : pending i (.armed i start wait period :: l) = some ⟨start, wait, period, 0⟩ :=
    if_pos rfl
  have hpending : pending i (l' ++ .armed i start wait period :: l) =
      some ⟨start, wait, period, timeouts i l'⟩ := by
    rw [pending_undisturbed hd, harmed, iterate_next hp, Nat.zero_add]
  rw [hpending] at ha
  cases ha
  exact ⟨hpending, hdue⟩

/-- A one-shot timer that is not disturbed has one timeout at most. -/
theorem Legal.once {i start wait : ℕ} {l l' : List Event}
    (h : Legal (l' ++ .armed i start wait 0 :: l)) (hd : disturbances i l' = 0) :
    timeouts i l' ≤ 1 := by
  induction l' with
  | nil => exact Nat.zero_le 1
  | cons e l' ih =>
    obtain ⟨-, hl⟩ := undisturbed_cons hd
    rw [List.cons_append] at h
    have hle := ih h.of_cons hl
    rw [timeouts_cons]
    cases ht : e.isTimeout i with
    | false => simpa using hle
    | true =>
      cases e with
      | timeout id now =>
        obtain rfl : id = i := by simpa [Event.isTimeout] using ht
        obtain ⟨a, ha, -⟩ := h.1
        by_contra hcount
        have hone : timeouts id l' = 1 := by
          rw [if_pos rfl] at hcount
          omega
        have harmed : pending id (.armed id start wait 0 :: l) = some ⟨start, wait, 0, 0⟩ :=
          if_pos rfl
        rw [pending_undisturbed hl, harmed, hone] at ha
        cases ha
      | armed | killed | resized => cases ht

end OrocosRtt.Os.Alarms
