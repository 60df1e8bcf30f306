import OrocosRtt.Library.Run
import OrocosRtt.Os.Alarms
import Mathlib.Algebra.GroupWithZero.Nat
import Mathlib.Data.Int.Notation
import Mathlib.Logic.Function.Basic

/-! A timer object: the loop that selects a timer, waits for it and has its timeout, and the calls
of other threads, one section under the mutex or one semaphore operation at a time. -/
namespace OrocosRtt.Os.Timer

open Alarms (Event)

/-- `first` is the absolute time at which the timer expires, zero when it is not armed, and
`second` is its period or zero. -/
structure Slot where
  first : ℕ
  second : ℕ
deriving DecidableEq, Repr

/-- `(TimeService::InfiniteNSecs/4)-1`. -/
def infinite : ℕ := (2 ^ 63 - 1) / 4 - 1

/-- The loop over `mtimers` from index `k` on: the earliest expiry so far and its timer. -/
def earliest : List Slot → ℕ → ℕ × ℕ → ℕ × ℕ
  | [], _, best => best
  | t :: ts, k, best =>
    earliest ts (k + 1) (if t.first ≠ 0 ∧ t.first < best.1 then (t.first, k) else best)

/-- Where the loop is; `timeout` is the call of the user's function, `call` is about to make it. -/
inductive Place
  | select
  | test (wake id : ℕ)
  | wait (wake : ℕ)
  | reprogram (id : ℕ)
  | call (id : ℕ)
  | timeout (id : ℕ)
deriving DecidableEq, Repr

/-- Where another thread is in its call, or the user's function in its own. -/
inductive Call
  | idle
  | startTimer (id period : ℤ)
  | arm (id wait : ℤ)
  | readClock (id wait period : ℕ)
  | write (id start wait period : ℕ)
  | signal
  | killTimer (id : ℤ)
  | setMaxTimers (max : ℕ)
deriving DecidableEq, Repr

/-- `outside` records that the vector was written outside its bounds, and `log` what happened to
the timers; no step reads them. -/
structure State (τ : Type) where
  mtimers : List Slot
  sem : ℕ
  clock : ℕ
  place : Place
  calls : τ → Call
  outside : Bool
  log : List Event

variable {τ : Type} [DecidableEq τ]

def create (max_timers : ℕ) : State τ where
  mtimers := List.replicate max_timers ⟨0, 0⟩
  sem := 0
  clock := 0
  place := .select
  calls := fun _ => .idle
  outside := false
  log := []

/-- The call of `t` goes to its place `k`. -/
def State.call (s : State τ) (t : τ) (k : Call) : State τ :=
  { s with calls := Function.update s.calls t k }

@[simp] theorem State.call_self (s : State τ) (t : τ) (k : Call) : (s.call t k).calls t = k :=
  Function.update_self ..

theorem State.call_other (s : State τ) {t u : τ} (k : Call) (h : u ≠ t) :
    (s.call t k).calls u = s.calls u := Function.update_of_ne h ..

/-- `mtimers[id] = slot`. -/
def State.write (s : State τ) (id : ℕ) (slot : Slot) : State τ :=
  if id < s.mtimers.length then { s with mtimers := s.mtimers.set id slot }
  else { s with outside := true }

/-- `mtimers.resize(max, std::make_pair(Time(0), Time(0)))`. -/
def resize (mtimers : List Slot) (max : ℕ) : List Slot :=
  mtimers.take max ++ List.replicate (max - mtimers.length) ⟨0, 0⟩

/-- The expired timer is cleared or reprogrammed. -/
def Slot.next (t : Slot) : Slot :=
  if t.second ≠ 0 then { t with first := t.first + t.second } else { t with first := 0 }

/-- What the loop does next. `waitUntil` tells whether the semaphore was signalled, so that the
loop selects again in either case; it is the overrun that leads to a timeout. -/
def loopMove (s : State τ) : State τ :=
  match s.place with
  | .select =>
    let best := earliest s.mtimers 0 (infinite, 0)
    { s with place := .test best.1 best.2 }
  | .test wake id =>
    if s.clock < wake then { s with place := .wait wake }
    else { s with place := .reprogram id }
  | .wait wake =>
    if 0 < s.sem then { s with sem := s.sem - 1, place := .select }
    else if wake ≤ s.clock then { s with place := .select }
    else s
  | .reprogram id =>
    match s.mtimers[id]? with
    | some t => { s with mtimers := s.mtimers.set id t.next, place := .call id }
    | none => { s with place := .call id }
  | .call id => { s with log := .timeout id s.clock :: s.log, place := .timeout id }
  | .timeout _ => { s with place := .select }

/-- `startTimer` and `arm` check their arguments before they take the mutex. -/
def invalid (s : State τ) (id time : ℤ) : Bool := id < 0 || id > s.mtimers.length || time < 0

/-- What the call of `t` does next. -/
def callMove (s : State τ) (t : τ) : State τ :=
  match s.calls t with
  | .idle => s
  | .startTimer id period =>
    if invalid s id period then s.call t .idle
    else s.call t (.readClock id.toNat period.toNat period.toNat)
  | .arm id wait =>
    if invalid s id wait then s.call t .idle
    else s.call t (.readClock id.toNat wait.toNat 0)
  | .readClock id wait period => s.call t (.write id s.clock wait period)
  | .write id start wait period =>
    { s.write id ⟨start + wait, period⟩ with log := .armed id start wait period :: s.log }.call t
      .signal
  | .signal => { s with sem := s.sem + 1 }.call t .idle
  | .killTimer id =>
    if id < 0 ∨ id > s.mtimers.length then s.call t .idle
    else { s.write id.toNat ⟨0, 0⟩ with log := .killed id.toNat :: s.log }.call t .idle
  | .setMaxTimers max =>
    { s with mtimers := resize s.mtimers max, log := .resized max :: s.log }.call t .idle

/-- The loop or a call goes on, a call begins, or time passes. -/
inductive Act (τ : Type)
  | loop
  | call (t : τ)
  | begins (t : τ) (k : Call)
  | tick (n : ℕ)

/-- A thread at rest calls one of the four functions. -/
def Call.isRequest : Call → Bool
  | .startTimer _ _ | .arm _ _ | .killTimer _ | .setMaxTimers _ => true
  | _ => false

def step (s : State τ) : Act τ → State τ
  | .loop => loopMove s
  | .call t => callMove s t
  | .begins t k => if s.calls t = .idle ∧ k.isRequest = true then s.call t k else s
  | .tick n => { s with clock := s.clock + n }

/-- The state after the steps `acts` of a timer object with `max_timers` timers. -/
abbrev after (max_timers : ℕ) (acts : List (Act τ)) : State τ :=
  Library.Run.run step (create max_timers) acts

/-- The loop waits for its semaphore, and neither has it been signalled nor is it time. -/
def State.blocked (s : State τ) : Bool :=
  match s.place with
  | .wait wake => s.sem = 0 && s.clock < wake
  | _ => false

omit [DecidableEq τ] in
theorem State.blocked_iff (s : State τ) :
    s.blocked = true ↔ ∃ wake, s.place = .wait wake ∧ s.sem = 0 ∧ s.clock < wake := by
  unfold State.blocked
  cases s.place <;> simp

end OrocosRtt.Os.Timer
