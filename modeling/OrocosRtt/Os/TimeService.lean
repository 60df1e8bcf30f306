import OrocosRtt.Library.Run
import Mathlib.Algebra.Order.Ring.Int

/-! The time service: a clock that can be stopped and put forward, with two ways to read it. -/
namespace OrocosRtt.Os

open Library.Run

/-- A `long long`. -/
def longLong (n : ℤ) : ℤ := n.bmod 18446744073709551616

theorem longLong_range (n : ℤ) :
    -9223372036854775808 ≤ longLong n ∧ longLong n < 9223372036854775808 :=
  ⟨Int.le_bmod (by decide), Int.bmod_lt (by decide)⟩

theorem longLong_of_range {n : ℤ} (h : -9223372036854775808 ≤ n) (h' : n < 9223372036854775808) :
    longLong n = n := by
  apply Int.bmod_eq_of_le_mul_two <;> omega

/-- A sum that is too large comes out negative. -/
theorem longLong_wrap {n : ℤ} (h : 9223372036854775808 ≤ n) (h' : n < 27670116110564327424) :
    longLong n = n - 18446744073709551616 := by
  have hsub : longLong n = longLong (n - 18446744073709551616) :=
    (Int.sub_bmod_right n 18446744073709551616).symm
  rw [hsub]
  apply longLong_of_range <;> omega

/-- The service, and what the system clock reads. -/
structure TimeService where
  offset : ℤ
  use_clock : Bool
  now : ℕ
  offset_range : -9223372036854775808 ≤ offset ∧ offset < 9223372036854775808
  now_range : now < 9223372036854775808

/-- Where the clock is advanced to is what it reads next, if that is later. -/
inductive TimeService.Action where
  | enableSystemClock (yes_no : Bool)
  | secondsChange (delta : Fin 9223372036854775808)
  | advance (time : Fin 9223372036854775808)

namespace TimeService

/-- The constructor, at any time. -/
def create (now : Fin 9223372036854775808) : TimeService where
  offset := 0
  use_clock := true
  now := now
  offset_range := by decide
  now_range := now.isLt

def setOffset (n : ℤ) (s : TimeService) : TimeService :=
  { s with offset := longLong n, offset_range := longLong_range n }

/-- Ticks are nanoseconds. -/
def ticks2nsecs (ticks : ℤ) : ℤ := ticks

def getTicks (s : TimeService) : ℤ :=
  if s.use_clock then longLong (s.now + s.offset) else 0 + s.offset

/-- The sum is what the conditional operator tests. -/
def getNSecs (s : TimeService) : ℤ :=
  if longLong (ticks2nsecs s.offset + s.use_clock.toNat) ≠ 0 then s.now else 0

def enableSystemClock (yes_no : Bool) (s : TimeService) : TimeService :=
  if yes_no = s.use_clock then s
  else
    let s := { s with use_clock := yes_no }
    if s.use_clock then s.setOffset (s.offset - s.now) else s.setOffset (s.offset + s.now)

/-- `delta` is a number of nanoseconds already. -/
def secondsChange (delta : Fin 9223372036854775808) (s : TimeService) : TimeService :=
  s.setOffset (s.offset + delta.val)

/-- The system clock does not go back. -/
def advance (time : Fin 9223372036854775808) (s : TimeService) : TimeService :=
  { s with now := max s.now time, now_range := max_lt s.now_range time.isLt }

def step (s : TimeService) (a : Action) : TimeService :=
  match a with
  | .enableSystemClock b => s.enableSystemClock b
  | .secondsChange d => s.secondsChange d
  | .advance t => s.advance t

/-- What a step adds to the time. -/
def gain (s : TimeService) (a : Action) : ℤ :=
  match a with
  | .enableSystemClock _ => 0
  | .secondsChange d => d.val
  | .advance t => if s.use_clock then (max s.now t.val : ℤ) - s.now else 0

theorem gain_range (s : TimeService) (a : Action) :
    0 ≤ s.gain a ∧ s.gain a < 9223372036854775808 := by
  have := s.now_range
  cases a with
  | enableSystemClock b => simp [gain]
  | secondsChange d =>
    have := d.isLt
    simp only [gain]
    omega
  | advance t =>
    have := t.isLt
    simp only [gain]
    split <;> omega

theorem getTicks_range (s : TimeService) :
    -9223372036854775808 ≤ s.getTicks ∧ s.getTicks < 9223372036854775808 := by
  unfold getTicks
  split
  · exact longLong_range _
  · simpa using s.offset_range

/-- The step lemma: the time after a step is the time before, and what the step adds. -/
theorem getTicks_step (s : TimeService) (a : Action) :
    (s.step a).getTicks = longLong (s.getTicks + s.gain a) := by
  have hoff : longLong s.offset = s.offset := longLong_of_range s.offset_range.1 s.offset_range.2
  cases a with
  | enableSystemClock b =>
    cases b <;> cases hc : s.use_clock
    · simp [step, enableSystemClock, getTicks, gain, hc, hoff]
    · simp [step, enableSystemClock, setOffset, getTicks, gain, hc, longLong, add_comm]
    · simp [step, enableSystemClock, setOffset, getTicks, gain, hc, longLong]
    · simp [step, enableSystemClock, getTicks, gain, hc, longLong]
  | secondsChange d =>
    cases hc : s.use_clock
    · simp [step, secondsChange, setOffset, getTicks, gain, hc, longLong]
    · simp [step, secondsChange, setOffset, getTicks, gain, hc, longLong, add_assoc]
  | advance t =>
    cases hc : s.use_clock
    · simp [step, advance, getTicks, gain, hc, hoff]
    · simp only [step, advance, getTicks, gain, hc, if_true, longLong, Int.bmod_add_bmod]
      congr 1
      omega

/-- The time is not put back by a step if and only if it still fits. -/
theorem getTicks_le_iff (s : TimeService) (a : Action) :
    s.getTicks ≤ (s.step a).getTicks ↔ s.getTicks + s.gain a < 9223372036854775808 := by
  have hg := s.gain_range a
  have ht := s.getTicks_range
  have hr := longLong_range (s.getTicks + s.gain a)
  rw [getTicks_step]
  constructor
  · intro h
    by_contra hlt
    rw [longLong_wrap (not_lt.mp hlt) (by omega)] at h
    omega
  · intro h
    rw [longLong_of_range (by omega) h]
    omega

/-- While the system clock is disabled, only `secondsChange` changes the time. -/
theorem getTicks_constant (s : TimeService) (a : Action) (hc : s.use_clock = false)
    (ha : ∀ d, a ≠ .secondsChange d) : (s.step a).getTicks = s.getTicks := by
  have ht := s.getTicks_range
  have hgain : s.gain a = 0 := by
    cases a with
    | enableSystemClock b => rfl
    | secondsChange d => exact absurd rfl (ha d)
    | advance t => simp [gain, hc]
  rw [getTicks_step, hgain, add_zero, longLong_of_range ht.1 ht.2]

/-- Both ways to read the time give the same: there is no offset, or it happens not to matter. -/
def Unshifted (s : TimeService) : Prop :=
  s.offset = 0 ∨ if s.use_clock then s.offset = -1 ∧ s.now = 1 else s.offset = s.now

theorem getNSecs_eq_iff (s : TimeService) :
    s.getNSecs = ticks2nsecs s.getTicks ↔ s.Unshifted := by
  have ho := s.offset_range
  have hn := s.now_range
  have hsum : longLong (s.now + s.offset) = s.now ↔ s.offset = 0 := by
    constructor
    · intro h
      by_contra hne
      by_cases hfit : s.now + s.offset < 9223372036854775808
      · rw [longLong_of_range (by omega) hfit] at h
        omega
      · rw [longLong_wrap (not_lt.mp hfit) (by omega)] at h
        omega
    · intro h
      rw [h, add_zero]
      exact longLong_of_range (by omega) (by omega)
  cases hc : s.use_clock with
  | false =>
    simp only [getNSecs, getTicks, ticks2nsecs, Unshifted, hc, Bool.toNat_false, Nat.cast_zero,
      add_zero, zero_add, Bool.false_eq_true, if_false, longLong_of_range ho.1 ho.2]
    split <;> omega
  | true =>
    have htest : longLong (s.offset + 1) = 0 ↔ s.offset = -1 := by
      constructor
      · intro h
        by_cases hmax : s.offset = 9223372036854775807
        · rw [hmax] at h
          exact absurd h (by decide)
        · rw [longLong_of_range (by omega) (by omega)] at h
          omega
      · intro h
        rw [h]
        rfl
    simp only [getNSecs, getTicks, ticks2nsecs, Unshifted, hc, Bool.toNat_true, Nat.cast_one,
      if_true]
    split
    · next h =>
      rw [eq_comm, hsum]
      have := mt htest.mpr h
      omega
    · next h =>
      have hoff := htest.mp (not_not.mp h)
      rw [hoff]
      rw [longLong_of_range (by omega) (by omega)]
      omega

/-- What is expected of a step: the time does not go back, it stands still while the system clock is
disabled and it is not changed, and afterwards ticks and nanoseconds agree. -/
def Sound (s : TimeService) (a : Action) : Prop :=
  s.getTicks ≤ (s.step a).getTicks ∧
    (s.use_clock = false → (∀ d, a ≠ .secondsChange d) → (s.step a).getTicks = s.getTicks) ∧
      (s.step a).getNSecs = ticks2nsecs (s.step a).getTicks

/-- The time fits into its type, and the offset does not come to matter. -/
def Safe (s : TimeService) (a : Action) : Prop :=
  s.getTicks + s.gain a < 9223372036854775808 ∧ (s.step a).Unshifted

theorem sound_iff (s : TimeService) (a : Action) : s.Sound a ↔ s.Safe a := by
  rw [Sound, Safe, getTicks_le_iff, getNSecs_eq_iff]
  exact and_congr_right fun _ => and_iff_right (s.getTicks_constant a)

/-- A run is sound if and only if all its steps are safe; at the start both times agree. -/
theorem time_sound_iff (now : Fin 9223372036854775808) (actions : List Action) :
    ((create now).getNSecs = ticks2nsecs (create now).getTicks ∧
      Along step Sound (create now) actions) ↔ Along step Safe (create now) actions := by
  have hstart : (create now).getNSecs = ticks2nsecs (create now).getTicks :=
    (getNSecs_eq_iff _).mpr (Or.inl rfl)
  rw [and_iff_right hstart]
  exact along_congr (I := fun _ => True) (fun _ _ _ => trivial) (fun s a _ => sound_iff s a) trivial

/-- The time is put forward by one nanosecond: the nanoseconds stay those of the system clock. -/
theorem secondsChange_ignored :
    ¬ Along step Sound (create 5) [.secondsChange 1] := by
  intro h
  have hn : ((create 5).step (.secondsChange 1)).getNSecs =
      ((create 5).step (.secondsChange 1)).getTicks := h.1.2.2
  exact absurd hn (by decide)

end TimeService

end OrocosRtt.Os
