import Mathlib.Data.List.Basic

/-! Computations that may return early: `ok` goes on with a state, `error` leaves the
function with its result. `Ends` is the rule set for their two ways out. -/
namespace Library.Early

universe u v

variable {ε : Type v} {α β : Type u}

/-- `x` goes on only in states that satisfy `P` and returns only results that satisfy `Q`. -/
def Ends (x : Except ε α) (P : α → Prop) (Q : ε → Prop) : Prop :=
  match x with
  | .ok a => P a
  | .error e => Q e

@[simp] theorem ends_ok (a : α) (P : α → Prop) (Q : ε → Prop) :
    Ends (.ok a : Except ε α) P Q ↔ P a := Iff.rfl

@[simp] theorem ends_error (e : ε) (P : α → Prop) (Q : ε → Prop) :
    Ends (.error e : Except ε α) P Q ↔ Q e := Iff.rfl

@[simp] theorem ends_pure (a : α) (P : α → Prop) (Q : ε → Prop) :
    Ends (pure a : Except ε α) P Q ↔ P a := Iff.rfl

theorem ok_bind (a : α) (f : α → Except ε β) : ((.ok a : Except ε α) >>= f) = f a := rfl

theorem error_bind (e : ε) (f : α → Except ε β) :
    ((.error e : Except ε α) >>= f) = .error e := rfl

/-- Sequencing: the second part starts wherever the first may go on. -/
theorem Ends.bind {x : Except ε α} {f : α → Except ε β} {P : α → Prop} {P' : β → Prop}
    {Q : ε → Prop} (hx : Ends x P Q) (hf : ∀ a, P a → Ends (f a) P' Q) :
    Ends (x >>= f) P' Q := by
  cases x with
  | error e => exact hx
  | ok a => exact hf a hx

theorem Ends.imp {x : Except ε α} {P P' : α → Prop} {Q Q' : ε → Prop} (h : Ends x P Q)
    (hP : ∀ a, P a → P' a) (hQ : ∀ e, Q e → Q' e) : Ends x P' Q' := by
  cases x with
  | error e => exact hQ e h
  | ok a => exact hP a h

theorem Ends.and {x : Except ε α} {P P' : α → Prop} {Q Q' : ε → Prop} (h : Ends x P Q)
    (h' : Ends x P' Q') : Ends x (fun a => P a ∧ P' a) (fun e => Q e ∧ Q' e) := by
  cases x with
  | error e => exact ⟨h, h'⟩
  | ok a => exact ⟨h, h'⟩

/-- The result of a computation whose every way out is a result. -/
def result : Except ε ε → ε
  | .ok e => e
  | .error e => e

theorem Ends.result {x : Except ε ε} {Q : ε → Prop} (h : Ends x Q Q) : Q (result x) := by
  cases x with
  | error e => exact h
  | ok e => exact h

end Library.Early
