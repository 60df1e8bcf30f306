import Mathlib.Data.List.Basic

/-! Logs, newest entry first, and properties that hold of every entry together with what
was logged before it. -/
namespace Library.Log

variable {E : Type*}

/-- Every entry of the log satisfies `ok` with respect to the log before it. -/
def Throughout (ok : E → List E → Prop) : List E → Prop
  | [] => True
  | e :: l => ok e l ∧ Throughout ok l

@[simp] theorem throughout_nil (ok : E → List E → Prop) : Throughout ok [] := trivial

@[simp] theorem throughout_cons (ok : E → List E → Prop) (e : E) (l : List E) :
    Throughout ok (e :: l) ↔ ok e l ∧ Throughout ok l := Iff.rfl

/-- What holds throughout a log held throughout it earlier. -/
theorem Throughout.of_append {ok : E → List E → Prop} {l' : List E} :
    ∀ {l : List E}, Throughout ok (l ++ l') → Throughout ok l'
  | [], h => h
  | _ :: _, h => Throughout.of_append h.2

theorem Throughout.of_suffix {ok : E → List E → Prop} {l l' : List E} (h : Throughout ok l)
    (hs : l' <:+ l) : Throughout ok l' := by
  obtain ⟨l₁, rfl⟩ := hs
  exact h.of_append

theorem Throughout.imp {ok ok' : E → List E → Prop} (hi : ∀ e l, ok e l → ok' e l) :
    ∀ {l : List E}, Throughout ok l → Throughout ok' l
  | [], h => h
  | e :: l, h => ⟨hi e l h.1, Throughout.imp hi h.2⟩

/-- Logging entries that satisfy `ok` wherever they stand. -/
theorem Throughout.append {ok : E → List E → Prop} {l' : List E} (h : Throughout ok l') :
    ∀ {l : List E}, (∀ e ∈ l, ∀ r, ok e r) → Throughout ok (l ++ l')
  | [], _ => h
  | e :: _, hl => ⟨hl e List.mem_cons_self _,
      Throughout.append h fun e he => hl e (List.mem_cons_of_mem _ he)⟩

theorem Throughout.mem {ok : E → List E → Prop} {e : E} :
    ∀ {l : List E}, Throughout ok l → e ∈ l → ∃ l', e :: l' <:+ l ∧ ok e l'
  | [], _, he => by cases he
  | a :: l, h, he => by
    cases he with
    | head => exact ⟨l, List.suffix_rfl, h.1⟩
    | tail _ he =>
      obtain ⟨l', hs, ho⟩ := Throughout.mem h.2 he
      exact ⟨l', hs.trans (List.suffix_cons a l), ho⟩

instance decidableThroughout (ok : E → List E → Prop) [∀ e l, Decidable (ok e l)] :
    ∀ l, Decidable (Throughout ok l)
  | [] => .isTrue trivial
  | e :: l =>
    have := decidableThroughout ok l
    inferInstanceAs (Decidable (ok e l ∧ Throughout ok l))

/-- An `a` was logged and no `b` after it. -/
def Open (a b : E) : List E → Prop
  | [] => False
  | e :: l => e = a ∨ (e ≠ b ∧ Open a b l)

theorem Open.cons {a b e : E} {l : List E} (h : Open a b l) (he : e ≠ b) :
    Open a b (e :: l) := .inr ⟨he, h⟩

/-- Each `b` comes after an `a`, with no other `b` in between. -/
def Paired (a b : E) (l : List E) : Prop := Throughout (fun e l => e = b → Open a b l) l

theorem Paired.cons {a b e : E} {l : List E} (h : Paired a b l) (he : e ≠ b) :
    Paired a b (e :: l) := ⟨fun hb => absurd hb he, h⟩

theorem Paired.close {a b : E} {l : List E} (h : Paired a b l) (ho : Open a b l) :
    Paired a b (b :: l) := ⟨fun _ => ho, h⟩

instance decidableOpen [DecidableEq E] (a b : E) : ∀ l, Decidable (Open a b l)
  | [] => .isFalse id
  | e :: l =>
    have := decidableOpen a b l
    inferInstanceAs (Decidable (e = a ∨ (e ≠ b ∧ Open a b l)))

instance [DecidableEq E] (a b : E) (l : List E) : Decidable (Paired a b l) :=
  inferInstanceAs (Decidable (Throughout (fun e l => e = b → Open a b l) l))

end Library.Log
