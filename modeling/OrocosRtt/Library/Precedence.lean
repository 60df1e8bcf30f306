import Mathlib.Data.List.Basic

/-! Infix operators with a precedence and an associativity, the trees that respect them, and
when two tables of precedences group the same expression alike. -/
namespace Library.Precedence

/-- A higher level binds tighter; all operators of a level associate the same way. -/
structure Table (O : Type*) where
  level : O → ℕ
  rightAssoc : ℕ → Bool

/-- Expressions, with the parentheses that were written. -/
inductive Tree (O U A : Type*) where
  | value (a : A)
  | group (t : Tree O U A)
  | unary (u : U) (t : Tree O U A)
  | binary (o : O) (l r : Tree O U A)
  deriving DecidableEq, Repr

variable {O U A : Type*}

namespace Table

variable (P Q : Table O)

/-- The right operand of `p` goes on over an operator `q` that comes next. -/
def Pulls (p q : O) : Prop :=
  P.level p < P.level q ∨ (P.level p = P.level q ∧ P.rightAssoc (P.level p) = true)

instance (p q : O) : Decidable (P.Pulls p q) :=
  inferInstanceAs (Decidable (_ ∨ (_ ∧ _)))

/-- What follows an operand of `x` and of `y` in turn follows an operand of `x`. -/
theorem not_pulls_trans {x y z : O} (hxy : ¬ P.Pulls x y) (hyz : ¬ P.Pulls y z) :
    ¬ P.Pulls x z := by
  unfold Pulls at *
  rintro (h | ⟨h, hr⟩)
  · omega
  · by_cases he : P.level x = P.level y
    · exact hxy (.inr ⟨he, hr⟩)
    · omega

/-- The operators after `p`, up to the first that neither table puts in its right operand,
are put there by both. -/
def Agree (p : O) : List O → Prop
  | [] => True
  | q :: qs => (P.Pulls p q ↔ Q.Pulls p q) ∧ (P.Pulls p q → Agree p qs)

/-- Each operator of the sequence takes the same operators with it in both tables. -/
def Alike : List O → Prop
  | [] => True
  | p :: ps => Agree P Q p ps ∧ Alike ps

instance decidableAgree (p : O) : ∀ qs, Decidable (Agree P Q p qs)
  | [] => .isTrue trivial
  | q :: qs =>
    have := decidableAgree p qs
    inferInstanceAs (Decidable ((P.Pulls p q ↔ Q.Pulls p q) ∧ (P.Pulls p q → Agree P Q p qs)))

instance decidableAlike : ∀ ps, Decidable (Alike P Q ps)
  | [] => .isTrue trivial
  | p :: ps =>
    have := decidableAlike ps
    inferInstanceAs (Decidable (Agree P Q p ps ∧ Alike P Q ps))

variable {P Q}

theorem Agree.of_append {p : O} {xs ys : List O} (h : Agree P Q p (xs ++ ys)) :
    Agree P Q p xs := by
  induction xs with
  | nil => exact trivial
  | cons x xs ih => exact ⟨h.1, fun hx => ih (h.2 hx)⟩

/-- Nothing is left to compare where both tables end the right operand. -/
theorem Agree.append {p o : O} {xs ys : List O} (h : Agree P Q p xs) (hp : ¬ P.Pulls p o)
    (hq : ¬ Q.Pulls p o) : Agree P Q p (xs ++ o :: ys) := by
  induction xs with
  | nil => exact ⟨⟨fun h => absurd h hp, fun h => absurd h hq⟩, fun h => absurd h hp⟩
  | cons x xs ih => exact ⟨h.1, fun hx => ih (h.2 hx)⟩

theorem agree_of_pulls {p : O} {qs : List O} (hp : ∀ q ∈ qs, P.Pulls p q)
    (hq : ∀ q ∈ qs, Q.Pulls p q) : Agree P Q p qs := by
  induction qs with
  | nil => exact trivial
  | cons q qs ih =>
    constructor
    · exact ⟨fun _ => hq q List.mem_cons_self, fun _ => hp q List.mem_cons_self⟩
    · intro _
      exact ih (fun x hx => hp x (List.mem_cons_of_mem _ hx))
        (fun x hx => hq x (List.mem_cons_of_mem _ hx))

theorem Agree.pulls {p : O} {qs : List O} (h : Agree P Q p qs)
    (hp : ∀ q ∈ qs, P.Pulls p q) : ∀ q ∈ qs, Q.Pulls p q := by
  induction qs with
  | nil => intro q hq; cases hq
  | cons x qs ih =>
    have hx := hp x List.mem_cons_self
    intro q hq
    rcases List.mem_cons.mp hq with rfl | hq
    · exact h.1.mp hx
    · exact ih (h.2 hx) (fun y hy => hp y (List.mem_cons_of_mem _ hy)) q hq

theorem Alike.of_append_right {xs ys : List O} (h : Alike P Q (xs ++ ys)) : Alike P Q ys := by
  induction xs with
  | nil => exact h
  | cons x xs ih => exact ih h.2

theorem Alike.of_append_left {xs ys : List O} (h : Alike P Q (xs ++ ys)) : Alike P Q xs := by
  induction xs with
  | nil => exact trivial
  | cons x xs ih => exact ⟨h.1.of_append, ih h.2⟩

theorem Alike.append {o : O} {xs ys : List O} (hxs : Alike P Q xs) (hys : Alike P Q (o :: ys))
    (hp : ∀ x ∈ xs, ¬ P.Pulls x o) (hq : ∀ x ∈ xs, ¬ Q.Pulls x o) :
    Alike P Q (xs ++ o :: ys) := by
  induction xs with
  | nil => exact hys
  | cons x xs ih =>
    constructor
    · exact hxs.1.append (hp x List.mem_cons_self) (hq x List.mem_cons_self)
    · exact ih hxs.2 (fun y hy => hp y (List.mem_cons_of_mem _ hy))
        (fun y hy => hq y (List.mem_cons_of_mem _ hy))

/-- What no operand before `o` extends over in one table it does not extend over in the
other. -/
theorem Alike.not_pulls {o : O} {xs ys : List O} (h : Alike P Q (xs ++ o :: ys))
    (hp : ∀ x ∈ xs, ¬ P.Pulls x o) : ∀ x ∈ xs, ¬ Q.Pulls x o := by
  induction xs with
  | nil => intro x hx; cases hx
  | cons x xs ih =>
    have hrest := ih h.2 (fun y hy => hp y (List.mem_cons_of_mem _ hy))
    have hfirst : ¬ Q.Pulls x o := by
      -- an operator that ends the right operand of `x` before `o` also keeps it from `o`
      have hscan : ∀ zs, (∀ z ∈ zs, ¬ Q.Pulls z o) → Agree P Q x (zs ++ o :: ys) →
          ¬ Q.Pulls x o := by
        intro zs
        induction zs with
        | nil => intro _ hagree hq; exact hp x List.mem_cons_self (hagree.1.mpr hq)
        | cons z zs ihz =>
          intro hz hagree
          by_cases hpull : P.Pulls x z
          · exact ihz (fun y hy => hz y (List.mem_cons_of_mem _ hy)) (hagree.2 hpull)
          · exact not_pulls_trans Q (fun hq => hpull (hagree.1.mpr hq))
              (hz z List.mem_cons_self)
      exact hscan xs hrest h.1
    intro y hy
    rcases List.mem_cons.mp hy with rfl | hy
    · exact hfirst
    · exact hrest y hy

end Table

namespace Tree

/-- The operators outside the written parentheses. -/
def operators : Tree O U A → List O
  | value _ => []
  | group _ => []
  | unary _ t => t.operators
  | binary o l r => l.operators ++ o :: r.operators

/-- The operators within each pair of parentheses. -/
def inner : Tree O U A → List (List O)
  | value _ => []
  | group t => t.inner ++ [t.operators]
  | unary _ t => t.inner
  | binary _ l r => l.inner ++ r.inner

/-- The tree is the one that the table gives to its expression: unary operators bind
tighter than all others, and the right operand of each operator ends where the table ends
it. -/
def Respects (P : Table O) : Tree O U A → Prop
  | value _ => True
  | group t => t.Respects P
  | unary _ t => t.operators = [] ∧ t.Respects P
  | binary o l r => (l.Respects P ∧ r.Respects P) ∧
      (∀ p ∈ l.operators, ¬ P.Pulls p o) ∧ (∀ q ∈ r.operators, P.Pulls o q)

instance decidableRespects (P : Table O) : ∀ t : Tree O U A, Decidable (t.Respects P)
  | value _ => .isTrue trivial
  | group t => decidableRespects P t
  | unary _ t =>
    have := decidableRespects P t
    have : Decidable (t.operators = []) := decidable_of_iff _ List.isEmpty_iff
    inferInstanceAs (Decidable (t.operators = [] ∧ t.Respects P))
  | binary o l r =>
    have := decidableRespects P l
    have := decidableRespects P r
    inferInstanceAs (Decidable ((l.Respects P ∧ r.Respects P) ∧
      (∀ p ∈ l.operators, ¬ P.Pulls p o) ∧ (∀ q ∈ r.operators, P.Pulls o q)))

variable {P Q : Table O}

theorem Respects.alike {t : Tree O U A} (hp : t.Respects P) (hq : t.Respects Q) :
    Table.Alike P Q t.operators := by
  induction t with
  | value a => exact trivial
  | group t ih => exact trivial
  | unary u t ih => exact ih hp.2 hq.2
  | binary o l r ihl ihr =>
    apply Table.Alike.append (ihl hp.1.1 hq.1.1) _ hp.2.1 hq.2.1
    exact ⟨Table.agree_of_pulls hp.2.2 hq.2.2, ihr hp.1.2 hq.1.2⟩

theorem Respects.alike_inner {t : Tree O U A} (hp : t.Respects P) (hq : t.Respects Q) :
    ∀ ops ∈ t.inner, Table.Alike P Q ops := by
  induction t with
  | value a => intro ops h; cases h
  | group t ih =>
    intro ops h
    rcases List.mem_append.mp h with h | h
    · exact ih hp hq ops h
    · rw [List.mem_singleton.mp h]
      exact Respects.alike (t := t) hp hq
  | unary u t ih => exact ih hp.2 hq.2
  | binary o l r ihl ihr =>
    intro ops h
    rcases List.mem_append.mp h with h | h
    · exact ihl hp.1.1 hq.1.1 ops h
    · exact ihr hp.1.2 hq.1.2 ops h

theorem Respects.of_alike {t : Tree O U A} (hp : t.Respects P)
    (h : Table.Alike P Q t.operators) (hi : ∀ ops ∈ t.inner, Table.Alike P Q ops) :
    t.Respects Q := by
  induction t with
  | value a => exact trivial
  | group t ih =>
    apply ih hp
    · exact hi _ (List.mem_append_right _ (List.mem_singleton_self _))
    · exact fun ops ho => hi ops (List.mem_append_left _ ho)
  | unary u t ih => exact ⟨hp.1, ih hp.2 h hi⟩
  | binary o l r ihl ihr =>
    have hright : Table.Alike P Q (o :: r.operators) := h.of_append_right
    constructor
    · constructor
      · exact ihl hp.1.1 h.of_append_left fun ops ho => hi ops (List.mem_append_left _ ho)
      · exact ihr hp.1.2 hright.2 fun ops ho => hi ops (List.mem_append_right _ ho)
    · constructor
      · exact h.not_pulls hp.2.1
      · exact hright.1.pulls hp.2.2

/-- A tree that respects one table respects another exactly when the two agree about the
sequences of operators of its expression. -/
theorem Respects.iff_alike {t : Tree O U A} (hp : t.Respects P) :
    t.Respects Q ↔ ∀ ops ∈ t.operators :: t.inner, Table.Alike P Q ops := by
  constructor
  · intro hq ops ho
    rcases List.mem_cons.mp ho with rfl | ho
    · exact hp.alike hq
    · exact hp.alike_inner hq ops ho
  · intro h
    exact hp.of_alike (h _ List.mem_cons_self) fun ops ho => h ops (List.mem_cons_of_mem _ ho)

end Tree
end Library.Precedence
