import OrocosRtt.Expression.Grammar

/-! How the rules of the expression grammar group operators, against the precedence of C. -/
namespace OrocosRtt.Scripting
open Library.Precedence
set_option linter.unusedSectionVars false

/-- The precedence of the operators in C. -/
def cPrecedence : Table Op where
  level
    | .assign => 0
    | .or => 1
    | .and => 2
    | .eq | .ne => 3
    | .lt | .le | .gt | .ge => 4
    | .add | .sub => 5
    | .mul | .div | .mod => 6
  rightAssoc n := n == 0

/-- The depth of the rule for each operator, counted from `assignexp`. -/
def rulePrecedence : Table Op where
  level
    | .assign => 0
    | .and => 1
    | .or => 2
    | .ne => 3
    | .eq => 4
    | .ge => 5
    | .gt => 6
    | .le => 7
    | .lt => 8
    | .sub | .add => 9
    | .mod => 10
    | .div | .mul => 11
  rightAssoc n := n == 0

namespace ExpressionParser

variable {A : Type} [DecidableEq A]

def sign : UnaryOp → Token A
  | .plus => .op .add
  | .minus => .op .sub
  | .not => .bang

/-- The expression that a data source was read from. -/
def flatten : DataSource A → List (Token A)
  | .value a => [.value a]
  | .group t => .lparen :: flatten t ++ [.rparen]
  | .unary u t => sign u :: flatten t
  | .binary o l r => flatten l ++ .op o :: flatten r

/-- Whether an operand begins here, with at most `k` of the signs `+ - !` in that order. -/
def starts : ℕ → List (Token A) → Bool
  | _, .value _ :: _ => true
  | _, .lparen :: ts => starts 3 ts
  | k, .bang :: ts => decide (1 ≤ k) && starts 0 ts
  | k, .op .sub :: ts => decide (2 ≤ k) && starts 1 ts
  | k, .op .add :: ts => decide (3 ≤ k) && starts 2 ts
  | _, _ => false

/-- Whether the rule for `=` goes on here. -/
def Continues (ts : List (Token A)) : Prop :=
  ∃ rest, ts = .op .assign :: rest ∧ rest.head? ≠ some (.op .assign) ∧
    rest.head? ≠ some (.op .eq) ∧ starts 3 rest = true

/-- The data source of a rule of depth `l`. -/
structure Fits (l : ℕ) (t : DataSource A) : Prop where
  respects : t.Respects rulePrecedence
  deep : ∀ o ∈ t.operators, l ≤ rulePrecedence.level o

theorem Fits.mono {l m : ℕ} {t : DataSource A} (h : Fits m t) (hlm : l ≤ m) : Fits l t :=
  ⟨h.respects, fun o ho => Nat.le_trans hlm (h.deep o ho)⟩

theorem level_le (o : Op) : rulePrecedence.level o ≤ 11 := by
  cases o <;> decide

theorem Fits.operators {t : DataSource A} (h : Fits 12 t) : t.operators = [] := by
  rw [List.eq_nil_iff_forall_not_mem]
  intro o ho
  have := h.deep o ho
  have := level_le o
  omega

theorem Fits.unary {t : DataSource A} (h : Fits 12 t) (u : UnaryOp) :
    Fits 12 (.unary u t : DataSource A) := by
  constructor
  · exact ⟨h.operators, h.respects⟩
  · exact h.deep

theorem Fits.binary {o : Op} {l r : DataSource A} (hl : Fits (rulePrecedence.level o) l)
    (hr : Fits (rulePrecedence.level o + 1) r) (ho : rulePrecedence.level o ≠ 0) :
    Fits (rulePrecedence.level o) (.binary o l r : DataSource A) := by
  constructor
  · refine ⟨⟨hl.respects, hr.respects⟩, ?_, fun q hq => .inl (hr.deep q hq)⟩
    intro p hp hpull
    have hdeep := hl.deep p hp
    rcases hpull with h | ⟨h, hassoc⟩
    · omega
    · rw [h] at hassoc
      exact ho (by simpa [rulePrecedence] using hassoc)
  · intro x hx
    rcases List.mem_append.mp hx with hx | hx
    · exact hl.deep x hx
    · rcases List.mem_cons.mp hx with rfl | hx
      · exact Nat.le_refl _
      · exact Nat.le_of_succ_le (hr.deep x hx)

theorem Fits.assign {l r : DataSource A} (hl : Fits 1 l) (hr : Fits 0 r) :
    Fits 0 (.binary .assign l r : DataSource A) := by
  constructor
  · refine ⟨⟨hl.respects, hr.respects⟩, ?_, ?_⟩
    · intro p hp hpull
      have hdeep := hl.deep p hp
      have hzero : rulePrecedence.level .assign = 0 := rfl
      rcases hpull with h | ⟨h, -⟩ <;> omega
    · intro q hq
      by_cases hz : rulePrecedence.level q = 0
      · exact .inr ⟨hz.symm, rfl⟩
      · exact .inl (Nat.pos_of_ne_zero hz)
  · exact fun x hx => Nat.zero_le _

/-- What a rule of depth `l` makes of a state; with more than `n` tokens it may be short of
fuel. -/
def Reads (k l n : ℕ) (s : ParseState A) : Outcome A → Prop
  | .hit s' => starts k s.input = true ∧ ∃ t, s'.parsestack = t :: s.parsestack ∧
      s.input = flatten t ++ s'.input ∧ Fits l t
  | .miss s' => starts k s.input = false ∧ s'.parsestack = s.parsestack
  | .error f => s.input.length < n → f ≠ .fuel

def Spec (k l n : ℕ) (p : Rule A) : Prop := ∀ s, Reads k l n s (p s)

variable {opreg : OperatorRepository A} {k l n : ℕ} {p next : Rule A}

theorem lit_hit (x : Token A) (st : List (DataSource A)) (ts : List (Token A)) :
    lit x ⟨st, x :: ts⟩ = .hit ⟨st, ts⟩ := by
  simp [lit]

theorem lit_miss {x : Token A} {s : ParseState A} (h : ∀ ts, s.input ≠ x :: ts) :
    lit x s = .miss s := by
  unfold lit
  split
  · rfl
  · next y ys he =>
    rw [if_neg]
    rintro rfl
    exact h ys he

/-- A sign, then what the next rule reads; or what the next rule reads. -/
theorem unaryExp_spec {u : UnaryOp} (h : Spec k 12 n next)
    (hsign : ∀ ts : List (Token A), starts (k + 1) (sign u :: ts) = starts k ts)
    (hnext : ∀ ts : List (Token A), starts k (sign u :: ts) = false)
    (hother : ∀ ts : List (Token A), (∀ r, ts ≠ sign u :: r) → starts (k + 1) ts = starts k ts) :
    Spec (k + 1) 12 n (unaryExp opreg (sign u) u next) := by
  rintro ⟨st, ts⟩
  unfold unaryExp Rule.orElse Rule.andThen
  dsimp only
  by_cases hs : ∃ r, ts = sign u :: r
  · obtain ⟨r, rfl⟩ := hs
    rw [lit_hit]
    dsimp only [Rule.action]
    have hr := h ⟨st, r⟩
    cases ho : next ⟨st, r⟩ with
    | hit s' =>
      rw [ho] at hr
      obtain ⟨hstart, t, hst, hin, hfit⟩ := hr
      dsimp only
      unfold seenUnary
      rw [hst]
      dsimp only
      cases hty : opreg.applyUnary u t with
      | true =>
        simp only [if_true]
        exact ⟨by rw [hsign]; exact hstart, .unary u t, rfl,
          by simpa [flatten] using hin, hfit.unary u⟩
      | false => exact fun _ => by simp
    | miss s' =>
      rw [ho] at hr
      obtain ⟨hstart, hst⟩ := hr
      dsimp only
      have hst : s'.parsestack = st := hst
      rw [hst]
      have hagain := h ⟨st, sign u :: r⟩
      cases hm : next ⟨st, sign u :: r⟩ with
      | hit s'' =>
        rw [hm] at hagain
        have hno := hnext r
        have hyes : starts k (sign u :: r) = true := hagain.1
        rw [hno] at hyes
        cases hyes
      | miss s'' =>
        rw [hm] at hagain
        exact ⟨by rw [hsign]; exact hstart, hagain.2⟩
      | error f =>
        rw [hm] at hagain
        exact hagain
    | error f =>
      rw [ho] at hr
      exact fun hlen => hr (by simp at hlen ⊢; omega)
  · have hno : ∀ r, ts ≠ sign u :: r := fun r hr => hs ⟨r, hr⟩
    rw [lit_miss hno]
    dsimp only
    have hr := h ⟨st, ts⟩
    cases ho : next ⟨st, ts⟩ with
    | hit s' =>
      rw [ho] at hr
      exact ⟨by rw [hother ts hno]; exact hr.1, hr.2⟩
    | miss s' =>
      rw [ho] at hr
      exact ⟨by rw [hother ts hno]; exact hr.1, hr.2⟩
    | error f =>
      rw [ho] at hr
      exact hr

theorem atomicExpression_spec (h : Spec 3 0 n p) : Spec 0 12 (n + 1) (atomicExpression p) := by
  rintro ⟨st, ts⟩
  unfold atomicExpression Rule.orElse groupExp Rule.action Rule.andThen
  dsimp only
  by_cases hs : ∃ r, ts = .lparen :: r
  · obtain ⟨r, rfl⟩ := hs
    rw [lit_hit]
    have hr := h ⟨st, r⟩
    dsimp only
    cases ho : p ⟨st, r⟩ with
    | hit s' =>
      rw [ho] at hr
      obtain ⟨hstart, t, hst, hin, hfit⟩ := hr
      dsimp only [Rule.expectClose]
      by_cases hclose : ∃ r', s'.input = .rparen :: r'
      · obtain ⟨r', hr'⟩ := hclose
        have hs' : s' = ⟨t :: st, .rparen :: r'⟩ := by
          cases s'
          simp_all
        subst hs'
        rw [lit_hit]
        refine ⟨hstart, .group t, rfl, ?_, ⟨hfit.respects, fun o ho => by cases ho⟩⟩
        have hin : r = flatten t ++ .rparen :: r' := hin
        simp [flatten, hin]
      · rw [lit_miss fun r' hr' => hclose ⟨r', hr'⟩]
        exact fun _ => by simp
    | miss s' =>
      rw [ho] at hr
      exact ⟨hr.1, hr.2⟩
    | error f =>
      rw [ho] at hr
      exact fun hlen => hr (by simp at hlen ⊢; omega)
  · rw [lit_miss fun r hr => hs ⟨r, hr⟩]
    dsimp only
    unfold valueExpression
    dsimp only
    cases ts with
    | nil => exact ⟨rfl, rfl⟩
    | cons x ts =>
      cases x with
      | value a => exact ⟨rfl, .value a, rfl, rfl, trivial, fun o ho => by cases ho⟩
      | op o => cases o <;> exact ⟨rfl, rfl⟩
      | bang => exact ⟨rfl, rfl⟩
      | lparen => exact absurd ⟨ts, rfl⟩ hs
      | rparen => exact ⟨rfl, rfl⟩

theorem unaryPlusExp_spec (h : Spec 3 0 n p) : Spec 3 12 (n + 1) (unaryPlusExp opreg p) := by
  have hnot : Spec 1 12 (n + 1) (unaryNotExp opreg p) := by
    apply unaryExp_spec (u := .not) (atomicExpression_spec h)
    · intro ts; rfl
    · intro ts; rfl
    · intro ts hts
      cases ts with
      | nil => rfl
      | cons x ts =>
        cases x with
        | op o => cases o <;> rfl
        | bang => exact absurd rfl (hts ts)
        | value a => rfl
        | lparen => rfl
        | rparen => rfl
  have hminus : Spec 2 12 (n + 1) (unaryMinusExp opreg p) := by
    apply unaryExp_spec (u := .minus) hnot
    · intro ts; rfl
    · intro ts; rfl
    · intro ts hts
      cases ts with
      | nil => rfl
      | cons x ts =>
        cases x with
        | op o =>
          cases o with
          | sub => exact absurd rfl (hts ts)
          | _ => rfl
        | _ => rfl
  apply unaryExp_spec (u := .plus) hminus
  · intro ts; rfl
  · intro ts; rfl
  · intro ts hts
    cases ts with
    | nil => rfl
    | cons x ts =>
      cases x with
      | op o =>
        cases o with
        | add => exact absurd rfl (hts ts)
        | _ => rfl
      | _ => rfl

/-- What one more operator and operand make of the operand `t` on the stack. -/
def Extends (l n : ℕ) (t : DataSource A) (st : List (DataSource A)) (ts : List (Token A)) :
    Outcome A → Prop
  | .hit s' => ∃ o r, rulePrecedence.level o = l ∧ s'.parsestack = .binary o t r :: st ∧
      ts = .op o :: (flatten r ++ s'.input) ∧ Fits (l + 1) r
  | .miss s' => s'.parsestack = t :: st
  | .error f => ts.length < n → f ≠ .fuel

theorem operand_extends (h : Spec 3 (l + 1) n next) {o : Op}
    (ho : rulePrecedence.level o = l) (t : DataSource A) (st : List (DataSource A))
    (ts : List (Token A)) : Extends l n t st ts (operand opreg next o ⟨t :: st, ts⟩) := by
  unfold operand Rule.andThen
  by_cases hs : ∃ r, ts = .op o :: r
  · obtain ⟨r, rfl⟩ := hs
    rw [lit_hit]
    dsimp only [Rule.action]
    have hr := h ⟨t :: st, r⟩
    cases hn : next ⟨t :: st, r⟩ with
    | hit s' =>
      rw [hn] at hr
      obtain ⟨-, u, hst, hin, hfit⟩ := hr
      dsimp only
      unfold seenBinary
      rw [hst]
      dsimp only
      cases hty : opreg.applyBinary o t u with
      | true =>
        simp only [if_true]
        have hin : r = flatten u ++ s'.input := hin
        exact ⟨o, u, ho, rfl, by rw [hin], hfit⟩
      | false => exact fun _ => by simp
    | miss s' =>
      rw [hn] at hr
      exact hr.2
    | error f =>
      rw [hn] at hr
      exact fun hlen => hr (by simp at hlen ⊢; omega)
  · rw [lit_miss fun r hr => hs ⟨r, hr⟩]
    exact rfl

theorem orElse_extends {q : Rule A} {t : DataSource A} {st : List (DataSource A)}
    {ts : List (Token A)} (hp : Extends l n t st ts (p ⟨t :: st, ts⟩))
    (hq : Extends l n t st ts (q ⟨t :: st, ts⟩)) :
    Extends l n t st ts (p.orElse q ⟨t :: st, ts⟩) := by
  unfold Rule.orElse
  cases ho : p ⟨t :: st, ts⟩ with
  | hit s' => rw [ho] at hp; exact hp
  | miss s' =>
    rw [ho] at hp
    have hst : s'.parsestack = t :: st := hp
    dsimp only
    rw [hst]
    exact hq
  | error f => rw [ho] at hp; exact hp

/-- The loop of a rule: each round takes what has been read as the left operand. -/
theorem starN_reads (hl : l ≠ 0)
    (h : ∀ t st ts, Extends l n t st ts (p ⟨t :: st, ts⟩)) (m : ℕ) :
    ∀ (t : DataSource A) (st : List (DataSource A)) (ts : List (Token A)), Fits l t →
      match p.starN m ⟨t :: st, ts⟩ with
      | .hit s' => ∃ t', s'.parsestack = t' :: st ∧
          flatten t ++ ts = flatten t' ++ s'.input ∧ Fits l t'
      | .miss _ => False
      | .error f => ts.length < n → f ≠ .fuel := by
  induction m with
  | zero => intro t st ts ht; exact ⟨t, rfl, rfl, ht⟩
  | succ m ih =>
    intro t st ts ht
    have hp := h t st ts
    unfold Rule.starN
    cases ho : p ⟨t :: st, ts⟩ with
    | hit s' =>
      rw [ho] at hp
      obtain ⟨o, r, rfl, hst, hin, hfit⟩ := hp
      have hs' : s' = ⟨.binary o t r :: st, s'.input⟩ := by rw [← hst]
      have hnext := ih (.binary o t r) st s'.input (ht.binary hfit hl)
      dsimp only
      rw [hs']
      cases hm : p.starN m ⟨.binary o t r :: st, s'.input⟩ with
      | hit s'' =>
        rw [hm] at hnext
        obtain ⟨t', hst', hin', hfit'⟩ := hnext
        exact ⟨t', hst', by rw [← hin', hin]; simp [flatten], hfit'⟩
      | miss s'' => rw [hm] at hnext; exact hnext
      | error f =>
        rw [hm] at hnext
        exact fun hlen => hnext (by rw [hin] at hlen; simp at hlen; omega)
    | miss s' =>
      rw [ho] at hp
      have hst : s'.parsestack = t :: st := hp
      exact ⟨t, hst, rfl, ht⟩
    | error f => rw [ho] at hp; exact hp

theorem loop_spec (hl : l ≠ 0) (hnext : Spec 3 (l + 1) n next)
    (h : ∀ t st ts, Extends l n t st ts (p ⟨t :: st, ts⟩)) :
    Spec 3 l n (next.andThen p.star) := by
  intro s
  unfold Rule.andThen
  have hn := hnext s
  cases ho : next s with
  | hit s' =>
    rw [ho] at hn
    obtain ⟨hstart, t, hst, hin, hfit⟩ := hn
    have hs' : s' = ⟨t :: s.parsestack, s'.input⟩ := by rw [← hst]
    have hloop := starN_reads hl h s'.input.length t s.parsestack s'.input
      (hfit.mono (Nat.le_succ l))
    dsimp only [Rule.star]
    rw [← hs'] at hloop
    cases hm : p.starN s'.input.length s' with
    | hit s'' =>
      rw [hm] at hloop
      obtain ⟨t', hst', hin', hfit'⟩ := hloop
      exact ⟨hstart, t', hst', by rw [← hin']; exact hin, hfit'⟩
    | miss s'' => rw [hm] at hloop; exact hloop.elim
    | error f =>
      rw [hm] at hloop
      exact fun hlen => hloop (by rw [hin] at hlen; simp at hlen; omega)
  | miss s' => rw [ho] at hn; exact hn
  | error f => rw [ho] at hn; exact hn

theorem binaryExp_spec {o : Op} (ho : rulePrecedence.level o = l) (hl : l ≠ 0)
    (h : Spec 3 (l + 1) n next) : Spec 3 l n (binaryExp opreg o next) :=
  loop_spec hl h (operand_extends h ho)

theorem binaryExp2_spec {o o' : Op} (ho : rulePrecedence.level o = l)
    (ho' : rulePrecedence.level o' = l) (hl : l ≠ 0) (h : Spec 3 (l + 1) n next) :
    Spec 3 l n (binaryExp2 opreg o o' next) :=
  loop_spec hl h fun t st ts =>
    orElse_extends (operand_extends h ho t st ts) (operand_extends h ho' t st ts)

theorem andExp_spec (h : Spec 3 0 n p) : Spec 3 1 (n + 1) (andExp opreg p) := by
  have hmul : Spec 3 11 (n + 1) (divOrMul opreg p) :=
    binaryExp2_spec rfl rfl (by simp) (unaryPlusExp_spec h)
  have hmod : Spec 3 10 (n + 1) (modExp opreg p) := binaryExp_spec rfl (by simp) hmul
  have hplus : Spec 3 9 (n + 1) (plusOrMin opreg p) := binaryExp2_spec rfl rfl (by simp) hmod
  have hlt : Spec 3 8 (n + 1) (smallerExp opreg p) := binaryExp_spec rfl (by simp) hplus
  have hle : Spec 3 7 (n + 1) (smallerEqExp opreg p) := binaryExp_spec rfl (by simp) hlt
  have hgt : Spec 3 6 (n + 1) (greaterExp opreg p) := binaryExp_spec rfl (by simp) hle
  have hge : Spec 3 5 (n + 1) (greaterEqExp opreg p) := binaryExp_spec rfl (by simp) hgt
  have heq : Spec 3 4 (n + 1) (equalExp opreg p) := binaryExp_spec rfl (by simp) hge
  have hne : Spec 3 3 (n + 1) (notEqualExp opreg p) := binaryExp_spec rfl (by simp) heq
  have hor : Spec 3 2 (n + 1) (orExp opreg p) := binaryExp_spec rfl (by simp) hne
  exact binaryExp_spec rfl (by simp) hor

/-- One more assignment: it is there where `Continues` says so, and what it reads ends
where there is none. -/
theorem assign_extends (h : Spec 3 0 n p)
    (hends : ∀ s s', p s = .hit s' → ¬ Continues s'.input) (t : DataSource A)
    (st : List (DataSource A)) (ts : List (Token A)) :
    match (((lit (.op .assign)).andThen notAssign).andThen p).action
        (seenBinary opreg .assign) ⟨t :: st, ts⟩ with
    | .hit s' => Continues ts ∧ ¬ Continues s'.input ∧ ∃ r,
        s'.parsestack = .binary .assign t r :: st ∧
          ts = .op .assign :: (flatten r ++ s'.input) ∧ Fits 0 r
    | .miss s' => s'.parsestack = t :: st ∧ ¬ Continues ts
    | .error f => ts.length < n + 1 → f ≠ .fuel := by
  unfold Rule.action Rule.andThen
  by_cases hs : ∃ r, ts = .op .assign :: r
  · obtain ⟨ts, rfl⟩ := hs
    rw [lit_hit]
    dsimp only
    have hrest : ∀ {r : List (Token A)}, .op .assign :: ts = .op .assign :: r → r = ts :=
      fun hr => (List.cons.inj hr).2.symm
    by_cases hno : ts.head? = some (.op .assign) ∨ ts.head? = some (.op .eq) ∨ ts = []
    · have hmiss : notAssign ⟨t :: st, ts⟩ = .miss ⟨t :: st, ts⟩ := by
        rcases hno with hno | hno | rfl
        · obtain ⟨r, rfl⟩ := List.head?_eq_some_iff.mp hno
          rfl
        · obtain ⟨r, rfl⟩ := List.head?_eq_some_iff.mp hno
          rfl
        · rfl
      rw [hmiss]
      constructor
      · rfl
      · rintro ⟨r, hr, ha, he, hstart⟩
        rw [hrest hr] at ha he hstart
        rcases hno with hno | hno | rfl
        · exact ha hno
        · exact he hno
        · cases hstart
    · have hhit : notAssign ⟨t :: st, ts⟩ = .hit ⟨t :: st, ts⟩ := by
        unfold notAssign
        dsimp only
        split
        · next r => exact absurd (.inl rfl) hno
        · next r => exact absurd (.inr (.inl rfl)) hno
        · exact absurd (.inr (.inr rfl)) hno
        · rfl
      rw [hhit]
      dsimp only
      have hr := h ⟨t :: st, ts⟩
      cases ho : p ⟨t :: st, ts⟩ with
      | hit s' =>
        rw [ho] at hr
        obtain ⟨hstart, r, hst, hin, hfit⟩ := hr
        dsimp only
        unfold seenBinary
        rw [hst]
        dsimp only
        cases hty : opreg.applyBinary .assign t r with
        | true =>
          simp only [if_true]
          have hin : ts = flatten r ++ s'.input := hin
          exact ⟨⟨ts, rfl, fun hc => hno (.inl hc), fun hc => hno (.inr (.inl hc)), hstart⟩,
            hends _ _ ho, r, rfl, by rw [hin], hfit⟩
        | false => exact fun _ => by simp
      | miss s' =>
        rw [ho] at hr
        constructor
        · exact hr.2
        · rintro ⟨r, hr', -, -, hstart⟩
          rw [hrest hr'] at hstart
          have : starts 3 ts = false := hr.1
          rw [this] at hstart
          cases hstart
      | error f =>
        rw [ho] at hr
        exact fun hlen => hr (by simp at hlen ⊢; omega)
  · rw [lit_miss fun r hr => hs ⟨r, hr⟩]
    constructor
    · rfl
    · rintro ⟨r, hr, -⟩
      exact hs ⟨r, hr⟩

theorem assignExp_spec (h : Spec 3 0 n p)
    (hends : ∀ s s', p s = .hit s' → ¬ Continues s'.input) :
    Spec 3 0 (n + 1) (assignExp opreg p) ∧
      ∀ s s', assignExp opreg p s = .hit s' → ¬ Continues s'.input := by
  generalize hb : ((((lit (.op .assign)).andThen notAssign).andThen p).action
    (seenBinary opreg .assign) : Rule A) = body
  have hbody : ∀ (t : DataSource A) st ts,
      match body ⟨t :: st, ts⟩ with
      | .hit s' => Continues ts ∧ ¬ Continues s'.input ∧ ∃ r,
          s'.parsestack = .binary .assign t r :: st ∧
            ts = .op .assign :: (flatten r ++ s'.input) ∧ Fits 0 r
      | .miss s' => s'.parsestack = t :: st ∧ ¬ Continues ts
      | .error f => ts.length < n + 1 → f ≠ .fuel := by
    rw [← hb]
    exact assign_extends h hends
  -- the loop makes one round at most, since the round reads all assignments that follow
  have hstop : ∀ m (t : DataSource A) st ts, ¬ Continues ts →
      match body.starN m ⟨t :: st, ts⟩ with
      | .hit s' => s' = ⟨t :: st, ts⟩
      | .miss _ => False
      | .error f => ts.length < n + 1 → f ≠ .fuel := by
    intro m t st ts hno
    cases m with
    | zero => exact rfl
    | succ m =>
      have hround := hbody t st ts
      unfold Rule.starN
      cases ho : body ⟨t :: st, ts⟩ with
      | hit s' => rw [ho] at hround; exact absurd hround.1 hno
      | miss s' =>
        rw [ho] at hround
        obtain ⟨hst, -⟩ := hround
        dsimp only
        rw [hst]
      | error f => rw [ho] at hround; exact hround
  have hloop : ∀ (t : DataSource A) st ts, Fits 1 t →
      match body.star ⟨t :: st, ts⟩ with
      | .hit s' => ¬ Continues s'.input ∧ ∃ t', s'.parsestack = t' :: st ∧
          flatten t ++ ts = flatten t' ++ s'.input ∧ Fits 0 t'
      | .miss _ => False
      | .error f => ts.length < n + 1 → f ≠ .fuel := by
    intro t st ts ht
    have ht0 : Fits 0 t := ht.mono (Nat.zero_le 1)
    unfold Rule.star
    dsimp only
    cases ts with
    | nil =>
      constructor
      · rintro ⟨r, hr, -⟩
        cases hr
      · exact ⟨t, rfl, rfl, ht0⟩
    | cons x ts =>
      have hround := hbody t st (x :: ts)
      rw [List.length_cons]
      unfold Rule.starN
      cases ho : body ⟨t :: st, x :: ts⟩ with
      | hit s' =>
        rw [ho] at hround
        obtain ⟨-, hno, r, hst, hin, hfit⟩ := hround
        have hs' : s' = ⟨.binary .assign t r :: st, s'.input⟩ := by rw [← hst]
        have hend := hstop ts.length (.binary .assign t r) st s'.input hno
        dsimp only
        rw [hs']
        cases hm : body.starN ts.length ⟨.binary .assign t r :: st, s'.input⟩ with
        | hit s'' =>
          rw [hm] at hend
          dsimp only at hend ⊢
          rw [hend]
          exact ⟨hno, .binary .assign t r, rfl, by rw [hin]; simp [flatten], ht.assign hfit⟩
        | miss s'' => rw [hm] at hend; exact hend
        | error f =>
          rw [hm] at hend
          have hshort := congrArg List.length hin
          simp only [List.length_cons, List.length_append] at hshort
          exact fun hlen => hend (by omega)
      | miss s' =>
        rw [ho] at hround
        obtain ⟨hst, hno⟩ := hround
        dsimp only
        exact ⟨hno, t, hst, rfl, ht0⟩
      | error f => rw [ho] at hround; exact hround
  have hand : Spec 3 1 (n + 1) (andExp opreg p) := andExp_spec h
  have hboth : ∀ s, Reads 3 0 (n + 1) s (assignExp opreg p s) ∧
      ∀ s', assignExp opreg p s = .hit s' → ¬ Continues s'.input := by
    intro s
    have hfirst := hand s
    unfold assignExp
    rw [hb]
    unfold Rule.andThen
    cases ho : andExp opreg p s with
    | hit s' =>
      rw [ho] at hfirst
      obtain ⟨hstart, t, hst, hin, hfit⟩ := hfirst
      have hs' : s' = ⟨t :: s.parsestack, s'.input⟩ := by rw [← hst]
      have hrun := hloop t s.parsestack s'.input hfit
      dsimp only
      rw [← hs'] at hrun
      cases hm : body.star s' with
      | hit s'' =>
        rw [hm] at hrun
        obtain ⟨hno, t', hst', hin', hfit'⟩ := hrun
        constructor
        · exact ⟨hstart, t', hst', by rw [← hin']; exact hin, hfit'⟩
        · rintro s₁ ⟨⟩
          exact hno
      | miss s'' => rw [hm] at hrun; exact hrun.elim
      | error f =>
        rw [hm] at hrun
        constructor
        · exact fun hlen => hrun (by rw [hin] at hlen; simp at hlen; omega)
        · rintro s₁ ⟨⟩
    | miss s' =>
      rw [ho] at hfirst
      exact ⟨hfirst, by rintro s₁ ⟨⟩⟩
    | error f =>
      rw [ho] at hfirst
      exact ⟨hfirst, by rintro s₁ ⟨⟩⟩
  exact ⟨fun s => (hboth s).1, fun s => (hboth s).2⟩

/-- `expression` groups as the depth of its rules says, and with enough fuel does not fail
for want of it. -/
theorem expression_spec (opreg : OperatorRepository A) (n : ℕ) :
    Spec 3 0 n (expression opreg n) ∧
      ∀ s s', expression opreg n s = .hit s' → ¬ Continues s'.input := by
  induction n with
  | zero =>
    constructor
    · intro s hlen
      omega
    · rintro s s' ⟨⟩
  | succ n ih => exact assignExp_spec ih.1 ih.2

theorem expression_fuel (opreg : OperatorRepository A) (s : ParseState A) :
    expression opreg (s.input.length + 1) s ≠ .error .fuel := by
  intro h
  have hspec := (expression_spec opreg (s.input.length + 1)).1 s
  rw [h] at hspec
  exact hspec (Nat.lt_succ_self _) rfl

theorem parse_fits {opreg : OperatorRepository A} {ts rest : List (Token A)}
    {t : DataSource A} (h : parse opreg ts = some (t, rest)) :
    ts = flatten t ++ rest ∧ t.Respects rulePrecedence := by
  have hspec := (expression_spec opreg (ts.length + 1)).1 ⟨[], ts⟩
  unfold parse at h
  cases ho : expression opreg (ts.length + 1) ⟨[], ts⟩ with
  | hit s' =>
    rw [ho] at h hspec
    obtain ⟨-, t', hst, hin, hfit⟩ := hspec
    have hs' : s' = ⟨[t'], s'.input⟩ := by rw [← hst]
    rw [hs'] at h
    obtain ⟨rfl, rfl⟩ : t' = t ∧ s'.input = rest := by simpa using h
    exact ⟨hin, hfit.respects⟩
  | miss s' => rw [ho] at h; cases h
  | error f => rw [ho] at h; cases h

/-- The sequences of operators between the operands of an expression: one for each pair of
parentheses, as they close, and last the one outside of all. `opened` holds those of the
parentheses still open; a sign that does not follow an operand is a unary operator. -/
def sequences : Bool → List (List Op) → List (Token A) → List (List Op)
  | _, opened, [] => opened
  | _, opened, .value _ :: ts => sequences true opened ts
  | _, opened, .bang :: ts => sequences false opened ts
  | _, opened, .lparen :: ts => sequences false ([] :: opened) ts
  | _, [], .rparen :: ts => sequences true [] ts
  | _, ops :: opened, .rparen :: ts => ops :: sequences true opened ts
  | true, ops :: opened, .op o :: ts => sequences false ((ops ++ [o]) :: opened) ts
  | true, [], .op _ :: ts => sequences false [] ts
  | false, opened, .op _ :: ts => sequences false opened ts

theorem sequences_flatten (t : DataSource A) :
    ∀ (ops : List Op) (opened : List (List Op)) (ts : List (Token A)),
      sequences false (ops :: opened) (flatten t ++ ts) =
        t.inner ++ sequences true ((ops ++ t.operators) :: opened) ts := by
  induction t with
  | value a => intro ops opened ts; simp [flatten, sequences, Tree.inner, Tree.operators]
  | group t ih =>
    intro ops opened ts
    simp [flatten, sequences, Tree.inner, Tree.operators, ih]
  | unary u t ih =>
    intro ops opened ts
    cases u <;> simp [flatten, sign, sequences, Tree.inner, Tree.operators, ih]
  | binary o l r ihl ihr =>
    intro ops opened ts
    simp [flatten, sequences, Tree.inner, Tree.operators, ihl, ihr]

/-- In no sequence of operators does the depth of the rules put an operator in the right
operand of another where the precedence of C does not, or the other way round. -/
def Alike (ts : List (Token A)) : Prop :=
  ∀ ops ∈ sequences false [[]] ts, rulePrecedence.Alike cPrecedence ops

instance (ts : List (Token A)) : Decidable (Alike ts) :=
  inferInstanceAs (Decidable (∀ ops ∈ sequences false [[]] ts, _))

theorem alike_flatten (t : DataSource A) :
    Alike (flatten t) ↔ ∀ ops ∈ t.operators :: t.inner, rulePrecedence.Alike cPrecedence ops := by
  have h := sequences_flatten t [] [] []
  rw [List.append_nil] at h
  unfold Alike
  rw [h]
  simp [sequences, or_imp, forall_and, and_comm]

/-- The operators on which the two disagree, as they follow each other. -/
theorem disagree_iff (p q : Op) : ¬ (rulePrecedence.Pulls p q ↔ cPrecedence.Pulls p q) ↔
    (p, q) ∈ [(.and, .or), (.or, .and), (.ne, .eq), (.ge, .gt), (.ge, .le), (.ge, .lt),
      (.gt, .le), (.gt, .lt), (.le, .lt), (.mod, .div), (.mod, .mul)] := by
  cases p <;> cases q <;> decide

/-- The data source of an expression has the grouping of C exactly when its sequences of
operators are ones about which the rules and C agree. -/
theorem parse_groups_iff (opreg : OperatorRepository A) (used rest : List (Token A))
    (t : DataSource A) (h : parse opreg (used ++ rest) = some (t, rest)) :
    (flatten t = used ∧ t.Respects cPrecedence) ↔ Alike used := by
  obtain ⟨hts, hrule⟩ := parse_fits h
  have hused : flatten t = used := (List.append_cancel_right hts).symm
  rw [← hused, alike_flatten t, ← hrule.iff_alike]
  exact ⟨fun hc => hc.2, fun hc => ⟨rfl, hc⟩⟩

/-- `a = b + c * -d && e` -/
theorem parse_groups_iff_mixed :
    let t : DataSource Nat := .binary .assign (.value 0) (.binary .and
      (.binary .add (.value 1) (.binary .mul (.value 2) (.unary .minus (.value 3)))) (.value 4))
    flatten t = [.value 0, .op .assign, .value 1, .op .add, .value 2, .op .mul, .op .sub,
      .value 3, .op .and, .value 4] ∧ t.Respects cPrecedence :=
  (parse_groups_iff ⟨fun _ _ => true, fun _ _ _ => true⟩ _ [] _ (by decide)).mpr (by decide)

/-- `a && b || c` is grouped as `a && (b || c)`, `a >= b < c` as `a >= (b < c)` and
`a % b * c` as `a % (b * c)`. -/
theorem parse_groups_otherwise :
    let read (o o' : Op) := parse (A := Nat) ⟨fun _ _ => true, fun _ _ _ => true⟩
      [.value 0, .op o, .value 1, .op o', .value 2]
    let right (o o' : Op) : DataSource Nat :=
      .binary o (.value 0) (.binary o' (.value 1) (.value 2))
    (read .and .or = some (right .and .or, []) ∧ ¬ (right .and .or).Respects cPrecedence) ∧
      (read .ge .lt = some (right .ge .lt, []) ∧ ¬ (right .ge .lt).Respects cPrecedence) ∧
      (read .mod .mul = some (right .mod .mul, []) ∧
        ¬ (right .mod .mul).Respects cPrecedence) := by
  decide

end ExpressionParser
end OrocosRtt.Scripting
