import OrocosRtt.Expression.Grammar
import Mathlib.Data.BitVec

/-! The operators of the real-time typekit: which function object is applied to operands of given
types, and what it computes with booleans and integers. -/
namespace OrocosRtt.Scripting.Operators
open Library.Precedence

inductive Typ where
  | bool | int | uint | double | float | char | string | flowStatus | sendStatus
  deriving DecidableEq, Repr

/-- The values that expressions of booleans and integers have. -/
inductive Val where
  | bool (b : Bool)
  | int (v : BitVec 32)
  | uint (v : BitVec 32)
  deriving DecidableEq, Repr

def Val.type : Val → Typ
  | .bool _ => .bool
  | .int _ => .int
  | .uint _ => .uint

/-- The function objects, each for operands of several types. `divides3` is the template, which is
specialized for `int` only. -/
inductive Function where
  | logicalNot | negate | identity
  | logicalAnd | logicalOr | equalTo | notEqualTo | less | lessEqual | greater | greaterEqual
  | multiplies | divides | divides3 | modulus | plus | minus | concatenation
  deriving DecidableEq, Repr

structure UnaryOperator where
  mop : UnaryOp
  fun' : Function
  arg : Typ
  deriving DecidableEq, Repr

structure BinaryOperator where
  mop : Op
  fun' : Function
  arg1 : Typ
  arg2 : Typ
  result : Typ
  deriving DecidableEq, Repr

/-! ### What is registered -/

def unaryops : List UnaryOperator :=
  [⟨.not, .logicalNot, .bool⟩, ⟨.minus, .negate, .int⟩, ⟨.plus, .identity, .int⟩,
    ⟨.plus, .identity, .uint⟩, ⟨.minus, .negate, .double⟩, ⟨.plus, .identity, .double⟩,
    ⟨.minus, .negate, .float⟩, ⟨.plus, .identity, .float⟩]

/-- An operator whose operands and result are of one type. -/
def inner (t : Typ) (op : Op) (f : Function) : BinaryOperator := ⟨op, f, t, t, t⟩

def comparison (t : Typ) (op : Op) (f : Function) : BinaryOperator := ⟨op, f, t, t, .bool⟩

def comparisons (t : Typ) : List BinaryOperator :=
  [comparison t .lt .less, comparison t .le .lessEqual, comparison t .gt .greater,
    comparison t .ge .greaterEqual, comparison t .eq .equalTo, comparison t .ne .notEqualTo]

/-- The same comparisons, in the order in which the other types have them. -/
def statusComparisons (t : Typ) : List BinaryOperator :=
  [comparison t .eq .equalTo, comparison t .ne .notEqualTo, comparison t .lt .less,
    comparison t .gt .greater, comparison t .le .lessEqual, comparison t .ge .greaterEqual]

def integerOps (t : Typ) : List BinaryOperator :=
  [inner t .mul .multiplies, inner t .div .divides3, inner t .mod .modulus, inner t .add .plus,
    inner t .sub .minus] ++ comparisons t

def floatOps (t : Typ) : List BinaryOperator :=
  [inner t .mul .multiplies, inner t .div .divides, inner t .add .plus, inner t .sub .minus] ++
    comparisons t

def stringOps : List BinaryOperator :=
  [inner .string .add .plus] ++
    ([.int, .uint, .double, .float, .bool, .char].map
      fun t => ⟨.add, .concatenation, .string, t, .string⟩) ++
    statusComparisons .string

/-- The operators of `loadOperators`, in that order. -/
def binaryops : List BinaryOperator :=
  [inner .bool .and .logicalAnd, inner .bool .or .logicalOr, comparison .bool .eq .equalTo,
    comparison .bool .ne .notEqualTo] ++
  integerOps .int ++ integerOps .uint ++ floatOps .double ++ floatOps .float ++ stringOps ++
  statusComparisons .char ++ statusComparisons .flowStatus ++ statusComparisons .sendStatus

/-- The conversions of `loadConstructors`, from the second type to the first. -/
def constructors : List (Typ × Typ) :=
  [(.double, .float), (.double, .int), (.float, .int), (.float, .double), (.int, .float),
    (.int, .double), (.int, .uint), (.int, .bool), (.uint, .int), (.string, .int),
    (.bool, .flowStatus), (.bool, .sendStatus), (.bool, .int)]

/-- `TypeInfo::convert` gives a data source of the type. -/
def converts (target source : Typ) : Bool :=
  source = target || (target, source) ∈ constructors

/-! ### Data sources -/

inductive Source where
  | operand (v : Val)
  /-- The call of a constructor. -/
  | converted (type : Typ) (arg : Source)
  /-- `UnaryDataSource` -/
  | unary (fun' : Function) (type : Typ) (mdsa : Source)
  /-- `BinaryDataSource` -/
  | binary (fun' : Function) (type : Typ) (mdsa mdsb : Source)

def Source.type : Source → Typ
  | .operand v => v.type
  | .converted t _ => t
  | .unary _ t _ => t
  | .binary _ t _ _ => t

/-- `TypeInfo::convert`, where it gives a data source of the type. -/
def Source.convert (t : Typ) (s : Source) : Source := if s.type = t then s else .converted t s

def UnaryOperator.build (o : UnaryOperator) (op : UnaryOp) (a : Source) : Option Source :=
  if op ≠ o.mop then none
  else if a.type ≠ o.arg then none
  else some (.unary o.fun' o.arg a)

def BinaryOperator.build (o : BinaryOperator) (op : Op) (a b : Source) : Option Source :=
  if op ≠ o.mop ∨ a.type ≠ o.arg1 then none
  else if converts o.arg2 b.type then some (.binary o.fun' o.result a (b.convert o.arg2))
  else none

def BinaryOperator.isExactMatch (o : BinaryOperator) (op : Op) (a b : Source) : Bool :=
  op = o.mop && a.type = o.arg1 && b.type = o.arg2

def applyUnary (op : UnaryOp) (a : Source) : Option Source :=
  unaryops.findSome? fun o => o.build op a

/-- An exact match is looked for first. -/
def applyBinary (op : Op) (a b : Source) : Option Source :=
  match binaryops.find? fun o => o.isExactMatch op a b with
  | some o => o.build op a b
  | none => binaryops.findSome? fun o => o.build op a b

/-- What the parser makes of a tree of operators: `seen_unary` and `seen_binary` refuse those that
are not registered. -/
def build : Tree Op UnaryOp Val → Option Source
  | .value v => some (.operand v)
  | .group t => build t
  | .unary u t => (build t).bind (applyUnary u)
  | .binary o l r => (build l).bind fun a => (build r).bind fun b => applyBinary o a b

/-! ### Evaluation -/

/-- The hardware stops the program. -/
def Faults (a b : BitVec 32) : Prop := b = 0 ∨ a = BitVec.intMin 32 ∧ b = -1

instance (a b : BitVec 32) : Decidable (Faults a b) :=
  inferInstanceAs (Decidable (_ ∨ _ ∧ _))

/-- The quotient of the signed division instruction. -/
def idivQuot (a b : BitVec 32) : Option Val :=
  if Faults a b then none else some (.int (a.sdiv b))

def idivRem (a b : BitVec 32) : Option Val :=
  if Faults a b then none else some (.int (a.srem b))

/-- The quotient of the unsigned division instruction. -/
def divQuot (a b : BitVec 32) : Option Val :=
  if b = 0 then none else some (.uint (a.udiv b))

def divRem (a b : BitVec 32) : Option Val :=
  if b = 0 then none else some (.uint (a.umod b))

/-- A function object of one argument. -/
def Function.apply1 : Function → Val → Option Val
  | .logicalNot, .bool b => some (.bool !b)
  | .negate, .int a => some (.int (-a))
  | .identity, .int a => some (.int a)
  | .identity, .uint a => some (.uint a)
  | _, _ => none

/-- A function object of two arguments, which are of its type. -/
def Function.apply2 : Function → Val → Val → Option Val
  | .logicalAnd, .bool a, .bool b => some (.bool (a && b))
  | .logicalOr, .bool a, .bool b => some (.bool (a || b))
  | .equalTo, a, b => some (.bool (a = b))
  | .notEqualTo, a, b => some (.bool (a ≠ b))
  | .less, .int a, .int b => some (.bool (a.slt b))
  | .less, .uint a, .uint b => some (.bool (a.ult b))
  | .lessEqual, .int a, .int b => some (.bool (a.sle b))
  | .lessEqual, .uint a, .uint b => some (.bool (a.ule b))
  | .greater, .int a, .int b => some (.bool (b.slt a))
  | .greater, .uint a, .uint b => some (.bool (b.ult a))
  | .greaterEqual, .int a, .int b => some (.bool (b.sle a))
  | .greaterEqual, .uint a, .uint b => some (.bool (b.ule a))
  | .multiplies, .int a, .int b => some (.int (a * b))
  | .multiplies, .uint a, .uint b => some (.uint (a * b))
  -- the specialization
  | .divides3, .int a, .int b => if b = 0 then some (.int 0) else idivQuot a b
  | .divides3, .uint a, .uint b => divQuot a b
  | .modulus, .int a, .int b => idivRem a b
  | .modulus, .uint a, .uint b => divRem a b
  | .plus, .int a, .int b => some (.int (a + b))
  | .plus, .uint a, .uint b => some (.uint (a + b))
  | .minus, .int a, .int b => some (.int (a - b))
  | .minus, .uint a, .uint b => some (.uint (a - b))
  | _, _, _ => none

/-- The constructors between booleans and integers. -/
def Val.construct : Typ → Val → Option Val
  | .int, .uint u => some (.int u)
  | .int, .bool b => some (.int (if b then 1 else 0))
  | .uint, .int i => some (.uint i)
  | .bool, .int i => some (.bool (i ≠ 0))
  | _, _ => none

/-- `get`; no value where the program is stopped. -/
def Source.get : Source → Option Val
  | .operand v => some v
  | .converted t s => s.get.bind (Val.construct t)
  | .unary f _ s => s.get.bind f.apply1
  | .binary f _ a b => a.get.bind fun x => b.get.bind fun y => f.apply2 x y

/-! ### What an expression means -/

/-- The second operand as a value of the type of the first. -/
def Val.convert (t : Typ) (v : Val) : Option Val := if v.type = t then some v else v.construct t

def meaning1 : UnaryOp → Val → Option Val
  | .not, .bool b => some (.bool !b)
  | .minus, .int a => some (.int (-a))
  | .plus, .int a => some (.int a)
  | .plus, .uint a => some (.uint a)
  | _, _ => none

/-- Two values of one type; a quotient or remainder by zero is zero. -/
def meaning2 : Op → Val → Val → Option Val
  | .and, .bool a, .bool b => some (.bool (a && b))
  | .or, .bool a, .bool b => some (.bool (a || b))
  | .eq, a, b => some (.bool (a = b))
  | .ne, a, b => some (.bool (a ≠ b))
  | .lt, .int a, .int b => some (.bool (a.slt b))
  | .lt, .uint a, .uint b => some (.bool (a.ult b))
  | .le, .int a, .int b => some (.bool (a.sle b))
  | .le, .uint a, .uint b => some (.bool (a.ule b))
  | .gt, .int a, .int b => some (.bool (b.slt a))
  | .gt, .uint a, .uint b => some (.bool (b.ult a))
  | .ge, .int a, .int b => some (.bool (b.sle a))
  | .ge, .uint a, .uint b => some (.bool (b.ule a))
  | .mul, .int a, .int b => some (.int (a * b))
  | .mul, .uint a, .uint b => some (.uint (a * b))
  | .div, .int a, .int b => some (.int (if b = 0 then 0 else a.sdiv b))
  | .div, .uint a, .uint b => some (.uint (if b = 0 then 0 else a.udiv b))
  | .mod, .int a, .int b => some (.int (if b = 0 then 0 else a.srem b))
  | .mod, .uint a, .uint b => some (.uint (if b = 0 then 0 else a.umod b))
  | .add, .int a, .int b => some (.int (a + b))
  | .add, .uint a, .uint b => some (.uint (a + b))
  | .sub, .int a, .int b => some (.int (a - b))
  | .sub, .uint a, .uint b => some (.uint (a - b))
  | _, _, _ => none

/-- The value of a tree of operators, if it has one. -/
def meaning : Tree Op UnaryOp Val → Option Val
  | .value v => some v
  | .group t => meaning t
  | .unary u t => (meaning t).bind (meaning1 u)
  | .binary o l r => (meaning l).bind fun x => (meaning r).bind fun y =>
      (y.convert x.type).bind (meaning2 o x)

/-- An operator that is protected against these operands, which are of one type. -/
def Protected : Op → Val → Val → Prop
  | .div, .int a, .int b => ¬ (a = BitVec.intMin 32 ∧ b = -1)
  | .div, .uint _, .uint b => b ≠ 0
  | .mod, .int a, .int b => ¬ Faults a b
  | .mod, .uint _, .uint b => b ≠ 0
  | _, _, _ => True

/-- No quotient of unsigned integers and no remainder is by zero, and none is of the least integer
by -1. -/
def Guarded : Tree Op UnaryOp Val → Prop
  | .value _ => True
  | .group t => Guarded t
  | .unary _ t => Guarded t
  | .binary o l r => Guarded l ∧ Guarded r ∧ ∀ x y z, meaning l = some x → meaning r = some y →
      y.convert x.type = some z → Protected o x z

/-! ### The choice of an operator -/

/-- `build` looks at the types of the operands only. -/
def BinaryOperator.accepts (o : BinaryOperator) (op : Op) (t u : Typ) : Bool :=
  op = o.mop && t = o.arg1 && converts o.arg2 u

def BinaryOperator.apply (a b : Source) (o : BinaryOperator) : Source :=
  .binary o.fun' o.result a (b.convert o.arg2)

theorem build_eq (o : BinaryOperator) (op : Op) (a b : Source) :
    o.build op a b = if o.accepts op a.type b.type then some (o.apply a b) else none := by
  unfold BinaryOperator.build BinaryOperator.accepts BinaryOperator.apply
  by_cases hop : op = o.mop
  · by_cases ha : a.type = o.arg1
    · simp [hop, ha]
    · simp [hop, ha]
  · simp [hop]

theorem findSome_build (os : List BinaryOperator) (op : Op) (a b : Source) :
    (os.findSome? fun o => o.build op a b) =
      (os.find? fun o => o.accepts op a.type b.type).map (BinaryOperator.apply a b) := by
  induction os with
  | nil => rfl
  | cons o os ih =>
    rw [List.findSome?_cons, List.find?_cons, build_eq, ih]
    cases o.accepts op a.type b.type with
    | true => rfl
    | false => rfl

/-- The operator for operands of these types. -/
def select (op : Op) (t u : Typ) : Option BinaryOperator :=
  match binaryops.find? fun o => op = o.mop && t = o.arg1 && u = o.arg2 with
  | some o => if o.accepts op t u then some o else none
  | none => binaryops.find? fun o => o.accepts op t u

theorem applyBinary_eq (op : Op) (a b : Source) :
    applyBinary op a b = (select op a.type b.type).map (BinaryOperator.apply a b) := by
  unfold applyBinary select BinaryOperator.isExactMatch
  cases binaryops.find? fun o => op = o.mop && a.type = o.arg1 && b.type = o.arg2 with
  | none => exact findSome_build binaryops op a b
  | some o =>
    dsimp only
    rw [build_eq]
    cases o.accepts op a.type b.type with
    | true => rfl
    | false => rfl

/-- The operator whose operands are of the type. -/
def operatorOf (op : Op) (t : Typ) : Option BinaryOperator :=
  binaryops.find? fun o => op = o.mop && t = o.arg1

theorem select_val (op : Op) (x y : Val) : select op x.type y.type =
    if converts x.type y.type then operatorOf op x.type else none := by
  cases op <;> cases x <;> cases y <;> rfl

theorem converts_iff (x y : Val) :
    converts x.type y.type = true ↔ (y.convert x.type).isSome = true := by
  cases x <;> cases y <;> simp [Val.type, converts, constructors, Val.convert, Val.construct]

theorem convert_type {t : Typ} {y z : Val} (h : y.convert t = some z) : z.type = t := by
  unfold Val.convert at h
  split at h
  · cases h
    assumption
  · cases t <;> cases y <;> simp [Val.construct] at h <;> subst h <;> rfl

/-! ### What its function object computes -/

/-- The function object, against the meaning of the operator. -/
structure Computes (op : Op) (o : BinaryOperator) (x z : Val) : Prop where
  arg2 : o.arg2 = x.type
  defined : ∃ v, meaning2 op x z = some v ∧ v.type = o.result
  value : Protected op x z → o.fun'.apply2 x z = meaning2 op x z
  stopped : ¬ Protected op x z → o.fun'.apply2 x z = none

theorem computes_bool (op : Op) (a b : Bool) {o : BinaryOperator}
    (h : operatorOf op .bool = some o) : Computes op o (.bool a) (.bool b) := by
  cases op <;> cases h <;>
    exact ⟨rfl, ⟨_, rfl, rfl⟩, fun _ => rfl, fun hno => absurd trivial hno⟩

theorem computes_int (op : Op) (a b : BitVec 32) {o : BinaryOperator}
    (h : operatorOf op .int = some o) : Computes op o (.int a) (.int b) := by
  cases op with
  | div =>
    cases h
    refine ⟨rfl, ⟨_, rfl, rfl⟩, fun hp => ?_, fun hno => ?_⟩
    · by_cases hb : b = 0
      · simp [inner, Function.apply2, meaning2, hb]
      · have hf : ¬ Faults a b := not_or.mpr ⟨hb, hp⟩
        exact ((if_neg hb).trans (if_neg hf)).trans (by rw [meaning2, if_neg hb])
    · have hp : a = BitVec.intMin 32 ∧ b = -1 := not_not.mp hno
      have hb : ¬ b = 0 := by
        rw [hp.2]
        decide
      exact (if_neg hb).trans (if_pos (Or.inr hp))
  | mod =>
    cases h
    refine ⟨rfl, ⟨_, rfl, rfl⟩, fun hp => ?_, fun hno => ?_⟩
    · have hb : ¬ b = 0 := fun hb => hp (Or.inl hb)
      exact (if_neg hp).trans (by rw [meaning2, if_neg hb])
    · exact if_pos (not_not.mp hno)
  | assign => cases h
  | and => cases h
  | or => cases h
  | _ => cases h; exact ⟨rfl, ⟨_, rfl, rfl⟩, fun _ => rfl, fun hno => absurd trivial hno⟩

theorem computes_uint (op : Op) (a b : BitVec 32) {o : BinaryOperator}
    (h : operatorOf op .uint = some o) : Computes op o (.uint a) (.uint b) := by
  cases op with
  | div | mod =>
    cases h
    refine ⟨rfl, ⟨_, rfl, rfl⟩, fun hp => ?_, fun hno => if_pos (not_not.mp hno)⟩
    have hb : ¬ b = 0 := hp
    exact (if_neg hb).trans (by rw [meaning2, if_neg hb])
  | assign => cases h
  | and => cases h
  | or => cases h
  | _ => cases h; exact ⟨rfl, ⟨_, rfl, rfl⟩, fun _ => rfl, fun hno => absurd trivial hno⟩

theorem computes {op : Op} {x z : Val} (hz : z.type = x.type) {o : BinaryOperator}
    (h : operatorOf op x.type = some o) : Computes op o x z := by
  cases x with
  | bool a =>
    cases z with
    | bool b => exact computes_bool op a b h
    | int b => cases hz
    | uint b => cases hz
  | int a =>
    cases z with
    | bool b => cases hz
    | int b => exact computes_int op a b h
    | uint b => cases hz
  | uint a =>
    cases z with
    | bool b => cases hz
    | int b => cases hz
    | uint b => exact computes_uint op a b h

/-- A unary operator computes what it means. -/
theorem applyUnary_spec {u : UnaryOp} {a s : Source} {x : Val} (hx : a.type = x.type)
    (h : applyUnary u a = some s) :
    ∃ v, meaning1 u x = some v ∧ v.type = s.type ∧
      ∃ f t, s = .unary f t a ∧ f.apply1 x = some v := by
  unfold applyUnary unaryops UnaryOperator.build at h
  cases u <;> cases x <;> simp [hx, Val.type] at h <;> subst h <;>
    exact ⟨_, rfl, rfl, _, _, rfl, rfl⟩

theorem get_convert {t : Typ} {b : Source} {y : Val} (hy : b.type = y.type)
    (hb : b.get = some y) : (b.convert t).get = y.convert t := by
  unfold Source.convert Val.convert
  rw [hy]
  by_cases ht : y.type = t
  · rw [if_pos ht, if_pos ht, hb]
  · rw [if_neg ht, if_neg ht, Source.get, hb]
    rfl

theorem get_convert_stopped (t : Typ) {b : Source} (hb : b.get = none) :
    (b.convert t).get = none := by
  unfold Source.convert
  by_cases ht : b.type = t
  · rw [if_pos ht, hb]
  · rw [if_neg ht, Source.get, hb]
    rfl

/-- What is built for a tree has the value that the tree means, or stops the program. -/
structure Evaluates (t : Tree Op UnaryOp Val) (s : Source) (v : Val) : Prop where
  meaning : meaning t = some v
  type : s.type = v.type
  value : Guarded t → s.get = some v
  stopped : ¬ Guarded t → s.get = none

theorem evaluates_unary {u : UnaryOp} {t : Tree Op UnaryOp Val} {a s : Source} {x : Val}
    (ha : Evaluates t a x) (h : applyUnary u a = some s) : ∃ v, Evaluates (.unary u t) s v := by
  obtain ⟨v, hv, htype, f, ty, rfl, happly⟩ := applyUnary_spec ha.type h
  refine ⟨v, ?_, htype.symm, fun hg => ?_, fun hg => ?_⟩
  · rw [Operators.meaning, ha.meaning]
    exact hv
  · rw [Source.get, ha.value hg]
    exact happly
  · rw [Source.get, ha.stopped hg]
    rfl

theorem evaluates_binary {op : Op} {l r : Tree Op UnaryOp Val} {a b s : Source} {x y : Val}
    (ha : Evaluates l a x) (hb : Evaluates r b y) (h : applyBinary op a b = some s) :
    ∃ v, Evaluates (.binary op l r) s v := by
  rw [applyBinary_eq, ha.type, hb.type, select_val] at h
  by_cases hconv : converts x.type y.type = true
  · rw [if_pos hconv] at h
    obtain ⟨o, ho, rfl⟩ := Option.map_eq_some_iff.mp h
    obtain ⟨z, hz⟩ := Option.isSome_iff_exists.mp ((converts_iff x y).mp hconv)
    have hc := computes (convert_type hz) ho
    obtain ⟨v, hv, htype⟩ := hc.defined
    have hguard : Guarded (.binary op l r) ↔ Guarded l ∧ Guarded r ∧ Protected op x z := by
      rw [Guarded]
      refine and_congr_right fun _ => and_congr_right fun _ => ⟨fun hall => ?_, fun hp => ?_⟩
      · exact hall x y z ha.meaning hb.meaning hz
      · intro x' y' z' hx' hy' hz'
        cases ha.meaning.symm.trans hx'
        cases hb.meaning.symm.trans hy'
        cases hz.symm.trans hz'
        exact hp
    refine ⟨v, ?_, htype.symm, fun hg => ?_, fun hg => ?_⟩
    · rw [Operators.meaning, ha.meaning, hb.meaning, Option.bind_some, Option.bind_some, hz]
      exact hv
    · obtain ⟨hl, hr, hp⟩ := hguard.mp hg
      rw [BinaryOperator.apply, Source.get, ha.value hl, Option.bind_some, hc.arg2,
        get_convert hb.type (hb.value hr), hz, Option.bind_some, hc.value hp, hv]
    · rw [BinaryOperator.apply, Source.get]
      by_cases hl : Guarded l
      · rw [ha.value hl, Option.bind_some]
        by_cases hr : Guarded r
        · have hp : ¬ Protected op x z := fun hp => hg (hguard.mpr ⟨hl, hr, hp⟩)
          rw [hc.arg2, get_convert hb.type (hb.value hr), hz, Option.bind_some, hc.stopped hp]
        · rw [get_convert_stopped _ (hb.stopped hr)]
          rfl
      · rw [ha.stopped hl]
        rfl
  · rw [if_neg hconv] at h
    cases h

theorem build_evaluates (t : Tree Op UnaryOp Val) {s : Source} (h : build t = some s) :
    ∃ v, Evaluates t s v := by
  induction t generalizing s with
  | value v =>
    cases h
    exact ⟨v, rfl, rfl, fun _ => rfl, fun hno => absurd trivial hno⟩
  | group t ih =>
    obtain ⟨v, hv⟩ := ih h
    exact ⟨v, hv.meaning, hv.type, hv.value, hv.stopped⟩
  | unary u t ih =>
    obtain ⟨a, ha, hs⟩ := Option.bind_eq_some_iff.mp h
    obtain ⟨x, hx⟩ := ih ha
    exact evaluates_unary hx hs
  | binary op l r ihl ihr =>
    obtain ⟨a, ha, hrest⟩ := Option.bind_eq_some_iff.mp h
    obtain ⟨b, hb, hs⟩ := Option.bind_eq_some_iff.mp hrest
    obtain ⟨x, hx⟩ := ihl ha
    obtain ⟨y, hy⟩ := ihr hb
    exact evaluates_binary hx hy hs

/-- An expression that is built has a meaning, and its evaluation gives that, if and only if no
operator in it stops the program. -/
theorem evaluation_total_iff (t : Tree Op UnaryOp Val) {s : Source} (h : build t = some s) :
    (∃ v, meaning t = some v ∧ s.get = some v) ↔ Guarded t := by
  obtain ⟨v, hv⟩ := build_evaluates t h
  by_cases hg : Guarded t
  · exact iff_of_true ⟨v, hv.meaning, hv.value hg⟩ hg
  · refine iff_of_false ?_ hg
    rintro ⟨w, -, hw⟩
    rw [hv.stopped hg] at hw
    cases hw

/-- `7 / 0`, of integers. -/
theorem evaluation_total_zero : ∃ s, build (.binary .div (.value (.int 7)) (.value (.int 0))) =
    some s ∧ s.get = some (.int 0) := by
  refine ⟨_, rfl, ?_⟩
  have hg : Guarded (.binary .div (.value (.int 7)) (.value (.int 0))) := by
    refine ⟨trivial, trivial, fun x y z hx hy hz => ?_⟩
    cases hx
    cases hy
    cases hz
    unfold Protected
    decide
  obtain ⟨v, hv, hs⟩ := (evaluation_total_iff _ rfl).mpr hg
  cases hv
  exact hs

/-- The remainder of integers and the quotient of unsigned ones are not protected against zero, nor
the quotient of integers against the least one and -1. -/
theorem evaluation_stops :
    (∃ s, build (.binary .mod (.value (.int 7)) (.value (.int 0))) = some s ∧ s.get = none) ∧
    (∃ s, build (.binary .div (.value (.uint 7)) (.value (.int 0))) = some s ∧ s.get = none) ∧
    ∃ s, build (.binary .div (.value (.int (BitVec.intMin 32))) (.unary .minus (.value (.int 1)))) =
      some s ∧ s.get = none :=
  ⟨⟨_, rfl, rfl⟩, ⟨_, rfl, rfl⟩, ⟨_, rfl, rfl⟩⟩

end OrocosRtt.Scripting.Operators
