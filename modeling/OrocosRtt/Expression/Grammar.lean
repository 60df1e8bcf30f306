import OrocosRtt.Library.Precedence

/-! The grammar of script expressions, `ExpressionParser`: a chain of rules whose semantic
actions build data sources on an operand stack. The input is taken as a list of operands
and operator signs; what an operand is made of (a variable, a literal, a call) is left to
the parsers of operands. -/
namespace OrocosRtt.Scripting
open Library.Precedence

/-- The signs between operands. `+` and `-` are also signs of unary operators. -/
inductive Op where
  | assign | and | or | ne | eq | ge | gt | le | lt | sub | add | mod | div | mul
  deriving DecidableEq, Repr

inductive UnaryOp where
  | plus | minus | not
  deriving DecidableEq, Repr

inductive Token (A : Type) where
  /-- What `value_expression` or another rule of `atomicexpression` reads as one operand. -/
  | value (a : A)
  | op (o : Op)
  | bang
  | lparen
  | rparen
  deriving DecidableEq, Repr

/-- A data source: the tree of the operators applied. `group` records the parentheses, which
leave the data source as it is. -/
abbrev DataSource (A : Type) := Tree Op UnaryOp A

/-- Whether there is an operator for operands of these types. -/
structure OperatorRepository (A : Type) where
  applyUnary : UnaryOp → DataSource A → Bool
  /-- For `=`, whether `updateAction` accepts the assignment. -/
  applyBinary : Op → DataSource A → DataSource A → Bool

/-- Why a parse is given up with an exception; `fuel` bounds the recursion of the model. -/
inductive Failure where
  | types | closeBrace | fuel
  deriving DecidableEq, Repr

structure ParseState (A : Type) where
  parsestack : List (DataSource A)
  input : List (Token A)
  deriving DecidableEq

/-- Semantic actions are not undone when a rule does not match, so the stack is kept. -/
inductive Outcome (A : Type) where
  | hit (s : ParseState A)
  | miss (s : ParseState A)
  | error (f : Failure)
  deriving DecidableEq

/-- A rule of the grammar. -/
abbrev Rule (A : Type) := ParseState A → Outcome A

namespace Rule

variable {A : Type}

/-- `a >> b` -/
def andThen (p q : Rule A) : Rule A := fun s =>
  match p s with
  | .hit s => q s
  | .miss s => .miss s
  | .error f => .error f

/-- `a | b` starts the second alternative at the place of the first. -/
def orElse (p q : Rule A) : Rule A := fun s =>
  match p s with
  | .hit s => .hit s
  | .miss s' => q { s' with input := s.input }
  | .error f => .error f

/-- `a[action]` -/
def action (p : Rule A) (f : ParseState A → Outcome A) : Rule A := fun s =>
  match p s with
  | .hit s => f s
  | .miss s => .miss s
  | .error f => .error f

/-- `expect_close(a)` -/
def expectClose (p : Rule A) : Rule A := fun s =>
  match p s with
  | .hit s => .hit s
  | .miss _ => .error .closeBrace
  | .error f => .error f

/-- `*a`, at most `n` times. -/
def starN (p : Rule A) : ℕ → Rule A
  | 0, s => .hit s
  | n + 1, s =>
    match p s with
    | .hit s => starN p n s
    | .miss s' => .hit { s' with input := s.input }
    | .error f => .error f

/-- `*a`: each repetition reads something, so there are no more of them than the input is
long. -/
def star (p : Rule A) : Rule A := fun s => starN p s.input.length s

end Rule

namespace ExpressionParser

variable {A : Type} [DecidableEq A]

/-- `ch_p`, `str_p` -/
def lit (x : Token A) : Rule A := fun s =>
  match s.input with
  | [] => .miss s
  | y :: ys => if x = y then .hit { s with input := ys } else .miss s

/-- `eps_p(~ch_p('='))`; the sign `==` begins with `=` too. -/
def notAssign : Rule A := fun s =>
  match s.input with
  | .op .assign :: _ => .miss s
  | .op .eq :: _ => .miss s
  | [] => .miss s
  | _ => .hit s

/-- `value_expression` and the other rules for an operand. -/
def valueExpression : Rule A := fun s =>
  match s.input with
  | .value a :: ys => .hit ⟨.value a :: s.parsestack, ys⟩
  | _ => .miss s

variable (opreg : OperatorRepository A)

/-- The data source on top of the stack is replaced by the operator applied to it. -/
def seenUnary (u : UnaryOp) (s : ParseState A) : Outcome A :=
  match s.parsestack with
  | arg :: st =>
    if opreg.applyUnary u arg then .hit { s with parsestack := .unary u arg :: st }
    else .error .types
  | [] => .error .types

/-- `seen_binary` and `seen_assign`: the second operand is on top of the stack. -/
def seenBinary (o : Op) (s : ParseState A) : Outcome A :=
  match s.parsestack with
  | arg1 :: arg2 :: st =>
    if opreg.applyBinary o arg2 arg1 then .hit { s with parsestack := .binary o arg2 arg1 :: st }
    else .error .types
  | _ => .error .types

/-- `'(' >> expression >> close_brace` -/
def groupExp (expression : Rule A) : Rule A := fun s =>
  (((lit .lparen).andThen expression).andThen (lit .rparen).expectClose |>.action fun s =>
    match s.parsestack with
    | t :: st => .hit { s with parsestack := .group t :: st }
    | [] => .error .types) s

def atomicExpression (expression : Rule A) : Rule A :=
  (groupExp expression).orElse valueExpression

/-- A rule for an optional unary operator. -/
def unaryExp (sign : Token A) (u : UnaryOp) (next : Rule A) : Rule A :=
  ((lit sign).andThen (next.action (seenUnary opreg u))).orElse next

def unaryNotExp (expression : Rule A) : Rule A :=
  unaryExp opreg .bang .not (atomicExpression expression)

def unaryMinusExp (expression : Rule A) : Rule A :=
  unaryExp opreg (.op .sub) .minus (unaryNotExp opreg expression)

def unaryPlusExp (expression : Rule A) : Rule A :=
  unaryExp opreg (.op .add) .plus (unaryMinusExp opreg expression)

/-- One more operator and operand of a rule. -/
def operand (next : Rule A) (o : Op) : Rule A :=
  (lit (.op o)).andThen (next.action (seenBinary opreg o))

/-- A rule for one binary operator. -/
def binaryExp (o : Op) (next : Rule A) : Rule A :=
  next.andThen (operand opreg next o).star

/-- A rule for two binary operators, tried in this order. -/
def binaryExp2 (o o' : Op) (next : Rule A) : Rule A :=
  next.andThen ((operand opreg next o).orElse (operand opreg next o')).star

def divOrMul (expression : Rule A) : Rule A :=
  binaryExp2 opreg .div .mul (unaryPlusExp opreg expression)

def modExp (expression : Rule A) : Rule A := binaryExp opreg .mod (divOrMul opreg expression)

def plusOrMin (expression : Rule A) : Rule A :=
  binaryExp2 opreg .sub .add (modExp opreg expression)

def smallerExp (expression : Rule A) : Rule A := binaryExp opreg .lt (plusOrMin opreg expression)

def smallerEqExp (expression : Rule A) : Rule A :=
  binaryExp opreg .le (smallerExp opreg expression)

def greaterExp (expression : Rule A) : Rule A :=
  binaryExp opreg .gt (smallerEqExp opreg expression)

def greaterEqExp (expression : Rule A) : Rule A :=
  binaryExp opreg .ge (greaterExp opreg expression)

def equalExp (expression : Rule A) : Rule A :=
  binaryExp opreg .eq (greaterEqExp opreg expression)

def notEqualExp (expression : Rule A) : Rule A :=
  binaryExp opreg .ne (equalExp opreg expression)

def orExp (expression : Rule A) : Rule A := binaryExp opreg .or (notEqualExp opreg expression)

def andExp (expression : Rule A) : Rule A := binaryExp opreg .and (orExp opreg expression)

def assignExp (expression : Rule A) : Rule A :=
  (andExp opreg expression).andThen
    (((((lit (.op .assign)).andThen notAssign).andThen expression).action
      (seenBinary opreg .assign)).star)

/-- `expression = assignexp`, which comes back in groups and on the right of `=`; with
`fuel` greater than the length of the input it always has enough. -/
def expression : ℕ → Rule A
  | 0 => fun _ => .error .fuel
  | fuel + 1 => assignExp opreg (expression fuel)

/-- Reads an expression at the start of `ts`: its data source and what is left of `ts`. -/
def parse (ts : List (Token A)) : Option (DataSource A × List (Token A)) :=
  match expression opreg (ts.length + 1) ⟨[], ts⟩ with
  | .hit ⟨[t], rest⟩ => some (t, rest)
  | _ => none

end ExpressionParser
end OrocosRtt.Scripting
