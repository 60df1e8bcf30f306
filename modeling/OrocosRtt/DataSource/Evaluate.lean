import Mathlib.Data.List.Nodup

/-! How the data sources of an expression evaluate each other. Each has several entry points,
`evaluate()`, `value()` and `rvalue()`, `get()` and `set()`, and what a data source does to its
operands depends on the one its parent uses. -/
namespace OrocosRtt.DataSource.Evaluate

/-- Values `V`, references `L` and the world `W` they refer into. -/
structure Machine (V L W : Type) where
  read : L → W → V
  write : L → V → W → W
  /-- The item of the container at a place that an index value selects. -/
  item : L → V → W → L
  /-- The `NA` object. -/
  na : L

mutual
/-- The data sources that `ExpressionParser` builds. Calls and assignments have a label each. -/
inductive Expr (V L W : Type) where
  | const (v : V)
  | var (l : L)
  /-- `PartDataSource`; `l` was taken from the parent when the script was parsed. -/
  | part (l : L) (mparent : Expr V L W)
  /-- `ArrayPartDataSource`, with the place of its array. -/
  | arrayPart (l : L) (mparent mindex : Expr V L W)
  /-- `FusedFunctorDataSource` of `get_container_item`, which returns a reference. -/
  | containerItem (cont index : Expr V L W)
  /-- `UnaryDataSource` -/
  | unary (fun' : V → V) (mdsa : Expr V L W)
  /-- `BinaryDataSource` -/
  | binary (fun' : V → V → V) (mdsa mdsb : Expr V L W)
  /-- `FusedMCallDataSource` -/
  | call (n : ℕ) (ff : List (V ⊕ L) → W → V × W) (args : Args V L W)
  /-- `ActionAliasAssignableDataSource` of an `AssignCommand` and its left-hand side. -/
  | assign (n : ℕ) (lhs rhs : Expr V L W)

/-- The arguments of a call, by value or by reference. -/
inductive Args (V L W : Type) where
  | nil
  | value (e : Expr V L W) (rest : Args V L W)
  | reference (e : Expr V L W) (rest : Args V L W)
end

inductive Event (V L : Type) where
  | called (n : ℕ) (args : List (V ⊕ L)) (result : V)
  | assigned (n : ℕ) (l : L) (v : V)

def Event.label {V L : Type} : Event V L → ℕ
  | .called n _ _ => n
  | .assigned n _ _ => n

/-- The world, and what has been called and assigned, the latest last. -/
structure Run (V L W : Type) where
  world : W
  log : List (Event V L)

/-- What a data source keeps for `value()` and `rvalue()`. -/
inductive Ret (V L : Type) where
  | nothing
  | result (v : V)
  | reference (l : L)

variable {V L W : Type} (M : Machine V L W)

def Ret.get (c : Ret V L) (s : Run V L W) : V :=
  match c with
  | .nothing => M.read M.na s.world
  | .result v => v
  | .reference l => M.read l s.world

/-- The operation is called. -/
def invoke (n : ℕ) (ff : List (V ⊕ L) → W → V × W) (args : List (V ⊕ L)) (s : Run V L W) :
    V × Run V L W :=
  let r := ff args s.world
  (r.1, ⟨r.2, s.log ++ [.called n args r.1]⟩)

/-- `set(v)` of the data source that refers to `l`. -/
def assignTo (n : ℕ) (l : L) (v : V) (s : Run V L W) : Run V L W :=
  ⟨M.write l v s.world, s.log ++ [.assigned n l v]⟩

mutual
def evaluate : Expr V L W → Run V L W → Ret V L × Run V L W
  | .const v, s => (.result v, s)
  | .var l, s => (.reference l, s)
  | .part l _, s => (.reference l, s)
  | .arrayPart _ _ index, s =>
    -- DataSource::evaluate() is get()
    (.nothing, (get index s).2)
  | .containerItem cont index, s =>
    let c := set cont s
    let i := evaluate index c.2
    let v := rvalue index i.1 i.2
    (.reference (M.item c.1 v.1 v.2.world), v.2)
  | .unary f a, s =>
    let r := get a s
    (.result (f r.1), r.2)
  | .binary f a b, s =>
    let r := get a s
    let q := get b r.2
    (.result (f r.1 q.1), q.2)
  | .call n ff args, s =>
    let a := data args s
    let r := invoke n ff a.1 a.2
    (.result r.1, r.2)
  | .assign n lhs rhs, s =>
    -- readArguments() and execute() of the action, then the alias
    let r := evaluate rhs s
    let v := rvalue rhs r.1 r.2
    let l := set lhs v.2
    evaluate lhs (assignTo M n l.1 v.1 l.2)

/-- `value()` or `rvalue()`, after an `evaluate()` that left `c`. -/
def rvalue : Expr V L W → Ret V L → Run V L W → V × Run V L W
  | .const v, _, s => (v, s)
  | .var l, _, s => (M.read l s.world, s)
  | .part l _, _, s => (M.read l s.world, s)
  | .arrayPart l _ index, _, s =>
    let i := get index s
    (M.read (M.item l i.1 i.2.world) i.2.world, i.2)
  | .containerItem _ _, c, s => (c.get M s, s)
  | .unary _ _, c, s => (c.get M s, s)
  | .binary _ _ _, c, s => (c.get M s, s)
  | .call _ _ _, c, s => (c.get M s, s)
  | .assign _ lhs _, c, s => rvalue lhs c s

def get : Expr V L W → Run V L W → V × Run V L W
  | .const v, s => (v, s)
  | .var l, s => (M.read l s.world, s)
  | .part l _, s => (M.read l s.world, s)
  | .arrayPart l _ index, s =>
    let i := get index s
    (M.read (M.item l i.1 i.2.world) i.2.world, i.2)
  | .containerItem cont index, s =>
    let c := set cont s
    let i := evaluate index c.2
    let v := rvalue index i.1 i.2
    (M.read (M.item c.1 v.1 v.2.world) v.2.world, v.2)
  | .unary f a, s =>
    let r := get a s
    (f r.1, r.2)
  | .binary f a b, s =>
    let r := get a s
    let q := get b r.2
    (f r.1 q.1, q.2)
  | .call n ff args, s =>
    let a := data args s
    invoke n ff a.1 a.2
  | .assign n lhs rhs, s =>
    let r := evaluate rhs s
    let v := rvalue rhs r.1 r.2
    let l := set lhs v.2
    get lhs (assignTo M n l.1 v.1 l.2)

/-- `set()`: a reference to the data. -/
def set : Expr V L W → Run V L W → L × Run V L W
  | .const _, s => (M.na, s)
  | .var l, s => (l, s)
  | .part l _, s => (l, s)
  | .arrayPart l _ index, s =>
    let i := get index s
    (M.item l i.1 i.2.world, i.2)
  | .containerItem cont index, s =>
    let c := set cont s
    let i := evaluate index c.2
    let v := rvalue index i.1 i.2
    (M.item c.1 v.1 v.2.world, v.2)
  | .unary _ _, s => (M.na, s)
  | .binary _ _ _, s => (M.na, s)
  | .call _ _ _, s => (M.na, s)
  | .assign _ lhs _, s => set lhs s

/-- `create_sequence::data`, with `GetArgument` for each argument. -/
def data : Args V L W → Run V L W → List (V ⊕ L) × Run V L W
  | .nil, s => ([], s)
  | .value e rest, s =>
    let r := evaluate e s
    let v := rvalue e r.1 r.2
    let a := data rest v.2
    (.inl v.1 :: a.1, a.2)
  | .reference e rest, s =>
    let l := set e s
    let a := data rest l.2
    (.inr l.1 :: a.1, a.2)
end

/-- What an expression is part of. -/
inductive Context where
  /-- `CommandDataSource` -/
  | command
  /-- `CommandDataSourceBool` -/
  | commandBool
  /-- `ConditionBoolDataSource` -/
  | condition
  deriving DecidableEq, Repr

/-- Executes the statement or evaluates the condition; the value is the one it uses. -/
def execute (c : Context) (e : Expr V L W) (s : Run V L W) : Option V × Run V L W :=
  match c with
  | .command => (none, (evaluate M e s).2)
  | .commandBool =>
    let r := evaluate M e s
    let v := rvalue M e r.1 r.2
    (some v.1, v.2)
  | .condition =>
    let v := get M e s
    (some v.1, v.2)

mutual
/-- The value of an expression: each operand is evaluated once, before the operator, and the
right-hand side of an assignment before the assignment. -/
def meaning : Expr V L W → Run V L W → V × Run V L W
  | .const v, s => (v, s)
  | .var l, s => (M.read l s.world, s)
  | .part l parent, s =>
    let p := meaning parent s
    (M.read l p.2.world, p.2)
  | .arrayPart l parent index, s =>
    let p := meaning parent s
    let i := meaning index p.2
    (M.read (M.item l i.1 i.2.world) i.2.world, i.2)
  | .containerItem cont index, s =>
    let c := place cont s
    let i := meaning index c.2
    (M.read (M.item c.1 i.1 i.2.world) i.2.world, i.2)
  | .unary f a, s =>
    let r := meaning a s
    (f r.1, r.2)
  | .binary f a b, s =>
    let r := meaning a s
    let q := meaning b r.2
    (f r.1 q.1, q.2)
  | .call n ff args, s =>
    let a := arguments args s
    invoke n ff a.1 a.2
  | .assign n lhs rhs, s =>
    let v := meaning rhs s
    let l := place lhs v.2
    let s := assignTo M n l.1 v.1 l.2
    (M.read l.1 s.world, s)

/-- The place that an expression refers to. -/
def place : Expr V L W → Run V L W → L × Run V L W
  | .const _, s => (M.na, s)
  | .var l, s => (l, s)
  | .part l parent, s => (l, (meaning parent s).2)
  | .arrayPart l parent index, s =>
    let p := meaning parent s
    let i := meaning index p.2
    (M.item l i.1 i.2.world, i.2)
  | .containerItem cont index, s =>
    let c := place cont s
    let i := meaning index c.2
    (M.item c.1 i.1 i.2.world, i.2)
  | .unary _ a, s => (M.na, (meaning a s).2)
  | .binary _ a b, s => (M.na, (meaning b (meaning a s).2).2)
  | .call n ff args, s =>
    let a := arguments args s
    (M.na, (invoke n ff a.1 a.2).2)
  | .assign n lhs rhs, s =>
    let v := meaning rhs s
    let l := place lhs v.2
    (l.1, assignTo M n l.1 v.1 l.2)

def arguments : Args V L W → Run V L W → List (V ⊕ L) × Run V L W
  | .nil, s => ([], s)
  | .value e rest, s =>
    let v := meaning e s
    let a := arguments rest v.2
    (.inl v.1 :: a.1, a.2)
  | .reference e rest, s =>
    let l := place e s
    let a := arguments rest l.2
    (.inr l.1 :: a.1, a.2)
end

mutual
/-- The calls and assignments of an expression, in the order in which they are due. -/
def order : Expr V L W → List ℕ
  | .const _ => []
  | .var _ => []
  | .part _ parent => order parent
  | .arrayPart _ parent index => order parent ++ order index
  | .containerItem cont index => order cont ++ order index
  | .unary _ a => order a
  | .binary _ a b => order a ++ order b
  | .call n _ args => orderArgs args ++ [n]
  | .assign n lhs rhs => order rhs ++ order lhs ++ [n]

def orderArgs : Args V L W → List ℕ
  | .nil => []
  | .value e rest => order e ++ orderArgs rest
  | .reference e rest => order e ++ orderArgs rest
end

/-- No call and no assignment is in the expression. -/
def Quiet : Expr V L W → Prop
  | .const _ => True
  | .var _ => True
  | .part _ parent => Quiet parent
  | .arrayPart _ parent index => Quiet parent ∧ Quiet index
  | .containerItem cont index => Quiet cont ∧ Quiet index
  | .unary _ a => Quiet a
  | .binary _ a b => Quiet a ∧ Quiet b
  | .call _ _ _ => False
  | .assign _ _ _ => False

/-- How a parent uses a data source. -/
inductive Use where
  /-- `evaluate()` only -/
  | statement
  /-- `evaluate()`, then `value()` or `rvalue()` -/
  | value
  /-- `get()` -/
  | get
  /-- `set()` -/
  | reference
  deriving DecidableEq, Repr

mutual
/-- Where calls and assignments may stand: in no part or array whose place was taken when the
script was parsed, not in the index of an array item that is used through `value()`, not in
the target of an assignment, and no assignment or call where a reference is asked for. -/
def Once : Use → Expr V L W → Prop
  | _, .const _ => True
  | _, .var _ => True
  | _, .part _ parent => Quiet parent
  | u, .arrayPart _ parent index =>
    Quiet parent ∧ (u = .value → Quiet index) ∧ Once .get index
  | _, .containerItem cont index => Once .reference cont ∧ Once .value index
  | u, .unary _ a => (u = .reference → Quiet a) ∧ Once .get a
  | u, .binary _ a b => (u = .reference → Quiet a ∧ Quiet b) ∧ Once .get a ∧ Once .get b
  | u, .call _ _ args => u ≠ .reference ∧ OnceArgs args
  | u, .assign _ lhs rhs => u ≠ .reference ∧ Quiet lhs ∧ Once .value rhs

def OnceArgs : Args V L W → Prop
  | .nil => True
  | .value e rest => Once .value e ∧ OnceArgs rest
  | .reference e rest => Once .reference e ∧ OnceArgs rest
end

mutual
/-- Where the value of an assignment is used, reading its target again gives what the place
that was assigned holds. -/
def Steady : Use → Expr V L W → Run V L W → Prop
  | _, .const _, _ => True
  | _, .var _, _ => True
  | _, .part _ _, _ => True
  | _, .arrayPart _ _ index, s => Steady .get index s
  | _, .containerItem cont index, s =>
    Steady .reference cont s ∧ Steady .value index (place M cont s).2
  | _, .unary _ a, s => Steady .get a s
  | _, .binary _ a b, s => Steady .get a s ∧ Steady .get b (meaning M a s).2
  | _, .call _ _ args, s => SteadyArgs args s
  | u, .assign n lhs rhs, s =>
    Steady .value rhs s ∧ (u ≠ .statement →
      let v := meaning M rhs s
      let l := place M lhs v.2
      let s := assignTo M n l.1 v.1 l.2
      (meaning M lhs s).1 = M.read l.1 s.world)

def SteadyArgs : Args V L W → Run V L W → Prop
  | .nil, _ => True
  | .value e rest, s => Steady .value e s ∧ SteadyArgs rest (meaning M e s).2
  | .reference e rest, s => Steady .reference e s ∧ SteadyArgs rest (place M e s).2
end

end OrocosRtt.DataSource.Evaluate
