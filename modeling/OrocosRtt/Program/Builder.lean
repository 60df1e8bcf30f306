import OrocosRtt.Program.TryCatch

/-! `FunctionGraphBuilder` and the actions of `ProgramGraphParser` on it: commands, `yield`, `if`,
`while`, `for`, `break`, `return` and `try`, nested to any depth, and where they are in a graph. -/
namespace OrocosRtt.Scripting
set_option linter.unusedSectionVars false

namespace Structured
open TryCatch

variable {K C S W : Type}

/-! ### The builder -/

/-- With the stack that `break` looks at. -/
structure FunctionGraphBuilder (K C S : Type) extends Builder (Command K S) (Condition C S) where
  breakStack : List ℕ

namespace FunctionGraphBuilder

/-- With its start node 0 and its exit node 1. -/
def startFunction : FunctionGraphBuilder K C S where
  command _ := none
  outEdges _ := []
  numVertices := 3
  build := 0
  next := 2
  branchStack := []
  breakStack := []

def exitNode : ℕ := 1

def setCommand (com : Command K S) (b : FunctionGraphBuilder K C S) : FunctionGraphBuilder K C S :=
  { b with toBuilder := b.toBuilder.setCommand com }

/-- A `CommandNOP` is set. -/
def setNop (b : FunctionGraphBuilder K C S) : FunctionGraphBuilder K C S :=
  { b with command := fun v => if v = b.build then none else b.command v }

def addConditionEdge (cond : Condition C S) (v : ℕ) (b : FunctionGraphBuilder K C S) :
    FunctionGraphBuilder K C S :=
  { b with toBuilder := b.toBuilder.addEdge b.build cond v }

def proceedToNext (b : FunctionGraphBuilder K C S) : FunctionGraphBuilder K C S :=
  { b with toBuilder := b.toBuilder.proceedToNext }

def proceedToNextIf (cond : Condition C S) (b : FunctionGraphBuilder K C S) :
    FunctionGraphBuilder K C S :=
  { b with toBuilder := b.toBuilder.proceedToNextIf cond }

def startIfStatement (cond : Condition C S) (b : FunctionGraphBuilder K C S) :
    FunctionGraphBuilder K C S :=
  { b with toBuilder := b.toBuilder.startIfStatement cond }

def endIfBlock (b : FunctionGraphBuilder K C S) : FunctionGraphBuilder K C S :=
  { b with toBuilder := b.toBuilder.endIfBlock }

def endElseBlock (b : FunctionGraphBuilder K C S) : FunctionGraphBuilder K C S :=
  { b with toBuilder := b.toBuilder.endElseBlock }

def startWhileStatement (cond : Condition C S) (b : FunctionGraphBuilder K C S) :
    FunctionGraphBuilder K C S :=
  let r := b.toBuilder.addVertex
  let b : FunctionGraphBuilder K C S :=
    { r.2 with
      branchStack := r.2.build :: r.1 :: r.2.branchStack
      breakStack := r.1 :: b.breakStack }
  ((b.addConditionEdge cond b.next).addConditionEdge .conditionTrue r.1).proceedToNext

def endWhileBlock (b : FunctionGraphBuilder K C S) : FunctionGraphBuilder K C S :=
  match b.branchStack with
  | startOfWhile :: afterWhileNode :: stack =>
    { b.addConditionEdge .conditionTrue startOfWhile with
      build := afterWhileNode
      branchStack := stack
      breakStack := b.breakStack.tail }
  | _ => b

def inLoop (b : FunctionGraphBuilder K C S) : Bool := !b.breakStack.isEmpty

/-- Nothing is done outside of a loop. -/
def breakLoop (b : FunctionGraphBuilder K C S) : FunctionGraphBuilder K C S :=
  match b.breakStack with
  | [] => b
  | v :: _ => b.addConditionEdge .conditionTrue v

def returnFunction (cond : Condition C S) (b : FunctionGraphBuilder K C S) :
    FunctionGraphBuilder K C S := b.addConditionEdge cond exitNode

/-! ### The actions of the parser -/

/-- An expression or a change of a value: its command, and an edge if there is none yet. -/
def seenstatement (k : Command K S) (b : FunctionGraphBuilder K C S) : FunctionGraphBuilder K C S :=
  let b := b.setCommand k
  if b.toBuilder.buildEdges = 0 then b.proceedToNextIf .conditionTrue else b.proceedToNext

/-- The first, the last and the step of a `for`: always with an edge. -/
def seenvaluechange (k : Command K S) (b : FunctionGraphBuilder K C S) :
    FunctionGraphBuilder K C S := (b.setCommand k).proceedToNextIf .conditionTrue

/-- `once` is a `ConditionOnce(false)`. -/
def seenyield (once : Condition C S) (b : FunctionGraphBuilder K C S) :
    FunctionGraphBuilder K C S := b.setNop.proceedToNextIf once

/-- The command evaluates the condition; the edge has the result. -/
def seenifstatement (k : Command K S) (cond : Condition C S) (b : FunctionGraphBuilder K C S) :
    FunctionGraphBuilder K C S := (b.setCommand k).startIfStatement cond

def seenwhilestatement (k : Command K S) (cond : Condition C S) (b : FunctionGraphBuilder K C S) :
    FunctionGraphBuilder K C S := (b.setCommand k).startWhileStatement cond

def seenforstatement (init : Option (Command K S)) (k : Command K S) (cond : Condition C S)
    (b : FunctionGraphBuilder K C S) : FunctionGraphBuilder K C S :=
  let b :=
    match init with
    | some i => b.seenvaluechange i
    | none => b
  (b.setCommand k).startWhileStatement cond

def endforstatement (incr : Option (Command K S)) (b : FunctionGraphBuilder K C S) :
    FunctionGraphBuilder K C S :=
  let b :=
    match incr with
    | some i => b.seenvaluechange i
    | none => b
  b.endWhileBlock

/-- The parser throws where this is no statement of a loop. -/
def seenbreakstatement (b : FunctionGraphBuilder K C S) : Option (FunctionGraphBuilder K C S) :=
  if b.inLoop then some b.breakLoop.proceedToNext else none

def seenreturnstatement (b : FunctionGraphBuilder K C S) : FunctionGraphBuilder K C S :=
  (b.returnFunction .conditionTrue).proceedToNext

/-- `seencatchpart`: there is no `else` part. -/
def seencatchpart (b : FunctionGraphBuilder K C S) : FunctionGraphBuilder K C S :=
  b.endIfBlock.endElseBlock

/-- The last line returns. -/
def seenprogramend (b : FunctionGraphBuilder K C S) : FunctionGraphBuilder K C S :=
  (b.returnFunction .conditionTrue).proceedToNext

end FunctionGraphBuilder

/-! ### Scripts -/

/-- The lines of a body, the first of them with the rest. -/
inductive Script (K C S : Type) where
  | done
  | command (k : Command K S) (rest : Script K C S)
  | yield (once : Condition C S) (rest : Script K C S)
  /-- Without a command: the `catch` part of a `try`. -/
  | ifThen (k : Option (Command K S)) (cond : Condition C S) (block orElse rest : Script K C S)
  | whileDo (k : Command K S) (cond : Condition C S) (block rest : Script K C S)
  | breakLoop (rest : Script K C S)
  | returnNow (rest : Script K C S)

namespace Script

def append : Script K C S → Script K C S → Script K C S
  | .done, t => t
  | .command k rest, t => .command k (append rest t)
  | .yield once rest, t => .yield once (append rest t)
  | .ifThen k cond block orElse rest, t => .ifThen k cond block orElse (append rest t)
  | .whileDo k cond block rest, t => .whileDo k cond block (append rest t)
  | .breakLoop rest, t => .breakLoop (append rest t)
  | .returnNow rest, t => .returnNow (append rest t)

/-- `for (init; cond; incr) block` -/
def forDo (init : Option (Command K S)) (k : Command K S) (cond : Condition C S)
    (incr : Option (Command K S)) (block rest : Script K C S) : Script K C S :=
  let loop := .whileDo k cond (block.append (incr.elim .done fun i => .command i .done)) rest
  init.elim loop fun i => .command i loop

/-- `try call catch { block }` -/
def tryCatch (expr : S → Expr W) (s : S) (block rest : Script K C S) : Script K C S :=
  let r : Command K S × Condition C S := Builder.tryCommandOf expr s
  .command r.1 (.ifThen none r.2 block .done rest)

/-- `return expression`: the result is assigned first. -/
def returnValue (k : Command K S) (rest : Script K C S) : Script K C S :=
  .command k (.returnNow rest)

end Script

namespace FunctionGraphBuilder

/-- The parser's actions for the lines of a body; `none` when it throws. -/
def parse : Script K C S → FunctionGraphBuilder K C S → Option (FunctionGraphBuilder K C S)
  | .done, b => some b
  | .command k rest, b => parse rest (b.seenstatement k)
  | .yield once rest, b => parse rest (b.seenyield once)
  | .ifThen k cond block orElse rest, b =>
    let b := k.elim (b.startIfStatement cond) fun k => b.seenifstatement k cond
    (parse block b).bind fun b =>
      (parse orElse b.endIfBlock).bind fun b => parse rest b.endElseBlock
  | .whileDo k cond block rest, b =>
    (parse block (b.seenwhilestatement k cond)).bind fun b => parse rest b.endWhileBlock
  | .breakLoop rest, b => b.seenbreakstatement.bind (parse rest)
  | .returnNow rest, b => parse rest b.seenreturnstatement

end FunctionGraphBuilder

/-! ### Where a script is in a graph -/

section Laid

variable (command : ℕ → Option (Command K S)) (outEdges : ℕ → List (Condition C S × ℕ))

/-- A node has this command and these edges, none of them back to itself. -/
def Node (v : ℕ) (k : Option (Command K S)) (es : List (Condition C S × ℕ)) : Prop :=
  command v = k ∧ outEdges v = es ∧ ∀ e ∈ es, e.2 ≠ v

/-- The end of a block, with the node that comes after it. -/
def Goto (v u : ℕ) : Prop := Node command outEdges v none [(.conditionTrue, u)]

/-- The lines of the script are in the nodes from `v` on, and the last of them goes on in `e`. A
`break` goes to the node `top`. -/
def Laid (top : Option ℕ) : Script K C S → ℕ → ℕ → Prop
  | .done, v, e => v = e
  | .command k rest, v, e => ∃ u, Node command outEdges v (some k) [(.conditionTrue, u)] ∧
      Laid top rest u e
  | .yield once rest, v, e => ∃ u, Node command outEdges v none [(once, u)] ∧ Laid top rest u e
  | .ifThen k cond block orElse rest, v, e => ∃ vb eb ve ee u,
      Node command outEdges v k [(cond, vb), (.conditionTrue, ve)] ∧
      Laid top block vb eb ∧ Goto command outEdges eb u ∧
      Laid top orElse ve ee ∧ Goto command outEdges ee u ∧ Laid top rest u e
  | .whileDo k cond block rest, v, e => ∃ vb eb u,
      Node command outEdges v (some k) [(cond, vb), (.conditionTrue, u)] ∧
      Laid (some u) block vb eb ∧ Goto command outEdges eb v ∧ Laid top rest u e
  | .breakLoop rest, v, e => (∃ u ∈ top, Goto command outEdges v u) ∧ ∃ u, Laid top rest u e
  | .returnNow rest, v, e => Goto command outEdges v FunctionGraphBuilder.exitNode ∧
      ∃ u, Laid top rest u e

end Laid

namespace FunctionGraphBuilder

/-- Nothing is known yet of the node that is being built, of the next one and of those after it, and
a `break` goes elsewhere. -/
structure Ready (b : FunctionGraphBuilder K C S) : Prop where
  last : b.numVertices = b.next + 1
  build : b.build < b.next
  fresh : ∀ u, u = b.build ∨ b.next ≤ u → b.command u = none ∧ b.outEdges u = []
  exit : exitNode < b.next ∧ b.build ≠ exitNode ∧ b.command exitNode = none ∧
    b.outEdges exitNode = []
  breaks : ∀ u ∈ b.breakStack, u < b.next ∧ u ≠ b.build

/-- What the lines of a block do: the nodes before the next one are left as they are, except for the
one that is being built. -/
structure Grows (b b' : FunctionGraphBuilder K C S) : Prop where
  ready : b'.Ready
  kept : ∀ u < b.next, u ≠ b.build → b'.command u = b.command u ∧ b'.outEdges u = b.outEdges u
  next : b.next ≤ b'.next
  build : b'.build = b.build ∨ b.next ≤ b'.build
  branchStack : b'.branchStack = b.branchStack
  breakStack : b'.breakStack = b.breakStack

theorem Grows.refl {b : FunctionGraphBuilder K C S} (h : b.Ready) : Grows b b :=
  ⟨h, fun _ _ _ => ⟨rfl, rfl⟩, Nat.le_refl _, .inl rfl, rfl, rfl⟩

theorem Grows.trans {b b' b'' : FunctionGraphBuilder K C S} (h : Grows b b') (h' : Grows b' b'') :
    Grows b b'' where
  ready := h'.ready
  kept u hu hb := by
    have hbuild := h.build
    have hnext := h.next
    obtain ⟨hc, he⟩ := h.kept u hu hb
    obtain ⟨hc', he'⟩ := h'.kept u (by omega) (by omega)
    exact ⟨hc'.trans hc, he'.trans he⟩
  next := Nat.le_trans h.next h'.next
  build := by
    have hnext := h.next
    have hbuild := h.build
    have hbuild' := h'.build
    omega
  branchStack := h'.branchStack.trans h.branchStack
  breakStack := h'.breakStack.trans h.breakStack

/-- The node that is being built gets its command and edges, and the builder goes on in another
one. -/
def moved (b : FunctionGraphBuilder K C S) (k : Option (Command K S))
    (es : List (Condition C S × ℕ)) (build next : ℕ) (branchStack breakStack : List ℕ) :
    FunctionGraphBuilder K C S where
  command u := if u = b.build then k else b.command u
  outEdges u := if u = b.build then es else b.outEdges u
  numVertices := next + 1
  build := build
  next := next
  branchStack := branchStack
  breakStack := breakStack

section Actions

variable {b : FunctionGraphBuilder K C S}

theorem ext_nodes {b b' : FunctionGraphBuilder K C S} (hc : ∀ u, b.command u = b'.command u)
    (he : ∀ u, b.outEdges u = b'.outEdges u) (hn : b.numVertices = b'.numVertices)
    (hb : b.build = b'.build) (hx : b.next = b'.next) (hs : b.branchStack = b'.branchStack)
    (hk : b.breakStack = b'.breakStack) : b = b' := by
  obtain ⟨⟨c, e, n, v, x, s⟩, k⟩ := b
  obtain ⟨⟨c', e', n', v', x', s'⟩, k'⟩ := b'
  obtain rfl := funext hc
  obtain rfl := funext he
  cases hn
  cases hb
  cases hx
  cases hs
  cases hk
  rfl

theorem seenstatement_eq (h : b.Ready) (k : Command K S) :
    b.seenstatement k =
      b.moved (some k) [(.conditionTrue, b.next)] b.next (b.next + 1) b.branchStack
        b.breakStack := by
  obtain ⟨hcommand, hedges⟩ := h.fresh b.build (.inl rfl)
  have hempty : (b.setCommand k).toBuilder.buildEdges = 0 := by
    show (b.outEdges b.build).length = 0
    rw [hedges]
    rfl
  unfold seenstatement
  dsimp only
  rw [if_pos hempty]
  refine ext_nodes (fun u => rfl) (fun u => ?_) ?_ rfl ?_ rfl rfl
  · show (if u = b.build then b.outEdges u ++ [(.conditionTrue, b.next)] else b.outEdges u) =
      if u = b.build then [(.conditionTrue, b.next)] else b.outEdges u
    by_cases hu : u = b.build
    · rw [if_pos hu, if_pos hu, hu, hedges, List.nil_append]
    · rw [if_neg hu, if_neg hu]
  · show b.numVertices + 1 = b.next + 1 + 1
    rw [h.last]
  · exact h.last

theorem seenvaluechange_eq (h : b.Ready) (k : Command K S) :
    b.seenvaluechange k = b.seenstatement k := by
  have hempty : (b.setCommand k).toBuilder.buildEdges = 0 := by
    show (b.outEdges b.build).length = 0
    rw [(h.fresh b.build (.inl rfl)).2]
    rfl
  unfold seenvaluechange seenstatement
  dsimp only
  rw [if_pos hempty]

/-- Where the node that is being built has no command yet. -/
theorem outEdges_moved (h : b.Ready) (es : List (Condition C S × ℕ)) (u : ℕ) :
    (if u = b.build then b.outEdges u ++ es else b.outEdges u) =
      if u = b.build then es else b.outEdges u := by
  by_cases hu : u = b.build
  · rw [if_pos hu, if_pos hu, hu, (h.fresh b.build (.inl rfl)).2, List.nil_append]
  · rw [if_neg hu, if_neg hu]

theorem command_moved (h : b.Ready) (u : ℕ) :
    b.command u = if u = b.build then none else b.command u := by
  by_cases hu : u = b.build
  · rw [if_pos hu, hu, (h.fresh b.build (.inl rfl)).1]
  · rw [if_neg hu]

theorem seenyield_eq (h : b.Ready) (once : Condition C S) :
    b.seenyield once =
      b.moved none [(once, b.next)] b.next (b.next + 1) b.branchStack b.breakStack := by
  refine ext_nodes (fun u => rfl) (fun u => outEdges_moved h _ u) ?_ rfl h.last rfl rfl
  show b.numVertices + 1 = b.next + 1 + 1
  rw [h.last]

/-- With the command of the condition, if there is one. -/
theorem startIfStatement_eq (h : b.Ready) (k : Option (Command K S)) (cond : Condition C S) :
    k.elim (b.startIfStatement cond) (fun k => b.seenifstatement k cond) =
      b.moved k [(cond, b.next), (.conditionTrue, b.next + 1)] b.next (b.next + 3)
        ((b.next + 2) :: (b.next + 1) :: b.branchStack) b.breakStack := by
  have hedges : ∀ u, (if u = b.build then
        (if u = b.build then b.outEdges u ++ [(cond, b.next)] else b.outEdges u) ++
          [(.conditionTrue, b.numVertices)]
      else if u = b.build then b.outEdges u ++ [(cond, b.next)] else b.outEdges u) =
      if u = b.build then [(cond, b.next), (.conditionTrue, b.next + 1)] else b.outEdges u := by
    intro u
    by_cases hu : u = b.build
    · rw [if_pos hu, if_pos hu, if_pos hu, hu, (h.fresh b.build (.inl rfl)).2, h.last]
      rfl
    · rw [if_neg hu, if_neg hu, if_neg hu]
  have hnum : b.numVertices + 1 + 1 + 1 = b.next + 3 + 1 := by rw [h.last]
  have hnext : b.numVertices + 1 + 1 = b.next + 3 := by rw [h.last]
  have hstack : (b.numVertices + 1) :: b.numVertices :: b.branchStack =
      (b.next + 2) :: (b.next + 1) :: b.branchStack := by rw [h.last]
  cases k with
  | none => exact ext_nodes (command_moved h) hedges hnum rfl hnext hstack rfl
  | some k => exact ext_nodes (fun u => rfl) hedges hnum rfl hnext hstack rfl

theorem endIfBlock_eq (h : b.Ready) {after els : ℕ} {stack : List ℕ}
    (hstack : b.branchStack = after :: els :: stack) :
    b.endIfBlock =
      b.moved none [(.conditionTrue, after)] els b.next (after :: stack) b.breakStack := by
  have he : b.endIfBlock = { b with
      toBuilder := { b.toBuilder.addEdge b.build .conditionTrue after with
        build := els, branchStack := after :: stack } } := by
    unfold endIfBlock Builder.endIfBlock
    rw [hstack]
  rw [he]
  exact ext_nodes (command_moved h) (outEdges_moved h _) h.last rfl rfl rfl rfl

theorem endElseBlock_eq (h : b.Ready) {after : ℕ} {stack : List ℕ}
    (hstack : b.branchStack = after :: stack) :
    b.endElseBlock =
      b.moved none [(.conditionTrue, after)] after b.next stack b.breakStack := by
  have he : b.endElseBlock = { b with
      toBuilder := { b.toBuilder.addEdge b.build .conditionTrue after with
        build := after, branchStack := stack } } := by
    unfold endElseBlock Builder.endElseBlock
    rw [hstack]
  rw [he]
  exact ext_nodes (command_moved h) (outEdges_moved h _) h.last rfl rfl rfl rfl

theorem seenwhilestatement_eq (h : b.Ready) (k : Command K S) (cond : Condition C S) :
    b.seenwhilestatement k cond =
      b.moved (some k) [(cond, b.next), (.conditionTrue, b.next + 1)] b.next (b.next + 2)
        (b.build :: (b.next + 1) :: b.branchStack) ((b.next + 1) :: b.breakStack) := by
  refine ext_nodes (fun u => rfl) (fun u => ?_) ?_ rfl ?_ ?_ ?_
  · show (if u = b.build then
        (if u = b.build then b.outEdges u ++ [(cond, b.next)] else b.outEdges u) ++
          [(.conditionTrue, b.numVertices)]
      else if u = b.build then b.outEdges u ++ [(cond, b.next)] else b.outEdges u) =
      if u = b.build then [(cond, b.next), (.conditionTrue, b.next + 1)] else b.outEdges u
    by_cases hu : u = b.build
    · rw [if_pos hu, if_pos hu, if_pos hu, hu, (h.fresh b.build (.inl rfl)).2, h.last]
      rfl
    · rw [if_neg hu, if_neg hu, if_neg hu]
  · show b.numVertices + 1 + 1 = b.next + 2 + 1
    rw [h.last]
  · show b.numVertices + 1 = b.next + 2
    rw [h.last]
  · show b.build :: b.numVertices :: b.branchStack = _
    rw [h.last]
    rfl
  · show b.numVertices :: b.breakStack = _
    rw [h.last]
    rfl

theorem endWhileBlock_eq (h : b.Ready) {start after : ℕ} {stack : List ℕ}
    (hstack : b.branchStack = start :: after :: stack) :
    b.endWhileBlock =
      b.moved none [(.conditionTrue, start)] after b.next stack b.breakStack.tail := by
  have he : b.endWhileBlock = { b.addConditionEdge .conditionTrue start with
      build := after, branchStack := stack, breakStack := b.breakStack.tail } := by
    unfold endWhileBlock
    rw [hstack]
  rw [he]
  exact ext_nodes (command_moved h) (outEdges_moved h _) h.last rfl rfl rfl rfl

theorem seenbreakstatement_eq (h : b.Ready) {b' : FunctionGraphBuilder K C S}
    (hb : b.seenbreakstatement = some b') : ∃ top stack, b.breakStack = top :: stack ∧
      b' = b.moved none [(.conditionTrue, top)] b.next (b.next + 1) b.branchStack b.breakStack := by
  unfold seenbreakstatement inLoop at hb
  cases hstack : b.breakStack with
  | nil => simp [hstack] at hb
  | cons top stack =>
    have he : b.breakLoop = b.addConditionEdge .conditionTrue top := by
      unfold breakLoop
      rw [hstack]
    have hloop : (!(top :: stack).isEmpty) = true := rfl
    rw [hstack, if_pos hloop, he] at hb
    refine ⟨top, stack, rfl, ?_⟩
    rw [← Option.some.inj hb, ← hstack]
    refine ext_nodes (command_moved h) (outEdges_moved h _) ?_ rfl h.last rfl rfl
    show b.numVertices + 1 = b.next + 1 + 1
    rw [h.last]

theorem seenreturnstatement_eq (h : b.Ready) :
    b.seenreturnstatement =
      b.moved none [(.conditionTrue, exitNode)] b.next (b.next + 1) b.branchStack
        b.breakStack := by
  refine ext_nodes (command_moved h) (outEdges_moved h _) ?_ rfl h.last rfl rfl
  show b.numVertices + 1 = b.next + 1 + 1
  rw [h.last]

/-- The builder can go on in a new node or in one that was left for later. -/
theorem moved_ready (h : b.Ready) (k : Option (Command K S)) (es : List (Condition C S × ℕ))
    {v n : ℕ} {branches breaks : List ℕ} (hn : b.next ≤ n) (hv : v < n) (hbuild : v ≠ b.build)
    (hexit : v ≠ exitNode) (hempty : v < b.next → b.command v = none ∧ b.outEdges v = [])
    (hbreaks : ∀ u ∈ breaks, u < n ∧ u ≠ v) : (b.moved k es v n branches breaks).Ready where
  last := rfl
  build := hv
  fresh u hu := by
    have hlt := h.build
    have hu : u = v ∨ n ≤ u := hu
    have hempty' : b.command u = none ∧ b.outEdges u = [] := by
      rcases hu with hu | hu
      · rw [hu]
        by_cases hlt : v < b.next
        · exact hempty hlt
        · exact h.fresh v (.inr (Nat.le_of_not_lt hlt))
      · exact h.fresh u (.inr (Nat.le_trans hn hu))
    have hu' : u ≠ b.build := by omega
    show (if u = b.build then k else b.command u) = none ∧
      (if u = b.build then es else b.outEdges u) = []
    rw [if_neg hu', if_neg hu']
    exact hempty'
  exit := by
    refine ⟨Nat.lt_of_lt_of_le h.exit.1 hn, hexit, ?_⟩
    show (if exitNode = b.build then k else b.command exitNode) = none ∧
      (if exitNode = b.build then es else b.outEdges exitNode) = []
    rw [if_neg h.exit.2.1.symm, if_neg h.exit.2.1.symm]
    exact h.exit.2.2
  breaks := hbreaks

/-- What is known of a builder that has gone on. -/
structure Moves (b : FunctionGraphBuilder K C S) (k : Option (Command K S))
    (es : List (Condition C S × ℕ)) (v n : ℕ) (b' : FunctionGraphBuilder K C S) : Prop where
  ready : b'.Ready
  build : b'.build = v
  next : b'.next = n
  kept : ∀ u, u ≠ b.build → b'.command u = b.command u ∧ b'.outEdges u = b.outEdges u
  node : b'.command b.build = k ∧ b'.outEdges b.build = es

theorem moved_moves {k : Option (Command K S)} {es : List (Condition C S × ℕ)} {v n : ℕ}
    {branches breaks : List ℕ} (h : (b.moved k es v n branches breaks).Ready) :
    Moves b k es v n (b.moved k es v n branches breaks) :=
  ⟨h, rfl, rfl, fun _ hu => ⟨if_neg hu, if_neg hu⟩, if_pos rfl, if_pos rfl⟩

/-- One line, after which the builder goes on in the next node. -/
theorem Moves.grows {b' : FunctionGraphBuilder K C S} {k : Option (Command K S)}
    {es : List (Condition C S × ℕ)} (m : Moves b k es b.next (b.next + 1) b')
    (hbranch : b'.branchStack = b.branchStack) (hbreak : b'.breakStack = b.breakStack) :
    Grows b b' where
  ready := m.ready
  kept u _ hb := m.kept u hb
  next := by rw [m.next]; exact Nat.le_succ _
  build := .inr (Nat.le_of_eq m.build.symm)
  branchStack := hbranch
  breakStack := hbreak

theorem advance_ready (h : b.Ready) (k : Option (Command K S)) (es : List (Condition C S × ℕ))
    {n : ℕ} (hn : b.next < n) (branches breaks : List ℕ)
    (hbreaks : ∀ u ∈ breaks, u < n ∧ u ≠ b.next) :
    (b.moved k es b.next n branches breaks).Ready :=
  moved_ready h k es (Nat.le_of_lt hn) hn (Nat.ne_of_gt h.build) (Nat.ne_of_gt h.exit.1)
    (fun hlt => absurd hlt (Nat.lt_irrefl _)) hbreaks

/-- The nodes that a block has finished with are those of the whole graph. -/
def Agrees (b b' : FunctionGraphBuilder K C S) (command : ℕ → Option (Command K S))
    (outEdges : ℕ → List (Condition C S × ℕ)) : Prop :=
  ∀ u, u = b.build ∨ b.next ≤ u → u < b'.next → u ≠ b'.build →
    command u = b'.command u ∧ outEdges u = b'.outEdges u

/-- The parts of an `if`: the nodes for its blocks come after `b.next`, then the node for `else` and
the one that follows. -/
structure Branches (b b₁ b₂ b₃ b₄ b₅ b₆ : FunctionGraphBuilder K C S) (k : Option (Command K S))
    (cond : Condition C S) : Prop where
  opens : Moves b k [(cond, b.next), (.conditionTrue, b.next + 1)] b.next (b.next + 3) b₁
  block : Grows b₁ b₂
  turns : Moves b₂ none [(.conditionTrue, b.next + 2)] (b.next + 1) b₂.next b₃
  orElse : Grows b₃ b₄
  closes : Moves b₄ none [(.conditionTrue, b.next + 2)] (b.next + 2) b₄.next b₅
  rest : Grows b₅ b₆

namespace Branches

variable {b₁ b₂ b₃ b₄ b₅ b₆ : FunctionGraphBuilder K C S} {k : Option (Command K S)}
  {cond : Condition C S}

theorem kept_rest (p : Branches b b₁ b₂ b₃ b₄ b₅ b₆ k cond) {u : ℕ} (hu : u < b₄.next)
    (hbuild : u ≠ b₄.build) (hafter : u ≠ b.next + 2) :
    b₆.command u = b₄.command u ∧ b₆.outEdges u = b₄.outEdges u := by
  have hnext := p.closes.next
  have hb := p.closes.build
  obtain ⟨hc, he⟩ := p.rest.kept u (by omega) (by omega)
  obtain ⟨hc', he'⟩ := p.closes.kept u hbuild
  exact ⟨hc.trans hc', he.trans he'⟩

theorem kept_orElse (p : Branches b b₁ b₂ b₃ b₄ b₅ b₆ k cond) {u : ℕ} (hu : u < b₂.next)
    (hbuild : u ≠ b₂.build) (helse : u ≠ b.next + 1) (hafter : u ≠ b.next + 2) :
    b₆.command u = b₂.command u ∧ b₆.outEdges u = b₂.outEdges u := by
  have hnext := p.turns.next
  have hb := p.turns.build
  have hgrow := p.orElse.next
  have hend := p.orElse.build
  obtain ⟨hc, he⟩ := p.kept_rest (u := u) (by omega) (by omega) hafter
  obtain ⟨hc', he'⟩ := p.orElse.kept u (by omega) (by omega)
  obtain ⟨hc'', he''⟩ := p.turns.kept u hbuild
  exact ⟨hc.trans (hc'.trans hc''), he.trans (he'.trans he'')⟩

theorem grows (p : Branches b b₁ b₂ b₃ b₄ b₅ b₆ k cond) (h : b.Ready)
    (hbranch : b₅.branchStack = b.branchStack) (hbreak : b₅.breakStack = b.breakStack) :
    Grows b b₆ := by
  have hbuild := h.build
  have h₁ := p.opens.build
  have h₁' := p.opens.next
  have h₂ := p.block.build
  have h₂' := p.block.next
  have h₃' := p.turns.next
  have h₄' := p.orElse.next
  have h₅ := p.closes.build
  have h₅' := p.closes.next
  have h₆ := p.rest.build
  have h₆' := p.rest.next
  refine ⟨p.rest.ready, ?_, by omega, by omega, p.rest.branchStack.trans hbranch,
    p.rest.breakStack.trans hbreak⟩
  intro u hu hb
  obtain ⟨hc, he⟩ := p.kept_orElse (u := u) (by omega) (by omega) (by omega) (by omega)
  obtain ⟨hc', he'⟩ := p.block.kept u (by omega) (by omega)
  obtain ⟨hc'', he''⟩ := p.opens.kept u hb
  exact ⟨hc.trans (hc'.trans hc''), he.trans (he'.trans he'')⟩

/-- What the parts of a graph with the `if` in it are to the parts of the `if`. -/
theorem parts (p : Branches b b₁ b₂ b₃ b₄ b₅ b₆ k cond) (h : b.Ready)
    {command : ℕ → Option (Command K S)} {outEdges : ℕ → List (Condition C S × ℕ)}
    (ha : Agrees b b₆ command outEdges) :
    Node command outEdges b.build k [(cond, b.next), (.conditionTrue, b.next + 1)] ∧
      (Agrees b₁ b₂ command outEdges ∧ Goto command outEdges b₂.build (b.next + 2)) ∧
      (Agrees b₃ b₄ command outEdges ∧ Goto command outEdges b₄.build (b.next + 2)) ∧
      Agrees b₅ b₆ command outEdges := by
  have hbuild := h.build
  have h₁ := p.opens.build
  have h₁' := p.opens.next
  have h₂ := p.block.build
  have h₂' := p.block.next
  have hr₂ := p.block.ready.build
  have h₃ := p.turns.build
  have h₃' := p.turns.next
  have h₄ := p.orElse.build
  have h₄' := p.orElse.next
  have hr₄ := p.orElse.ready.build
  have h₅ := p.closes.build
  have h₅' := p.closes.next
  have h₆ := p.rest.build
  have h₆' := p.rest.next
  refine ⟨?_, ⟨?_, ?_⟩, ⟨?_, ?_⟩, ?_⟩
  · obtain ⟨hc, he⟩ := ha b.build (.inl rfl) (by omega) (by omega)
    obtain ⟨hc', he'⟩ := p.kept_orElse (u := b.build) (by omega) (by omega) (by omega) (by omega)
    obtain ⟨hc'', he''⟩ := p.block.kept b.build (by omega) (by omega)
    refine ⟨hc.trans (hc'.trans (hc''.trans p.opens.node.1)),
      he.trans (he'.trans (he''.trans p.opens.node.2)), ?_⟩
    simp only [List.mem_cons, List.not_mem_nil, or_false, forall_eq_or_imp, forall_eq]
    omega
  · intro u hu hlt hne
    obtain ⟨hc, he⟩ := ha u (by omega) (by omega) (by omega)
    obtain ⟨hc', he'⟩ := p.kept_orElse (u := u) hlt hne (by omega) (by omega)
    exact ⟨hc.trans hc', he.trans he'⟩
  · obtain ⟨hc, he⟩ := ha b₂.build (by omega) (by omega) (by omega)
    obtain ⟨hc', he'⟩ := p.kept_rest (u := b₂.build) (by omega) (by omega) (by omega)
    obtain ⟨hc'', he''⟩ := p.orElse.kept b₂.build (by omega) (by omega)
    refine ⟨hc.trans (hc'.trans (hc''.trans p.turns.node.1)),
      he.trans (he'.trans (he''.trans p.turns.node.2)), ?_⟩
    simp only [List.mem_singleton, forall_eq]
    omega
  · intro u hu hlt hne
    obtain ⟨hc, he⟩ := ha u (by omega) (by omega) (by omega)
    obtain ⟨hc', he'⟩ := p.kept_rest (u := u) hlt hne (by omega)
    exact ⟨hc.trans hc', he.trans he'⟩
  · obtain ⟨hc, he⟩ := ha b₄.build (by omega) (by omega) (by omega)
    obtain ⟨hc', he'⟩ := p.rest.kept b₄.build (by omega) (by omega)
    refine ⟨hc.trans (hc'.trans p.closes.node.1), he.trans (he'.trans p.closes.node.2), ?_⟩
    simp only [List.mem_singleton, forall_eq]
    omega
  · intro u hu hlt hne
    exact ha u (by omega) hlt hne

end Branches

/-- The parts of a `while`: the nodes for its block come after `b.next`, then the one that
follows. -/
structure Loop (b b₁ b₂ b₃ b₄ : FunctionGraphBuilder K C S) (k : Command K S)
    (cond : Condition C S) : Prop where
  opens : Moves b (some k) [(cond, b.next), (.conditionTrue, b.next + 1)] b.next (b.next + 2) b₁
  block : Grows b₁ b₂
  closes : Moves b₂ none [(.conditionTrue, b.build)] (b.next + 1) b₂.next b₃
  rest : Grows b₃ b₄

namespace Loop

variable {b₁ b₂ b₃ b₄ : FunctionGraphBuilder K C S} {k : Command K S} {cond : Condition C S}

theorem kept_rest (p : Loop b b₁ b₂ b₃ b₄ k cond) {u : ℕ} (hu : u < b₂.next)
    (hbuild : u ≠ b₂.build) (hafter : u ≠ b.next + 1) :
    b₄.command u = b₂.command u ∧ b₄.outEdges u = b₂.outEdges u := by
  have hnext := p.closes.next
  have hb := p.closes.build
  obtain ⟨hc, he⟩ := p.rest.kept u (by omega) (by omega)
  obtain ⟨hc', he'⟩ := p.closes.kept u hbuild
  exact ⟨hc.trans hc', he.trans he'⟩

theorem grows (p : Loop b b₁ b₂ b₃ b₄ k cond) (h : b.Ready)
    (hbranch : b₃.branchStack = b.branchStack) (hbreak : b₃.breakStack = b.breakStack) :
    Grows b b₄ := by
  have hbuild := h.build
  have h₁ := p.opens.build
  have h₁' := p.opens.next
  have h₂ := p.block.build
  have h₂' := p.block.next
  have h₃ := p.closes.build
  have h₃' := p.closes.next
  have h₄ := p.rest.build
  have h₄' := p.rest.next
  refine ⟨p.rest.ready, ?_, by omega, by omega, p.rest.branchStack.trans hbranch,
    p.rest.breakStack.trans hbreak⟩
  intro u hu hb
  obtain ⟨hc, he⟩ := p.kept_rest (u := u) (by omega) (by omega) (by omega)
  obtain ⟨hc', he'⟩ := p.block.kept u (by omega) (by omega)
  obtain ⟨hc'', he''⟩ := p.opens.kept u hb
  exact ⟨hc.trans (hc'.trans hc''), he.trans (he'.trans he'')⟩

theorem parts (p : Loop b b₁ b₂ b₃ b₄ k cond) (h : b.Ready)
    {command : ℕ → Option (Command K S)} {outEdges : ℕ → List (Condition C S × ℕ)}
    (ha : Agrees b b₄ command outEdges) :
    Node command outEdges b.build (some k) [(cond, b.next), (.conditionTrue, b.next + 1)] ∧
      (Agrees b₁ b₂ command outEdges ∧ Goto command outEdges b₂.build b.build) ∧
      Agrees b₃ b₄ command outEdges := by
  have hbuild := h.build
  have h₁ := p.opens.build
  have h₁' := p.opens.next
  have h₂ := p.block.build
  have h₂' := p.block.next
  have hr₂ := p.block.ready.build
  have h₃ := p.closes.build
  have h₃' := p.closes.next
  have h₄ := p.rest.build
  have h₄' := p.rest.next
  refine ⟨?_, ⟨?_, ?_⟩, ?_⟩
  · obtain ⟨hc, he⟩ := ha b.build (.inl rfl) (by omega) (by omega)
    obtain ⟨hc', he'⟩ := p.kept_rest (u := b.build) (by omega) (by omega) (by omega)
    obtain ⟨hc'', he''⟩ := p.block.kept b.build (by omega) (by omega)
    refine ⟨hc.trans (hc'.trans (hc''.trans p.opens.node.1)),
      he.trans (he'.trans (he''.trans p.opens.node.2)), ?_⟩
    simp only [List.mem_cons, List.not_mem_nil, or_false, forall_eq_or_imp, forall_eq]
    omega
  · intro u hu hlt hne
    obtain ⟨hc, he⟩ := ha u (by omega) (by omega) (by omega)
    obtain ⟨hc', he'⟩ := p.kept_rest (u := u) hlt hne (by omega)
    exact ⟨hc.trans hc', he.trans he'⟩
  · obtain ⟨hc, he⟩ := ha b₂.build (by omega) (by omega) (by omega)
    obtain ⟨hc', he'⟩ := p.rest.kept b₂.build (by omega) (by omega)
    refine ⟨hc.trans (hc'.trans p.closes.node.1), he.trans (he'.trans p.closes.node.2), ?_⟩
    simp only [List.mem_singleton, forall_eq]
    omega
  · intro u hu hlt hne
    exact ha u (by omega) hlt hne

end Loop

/-- The node of one line, and the parts of a graph that the lines after it are in. -/
theorem Moves.parts {b₁ b₂ : FunctionGraphBuilder K C S} {k : Option (Command K S)}
    {es : List (Condition C S × ℕ)} (m : Moves b k es b.next (b.next + 1) b₁) (h : b.Ready)
    (hes : ∀ e ∈ es, e.2 ≠ b.build) (g : Grows b₁ b₂)
    {command : ℕ → Option (Command K S)} {outEdges : ℕ → List (Condition C S × ℕ)}
    (ha : Agrees b b₂ command outEdges) :
    Node command outEdges b.build k es ∧ Agrees b₁ b₂ command outEdges := by
  have hbuild := h.build
  have h₁ := m.build
  have h₁' := m.next
  have h₂ := g.build
  have h₂' := g.next
  constructor
  · obtain ⟨hc, he⟩ := ha b.build (.inl rfl) (by omega) (by omega)
    obtain ⟨hc', he'⟩ := g.kept b.build (by omega) (by omega)
    exact ⟨hc.trans (hc'.trans m.node.1), he.trans (he'.trans m.node.2), hes⟩
  · intro u hu hlt hne
    exact ha u (by omega) hlt hne

end Actions

/-- The lines of a script, from one builder to another. -/
structure Parsed (s : Script K C S) (b b' : FunctionGraphBuilder K C S) : Prop where
  grows : Grows b b'
  laid : ∀ command outEdges, Agrees b b' command outEdges →
    Laid command outEdges b.breakStack.head? s b.build b'.build

theorem breaks_next {b : FunctionGraphBuilder K C S} (h : b.Ready) {n : ℕ} (hn : b.next < n) :
    ∀ u ∈ b.breakStack, u < n ∧ u ≠ b.next := by
  intro u hu
  have hlt := (h.breaks u hu).1
  omega

/-- A line of its own, with the lines after it. -/
theorem Parsed.line {b b₁ b' : FunctionGraphBuilder K C S} {k : Option (Command K S)}
    {es : List (Condition C S × ℕ)} {s rest : Script K C S} (h : b.Ready)
    (he : b₁ = b.moved k es b.next (b.next + 1) b.branchStack b.breakStack)
    (hes : ∀ e ∈ es, e.2 ≠ b.build)
    (hlaid : ∀ command outEdges e, Node command outEdges b.build k es →
      Laid command outEdges b.breakStack.head? rest b.next e →
      Laid command outEdges b.breakStack.head? s b.build e)
    (ih : b₁.Ready → Parsed rest b₁ b') : Parsed s b b' := by
  have hr := advance_ready h k es (Nat.lt_succ_self _) b.branchStack b.breakStack
    (breaks_next h (Nat.lt_succ_self _))
  have hm := moved_moves hr
  subst he
  obtain ⟨hgrows, hrest⟩ := ih hr
  refine ⟨(hm.grows rfl rfl).trans hgrows, fun command outEdges ha => ?_⟩
  obtain ⟨hnode, ha'⟩ := hm.parts h hes hgrows ha
  exact hlaid command outEdges _ hnode (hrest command outEdges ha')

theorem endIfBlock_ready {b b₁ b₂ : FunctionGraphBuilder K C S} {k : Option (Command K S)}
    {cond : Condition C S} (h : b.Ready)
    (m : Moves b k [(cond, b.next), (.conditionTrue, b.next + 1)] b.next (b.next + 3) b₁)
    (g : Grows b₁ b₂) (branches : List ℕ) (hbreak : b₂.breakStack = b.breakStack) :
    (b₂.moved none [(.conditionTrue, b.next + 2)] (b.next + 1) b₂.next branches
      b₂.breakStack).Ready := by
  have hbuild := h.build
  have hexit := h.exit.1
  have h₁ := m.build
  have h₁' := m.next
  have h₂ := g.build
  have h₂' := g.next
  refine moved_ready g.ready _ _ (Nat.le_refl _) (by omega) (by omega) (by omega) ?_ ?_
  · intro _
    obtain ⟨hc, he⟩ := g.kept (b.next + 1) (by omega) (by omega)
    obtain ⟨hc', he'⟩ := m.kept (b.next + 1) (by omega)
    obtain ⟨hc'', he''⟩ := h.fresh (b.next + 1) (.inr (Nat.le_succ _))
    exact ⟨hc.trans (hc'.trans hc''), he.trans (he'.trans he'')⟩
  · intro u hu
    have hlt := (h.breaks u (hbreak ▸ hu)).1
    omega

theorem endElseBlock_ready {b b₁ b₂ b₃ b₄ : FunctionGraphBuilder K C S} {k : Option (Command K S)}
    {cond : Condition C S} (h : b.Ready)
    (m : Moves b k [(cond, b.next), (.conditionTrue, b.next + 1)] b.next (b.next + 3) b₁)
    (g : Grows b₁ b₂)
    (m' : Moves b₂ none [(.conditionTrue, b.next + 2)] (b.next + 1) b₂.next b₃)
    (g' : Grows b₃ b₄) (branches : List ℕ) (hbreak : b₄.breakStack = b.breakStack) :
    (b₄.moved none [(.conditionTrue, b.next + 2)] (b.next + 2) b₄.next branches
      b₄.breakStack).Ready := by
  have hbuild := h.build
  have hexit := h.exit.1
  have h₁ := m.build
  have h₁' := m.next
  have h₂ := g.build
  have h₂' := g.next
  have h₃ := m'.build
  have h₃' := m'.next
  have h₄ := g'.build
  have h₄' := g'.next
  refine moved_ready g'.ready _ _ (Nat.le_refl _) (by omega) (by omega) (by omega) ?_ ?_
  · intro _
    obtain ⟨hc, he⟩ := g'.kept (b.next + 2) (by omega) (by omega)
    obtain ⟨hc', he'⟩ := m'.kept (b.next + 2) (by omega)
    obtain ⟨hc₁, he₁⟩ := g.kept (b.next + 2) (by omega) (by omega)
    obtain ⟨hc₁', he₁'⟩ := m.kept (b.next + 2) (by omega)
    obtain ⟨hc'', he''⟩ := h.fresh (b.next + 2) (.inr (by omega))
    exact ⟨hc.trans (hc'.trans (hc₁.trans (hc₁'.trans hc''))),
      he.trans (he'.trans (he₁.trans (he₁'.trans he'')))⟩
  · intro u hu
    have hlt := (h.breaks u (hbreak ▸ hu)).1
    omega

theorem endWhileBlock_ready {b b₁ b₂ : FunctionGraphBuilder K C S} {k : Command K S}
    {cond : Condition C S} (h : b.Ready)
    (m : Moves b (some k) [(cond, b.next), (.conditionTrue, b.next + 1)] b.next (b.next + 2) b₁)
    (g : Grows b₁ b₂) (branches : List ℕ) :
    (b₂.moved none [(.conditionTrue, b.build)] (b.next + 1) b₂.next branches
      b.breakStack).Ready := by
  have hbuild := h.build
  have hexit := h.exit.1
  have h₁ := m.build
  have h₁' := m.next
  have h₂ := g.build
  have h₂' := g.next
  refine moved_ready g.ready _ _ (Nat.le_refl _) (by omega) (by omega) (by omega) ?_ ?_
  · intro _
    obtain ⟨hc, he⟩ := g.kept (b.next + 1) (by omega) (by omega)
    obtain ⟨hc', he'⟩ := m.kept (b.next + 1) (by omega)
    obtain ⟨hc'', he''⟩ := h.fresh (b.next + 1) (.inr (Nat.le_succ _))
    exact ⟨hc.trans (hc'.trans hc''), he.trans (he'.trans he'')⟩
  · intro u hu
    have hlt := (h.breaks u hu).1
    omega

/-- The parser's actions for a script put its lines into the graph, one after the other. -/
theorem parse_parsed (s : Script K C S) :
    ∀ {b b' : FunctionGraphBuilder K C S}, b.Ready → parse s b = some b' → Parsed s b b' := by
  induction s with
  | done =>
    intro b b' h hp
    obtain rfl := Option.some.inj hp
    exact ⟨.refl h, fun _ _ _ => rfl⟩
  | command k rest ih =>
    intro b b' h hp
    have hbuild := h.build
    refine .line h (seenstatement_eq h k) ?_ ?_ fun hr => ih hr hp
    · simp only [List.mem_singleton, forall_eq]
      omega
    · exact fun command outEdges e hnode hrest => ⟨b.next, hnode, hrest⟩
  | yield once rest ih =>
    intro b b' h hp
    have hbuild := h.build
    refine .line h (seenyield_eq h once) ?_ ?_ fun hr => ih hr hp
    · simp only [List.mem_singleton, forall_eq]
      omega
    · exact fun command outEdges e hnode hrest => ⟨b.next, hnode, hrest⟩
  | breakLoop rest ih =>
    intro b b' h hp
    obtain ⟨b₁, hb₁, hp⟩ := Option.bind_eq_some_iff.mp hp
    obtain ⟨top, stack, hstack, he⟩ := seenbreakstatement_eq h hb₁
    refine .line h he ?_ ?_ fun hr => ih hr hp
    · have hne := (h.breaks top (by rw [hstack]; exact List.mem_cons_self)).2
      simp only [List.mem_singleton, forall_eq]
      exact hne
    · intro command outEdges e hnode hrest
      exact ⟨⟨top, by rw [hstack]; rfl, hnode⟩, b.next, hrest⟩
  | returnNow rest ih =>
    intro b b' h hp
    refine .line h (seenreturnstatement_eq h) ?_ ?_ fun hr => ih hr hp
    · simp only [List.mem_singleton, forall_eq]
      exact h.exit.2.1.symm
    · exact fun command outEdges e hnode hrest => ⟨hnode, b.next, hrest⟩
  | ifThen k cond block orElse rest ihb ihe ih =>
    intro b b' h hp
    rw [parse, startIfStatement_eq h] at hp
    have hopen := advance_ready h k [(cond, b.next), (.conditionTrue, b.next + 1)]
      (n := b.next + 3) (by omega) ((b.next + 2) :: (b.next + 1) :: b.branchStack) b.breakStack
      (breaks_next h (by omega))
    have m₁ := moved_moves hopen
    obtain ⟨b₂, hb₂, hp⟩ := Option.bind_eq_some_iff.mp hp
    obtain ⟨g₁, l₁⟩ := ihb hopen hb₂
    rw [endIfBlock_eq g₁.ready g₁.branchStack] at hp
    have hturn := endIfBlock_ready h m₁ g₁ ((b.next + 2) :: b.branchStack) g₁.breakStack
    have m₂ := moved_moves hturn
    obtain ⟨b₄, hb₄, hp⟩ := Option.bind_eq_some_iff.mp hp
    obtain ⟨g₂, l₂⟩ := ihe hturn hb₄
    rw [endElseBlock_eq g₂.ready g₂.branchStack] at hp
    have hbreak : b₄.breakStack = b.breakStack := g₂.breakStack.trans g₁.breakStack
    have hclose := endElseBlock_ready h m₁ g₁ m₂ g₂ b.branchStack hbreak
    have m₃ := moved_moves hclose
    obtain ⟨g₃, l₃⟩ := ih hclose hp
    have p : Branches b _ b₂ _ b₄ _ b' k cond := ⟨m₁, g₁, m₂, g₂, m₃, g₃⟩
    refine ⟨p.grows h rfl hbreak, fun command outEdges ha => ?_⟩
    obtain ⟨hnode, ⟨ha₁, hgoto₁⟩, ⟨ha₂, hgoto₂⟩, ha₃⟩ := p.parts h ha
    have hl₂ := l₂ command outEdges ha₂
    have hl₃ := l₃ command outEdges ha₃
    rw [show (b₂.moved none _ _ _ _ b₂.breakStack).breakStack = b.breakStack from g₁.breakStack]
      at hl₂
    rw [show (b₄.moved none _ _ _ _ b₄.breakStack).breakStack = b.breakStack from hbreak] at hl₃
    exact ⟨b.next, b₂.build, b.next + 1, b₄.build, b.next + 2, hnode, l₁ command outEdges ha₁,
      hgoto₁, hl₂, hgoto₂, hl₃⟩
  | whileDo k cond block rest ihb ih =>
    intro b b' h hp
    rw [parse, seenwhilestatement_eq h] at hp
    have hopen := advance_ready h (some k) [(cond, b.next), (.conditionTrue, b.next + 1)]
      (n := b.next + 2) (by omega) (b.build :: (b.next + 1) :: b.branchStack)
      ((b.next + 1) :: b.breakStack) (by
        intro u hu
        rcases List.mem_cons.mp hu with rfl | hu
        · omega
        · exact breaks_next h (by omega) u hu)
    have m₁ := moved_moves hopen
    obtain ⟨b₂, hb₂, hp⟩ := Option.bind_eq_some_iff.mp hp
    obtain ⟨g₁, l₁⟩ := ihb hopen hb₂
    rw [endWhileBlock_eq g₁.ready g₁.branchStack, g₁.breakStack] at hp
    have hclose := endWhileBlock_ready h m₁ g₁ b.branchStack
    have m₂ := moved_moves hclose
    obtain ⟨g₂, l₂⟩ := ih hclose hp
    have p : Loop b _ b₂ _ b' k cond := ⟨m₁, g₁, m₂, g₂⟩
    refine ⟨p.grows h rfl rfl, fun command outEdges ha => ?_⟩
    obtain ⟨hnode, ⟨ha₁, hgoto⟩, ha₂⟩ := p.parts h ha
    exact ⟨b.next, b₂.build, b.next + 1, hnode, l₁ command outEdges ha₁, hgoto,
      l₂ command outEdges ha₂⟩

/-! ### What is built of other statements -/

theorem parse_append (s t : Script K C S) :
    ∀ b : FunctionGraphBuilder K C S, parse (s.append t) b = (parse s b).bind (parse t) := by
  induction s with
  | done => intro b; rfl
  | command k rest ih => exact fun b => ih _
  | yield once rest ih => exact fun b => ih _
  | returnNow rest ih => exact fun b => ih _
  | breakLoop rest ih =>
    intro b
    rw [Script.append, parse, parse, Option.bind_assoc]
    exact congrArg _ (funext ih)
  | ifThen k cond block orElse rest _ _ ih =>
    intro b
    rw [Script.append, parse, parse, Option.bind_assoc]
    refine congrArg _ (funext fun b => ?_)
    rw [Option.bind_assoc]
    exact congrArg _ (funext fun b => ih _)
  | whileDo k cond block rest _ ih =>
    intro b
    rw [Script.append, parse, parse, Option.bind_assoc]
    exact congrArg _ (funext fun b => ih _)

/-- The actions of the parser for a `for`. -/
theorem parse_forDo {b : FunctionGraphBuilder K C S} (h : b.Ready) (init : Option (Command K S))
    (k : Command K S) (cond : Condition C S) (incr : Option (Command K S))
    (block rest : Script K C S) :
    ((parse block (b.seenforstatement init k cond)).bind fun b =>
        parse rest (b.endforstatement incr)) =
      parse (.forDo init k cond incr block rest) b := by
  -- the block with the increment, and what comes after it
  have hblock : ∀ b : FunctionGraphBuilder K C S, b.Ready →
      ((parse block b).bind fun b => parse rest (b.endforstatement incr)) =
        (parse (block.append (incr.elim .done fun i => .command i .done)) b).bind fun b =>
          parse rest b.endWhileBlock := by
    intro b h
    rw [parse_append, Option.bind_assoc]
    refine Option.bind_congr fun b' hb' => ?_
    cases incr with
    | none => rfl
    | some i =>
      rw [endforstatement, seenvaluechange_eq (parse_parsed block h hb').grows.ready]
      rfl
  have hopen : ∀ b : FunctionGraphBuilder K C S, b.Ready → (b.seenwhilestatement k cond).Ready := by
    intro b h
    rw [seenwhilestatement_eq h]
    refine advance_ready h _ _ (by omega) _ _ fun u hu => ?_
    rcases List.mem_cons.mp hu with rfl | hu
    · omega
    · exact breaks_next h (by omega) u hu
  cases init with
  | none => exact hblock _ (hopen b h)
  | some i =>
    have hfirst : (b.seenstatement i).Ready := by
      rw [seenstatement_eq h]
      exact advance_ready h _ _ (Nat.lt_succ_self _) _ _ (breaks_next h (Nat.lt_succ_self _))
    have he : b.seenforstatement (some i) k cond =
        (b.seenstatement i).seenwhilestatement k cond := by
      rw [← seenvaluechange_eq h]
      rfl
    rw [he]
    exact hblock _ (hopen _ hfirst)

/-- The actions of the parser for a `try` with a `catch` part. -/
theorem parse_tryCatch (expr : S → Expr W) (s : S) (block rest : Script K C S)
    (b : FunctionGraphBuilder K C S) :
    ((parse block { b with
        toBuilder := (b.toBuilder.seentrystatement expr s).1.startcatchpart
          (b.toBuilder.seentrystatement expr s).2 }).bind fun b => parse rest b.seencatchpart) =
      parse (.tryCatch expr s block rest) b := by
  have he : { b with toBuilder := (b.toBuilder.seentrystatement expr s).1 } =
      b.seenstatement (Builder.tryCommandOf (C := C) expr s).1 := by
    unfold seenstatement Builder.seentrystatement
    dsimp only [setCommand]
    split
    · rfl
    · rfl
  show _ = ((parse block ((b.seenstatement _).startIfStatement _)).bind fun b =>
    parse rest b.endIfBlock.endElseBlock)
  rw [← he]
  rfl

/-! ### The program -/

theorem startFunction_ready : (startFunction : FunctionGraphBuilder K C S).Ready where
  last := rfl
  build := Nat.zero_lt_two
  fresh _ _ := ⟨rfl, rfl⟩
  exit := ⟨Nat.one_lt_two, Nat.zero_ne_one, rfl, rfl⟩
  breaks _ hu := absurd hu List.not_mem_nil

theorem seenprogramend_exit {b : FunctionGraphBuilder K C S} (h : b.Ready) :
    b.seenprogramend.command exitNode = none ∧ b.seenprogramend.outEdges exitNode = [] := by
  have he : b.seenprogramend = b.seenreturnstatement := rfl
  rw [he, seenreturnstatement_eq h]
  obtain ⟨hc, ho⟩ := (moved_moves (advance_ready h none [(.conditionTrue, exitNode)]
    (Nat.lt_succ_self _) b.branchStack b.breakStack (breaks_next h (Nat.lt_succ_self _)))).kept
      exitNode h.exit.2.1.symm
  exact ⟨hc.trans h.exit.2.2.1, ho.trans h.exit.2.2.2⟩

/-- The graph of a function with this body. -/
def program {body : Script K C S} {b : FunctionGraphBuilder K C S}
    (h : parse body startFunction = some b) : ProgramGraph ℕ (Command K S) (Condition C S) where
  startv := 0
  exitv := exitNode
  command := b.seenprogramend.command
  outEdges := b.seenprogramend.outEdges
  start_ne_exit := Nat.zero_ne_one
  exit_command := (seenprogramend_exit (parse_parsed body startFunction_ready h).grows.ready).1
  exit_outEdges := (seenprogramend_exit (parse_parsed body startFunction_ready h).grows.ready).2

/-- The body is in the graph, from the start node to one that goes to the exit node. -/
theorem program_laid {body : Script K C S} {b : FunctionGraphBuilder K C S}
    (h : parse body startFunction = some b) :
    Laid (program h).command (program h).outEdges none body 0 b.build ∧
      Goto (program h).command (program h).outEdges b.build exitNode := by
  obtain ⟨hgrows, hlaid⟩ := parse_parsed body startFunction_ready h
  have hr := hgrows.ready
  have hm := moved_moves (advance_ready hr none [(.conditionTrue, exitNode)]
    (Nat.lt_succ_self _) b.branchStack b.breakStack (breaks_next hr (Nat.lt_succ_self _)))
  rw [← seenreturnstatement_eq hr] at hm
  refine ⟨hlaid _ _ fun u _ _ hne => hm.kept u hne, hm.node.1, hm.node.2, ?_⟩
  simp only [List.mem_singleton, forall_eq]
  exact hr.exit.2.1.symm

end FunctionGraphBuilder

end Structured
end OrocosRtt.Scripting
