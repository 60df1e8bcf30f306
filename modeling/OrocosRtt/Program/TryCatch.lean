import OrocosRtt.Program.Graph
import OrocosRtt.Library.Run

/-! `try call` and `try call catch { block }`: what the parser builds for them, the command that
catches the exception, and what executing the statement comes to. -/
namespace OrocosRtt.Scripting
set_option linter.unusedSectionVars false

namespace TryCatch

/-- The tried expression. `isBool`: it is a `DataSource<bool>`. `evaluate` evaluates the arguments
and makes the call; both functions tell whether they threw. -/
structure Expr (W : Type) where
  isBool : Bool
  reset : W → W
  evaluate : W → Bool × W
  value : W → Bool × W

/-- `S` are the `try` statements of the program. The commands and conditions of other statements
are those of `K` and `C`. -/
inductive Command (K S : Type) where
  | other (k : K)
  | commandDataSource (s : S)
  /-- A `TryCommand` of a `CommandDataSourceBool` -/
  | tryCommand (s : S)

inductive Condition (C S : Type) where
  | other (c : C)
  | conditionTrue
  | conditionFalse
  /-- A `TryCommandResult` of the statement's `TryCommand`, inverted -/
  | tryCommandResult (s : S)

variable {K C S W : Type} [DecidableEq S]

/-- What the other commands know, and `_result` of every `TryCommand`. -/
abbrev Store (S W : Type) := W × (S → Bool)

def setResult (s : S) (b : Bool) (w : Store S W) : Store S W :=
  (w.1, fun s' => if s' = s then b else w.2 s')

namespace TryCommand

def reset (e : Expr W) (s : S) (w : Store S W) : Store S W := setResult s true (e.reset w.1, w.2)

def readArguments (e : Expr W) (s : S) (w : Store S W) : Store S W :=
  let r := e.evaluate w.1
  setResult s (!r.1) (r.2, w.2)

def execute (e : Expr W) (s : S) (w : Store S W) : Store S W :=
  if w.2 s = false then w
  else
    let r := e.value w.1
    setResult s (!r.1) (r.2, w.2)

end TryCommand

/-- The commands of a program with `try` statements. -/
def commands (B : Commands K C W) (expr : S → Expr W) :
    Commands (Command K S) (Condition C S) (Store S W) where
  startExecution
    | .other k, w => let r := B.startExecution k w.1; (r.1, r.2, w.2)
    | .commandDataSource s, w =>
      let r := (expr s).evaluate ((expr s).reset w.1)
      (r.1, r.2, w.2)
    | .tryCommand s, w =>
      (false, TryCommand.readArguments (expr s) s (TryCommand.reset (expr s) s w))
  execute
    | .other k, w => let r := B.execute k w.1; (r.1, r.2, w.2)
    | .commandDataSource _, w => (⟨[], false⟩, w)
    | .tryCommand s, w => (⟨[], false⟩, TryCommand.execute (expr s) s w)
  valid
    | .other k, w => B.valid k w.1
    | _, _ => true
  resetCondition
    | .other c, w => (B.resetCondition c w.1, w.2)
    | _, w => w
  evaluate
    | .other c, w => let r := B.evaluate c w.1; (r.1, r.2, w.2)
    | .conditionTrue, w => (some true, w)
    | .conditionFalse, w => (some false, w)
    -- by default true means reject
    | .tryCommandResult s, w => (some (true != w.2 s), w)

/-- The call throws when the statement is executed in this world. -/
def throws (e : Expr W) (w : W) : Bool :=
  let r := e.evaluate (e.reset w)
  r.1 || e.isBool && (e.value r.2).1

/-! ### What the parser builds -/

/-- A program in the making; its vertices are numbered in the order they were added. -/
structure Builder (K C : Type) where
  command : ℕ → Option K
  outEdges : ℕ → List (C × ℕ)
  numVertices : ℕ
  build : ℕ
  next : ℕ
  branchStack : List ℕ

namespace Builder
variable {K C : Type}

def addVertex (b : Builder K C) : ℕ × Builder K C :=
  (b.numVertices, { b with numVertices := b.numVertices + 1 })

def setCommand (com : K) (b : Builder K C) : Builder K C :=
  { b with command := fun v => if v = b.build then some com else b.command v }

def addEdge (v : ℕ) (cond : C) (w : ℕ) (b : Builder K C) : Builder K C :=
  { b with outEdges := fun u => if u = v then b.outEdges u ++ [(cond, w)] else b.outEdges u }

def buildEdges (b : Builder K C) : ℕ := (b.outEdges b.build).length

def proceedToNext (b : Builder K C) : Builder K C :=
  let r := { b with build := b.next }.addVertex
  { r.2 with next := r.1 }

def proceedToNextIf (cond : C) (b : Builder K C) : Builder K C :=
  (b.addEdge b.build cond b.next).proceedToNext

end Builder

namespace Builder
variable {K C S : Type}

def startIfStatement (cond : Condition C S) (b : Builder (Command K S) (Condition C S)) :
    Builder (Command K S) (Condition C S) :=
  let elseNode := b.addVertex
  let afterElseNode := elseNode.2.addVertex
  let b := { afterElseNode.2 with
    branchStack := afterElseNode.1 :: elseNode.1 :: afterElseNode.2.branchStack }
  let b := b.addEdge b.build cond b.next
  let b := b.addEdge b.build .conditionTrue elseNode.1
  b.proceedToNext

def endIfBlock (b : Builder (Command K S) (Condition C S)) :
    Builder (Command K S) (Condition C S) :=
  match b.branchStack with
  | afterElseNode :: elseNode :: stack =>
    { b.addEdge b.build .conditionTrue afterElseNode with
      build := elseNode
      branchStack := afterElseNode :: stack }
  | _ => b

def endElseBlock (b : Builder (Command K S) (Condition C S)) :
    Builder (Command K S) (Condition C S) :=
  match b.branchStack with
  | afterElseNode :: stack =>
    { b.addEdge b.build .conditionTrue afterElseNode with
      build := afterElseNode
      branchStack := stack }
  | [] => b

/-- The command and the condition for the catch part that are made of the expression. -/
def tryCommandOf (expr : S → Expr W) (s : S) : Command K S × Condition C S :=
  if (expr s).isBool then (.tryCommand s, .tryCommandResult s)
  else (.commandDataSource s, .conditionFalse)

/-- The second result is `try_cond`. -/
def seentrystatement (expr : S → Expr W) (s : S) (b : Builder (Command K S) (Condition C S)) :
    Builder (Command K S) (Condition C S) × Condition C S :=
  let r : Command K S × Condition C S := tryCommandOf expr s
  let b := b.setCommand r.1
  (if b.buildEdges = 0 then b.proceedToNextIf .conditionTrue else b.proceedToNext, r.2)

def startcatchpart (tryCond : Condition C S) (b : Builder (Command K S) (Condition C S)) :
    Builder (Command K S) (Condition C S) := b.startIfStatement tryCond

def seencatchpart (b : Builder (Command K S) (Condition C S)) :
    Builder (Command K S) (Condition C S) := b.endIfBlock.endElseBlock

end Builder

/-! ### What the statement does -/

/-- The nodes of a catch part: the first and the last of the block, the empty else branch, and the
node of the statement that follows. -/
structure CatchPart (V : Type) where
  block : V
  blockEnd : V
  elseNode : V
  afterElseNode : V

/-- A `try` statement in a graph: its own node and the one after it. -/
structure Statement (S V : Type) where
  site : S
  node : V
  after : V
  catchPart : Option (CatchPart V)

/-- The commands and edges are those that the parser gave the statement. -/
structure Built {V : Type} (command : V → Option (Command K S))
    (outEdges : V → List (Condition C S × V)) (expr : S → Expr W) (x : Statement S V) : Prop where
  node : command x.node = some (Builder.tryCommandOf (C := C) expr x.site).1
  edges : outEdges x.node = [(.conditionTrue, x.after)]
  after : ∀ p ∈ x.catchPart, command x.after = none ∧
    outEdges x.after = [((Builder.tryCommandOf (K := K) expr x.site).2, p.block),
      (.conditionTrue, p.elseNode)]
  elseNode : ∀ p ∈ x.catchPart, command p.elseNode = none ∧
    outEdges p.elseNode = [(.conditionTrue, p.afterElseNode)]
  blockEnd : ∀ p ∈ x.catchPart, command p.blockEnd = none ∧
    outEdges p.blockEnd = [(.conditionTrue, p.afterElseNode)]

/-! ### The parser gives it -/

namespace Builder
variable {K C S : Type}

/-- A program that goes on at `build`: nothing is known yet of this node and of the next one. -/
structure Open (b : Builder (Command K S) (Condition C S)) : Prop where
  buildLt : b.build < b.numVertices
  nextLt : b.next < b.numVertices
  ne : b.build ≠ b.next
  buildEmpty : b.command b.build = none ∧ b.outEdges b.build = []
  nextEmpty : b.command b.next = none ∧ b.outEdges b.next = []
  fresh : ∀ v, b.numVertices ≤ v → b.command v = none ∧ b.outEdges v = []

/-- What the statements of a block do to a program in the making: the nodes that are neither
`build` nor `next` are left as they are. -/
structure Block (b b' : Builder (Command K S) (Condition C S)) : Prop where
  opens : b'.Open
  stack : b'.branchStack = b.branchStack
  grows : b.numVertices ≤ b'.numVertices
  kept : ∀ v < b.numVertices, v ≠ b.build → v ≠ b.next →
    b'.command v = b.command v ∧ b'.outEdges v = b.outEdges v
  build : b'.build = b.build ∨ b'.build = b.next ∨ b.numVertices ≤ b'.build
  next : b'.next = b.build ∨ b'.next = b.next ∨ b.numVertices ≤ b'.next

theorem Block.refl {b : Builder (Command K S) (Condition C S)} (h : b.Open) : Block b b where
  opens := h
  stack := rfl
  grows := Nat.le_refl _
  kept _ _ _ _ := ⟨rfl, rfl⟩
  build := Or.inl rfl
  next := Or.inr (Or.inl rfl)

theorem Block.trans {b b' b'' : Builder (Command K S) (Condition C S)} (h : Block b b')
    (h' : Block b' b'') : Block b b'' where
  opens := h'.opens
  stack := h'.stack.trans h.stack
  grows := Nat.le_trans h.grows h'.grows
  kept v hv hb hn := by
    have hb' : v ≠ b'.build := by
      rintro rfl
      rcases h.build with he | he | he
      · exact hb he
      · exact hn he
      · omega
    have hn' : v ≠ b'.next := by
      rintro rfl
      rcases h.next with he | he | he
      · exact hb he
      · exact hn he
      · omega
    obtain ⟨hc, he⟩ := h.kept v hv hb hn
    obtain ⟨hc', he'⟩ := h'.kept v (Nat.lt_of_lt_of_le hv h.grows) hb' hn'
    exact ⟨hc'.trans hc, he'.trans he⟩
  build := by
    have hgrows := h.grows
    rcases h'.build with he | he | he
    · rw [he]; exact h.build
    · rw [he]; exact h.next
    · exact Or.inr (Or.inr (by omega))
  next := by
    have hgrows := h.grows
    rcases h'.next with he | he | he
    · rw [he]; exact h.build
    · rw [he]; exact h.next
    · exact Or.inr (Or.inr (by omega))

/-- The node of a statement is left with its command and one edge. -/
theorem seentrystatement_block (expr : S → Expr W) (s : S)
    {b : Builder (Command K S) (Condition C S)} (h : b.Open) :
    Block b (b.seentrystatement expr s).1 ∧
      (b.seentrystatement expr s).1.command b.build = some (tryCommandOf (C := C) expr s).1 ∧
      (b.seentrystatement expr s).1.outEdges b.build = [(.conditionTrue, b.next)] ∧
      (b.seentrystatement expr s).1.build = b.next ∧
      (b.seentrystatement expr s).1.next = b.numVertices ∧
      (b.seentrystatement expr s).1.numVertices = b.numVertices + 1 := by
  obtain ⟨hbuild, hnext, hne, hbuildEmpty, hnextEmpty, hfresh⟩ := h
  have heq : (b.seentrystatement expr s).1 =
      { command := fun v =>
          if v = b.build then some (tryCommandOf (C := C) expr s).1 else b.command v
        outEdges := fun u =>
          if u = b.build then b.outEdges u ++ [(.conditionTrue, b.next)] else b.outEdges u
        numVertices := b.numVertices + 1
        build := b.next
        next := b.numVertices
        branchStack := b.branchStack } := by
    have hempty : (b.outEdges b.build).length = 0 := by rw [hbuildEmpty.2]; rfl
    simp only [seentrystatement, buildEdges, setCommand, hempty, proceedToNextIf, addEdge,
      proceedToNext, addVertex, if_true]
    rfl
  rw [heq]
  refine ⟨⟨⟨?_, ?_, ?_, ?_, ?_, ?_⟩, rfl, ?_, ?_, ?_, ?_⟩, ?_, ?_, rfl, rfl, rfl⟩
  · show b.next < b.numVertices + 1
    omega
  · show b.numVertices < b.numVertices + 1
    omega
  · show b.next ≠ b.numVertices
    omega
  · simpa [hne.symm] using hnextEmpty
  · have hno : b.numVertices ≠ b.build := by omega
    simpa [hno] using hfresh b.numVertices (Nat.le_refl _)
  · intro v hv
    have hno : v ≠ b.build := by
      rintro rfl
      dsimp only at hv
      omega
    simpa [hno] using hfresh v (by dsimp only at hv; omega)
  · exact Nat.le_succ _
  · intro v _ hno _
    simp [hno]
  · exact Or.inr (Or.inl rfl)
  · exact Or.inr (Or.inr (Nat.le_refl _))
  · simp
  · simp [hbuildEmpty.2]

/-- After the begin of the catch part the program goes on in the block; its node chooses between
the block and the empty else branch, which is left for later. -/
theorem startcatchpart_opens (cond : Condition C S) {b : Builder (Command K S) (Condition C S)}
    (h : b.Open) :
    (b.startcatchpart cond).Open ∧
      (b.startcatchpart cond).branchStack =
        (b.numVertices + 1) :: b.numVertices :: b.branchStack ∧
      (b.startcatchpart cond).numVertices = b.numVertices + 3 ∧
      (b.startcatchpart cond).build = b.next ∧
      (b.startcatchpart cond).next = b.numVertices + 2 ∧
      (b.startcatchpart cond).outEdges b.build =
        [(cond, b.next), (.conditionTrue, b.numVertices)] ∧
      (b.startcatchpart cond).command = b.command ∧
      ∀ v, v ≠ b.build → (b.startcatchpart cond).outEdges v = b.outEdges v := by
  obtain ⟨hbuild, hnext, hne, hbuildEmpty, hnextEmpty, hfresh⟩ := h
  have heq : b.startcatchpart cond =
      { command := b.command
        outEdges := fun u =>
          if u = b.build then b.outEdges u ++ [(cond, b.next), (.conditionTrue, b.numVertices)]
          else b.outEdges u
        numVertices := b.numVertices + 3
        build := b.next
        next := b.numVertices + 2
        branchStack := (b.numVertices + 1) :: b.numVertices :: b.branchStack } := by
    simp only [startcatchpart, startIfStatement, addVertex, addEdge, proceedToNext]
    congr 1
    funext u
    by_cases hu : u = b.build <;> simp [hu]
  rw [heq]
  refine ⟨⟨?_, ?_, ?_, ?_, ?_, ?_⟩, rfl, rfl, rfl, rfl, ?_, rfl, ?_⟩
  · show b.next < b.numVertices + 3
    omega
  · show b.numVertices + 2 < b.numVertices + 3
    omega
  · show b.next ≠ b.numVertices + 2
    omega
  · simpa [hne.symm] using hnextEmpty
  · have hno : b.numVertices + 2 ≠ b.build := by omega
    simpa [hno] using hfresh (b.numVertices + 2) (by omega)
  · intro v hv
    have hno : v ≠ b.build := by
      rintro rfl
      dsimp only at hv
      omega
    simpa [hno] using hfresh v (by dsimp only at hv; omega)
  · simp [hbuildEmpty.2]
  · intro v hv
    simp [hv]

/-- The end of the catch part: the block and the else branch come together. -/
theorem seencatchpart_eq {b : Builder (Command K S) (Condition C S)} {afterElse elseNode : ℕ}
    {stack : List ℕ} (hstack : b.branchStack = afterElse :: elseNode :: stack)
    (hne : b.build ≠ elseNode) :
    b.seencatchpart =
      { b with
        outEdges := fun u =>
          if u = b.build ∨ u = elseNode then b.outEdges u ++ [(.conditionTrue, afterElse)]
          else b.outEdges u
        build := afterElse
        branchStack := stack } := by
  simp only [seencatchpart, endIfBlock, hstack, addEdge, endElseBlock]
  congr 1
  funext u
  by_cases hu : u = elseNode
  · have hno : u ≠ b.build := fun h => hne (h.symm.trans hu)
    simp [hu, hne.symm]
  · by_cases hu' : u = b.build
    · simp [hu', hne]
    · simp [hu, hu']

/-- The nodes of a statement, by the program before it and at the end of its block. -/
def statementAt (s : S) (b b₁ b₃ : Builder (Command K S) (Condition C S)) : Statement S ℕ where
  site := s
  node := b.build
  after := b.next
  catchPart := some {
    block := b₁.next
    blockEnd := b₃.build
    elseNode := b₁.numVertices
    afterElseNode := b₁.numVertices + 1 }

/-- `try call` -/
theorem seentrystatement_built (expr : S → Expr W) (s : S)
    {b : Builder (Command K S) (Condition C S)} (h : b.Open) :
    Built (b.seentrystatement expr s).1.command (b.seentrystatement expr s).1.outEdges expr
      ⟨s, b.build, b.next, none⟩ := by
  obtain ⟨-, hcommand, hedges, -⟩ := seentrystatement_block expr s h
  exact ⟨hcommand, hedges, nofun, nofun, nofun⟩

/-- `try call catch { block }`, with any statements in the block that leave the nodes that are done
with as they are; the statement itself is one of these. -/
theorem seencatchpart_built (expr : S → Expr W) (s : S)
    {b b₃ : Builder (Command K S) (Condition C S)} (h : b.Open)
    (hblock : Block ((b.seentrystatement expr s).1.startcatchpart (b.seentrystatement expr s).2)
      b₃) :
    Block b b₃.seencatchpart ∧
      Built b₃.seencatchpart.command b₃.seencatchpart.outEdges expr
        (statementAt s b (b.seentrystatement expr s).1 b₃) := by
  obtain ⟨htry, hcommand, hedges, hbuild₁, hnext₁, hnum₁⟩ := seentrystatement_block expr s h
  have hcond : (b.seentrystatement expr s).2 = (tryCommandOf (K := K) expr s).2 := rfl
  revert htry hcommand hedges hbuild₁ hnext₁ hnum₁ hblock
  rw [hcond]
  generalize (b.seentrystatement expr s).1 = b₁
  intro hblock htry hcommand hedges hbuild₁ hnext₁ hnum₁
  obtain ⟨hopen₂, hstack₂, hnum₂, hbuild₂, hnext₂, hedges₂, hcommand₂, hkept₂⟩ :=
    startcatchpart_opens (tryCommandOf (K := K) expr s).2 htry.opens
  revert hblock hopen₂ hstack₂ hnum₂ hbuild₂ hnext₂ hedges₂ hcommand₂ hkept₂
  generalize b₁.startcatchpart (tryCommandOf (K := K) expr s).2 = b₂
  intro hblock hopen₂ hstack₂ hnum₂ hbuild₂ hnext₂ hedges₂ hcommand₂ hkept₂
  have hbuildLt := h.buildLt
  have hnextLt := h.nextLt
  have hgrows := hblock.grows
  -- where the program goes on within the block
  have hbuild₃ : b.numVertices ≤ b₃.build ∧ b₃.build ≠ b.numVertices + 1 ∧
      b₃.build ≠ b.numVertices + 2 := by
    rcases hblock.build with he | he | he <;> omega
  have hnext₃ : b.numVertices ≤ b₃.next ∧ b₃.next ≠ b.numVertices + 1 ∧
      b₃.next ≠ b.numVertices + 2 := by
    rcases hblock.next with he | he | he <;> omega
  have hkept₃ : ∀ v, v < b.numVertices + 3 → v ≠ b.numVertices → b₃.command v = b₁.command v ∧
      (v ≠ b.next → b₃.outEdges v = b₁.outEdges v) := by
    intro v hv hne
    obtain ⟨hc, he⟩ := hblock.kept v (by omega) (by omega) (by omega)
    refine ⟨hc.trans (congrFun hcommand₂ v), fun hno => he.trans (hkept₂ v ?_)⟩
    rw [hbuild₁]
    exact hno
  have hafter : b₃.outEdges b.next =
      [((tryCommandOf (K := K) expr s).2, b₁.next), (.conditionTrue, b₁.numVertices)] := by
    rw [(hblock.kept b.next (by omega) (by omega) (by omega)).2, ← hbuild₁]
    exact hedges₂
  have hend : b₃.seencatchpart =
      { b₃ with
        outEdges := fun u =>
          if u = b₃.build ∨ u = b₁.numVertices then
            b₃.outEdges u ++ [(.conditionTrue, b₁.numVertices + 1)]
          else b₃.outEdges u
        build := b₁.numVertices + 1
        branchStack := b₁.branchStack } :=
    seencatchpart_eq (hblock.stack.trans hstack₂) (by omega)
  rw [hend]
  have hsame : ∀ v, v ≠ b₃.build → v ≠ b.numVertices + 1 →
      (if v = b₃.build ∨ v = b₁.numVertices then
        b₃.outEdges v ++ [(Condition.conditionTrue, b₁.numVertices + 1)]
      else b₃.outEdges v) = b₃.outEdges v := by
    intro v hv hv'
    refine if_neg ?_
    rintro (he | he)
    · exact hv he
    · exact hv' (he.trans hnum₁)
  have hfresh₁ := htry.opens.fresh
  constructor
  · refine ⟨⟨?_, hblock.opens.nextLt, ?_, ?_, ?_, ?_⟩, htry.stack, ?_, ?_, ?_, ?_⟩
    · show b₁.numVertices + 1 < b₃.numVertices
      omega
    · show b₁.numVertices + 1 ≠ b₃.next
      omega
    · obtain ⟨hc, he⟩ := hkept₃ (b₁.numVertices + 1) (by omega) (by omega)
      obtain ⟨hc₁, he₁⟩ := hfresh₁ (b₁.numVertices + 1) (by omega)
      exact ⟨hc.trans hc₁,
        (hsame (b₁.numVertices + 1) (by omega) (by omega)).trans ((he (by omega)).trans he₁)⟩
    · obtain ⟨hc, he⟩ := hblock.opens.nextEmpty
      exact ⟨hc, (hsame _ hblock.opens.ne.symm (by omega)).trans he⟩
    · intro v hv
      have hlt := hblock.opens.buildLt
      obtain ⟨hc, he⟩ := hblock.opens.fresh v hv
      dsimp only at hv
      exact ⟨hc, (hsame _ (by omega) (by omega)).trans he⟩
    · show b.numVertices ≤ b₃.numVertices
      omega
    · intro v hv hnb hnn
      obtain ⟨hc, he⟩ := hkept₃ v (by omega) (by omega)
      obtain ⟨hc₁, he₁⟩ := htry.kept v hv hnb hnn
      exact ⟨hc.trans hc₁, (hsame _ (by omega) (by omega)).trans ((he hnn).trans he₁)⟩
    · show b₁.numVertices + 1 = b.build ∨ b₁.numVertices + 1 = b.next ∨
        b.numVertices ≤ b₁.numVertices + 1
      omega
    · exact Or.inr (Or.inr hnext₃.1)
  · refine ⟨?_, ?_, ?_, ?_, ?_⟩
    · exact (hkept₃ b.build (by omega) (by omega)).1.trans hcommand
    · have he := (hkept₃ b.build (by omega) (by omega)).2 h.ne
      exact (hsame b.build (by omega) (by omega)).trans (he.trans hedges)
    · intro p hp
      obtain rfl := Option.some.inj hp
      have hc := (hkept₃ b.next (by omega) (by omega)).1
      refine ⟨hc.trans ?_, (hsame b.next (by omega) (by omega)).trans hafter⟩
      rw [← hbuild₁]
      exact htry.opens.buildEmpty.1
    · intro p hp
      obtain rfl := Option.some.inj hp
      obtain ⟨hc, he⟩ := hkept₃ b₁.numVertices (by omega) (by omega)
      obtain ⟨hc₁, he₁⟩ := hfresh₁ b₁.numVertices (Nat.le_refl _)
      refine ⟨hc.trans hc₁, (if_pos (Or.inr rfl)).trans ?_⟩
      rw [he (by omega), he₁]
      rfl
    · intro p hp
      obtain rfl := Option.some.inj hp
      refine ⟨hblock.opens.buildEmpty.1, (if_pos (Or.inl rfl)).trans ?_⟩
      rw [hblock.opens.buildEmpty.2]
      rfl

end Builder

section
variable {V : Type} [DecidableEq V]
variable (G : ProgramGraph V (Command K S) (Condition C S)) (B : Commands K C W) (expr : S → Expr W)

/-- One execution of a node, which throws nothing, leaves the program's status as it is and goes
to the next node. -/
structure Goes (s : FunctionGraph V (Condition C S) (Store S W)) (v : V) : Prop where
  threw : (s.turn G (commands B expr)).1 = false
  status : (s.turn G (commands B expr)).2.toProgram = s.toProgram
  current : (s.turn G (commands B expr)).2.current = v

/-- The statement is executed as it should be from here: no error, then the catch block if and
only if the call throws, whatever has happened to the program in between, and then the statement
that follows. -/
structure Handled (x : Statement S V) (s : FunctionGraph V (Condition C S) (Store S W)) :
    Prop where
  node : Goes G B expr s x.after
  catches : ∀ p ∈ x.catchPart, ∀ t : FunctionGraph V (Condition C S) (Store S W),
    t.current = x.after → t.world.2 x.site = (s.turn G (commands B expr)).2.world.2 x.site →
    Goes G B expr t (if throws (expr x.site) s.world.1 then p.block else p.elseNode)
  continues : ∀ p ∈ x.catchPart, ∀ t : FunctionGraph V (Condition C S) (Store S W),
    t.current = p.elseNode ∨ t.current = p.blockEnd → Goes G B expr t p.afterElseNode

variable {G B expr}

variable (B expr) in
/-- Resetting conditions of `try` statements does nothing. -/
theorem resetConditions_own {es : List (Condition C S × V)}
    (hes : ∀ e ∈ es, ∀ c, e.1 ≠ .other c) :
    ∀ s : FunctionGraph V (Condition C S) (Store S W),
      (s.resetConditions (commands B expr) es).world = s.world ∧
        (s.resetConditions (commands B expr) es).toProgram = s.toProgram ∧
        (s.resetConditions (commands B expr) es).current = s.current := by
  induction es with
  | nil => intro s; exact ⟨rfl, rfl, rfl⟩
  | cons e es ih =>
    intro s
    have hown := hes e List.mem_cons_self
    have hnone : (commands B expr).resetCondition e.1 s.world = s.world := by
      obtain ⟨c, v⟩ := e
      cases c with
      | other c => exact absurd rfl (hown c)
      | conditionTrue => rfl
      | conditionFalse => rfl
      | tryCommandResult s => rfl
    obtain ⟨hw, hp, hc⟩ := ih (fun e he => hes e (List.mem_cons_of_mem _ he))
      ((s.setWorld ((commands B expr).resetCondition e.1 s.world)).note (.resetCondition e.1))
    exact ⟨hw.trans hnone, hp, hc⟩

/-- The state in which the edges of a node are looked at. -/
structure Selects (G : ProgramGraph V (Command K S) (Condition C S)) (B : Commands K C W)
    (expr : S → Expr W) (s t : FunctionGraph V (Condition C S) (Store S W)) (w : Store S W) :
    Prop where
  world : t.world = w
  status : t.toProgram = s.toProgram
  turn : s.turn G (commands B expr) = t.branch (commands B expr) (G.outEdges s.current)

variable (B expr) in
theorem turn_nop {s : FunctionGraph V (Condition C S) (Store S W)}
    (hcommand : G.command s.current = none)
    (hown : ∀ e ∈ G.outEdges s.current, ∀ c, e.1 ≠ .other c) :
    ∃ t, Selects G B expr s t s.world := by
  have hstart : ∃ t, (s.note (.vertex s.current)).startVertex G (commands B expr) = (false, t) ∧
      t.world = s.world ∧ t.toProgram = s.toProgram ∧ t.current = s.current := by
    unfold FunctionGraph.startVertex
    split
    · exact ⟨_, rfl, rfl, rfl, rfl⟩
    · obtain ⟨hw, hp, hc⟩ := resetConditions_own B expr hown
        (s.note (.vertex s.current))
      refine ⟨((s.note (.vertex s.current)).resetConditions (commands B expr)
        (G.outEdges s.current)).note (.startExecution s.current), ?_, hw, hp, hc⟩
      dsimp only [FunctionGraph.note] at hc ⊢
      rw [hc, hcommand]
  obtain ⟨t, hstart, hw, hp, hc⟩ := hstart
  refine ⟨{ t with previous := t.current }.note (.execute t.current), hw, hp, ?_⟩
  unfold FunctionGraph.turn
  dsimp only
  rw [hstart]
  simp only [FunctionGraph.executeVertex, FunctionGraph.isValid, FunctionGraph.note, hc, hcommand,
    Bool.false_eq_true, if_false, if_true]

variable (B expr) in
/-- How the command of a node is begun when the program comes to it. -/
theorem startVertex_own {s : FunctionGraph V (Condition C S) (Store S W)} {k : Command K S}
    (hcommand : G.command s.current = some k) (hprev : s.previous ≠ s.current)
    (hown : ∀ e ∈ G.outEdges s.current, ∀ c, e.1 ≠ .other c) :
    ∃ t, s.startVertex G (commands B expr) =
        (((commands B expr).startExecution k s.world).1, t) ∧
      t.world = ((commands B expr).startExecution k s.world).2 ∧
      t.toProgram = s.toProgram ∧ t.current = s.current := by
  obtain ⟨hw, hp, hc⟩ := resetConditions_own B expr hown s
  refine ⟨((s.resetConditions (commands B expr) (G.outEdges s.current)).setWorld
    ((commands B expr).startExecution k s.world).2).note (.startExecution s.current), ?_,
    rfl, hp, hc⟩
  unfold FunctionGraph.startVertex
  rw [if_neg hprev]
  dsimp only
  rw [hc, hcommand]
  dsimp only
  rw [hw]

variable (B expr) in
/-- A node with a command that does not throw nor ask anything of the program. -/
theorem turn_command {s : FunctionGraph V (Condition C S) (Store S W)} {k : Command K S}
    {w : Store S W} (hcommand : G.command s.current = some k) (hprev : s.previous ≠ s.current)
    (hown : ∀ e ∈ G.outEdges s.current, ∀ c, e.1 ≠ .other c)
    (hstart : (commands B expr).startExecution k s.world = (false, w))
    (hquiet : ((commands B expr).execute k w).1 = ⟨[], false⟩)
    (hvalid : (commands B expr).valid k ((commands B expr).execute k w).2 = true) :
    ∃ t, Selects G B expr s t ((commands B expr).execute k w).2 := by
  obtain ⟨t, hbegin, hw, hp, hc⟩ :=
    startVertex_own B expr (s := s.note (.vertex s.current)) hcommand hprev hown
  have hbegin' : (s.note (.vertex s.current)).startVertex G (commands B expr) = (false, t) :=
    hbegin.trans (congrArg (fun r : Bool × _ => (r.1, t)) hstart)
  have hw' : t.world = w := hw.trans (congrArg Prod.snd hstart)
  have hc' : t.current = s.current := hc
  refine ⟨(({ t with previous := t.current }).setWorld
    ((commands B expr).execute k w).2).note (.execute t.current), rfl, hp, ?_⟩
  simp only [FunctionGraph.turn, hbegin', Bool.false_eq_true, if_false]
  simp only [FunctionGraph.executeVertex, FunctionGraph.note, FunctionGraph.setWorld]
  simp only [hc', hw', hcommand, hquiet, List.foldl_nil, Bool.false_eq_true, if_false,
    FunctionGraph.isValid, hvalid, if_true]

theorem turn_threw {s : FunctionGraph V (Condition C S) (Store S W)} {k : Command K S}
    (hcommand : G.command s.current = some k) (hprev : s.previous ≠ s.current)
    (hown : ∀ e ∈ G.outEdges s.current, ∀ c, e.1 ≠ .other c)
    (hstart : ((commands B expr).startExecution k s.world).1 = true) :
    (s.turn G (commands B expr)).1 = true := by
  obtain ⟨t, hbegin, -⟩ :=
    startVertex_own B expr (s := s.note (.vertex s.current)) hcommand hprev hown
  have hthrew : ((s.note (.vertex s.current)).startVertex G (commands B expr)).1 = true :=
    (congrArg Prod.fst hbegin).trans hstart
  simp only [FunctionGraph.turn, hthrew, if_true]

/-- `_result` after the execution of a tried command tells whether it threw. -/
theorem execute_result (e : Expr W) (s : S) (w : Store S W) (hbool : e.isBool = true) :
    (TryCommand.execute e s (TryCommand.readArguments e s (TryCommand.reset e s w))).2 s =
      !throws e w.1 := by
  unfold TryCommand.execute TryCommand.readArguments TryCommand.reset throws
  simp only [setResult, if_true, hbool, Bool.true_and]
  cases (e.evaluate (e.reset w.1)).1 <;> simp

/-- An edge that is always taken. -/
theorem Selects.goes {s t : FunctionGraph V (Condition C S) (Store S W)} {w : Store S W} {v : V}
    (h : Selects G B expr s t w) (hedges : G.outEdges s.current = [(.conditionTrue, v)]) :
    Goes G B expr s v ∧ (s.turn G (commands B expr)).2.world = w := by
  have hturn := h.turn
  rw [hedges] at hturn
  refine ⟨⟨?_, ?_, ?_⟩, ?_⟩
  · rw [hturn]; rfl
  · rw [hturn]; exact h.status
  · rw [hturn]; rfl
  · rw [hturn]; exact h.world

theorem goes_nop {s : FunctionGraph V (Condition C S) (Store S W)} {v : V}
    (hcommand : G.command s.current = none)
    (hedges : G.outEdges s.current = [(.conditionTrue, v)]) : Goes G B expr s v := by
  obtain ⟨t, h⟩ := turn_nop B expr hcommand (by rw [hedges]; simp)
  exact (h.goes hedges).1

/-- The node of the catch part: its condition tells where it goes. -/
theorem goes_catch {s : FunctionGraph V (Condition C S) (Store S W)} {cond : Condition C S}
    {b : Bool} {u v : V} (hcommand : G.command s.current = none)
    (hown : ∀ c, cond ≠ .other c)
    (heval : (commands B expr).evaluate cond s.world = (some b, s.world))
    (hedges : G.outEdges s.current = [(cond, u), (.conditionTrue, v)]) :
    Goes G B expr s (if b then u else v) := by
  obtain ⟨t, h⟩ := turn_nop B expr hcommand (by rw [hedges]; simpa using hown)
  have hturn := h.turn
  rw [hedges, FunctionGraph.branch, h.world, heval] at hturn
  cases b with
  | true =>
    refine ⟨?_, ?_, ?_⟩
    · rw [hturn]
    · rw [hturn]; exact h.status
    · rw [hturn]; rfl
  | false =>
    refine ⟨?_, ?_, ?_⟩
    · rw [hturn]; rfl
    · rw [hturn]; exact h.status
    · rw [hturn]; rfl

/-- A `try` statement is executed as it should be if and only if its expression is a
`DataSource<bool>` or does not throw this time. -/
theorem handled_iff {x : Statement S V} (hx : Built G.command G.outEdges expr x)
    {s : FunctionGraph V (Condition C S) (Store S W)} (hcurrent : s.current = x.node)
    (hprev : s.previous ≠ x.node) :
    Handled G B expr x s ↔
      (expr x.site).isBool = true ∨ throws (expr x.site) s.world.1 = false := by
  have hprev' : s.previous ≠ s.current := by rw [hcurrent]; exact hprev
  have hedges : G.outEdges s.current = [(.conditionTrue, x.after)] := by
    rw [hcurrent]; exact hx.edges
  have hown : ∀ e ∈ G.outEdges s.current, ∀ c, e.1 ≠ Condition.other c := by
    rw [hedges]; simp
  have hnode : G.command s.current = some (Builder.tryCommandOf (C := C) expr x.site).1 := by
    rw [hcurrent]; exact hx.node
  constructor
  · intro h
    by_contra hno
    have hbool : (expr x.site).isBool = false := by
      cases hb : (expr x.site).isBool with
      | true => exact absurd (Or.inl hb) hno
      | false => rfl
    have hthrows : throws (expr x.site) s.world.1 = true := by
      cases ht : throws (expr x.site) s.world.1 with
      | true => rfl
      | false => exact absurd (Or.inr ht) hno
    have hfailed : (s.turn G (commands B expr)).1 = true := by
      refine turn_threw hnode hprev' hown ?_
      simpa [Builder.tryCommandOf, hbool, commands, throws] using hthrows
    rw [h.node.threw] at hfailed
    cases hfailed
  · intro hgood
    have hselects : ∃ t w, Selects G B expr s t w ∧ ∀ w' : Store S W, w'.2 x.site = w.2 x.site →
        (commands B expr).evaluate (Builder.tryCommandOf (K := K) (C := C) expr x.site).2 w' =
          (some (throws (expr x.site) s.world.1), w') := by
      cases hb : (expr x.site).isBool with
      | true =>
        have hcommand : G.command s.current = some (.tryCommand x.site) := by
          rw [hnode]; simp [Builder.tryCommandOf, hb]
        obtain ⟨t, ht⟩ := turn_command B expr hcommand hprev' hown rfl rfl rfl
        refine ⟨t, _, ht, ?_⟩
        intro w' hw'
        have hresult := hw'.trans (execute_result (expr x.site) x.site s.world hb)
        simp only [Builder.tryCommandOf, hb, if_true, commands]
        rw [hresult]
        simp
      | false =>
        have hcommand : G.command s.current = some (.commandDataSource x.site) := by
          rw [hnode]; simp [Builder.tryCommandOf, hb]
        have hthrows : throws (expr x.site) s.world.1 = false := by
          rcases hgood with h | h
          · rw [hb] at h; cases h
          · exact h
        have hstart : ((expr x.site).evaluate ((expr x.site).reset s.world.1)).1 = false := by
          simpa [throws, hb] using hthrows
        have hbegin : (commands B expr).startExecution (.commandDataSource x.site) s.world =
            (false, ((expr x.site).evaluate ((expr x.site).reset s.world.1)).2, s.world.2) := by
          rw [← hstart]; rfl
        obtain ⟨t, ht⟩ := turn_command B expr hcommand hprev' hown hbegin rfl rfl
        refine ⟨t, _, ht, ?_⟩
        intro w' _
        rw [hthrows]
        simp [Builder.tryCommandOf, hb, commands]
    obtain ⟨t, w, ht, heval⟩ := hselects
    obtain ⟨hgoes, hworld⟩ := ht.goes hedges
    refine ⟨hgoes, ?_, ?_⟩
    · intro p hp t ht hresult
      obtain ⟨hafter, hbranches⟩ := hx.after p hp
      rw [hworld] at hresult
      refine goes_catch (by rw [ht]; exact hafter) ?_ (heval _ hresult)
        (by rw [ht]; exact hbranches)
      unfold Builder.tryCommandOf
      split <;> nofun
    · rintro p hp t (ht | ht)
      · obtain ⟨hcommand, hout⟩ := hx.elseNode p hp
        exact goes_nop (by rw [ht]; exact hcommand) (by rw [ht]; exact hout)
      · obtain ⟨hcommand, hout⟩ := hx.blockEnd p hp
        exact goes_nop (by rw [ht]; exact hcommand) (by rw [ht]; exact hout)

end

/-! A function that consists of one `try` statement with an empty catch part. -/

/-- A program in the making as `startFunction` leaves it, with its start and exit nodes. -/
def startFunction : Builder (Command Unit Unit) (Condition Unit Unit) where
  command _ := none
  outEdges _ := []
  numVertices := 3
  build := 0
  next := 2
  branchStack := []

/-- The only expression of the program throws whenever it is evaluated. -/
def throwing (isBool : Bool) (_ : Unit) : Expr Unit where
  isBool := isBool
  reset w := w
  evaluate w := (true, w)
  value w := (false, w)

def tryBuilder (isBool : Bool) : Builder (Command Unit Unit) (Condition Unit Unit) :=
  let r := startFunction.seentrystatement (throwing isBool) ()
  let b := (r.1.startcatchpart r.2).seencatchpart
  b.addEdge b.build .conditionTrue 1

def tryProgram (isBool : Bool) : ProgramGraph ℕ (Command Unit Unit) (Condition Unit Unit) where
  startv := 0
  exitv := 1
  command := (tryBuilder isBool).command
  outEdges := (tryBuilder isBool).outEdges
  start_ne_exit := by decide
  exit_command := rfl
  exit_outEdges := rfl

def tryStatement : Statement Unit ℕ := ⟨(), 0, 2, some ⟨3, 3, 4, 5⟩⟩

def noCommands : Commands Unit Unit Unit where
  startExecution _ w := (false, w)
  execute _ w := (⟨[], false⟩, w)
  valid _ _ := true
  resetCondition _ w := w
  evaluate _ w := (some true, w)

theorem tryProgram_built (isBool : Bool) :
    Built (tryProgram isBool).command (tryProgram isBool).outEdges (throwing isBool)
      tryStatement := by
  refine ⟨rfl, rfl, ?_, ?_, ?_⟩
  · intro p hp
    obtain rfl := Option.some.inj hp
    exact ⟨rfl, rfl⟩
  · intro p hp
    obtain rfl := Option.some.inj hp
    exact ⟨rfl, rfl⟩
  · intro p hp
    obtain rfl := Option.some.inj hp
    exact ⟨rfl, rfl⟩

/-- A call with a `bool` result throws, and the statement catches it. -/
theorem handled_bool :
    Handled (tryProgram true) noCommands (throwing true) tryStatement
      (.loaded true (tryProgram true) ((), fun _ => true)) :=
  (handled_iff (tryProgram_built true) rfl (by decide)).mpr (Or.inl rfl)

/-- A call without a `bool` result throws, and the program is in error. -/
theorem not_handled :
    let s : FunctionGraph ℕ (Condition Unit Unit) (Store Unit Unit) :=
      .loaded true (tryProgram false) ((), fun _ => true)
    ¬ Handled (tryProgram false) noCommands (throwing false) tryStatement s ∧
      (s.pass (tryProgram false) (commands noCommands (throwing false))).pStatus = .error := by
  refine ⟨?_, rfl⟩
  intro h
  have hthrew := h.node.threw
  cases hthrew

end TryCatch
end OrocosRtt.Scripting
