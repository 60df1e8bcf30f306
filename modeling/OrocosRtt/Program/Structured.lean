import Mathlib.Data.List.Forall2
import OrocosRtt.Program.Builder
import OrocosRtt.Program.Simulation

/-! A script as a graph of its own: its nodes are what is left of it to do. The graph that the parser
builds runs as this one does. -/
namespace OrocosRtt.Scripting
set_option linter.unusedSectionVars false

namespace Structured
open TryCatch FunctionGraphBuilder

variable {K C S W : Type}

deriving instance DecidableEq for Command
deriving instance DecidableEq for Condition
deriving instance DecidableEq for Script

/-! ### What is left to do -/

/-- What comes after the lines of a block. -/
inductive Frame (K C S : Type) where
  | block (rest : Script K C S)
  | again (k : Command K S) (cond : Condition C S) (block rest : Script K C S)
  deriving DecidableEq

/-- The lines from here on and the blocks they are in, the innermost first; `none` is the end. -/
abbrev Point (K C S : Type) := Option (Script K C S × List (Frame K C S))

/-- `break` leaves the innermost loop. -/
def afterLoop : List (Frame K C S) → Point K C S
  | [] => none
  | .block _ :: fs => afterLoop fs
  | .again _ _ _ rest :: fs => some (rest, fs)

def pointCommand : Script K C S → Option (Command K S)
  | .command k _ => some k
  | .ifThen k _ _ _ _ => k
  | .whileDo k _ _ _ => some k
  | _ => none

def pointEdges : Script K C S → List (Frame K C S) → List (Condition C S × Point K C S)
  | .done, [] => [(.conditionTrue, none)]
  | .done, .block rest :: fs => [(.conditionTrue, some (rest, fs))]
  | .done, .again k cond block rest :: fs =>
    [(.conditionTrue, some (.whileDo k cond block rest, fs))]
  | .command _ rest, fs => [(.conditionTrue, some (rest, fs))]
  | .yield once rest, fs => [(once, some (rest, fs))]
  | .ifThen _ cond block orElse rest, fs =>
    [(cond, some (block, .block rest :: fs)), (.conditionTrue, some (orElse, .block rest :: fs))]
  | .whileDo k cond block rest, fs =>
    [(cond, some (block, .again k cond block rest :: fs)), (.conditionTrue, some (rest, fs))]
  | .breakLoop _, fs => [(.conditionTrue, afterLoop fs)]
  | .returnNow _, _ => [(.conditionTrue, none)]

/-- The graph of what is left to do, from the whole body on. -/
def structured (body : Script K C S) :
    ProgramGraph (Point K C S) (Command K S) (Condition C S) where
  startv := some (body, [])
  exitv := none
  command p := p.bind fun q => pointCommand q.1
  outEdges p := p.elim [] fun q => pointEdges q.1 q.2
  start_ne_exit := by simp
  exit_command := rfl
  exit_outEdges := rfl

/-! ### Where it is in a graph -/

section Places

variable (command : ℕ → Option (Command K S)) (outEdges : ℕ → List (Condition C S × ℕ))

/-- The lines of a block go on in `e`, with what comes after them; a `break` among them goes to
`top`. -/
def Framed : List (Frame K C S) → ℕ → Option ℕ → Prop
  | [], e, top => Goto command outEdges e exitNode ∧ top = none
  | .block rest :: fs, e, top => ∃ u e', Goto command outEdges e u ∧
      Laid command outEdges top rest u e' ∧ Framed fs e' top
  | .again k cond block rest :: fs, e, top => ∃ v vb u e' top',
      Goto command outEdges e v ∧ top = some u ∧
      Node command outEdges v (some k) [(cond, vb), (.conditionTrue, u)] ∧
      Laid command outEdges top block vb e ∧ Laid command outEdges top' rest u e' ∧
      Framed fs e' top'

/-- The node is that of what is left to do. -/
def At (v : ℕ) : Point K C S → Prop
  | none => v = exitNode
  | some (s, fs) => ∃ e top, Laid command outEdges top s v e ∧ Framed command outEdges fs e top

end Places

section
variable {command : ℕ → Option (Command K S)} {outEdges : ℕ → List (Condition C S × ℕ)}

theorem Framed.afterLoop {fs : List (Frame K C S)} {e u : ℕ}
    (h : Framed command outEdges fs e (some u)) :
    At command outEdges u (Structured.afterLoop fs) := by
  induction fs generalizing e with
  | nil => cases h.2
  | cons f fs ih =>
    cases f with
    | block rest =>
      obtain ⟨_, e', -, -, hf⟩ := h
      exact ih hf
    | again k cond block rest =>
      obtain ⟨_, _, u', e', top', -, htop, -, -, hrest, hf⟩ := h
      obtain rfl := Option.some.inj htop
      exact ⟨e', top', hrest, hf⟩

/-- The node of a line has its command and, to nodes of what is left then, its edges. -/
theorem At.node {v : ℕ} {s : Script K C S} {fs : List (Frame K C S)}
    (h : At command outEdges v (some (s, fs))) : ∃ es,
      Node command outEdges v (pointCommand s) es ∧
        List.Forall₂ (fun e e' => e.1 = e'.1 ∧ At command outEdges e.2 e'.2) es
          (pointEdges s fs) := by
  obtain ⟨e, top, hlaid, hframed⟩ := h
  cases s with
  | done =>
    obtain rfl : v = e := hlaid
    cases fs with
    | nil => exact ⟨_, hframed.1, .cons ⟨rfl, rfl⟩ .nil⟩
    | cons f fs =>
      cases f with
      | block rest =>
        obtain ⟨u, e', hgoto, hrest, hf⟩ := hframed
        exact ⟨_, hgoto, .cons ⟨rfl, e', top, hrest, hf⟩ .nil⟩
      | again k cond block rest =>
        obtain ⟨w, vb, u, e', top', hgoto, rfl, hnode, hblock, hrest, hf⟩ := hframed
        exact ⟨_, hgoto, .cons ⟨rfl, e', top', ⟨vb, v, u, hnode, hblock, hgoto, hrest⟩, hf⟩ .nil⟩
  | command k rest =>
    obtain ⟨u, hnode, hrest⟩ := hlaid
    exact ⟨_, hnode, .cons ⟨rfl, e, top, hrest, hframed⟩ .nil⟩
  | yield once rest =>
    obtain ⟨u, hnode, hrest⟩ := hlaid
    exact ⟨_, hnode, .cons ⟨rfl, e, top, hrest, hframed⟩ .nil⟩
  | ifThen k cond block orElse rest =>
    obtain ⟨vb, eb, ve, ee, u, hnode, hblock, hgoto, helse, hgoto', hrest⟩ := hlaid
    exact ⟨_, hnode, .cons ⟨rfl, eb, top, hblock, u, e, hgoto, hrest, hframed⟩
      (.cons ⟨rfl, ee, top, helse, u, e, hgoto', hrest, hframed⟩ .nil)⟩
  | whileDo k cond block rest =>
    obtain ⟨vb, eb, u, hnode, hblock, hgoto, hrest⟩ := hlaid
    exact ⟨_, hnode, .cons ⟨rfl, eb, some u, hblock, v, vb, u, e, top, hgoto, rfl, hnode, hblock,
      hrest, hframed⟩ (.cons ⟨rfl, e, top, hrest, hframed⟩ .nil)⟩
  | breakLoop rest =>
    obtain ⟨⟨u, htop, hgoto⟩, -⟩ := hlaid
    obtain rfl := Option.mem_def.mp htop
    exact ⟨_, hgoto, .cons ⟨rfl, hframed.afterLoop⟩ .nil⟩
  | returnNow rest => exact ⟨_, hlaid.1, .cons ⟨rfl, rfl⟩ .nil⟩

theorem afterLoop_length (fs : List (Frame K C S)) :
    ∀ q ∈ afterLoop fs, q.2.length < fs.length := by
  induction fs with
  | nil => intro q hq; cases hq
  | cons f fs ih =>
    cases f with
    | block rest => exact fun q hq => Nat.lt_succ_of_lt (ih q hq)
    | again k cond block rest =>
      intro q hq
      obtain rfl := Option.some.inj hq
      exact Nat.lt_succ_self _

theorem rest_ne {s rest : Script K C S} {fs : List (Frame K C S)} (h : sizeOf rest < sizeOf s) :
    (some (rest, fs) : Point K C S) ≠ some (s, fs) := by
  intro heq
  have he : rest = s := congrArg Prod.fst (Option.some.inj heq)
  rw [he] at h
  exact Nat.lt_irrefl _ h

theorem frames_ne {s t : Script K C S} {fs gs : List (Frame K C S)} (h : gs.length ≠ fs.length) :
    (some (t, gs) : Point K C S) ≠ some (s, fs) := by
  intro heq
  exact h (congrArg List.length (congrArg Prod.snd (Option.some.inj heq)))

/-- Every step leaves the point it is made from. -/
theorem pointEdges_leaves (s : Script K C S) (fs : List (Frame K C S)) :
    ∀ e ∈ pointEdges s fs, e.2 ≠ some (s, fs) := by
  cases s with
  | done =>
    cases fs with
    | nil => simp [pointEdges]
    | cons f fs =>
      cases f with
      | block rest =>
        simp only [pointEdges, List.mem_singleton, forall_eq]
        exact frames_ne (by simp)
      | again k cond block rest =>
        simp only [pointEdges, List.mem_singleton, forall_eq]
        exact frames_ne (by simp)
  | command k rest =>
    simp only [pointEdges, List.mem_singleton, forall_eq]
    exact rest_ne (by rw [Script.command.sizeOf_spec]; omega)
  | yield once rest =>
    simp only [pointEdges, List.mem_singleton, forall_eq]
    exact rest_ne (by rw [Script.yield.sizeOf_spec]; omega)
  | ifThen k cond block orElse rest =>
    simp only [pointEdges, List.mem_cons, List.not_mem_nil, or_false, forall_eq_or_imp, forall_eq]
    exact ⟨frames_ne (by simp), frames_ne (by simp)⟩
  | whileDo k cond block rest =>
    simp only [pointEdges, List.mem_cons, List.not_mem_nil, or_false, forall_eq_or_imp, forall_eq]
    exact ⟨frames_ne (by simp), rest_ne (by rw [Script.whileDo.sizeOf_spec]; omega)⟩
  | breakLoop rest =>
    simp only [pointEdges, List.mem_singleton, forall_eq]
    intro heq
    have hlen := afterLoop_length fs _ heq
    exact Nat.lt_irrefl _ hlen
  | returnNow rest => simp [pointEdges]

theorem pointEdges_ne_nil (s : Script K C S) (fs : List (Frame K C S)) : pointEdges s fs ≠ [] := by
  cases s with
  | done =>
    cases fs with
    | nil => simp [pointEdges]
    | cons f fs => cases f <;> simp [pointEdges]
  | _ => simp [pointEdges]

/-! ### Both graphs run alike -/

/-- The graph that the parser builds of a body simulates the body. -/
theorem program_simulates {body : Script K C S} {b : FunctionGraphBuilder K C S}
    (h : parse body startFunction = some b) :
    Simulates (program h) (structured body) (At (program h).command (program h).outEdges) where
  start := ⟨b.build, none, (program_laid h).1, (program_laid h).2, rfl⟩
  exit := by
    intro v p hp
    cases p with
    | none => exact iff_of_true hp rfl
    | some q =>
      refine iff_of_false ?_ (by simp [structured])
      rintro rfl
      obtain ⟨es, hnode, hes⟩ := hp.node
      have hempty : es = [] := hnode.2.1.symm.trans (program h).exit_outEdges
      rw [hempty] at hes
      exact pointEdges_ne_nil q.1 q.2 (List.forall₂_nil_left_iff.mp hes)
  command := by
    intro v p hp
    cases p with
    | none =>
      obtain rfl : v = exitNode := hp
      exact (program h).exit_command
    | some q =>
      obtain ⟨es, hnode, -⟩ := hp.node
      exact hnode.1
  edges := by
    intro v p hp
    cases p with
    | none =>
      obtain rfl : v = exitNode := hp
      have hempty : (program h).outEdges exitNode = [] := (program h).exit_outEdges
      rw [hempty]
      exact .nil
    | some q =>
      obtain ⟨es, hnode, hes⟩ := hp.node
      rw [hnode.2.1]
      exact hes
  leaves := by
    intro v p hp
    cases p with
    | none =>
      obtain rfl : v = exitNode := hp
      have hempty : (program h).outEdges exitNode = [] := (program h).exit_outEdges
      rw [hempty]
      exact ⟨by simp, by simp [structured]⟩
    | some q =>
      obtain ⟨es, hnode, -⟩ := hp.node
      rw [hnode.2.1]
      exact ⟨hnode.2.2, pointEdges_leaves q.1 q.2⟩

end

/-- Under any requests and engine steps, also those of its own commands, the program that the parser
builds does what the body does: the same calls of commands and conditions in the same order and with
the same effects, and the same status. -/
theorem program_runs [DecidableEq K] [DecidableEq C] [DecidableEq S] {body : Script K C S}
    {b : FunctionGraphBuilder K C S} (h : parse body startFunction = some b)
    (B : Commands (Command K S) (Condition C S) W) (unloadOnStop : Bool) (w : W) (acts : List FunctionGraph.Action) :
    let s := Library.Run.run (FunctionGraph.step (program h) B)
      (.loaded unloadOnStop (program h) w) acts
    let t := Library.Run.run (FunctionGraph.step (structured body) B)
      (.loaded unloadOnStop (structured body) w) acts
    t.toProgram = s.toProgram ∧ t.busy = s.busy ∧ t.context = s.context ∧ t.world = s.world ∧
      t.trace (structured body) = s.trace (program h) ∧
      (s.current = exitNode ↔ t.current = none) := by
  have hsim := program_simulates h
  have hrun := FunctionGraph.run_waiting (B := B) hsim acts
    (FunctionGraph.loaded_waiting hsim unloadOnStop w)
  exact ⟨hrun.program, hrun.busy, hrun.context, hrun.world, hrun.trace, hsim.exit hrun.current⟩

/-- `true` counts down, `false` does nothing; a condition compares with its number. -/
def counting : Commands Bool ℕ ℕ where
  startExecution _ n := (false, n)
  execute k n := (⟨[], false⟩, if k then n - 1 else n)
  valid _ _ := true
  resetCondition _ n := n
  evaluate c n := (some (decide (c < n)), n)

/-- `while (n > 0) { n = n - 1; if (n > 3) { } else { break } }` -/
def breakOut : Script Bool ℕ Empty :=
  .whileDo (.other false) (.other 0)
    (.command (.other true) (.ifThen (some (.other false)) (.other 3) .done (.breakLoop .done) .done))
    .done

theorem breakOut_runs : ∃ b, ∃ h : parse breakOut startFunction = some b,
    let B := commands counting (Empty.elim : Empty → Expr ℕ)
    let acts := [.request .start, .execute, .goOn, .request .pause, .goOn, .goOn, .execute]
    let s := Library.Run.run (FunctionGraph.step (program h) B)
      (.loaded false (program h) (7, Empty.elim)) acts
    let t := Library.Run.run (FunctionGraph.step (structured breakOut) B)
      (.loaded false (structured breakOut) (7, Empty.elim)) acts
    t.toProgram = s.toProgram ∧ t.busy = s.busy ∧ t.context = s.context ∧ t.world = s.world ∧
      t.trace (structured breakOut) = s.trace (program h) ∧
      (s.current = exitNode ↔ t.current = none) :=
  ⟨_, rfl, program_runs rfl _ _ _ _⟩

end Structured
end OrocosRtt.Scripting
