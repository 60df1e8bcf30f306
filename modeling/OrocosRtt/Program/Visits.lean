import Mathlib.Logic.Function.Iterate
import OrocosRtt.Program.Simulation
import OrocosRtt.Program.Stepping

/-! A running program as a machine that executes one node after the other. -/
namespace OrocosRtt.Scripting
set_option linter.unusedSectionVars false

namespace FunctionGraph

variable {V K C W : Type} [DecidableEq V]

/-- The node the program is in, with whether it has just come to it, and the world; there is no
node after a failure. -/
abbrev Config (V W : Type) := Option (V × Bool) × W

variable (G : ProgramGraph V K C) (B : Commands K C W)

/-- The node is left along the first edge whose condition holds. -/
def settle (v : V) : List (C × V) → W → Config V W
  | [], w => (some (v, false), w)
  | (c, u) :: es, w =>
    let r := B.evaluate c w
    match r.1 with
    | none => (none, r.2)
    | some true => (some (u, true), r.2)
    | some false => settle v es r.2

def attempt (v : V) (w : W) : Config V W :=
  match G.command v with
  | none => settle B v (G.outEdges v) w
  | some k =>
    let r := B.execute k w
    if r.1.threw then (none, r.2)
    else if B.valid k r.2 then settle B v (G.outEdges v) r.2
    else (some (v, false), r.2)

def perform (v : V) (w : W) : Config V W :=
  match G.command v with
  | none => attempt G B v w
  | some k =>
    let r := B.startExecution k w
    if r.1 then (none, r.2) else attempt G B v r.2

def enter (v : V) (w : W) : Config V W :=
  perform G B v (((G.outEdges v).map Prod.fst).foldl (fun w c => B.resetCondition c w) w)

/-- One execution of a node. -/
def visit : Config V W → Config V W
  | (none, w) => (none, w)
  | (some (v, fresh), w) => if fresh then enter G B v w else attempt G B v w

/-- The program has come as far as the configuration. -/
def Tracks (s : FunctionGraph V C W) : Config V W → Prop
  | (none, w) => s.pStatus = .error ∧ s.busy = false ∧ s.world = w
  | (some (v, fresh), w) =>
    if v = G.exitv ∧ fresh = false then s.pStatus = .stopped ∧ s.busy = false ∧ s.world = w
    else s.pStatus = .running ∧ s.isLoaded = true ∧ s.current = v ∧
      (s.previous ≠ v ↔ fresh = true) ∧ s.world = w

variable {G B}

theorem tracks_ended {s : FunctionGraph V C W} {w : W} :
    Tracks G s (some (G.exitv, false), w) ↔
      s.pStatus = .stopped ∧ s.busy = false ∧ s.world = w := iff_of_eq (if_pos ⟨rfl, rfl⟩)

theorem tracks_going {s : FunctionGraph V C W} {v : V} {fresh : Bool} {w : W}
    (h : ¬ (v = G.exitv ∧ fresh = false)) :
    Tracks G s (some (v, fresh), w) ↔ s.pStatus = .running ∧ s.isLoaded = true ∧ s.current = v ∧
      (s.previous ≠ v ↔ fresh = true) ∧ s.world = w := iff_of_eq (if_neg h)

/-- How an execution of the node `v₀` ends. -/
def Shows (v₀ : V) (r : Bool × FunctionGraph V C W) : Config V W → Prop
  | (none, w) => r.1 = true ∧ r.2.world = w
  | (some (v, fresh), w) => r.1 = false ∧ r.2.current = v ∧ r.2.world = w ∧ (v ≠ v₀ ↔ fresh = true)

theorem resetConditions_shows (es : List (C × V)) :
    ∀ s : FunctionGraph V C W, (s.resetConditions B es).current = s.current ∧
      (s.resetConditions B es).world =
        (es.map Prod.fst).foldl (fun w c => B.resetCondition c w) s.world := by
  induction es with
  | nil => intro s; exact ⟨rfl, rfl⟩
  | cons e es ih => intro s; exact ih _

theorem branch_shows (es : List (C × V)) :
    ∀ s : FunctionGraph V C W, (∀ e ∈ es, e.2 ≠ s.current) →
      Shows s.current (s.branch B es) (settle B s.current es s.world) := by
  induction es with
  | nil => intro s _; exact ⟨rfl, rfl, rfl, by simp⟩
  | cons e es ih =>
    obtain ⟨c, u⟩ := e
    intro s hleaves
    unfold branch settle
    dsimp only
    cases (B.evaluate c s.world).1 with
    | none => exact ⟨rfl, rfl⟩
    | some b =>
      cases b with
      | true => exact ⟨rfl, rfl, rfl, by simp [hleaves _ List.mem_cons_self]⟩
      | false =>
        exact ih ((s.setWorld (B.evaluate c s.world).2).note (.evaluate c))
          fun e he => hleaves e (List.mem_cons_of_mem _ he)

theorem executeVertex_nop {s : FunctionGraph V C W} (hk : G.command s.current = none) :
    s.executeVertex G B =
      (false, { s with previous := s.current }.note (.execute s.current)) := by
  unfold executeVertex
  dsimp only
  rw [hk]

theorem executeVertex_command (hq : Quiet B) {s : FunctionGraph V C W} {k : K}
    (hk : G.command s.current = some k) :
    s.executeVertex G B = ((B.execute k s.world).1.threw,
      ({ s with previous := s.current }.setWorld (B.execute k s.world).2).note
        (.execute s.current)) := by
  have hnone := hq k s.world
  unfold executeVertex
  dsimp only
  rw [hk]
  dsimp only
  rw [hnone]
  rfl

/-- The part of a node's execution that is made again while the node waits. -/
def again (G : ProgramGraph V K C) (B : Commands K C W) (s : FunctionGraph V C W) :
    Bool × FunctionGraph V C W :=
  let r := s.executeVertex G B
  if r.1 then r
  else if r.2.isValid G B then r.2.branch B (G.outEdges r.2.current)
  else r

theorem again_shows (hq : Quiet B) (s : FunctionGraph V C W)
    (hleaves : ∀ e ∈ G.outEdges s.current, e.2 ≠ s.current) :
    Shows s.current (s.again G B) (attempt G B s.current s.world) := by
  unfold again attempt
  cases hk : G.command s.current with
  | none =>
    have hvalid : ({ s with previous := s.current }.note (.execute s.current)).isValid G B =
        true := by
      unfold isValid
      show (match G.command s.current with
        | none => true
        | some k => B.valid k s.world) = true
      rw [hk]
    rw [executeVertex_nop hk]
    dsimp only
    rw [if_neg Bool.false_ne_true, if_pos hvalid]
    exact branch_shows (G.outEdges s.current)
      ({ s with previous := s.current }.note (.execute s.current)) hleaves
  | some k =>
    have hvalid : (({ s with previous := s.current }.setWorld (B.execute k s.world).2).note
        (.execute s.current)).isValid G B = B.valid k (B.execute k s.world).2 := by
      unfold isValid
      show (match G.command s.current with
        | none => true
        | some k' => B.valid k' (B.execute k s.world).2) = _
      rw [hk]
    rw [executeVertex_command hq hk]
    dsimp only
    rw [hvalid]
    split
    · next ht => exact ⟨ht, rfl⟩
    · next ht =>
      split
      · exact branch_shows (G.outEdges s.current) (({ s with previous := s.current }.setWorld
          (B.execute k s.world).2).note (.execute s.current)) hleaves
      · exact ⟨by simpa using ht, rfl, rfl, by simp⟩

/-- The start of the node's command, after the conditions were reset. -/
def launch (G : ProgramGraph V K C) (B : Commands K C W) (s : FunctionGraph V C W) :
    Bool × FunctionGraph V C W :=
  match G.command s.current with
  | none => (false, s.note (.startExecution s.current))
  | some k =>
    let r := B.startExecution k s.world
    (r.1, (s.setWorld r.2).note (.startExecution s.current))

theorem startVertex_fresh {s : FunctionGraph V C W} (h : s.previous ≠ s.current) :
    s.startVertex G B = (s.resetConditions B (G.outEdges s.current)).launch G B := by
  unfold startVertex
  rw [if_neg h]
  rfl

theorem launch_shows (hq : Quiet B) {s : FunctionGraph V C W} {w : W}
    (hleaves : ∀ e ∈ G.outEdges s.current, e.2 ≠ s.current)
    (hw : s.world = ((G.outEdges s.current).map Prod.fst).foldl
      (fun w c => B.resetCondition c w) w) :
    Shows s.current (let r := s.launch G B; if r.1 then r else r.2.again G B)
      (enter G B s.current w) := by
  unfold launch enter perform
  dsimp only
  rw [← hw]
  cases hk : G.command s.current with
  | none =>
    dsimp only
    rw [if_neg Bool.false_ne_true]
    exact again_shows hq (s.note (.startExecution s.current)) hleaves
  | some k =>
    dsimp only
    by_cases ht : (B.startExecution k s.world).1 = true
    · rw [if_pos ht, if_pos ht]
      exact ⟨ht, rfl⟩
    · rw [if_neg ht, if_neg ht]
      exact again_shows hq ((s.setWorld (B.startExecution k s.world).2).note
        (.startExecution s.current)) hleaves

theorem turn_shows (hq : Quiet B) (s : FunctionGraph V C W)
    (hleaves : ∀ e ∈ G.outEdges s.current, e.2 ≠ s.current) {fresh : Bool}
    (hfresh : s.previous ≠ s.current ↔ fresh = true) :
    Shows s.current (s.turn G B) (visit G B (some (s.current, fresh), s.world)) := by
  have hturn : s.turn G B =
      (let r := (s.note (.vertex s.current)).startVertex G B
        if r.1 then r else r.2.again G B) := rfl
  rw [hturn]
  cases fresh with
  | false =>
    have hprev : s.previous = s.current := by simpa using hfresh
    have hstart : (s.note (.vertex s.current)).startVertex G B =
        (false, s.note (.vertex s.current)) := if_pos hprev
    rw [hstart]
    exact again_shows hq (s.note (.vertex s.current)) hleaves
  | true =>
    rw [startVertex_fresh (s := s.note (.vertex s.current)) (hfresh.mpr rfl)]
    obtain ⟨hcur, hworld⟩ :=
      resetConditions_shows (B := B) (G.outEdges s.current) (s.note (.vertex s.current))
    have hshows := launch_shows (G := G) hq (w := s.world)
      (s := (s.note (.vertex s.current)).resetConditions B (G.outEdges s.current))
      (by rw [hcur]; exact hleaves) (by rw [hcur]; exact hworld)
    rw [hcur] at hshows
    exact hshows

theorem pass_tracks (hq : Quiet B) (hleaves : ∀ v, ∀ e ∈ G.outEdges v, e.2 ≠ v)
    {s : FunctionGraph V C W} (hstatus : s.pStatus = .running) (hloaded : s.isLoaded = true)
    (hpausing : s.pausing = false) {fresh : Bool} (hfresh : s.previous ≠ s.current ↔ fresh = true) :
    (s.pass G B).pausing = false ∧
      Tracks G (s.pass G B) (visit G B (some (s.current, fresh), s.world)) := by
  have hturn := turn_shows hq s (hleaves _) hfresh
  obtain ⟨hkeeps, hprev⟩ := turn_keeps (G := G) (B := B) hq s
  have hpausing' : (s.turn G B).2.pausing = false := by rw [hkeeps.program]; exact hpausing
  have hstatus' : (s.turn G B).2.pStatus = .running := by rw [hkeeps.program]; exact hstatus
  have hloaded' : (s.turn G B).2.isLoaded = true := by rw [hkeeps.program]; exact hloaded
  unfold pass
  dsimp only
  revert hturn
  cases visit G B (some (s.current, fresh), s.world) with
  | mk at' w =>
    cases at' with
    | none =>
      rintro ⟨hthrew, hworld⟩
      rw [if_pos hthrew]
      exact ⟨hpausing', rfl, rfl, hworld⟩
    | some q =>
      obtain ⟨v, fresh'⟩ := q
      rintro ⟨hthrew, hcur, hworld, hmoved⟩
      rw [if_neg (by rw [hthrew]; exact Bool.false_ne_true)]
      rw [hstatus', hpausing', hprev hthrew, hcur]
      cases fresh' with
      | true =>
        have hne : s.current ≠ v := (hmoved.mpr rfl).symm
        rw [if_pos ⟨hne, rfl, rfl⟩]
        refine ⟨hpausing', (tracks_going (by simp)).mpr ?_⟩
        exact ⟨hstatus', hloaded', rfl, iff_of_true hne rfl, hworld⟩
      | false =>
        have heq : v = s.current := by simpa using hmoved
        rw [if_neg (fun h => h.1 heq.symm)]
        by_cases hexit : v = G.exitv
        · rw [if_pos hexit]
          have hunload := leave_same (!(s.turn G B).2.munloadOnStop)
            ((s.turn G B).2.stop.note .exited)
          rw [hexit]
          refine ⟨hunload.2.2.2.trans hpausing', tracks_ended.mpr ?_⟩
          exact ⟨hunload.2.1, hunload.2.2.1, hunload.1.world.symm.trans hworld⟩
        · rw [if_neg hexit]
          refine ⟨hpausing', (tracks_going fun h => hexit h.1).mpr ?_⟩
          exact ⟨hstatus', hloaded', hcur, by
            show (s.turn G B).2.previous ≠ v ↔ _
            rw [hprev hthrew]
            exact iff_of_false (fun h => h heq.symm) Bool.false_ne_true, hworld⟩

/-- Running mode goes from node to node as `visit` does. -/
theorem running_tracks (hq : Quiet B) (hleaves : ∀ v, ∀ e ∈ G.outEdges v, e.2 ≠ v)
    {s : FunctionGraph V C W} (h : s.Startable) (n : ℕ) :
    (s.running G B n).pausing = false ∧
      Tracks G (s.running G B n) ((visit G B)^[n] (some (G.startv, true), s.world)) := by
  induction n with
  | zero =>
    have hstart : s.running G B 0 = ((s.reset G).setStatus .running).note (.accepted .start) := by
      simp [running, FunctionGraph.step, request, start, h.busy, h.isLoaded, h.stopped]
    rw [hstart]
    refine ⟨h.pausing, (tracks_going (by simp)).mpr ?_⟩
    exact ⟨rfl, h.isLoaded, rfl, iff_of_true G.start_ne_exit.symm rfl, rfl⟩
  | succ n ih =>
    obtain ⟨hpausing, htracks⟩ := ih
    rw [Function.iterate_succ_apply']
    revert htracks
    cases (visit G B)^[n] (some (G.startv, true), s.world) with
    | mk at' w =>
      cases at' with
      | none =>
        rintro ⟨hstatus, hbusy, hworld⟩
        obtain ⟨hstatus', hbusy', hpausing', hsame⟩ :=
          execute_ended (G := G) (B := B) (.inr hstatus) hbusy hpausing
        exact ⟨hpausing', hstatus'.trans hstatus, hbusy', hsame.world.symm.trans hworld⟩
      | some q =>
        obtain ⟨v, fresh⟩ := q
        intro htracks
        by_cases hexit : v = G.exitv ∧ fresh = false
        · obtain ⟨rfl, rfl⟩ := hexit
          obtain ⟨hstatus, hbusy, hworld⟩ := tracks_ended.mp htracks
          obtain ⟨hstatus', hbusy', hpausing', hsame⟩ :=
            execute_ended (G := G) (B := B) (.inl hstatus) hbusy hpausing
          have hstay : visit G B (some (G.exitv, false), w) = (some (G.exitv, false), w) := by
            simp [visit, attempt, G.exit_command, G.exit_outEdges, settle]
          rw [hstay]
          refine ⟨hpausing', tracks_ended.mpr ?_⟩
          exact ⟨hstatus'.trans hstatus, hbusy', hsame.world.symm.trans hworld⟩
        · obtain ⟨hstatus, hloaded, hcur, hfresh, hworld⟩ := (tracks_going hexit).mp htracks
          have hrun : s.running G B (n + 1) = (s.running G B n).pass G B :=
            running_running hstatus hloaded hpausing
          rw [hrun, ← hcur, ← hworld]
          exact pass_tracks hq hleaves hstatus hloaded hpausing (by rw [hcur]; exact hfresh)

/-- How far a running program is, by its status. -/
theorem tracks_cases {s : FunctionGraph V C W} {c : Config V W} (h : Tracks G s c) (w : W) :
    (s.pStatus = .stopped ∧ s.world = w ↔ c = (some (G.exitv, false), w)) ∧
      (s.pStatus = .error ∧ s.world = w ↔ c = (none, w)) := by
  obtain ⟨at', w₁⟩ := c
  cases at' with
  | none =>
    obtain ⟨hstatus, -, rfl⟩ := h
    simp [hstatus]
  | some q =>
    obtain ⟨v, fresh⟩ := q
    by_cases hexit : v = G.exitv ∧ fresh = false
    · obtain ⟨rfl, rfl⟩ := hexit
      obtain ⟨hstatus, -, rfl⟩ := tracks_ended.mp h
      simp [hstatus]
    · obtain ⟨hstatus, -, -, -, rfl⟩ := (tracks_going hexit).mp h
      simp only [hstatus, reduceCtorEq, false_and, Prod.mk.injEq, Option.some.injEq, false_iff]
      exact ⟨fun hc => hexit hc.1, trivial⟩

theorem running_waiting {V' : Type} [DecidableEq V'] {G' : ProgramGraph V' K C} {R : V → V' → Prop}
    (hR : Simulates G G' R) {s : FunctionGraph V C W} {t : FunctionGraph V' C W}
    (h : Waiting G G' R s t) (n : ℕ) :
    Waiting G G' R (s.running G B n) (t.running G' B n) := by
  induction n with
  | zero => exact h.step hR _
  | succ n ih =>
    show Waiting G G' R _ ((t.running G' B n).step G' B (if (t.running G' B n).busy then _ else _))
    rw [ih.busy]
    exact ih.step hR _

end FunctionGraph
end OrocosRtt.Scripting
