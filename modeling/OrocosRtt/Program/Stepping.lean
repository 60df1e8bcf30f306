import OrocosRtt.Program.Graph

/-! Stepping mode against running mode: `step()` and `execute()` in turn, one vertex each,
against `execute()` alone, which goes on until a vertex waits. -/
namespace OrocosRtt.Scripting
set_option linter.unusedSectionVars false

/-- What a program does to its commands and conditions, and the vertices it comes to. -/
def Event.isCall {V C : Type} : Event V C → Bool
  | .vertex _ | .resetCondition _ | .startExecution _ | .execute _ | .evaluate _ => true
  | _ => false

namespace FunctionGraph

variable {V K C W : Type} [DecidableEq V] (G : ProgramGraph V K C) (B : Commands K C W)

/-- The calls made so far, newest first. -/
def calls (s : FunctionGraph V C W) : List (Event V C) := s.log.filter Event.isCall

/-- A loaded program that waits to be started. -/
structure Startable (s : FunctionGraph V C W) : Prop where
  isLoaded : s.isLoaded = true
  stopped : s.pStatus = .stopped
  pausing : s.pausing = false
  mstep : s.mstep = false
  busy : s.busy = false

/-- Running mode after `n` vertex executions: `start()`, then `execute()` again and again. -/
def running (s : FunctionGraph V C W) : ℕ → FunctionGraph V C W
  | 0 => s.step G B (.request .start)
  | n + 1 =>
    let r := running s n
    r.step G B (if r.busy then .goOn else .execute)

/-- Stepping mode after `n` vertex executions: `pause()`, then `step()` and `execute()` in
turn. -/
def stepping (s : FunctionGraph V C W) : ℕ → FunctionGraph V C W
  | 0 => (s.step G B (.request .pause)).step G B .execute
  | n + 1 => ((stepping s n).step G B (.request .step)).step G B .execute

/-- Two programs at the same point of the same execution. -/
structure Same (s r : FunctionGraph V C W) : Prop where
  current : s.current = r.current
  previous : s.previous = r.previous
  world : s.world = r.world
  calls : s.calls = r.calls

variable {G B}

theorem Same.note {s r : FunctionGraph V C W} (h : Same s r) (e : Event V C) :
    Same (s.note e) (r.note e) where
  current := h.current
  previous := h.previous
  world := h.world
  calls := by
    show (e :: s.log).filter Event.isCall = (e :: r.log).filter Event.isCall
    rw [List.filter_cons, List.filter_cons]
    have hc : s.log.filter Event.isCall = r.log.filter Event.isCall := h.calls
    rw [hc]

theorem Same.setWorld {s r : FunctionGraph V C W} (h : Same s r) (w : W) :
    Same (s.setWorld w) (r.setWorld w) := ⟨h.current, h.previous, rfl, h.calls⟩

theorem Same.resetConditions (B : Commands K C W) (es : List (C × V)) :
    ∀ {s r : FunctionGraph V C W}, Same s r →
      Same (s.resetConditions B es) (r.resetConditions B es) := by
  induction es with
  | nil => intro s r h; exact h
  | cons e es ih =>
    intro s r h
    apply ih
    rw [h.world]
    exact (h.setWorld _).note _

theorem Same.startVertex {s r : FunctionGraph V C W} (h : Same s r) :
    (s.startVertex G B).1 = (r.startVertex G B).1 ∧
      Same (s.startVertex G B).2 (r.startVertex G B).2 := by
  have hes := Same.resetConditions B (G.outEdges r.current) h
  unfold FunctionGraph.startVertex
  rw [h.previous, h.current]
  split
  · exact ⟨rfl, h⟩
  · dsimp only
    rw [hes.current]
    cases G.command (r.resetConditions B (G.outEdges r.current)).current with
    | none => exact ⟨rfl, hes.note _⟩
    | some k =>
      dsimp only
      rw [hes.world]
      exact ⟨rfl, (hes.setWorld _).note _⟩

/-- No command of the program calls `stop()` or `pause()` on it. -/
def Quiet (B : Commands K C W) : Prop := ∀ k w, (B.execute k w).1.requests = []

theorem Same.executeVertex (hB : Quiet B) {s r : FunctionGraph V C W} (h : Same s r) :
    (s.executeVertex G B).1 = (r.executeVertex G B).1 ∧
      Same (s.executeVertex G B).2 (r.executeVertex G B).2 := by
  have hp : Same { s with previous := s.current } { r with previous := r.current } :=
    ⟨h.current, h.current, h.world, h.calls⟩
  unfold FunctionGraph.executeVertex
  dsimp only
  rw [h.current] at hp ⊢
  cases G.command r.current with
  | none => exact ⟨rfl, hp.note _⟩
  | some k =>
    dsimp only
    rw [h.world, hB k r.world]
    exact ⟨rfl, (hp.setWorld _).note _⟩

theorem Same.isValid {s r : FunctionGraph V C W} (h : Same s r) :
    s.isValid G B = r.isValid G B := by
  unfold FunctionGraph.isValid
  rw [h.current, h.world]

theorem Same.branch (B : Commands K C W) (es : List (C × V)) :
    ∀ {s r : FunctionGraph V C W}, Same s r →
      (s.branch B es).1 = (r.branch B es).1 ∧ Same (s.branch B es).2 (r.branch B es).2 := by
  induction es with
  | nil => intro s r h; exact ⟨rfl, h⟩
  | cons e es ih =>
    intro s r h
    unfold FunctionGraph.branch
    dsimp only
    rw [h.world]
    have he := (h.setWorld (B.evaluate e.1 r.world).2).note (.evaluate e.1)
    cases (B.evaluate e.1 r.world).1 with
    | none => exact ⟨rfl, he⟩
    | some b =>
      cases b with
      | true => exact ⟨rfl, rfl, he.previous, he.world, he.calls⟩
      | false => exact ih he

/-- Both loops do the same with a vertex. -/
theorem Same.turn (hB : Quiet B) {s r : FunctionGraph V C W} (h : Same s r) :
    (s.turn G B).1 = (r.turn G B).1 ∧ Same (s.turn G B).2 (r.turn G B).2 := by
  unfold FunctionGraph.turn
  dsimp only
  rw [h.current]
  obtain ⟨hthrew, hstart⟩ := (h.note (.vertex r.current)).startVertex (G := G) (B := B)
  rw [hthrew]
  split
  · exact ⟨hthrew, hstart⟩
  · obtain ⟨hthrew, hexec⟩ := hstart.executeVertex (G := G) hB
    rw [hthrew]
    split
    · exact ⟨hthrew, hexec⟩
    · rw [hexec.isValid, hexec.current]
      split
      · exact hexec.branch B _
      · exact ⟨hthrew, hexec⟩

/-- The part of a program that a vertex execution leaves alone. -/
structure Keeps (s t : FunctionGraph V C W) : Prop where
  program : t.toProgram = s.toProgram
  busy : t.busy = s.busy

theorem Keeps.trans {s t u : FunctionGraph V C W} (h : Keeps s t) (h' : Keeps t u) :
    Keeps s u := ⟨h'.program.trans h.program, h'.busy.trans h.busy⟩

theorem resetConditions_keeps (B : Commands K C W) (es : List (C × V)) :
    ∀ s : FunctionGraph V C W, Keeps s (s.resetConditions B es) ∧
      (s.resetConditions B es).current = s.current := by
  induction es with
  | nil => intro s; exact ⟨⟨rfl, rfl⟩, rfl⟩
  | cons e es ih =>
    intro s
    obtain ⟨hk, hc⟩ := ih ((s.setWorld (B.resetCondition e.1 s.world)).note (.resetCondition e.1))
    exact ⟨⟨hk.program, hk.busy⟩, hc⟩

theorem startVertex_keeps (s : FunctionGraph V C W) :
    Keeps s (s.startVertex G B).2 ∧ (s.startVertex G B).2.current = s.current := by
  unfold startVertex
  split
  · exact ⟨⟨rfl, rfl⟩, rfl⟩
  · obtain ⟨hk, hc⟩ := resetConditions_keeps B (G.outEdges s.current) s
    dsimp only
    cases G.command (s.resetConditions B (G.outEdges s.current)).current with
    | none => exact ⟨hk.trans ⟨rfl, rfl⟩, hc⟩
    | some k => exact ⟨hk.trans ⟨rfl, rfl⟩, hc⟩

theorem executeVertex_keeps (hB : Quiet B) (s : FunctionGraph V C W) :
    Keeps s (s.executeVertex G B).2 ∧ (s.executeVertex G B).2.current = s.current ∧
      (s.executeVertex G B).2.previous = s.current := by
  unfold executeVertex
  dsimp only
  cases G.command s.current with
  | none => exact ⟨⟨rfl, rfl⟩, rfl, rfl⟩
  | some k =>
    dsimp only
    rw [hB k s.world]
    exact ⟨⟨rfl, rfl⟩, rfl, rfl⟩

theorem branch_keeps (B : Commands K C W) (es : List (C × V)) :
    ∀ s : FunctionGraph V C W, Keeps s (s.branch B es).2 ∧
      (s.branch B es).2.previous = s.previous := by
  induction es with
  | nil => intro s; exact ⟨⟨rfl, rfl⟩, rfl⟩
  | cons e es ih =>
    intro s
    unfold branch
    dsimp only
    cases (B.evaluate e.1 s.world).1 with
    | none => exact ⟨⟨rfl, rfl⟩, rfl⟩
    | some b =>
      cases b with
      | true => exact ⟨⟨rfl, rfl⟩, rfl⟩
      | false =>
        obtain ⟨hk, hp⟩ := ih ((s.setWorld (B.evaluate e.1 s.world).2).note (.evaluate e.1))
        exact ⟨⟨hk.program, hk.busy⟩, hp⟩

theorem turn_keeps (hB : Quiet B) (s : FunctionGraph V C W) :
    Keeps s (s.turn G B).2 ∧
      ((s.turn G B).1 = false → (s.turn G B).2.previous = s.current) := by
  unfold turn
  dsimp only
  obtain ⟨hstart, hcur⟩ := startVertex_keeps (G := G) (B := B) (s.note (.vertex s.current))
  obtain ⟨hexec, -, hprev⟩ := executeVertex_keeps (G := G) hB
    ((s.note (.vertex s.current)).startVertex G B).2
  have hstart : Keeps s ((s.note (.vertex s.current)).startVertex G B).2 := ⟨hstart.program,
    hstart.busy⟩
  rw [hcur] at hprev
  split
  · next ht => exact ⟨hstart, fun hf => by rw [ht] at hf; cases hf⟩
  · split
    · next ht => exact ⟨hstart.trans hexec, fun hf => by rw [ht] at hf; cases hf⟩
    · split
      · obtain ⟨hbranch, hp⟩ := branch_keeps B
          (G.outEdges (((s.note (.vertex s.current)).startVertex G B).2.executeVertex G
            B).2.current)
          (((s.note (.vertex s.current)).startVertex G B).2.executeVertex G B).2
        exact ⟨(hstart.trans hexec).trans hbranch, fun _ => hp.trans hprev⟩
      · exact ⟨hstart.trans hexec, fun _ => hprev⟩

/-- How far stepping mode (`s`) and running mode (`r`) are after the same number of vertex
executions. -/
inductive Tied (G : ProgramGraph V K C) (s r : FunctionGraph V C W) : Prop where
  /-- Both are under way, at the same point. -/
  | going (hsame : Same s r) (hs : s.pStatus = .paused) (hr : r.pStatus = .running)
  /-- Stepping mode has stopped at the exit node, running mode is about to execute it. -/
  | arrived (hsame : Same s r) (hexit : s.current = G.exitv) (hs : s.pStatus = .stopped)
      (hr : r.pStatus = .running) (hbusy : r.busy = true)
  /-- Both are in error, after the same calls. -/
  | failed (hsame : Same s r) (hs : s.pStatus = .error) (hr : r.pStatus = .error)
  /-- Both have stopped at the exit node, whose empty command running mode executed. -/
  | finished (hs : s.pStatus = .stopped) (hr : r.pStatus = .stopped)
      (hexit : s.current = G.exitv) (hexit' : r.current = G.exitv) (hworld : r.world = s.world)
      (hcalls : r.calls =
        .execute G.exitv :: .startExecution G.exitv :: .vertex G.exitv :: s.calls)

/-- What the lockstep of the two modes rests on. -/
structure Paced (G : ProgramGraph V K C) (s r : FunctionGraph V C W) : Prop where
  tied : Tied G s r
  idle : s.busy = false
  steady : s.pausing = false
  steady' : r.pausing = false
  going : s.pStatus = .paused →
    s.isLoaded = true ∧ s.mstep = false ∧ r.isLoaded = true ∧ s.current ≠ G.exitv
  arrived : s.pStatus = .stopped → r.pStatus = .running → s.previous ≠ s.current
  ended : r.pStatus ≠ .running → r.busy = false

/-- One cycle of stepping mode on a paused program is one `executeStep`. -/
theorem stepping_paused {s : FunctionGraph V C W} (hs : s.pStatus = .paused)
    (hl : s.isLoaded = true) (hm : s.mstep = false) (hb : s.busy = false)
    (hp : s.pausing = false) :
    (s.step G B (.request .step)).step G B .execute =
      ((s.note (.accepted .step)).executeStep G B) := by
  have hstep : s.step G B (.request .step) =
      { s with mstep := true }.note (.accepted .step) := by
    simp [step, request, requestStep, hb, hl, hs, hm]
  have hback : ({ s with mstep := true }.note (.accepted .step)).takeStep =
      s.note (.accepted .step) := by
    cases s with
    | mk p current previous context busy world log =>
      cases p
      cases hm
      rfl
  rw [hstep]
  simp only [step, execute, note, hb, hl, hs, hp] at *
  simp only [← hback]
  rfl

/-- A cycle of stepping mode on a program that has ended leaves it as it is. -/
theorem stepping_ended {s : FunctionGraph V C W} (hs : s.pStatus = .stopped ∨ s.pStatus = .error)
    (hb : s.busy = false) (hp : s.pausing = false) :
    let t := (s.step G B (.request .step)).step G B .execute
    t.pStatus = s.pStatus ∧ t.busy = false ∧ t.pausing = false ∧ Same s t := by
  have hstep : s.step G B (.request .step) = s := by
    rcases hs with hs | hs <;> simp [step, request, requestStep, hb, hs]
  have hcalls : (Event.unloaded :: s.log : List (Event V C)).filter Event.isCall = s.calls := by
    simp [calls, Event.isCall]
  rw [hstep]
  by_cases hl : s.isLoaded = false
  · simp [step, hb, hl, hp]
    exact ⟨rfl, rfl, rfl, rfl⟩
  · cases hu : s.munloadOnStop <;> rcases hs with hs | hs <;>
      simp [step, execute, leave, unload, note, hb, hl, hs, hp, hu]
    all_goals constructor
    all_goals simp [calls, Event.isCall]

/-- `execute()` on a program that has ended leaves it as it is. -/
theorem execute_ended {r : FunctionGraph V C W} (hr : r.pStatus = .stopped ∨ r.pStatus = .error)
    (hb : r.busy = false) (hp : r.pausing = false) :
    let t := r.step G B (if r.busy then .goOn else .execute)
    t.pStatus = r.pStatus ∧ t.busy = false ∧ t.pausing = false ∧ Same r t := by
  have hstep : r.step G B (.request .step) = r := by
    rcases hr with hr | hr <;> simp [step, request, requestStep, hb, hr]
  have h := stepping_ended (G := G) (B := B) hr hb hp
  rw [hstep] at h
  rw [hb]
  exact h

theorem running_running {r : FunctionGraph V C W} (hr : r.pStatus = .running)
    (hl : r.isLoaded = true) (hp : r.pausing = false) :
    r.step G B (if r.busy then .goOn else .execute) = r.pass G B := by
  cases hb : r.busy
  · simp [step, execute, hb, hl, hr, hp]
  · simp [step, hb]

theorem Same.setProgram {s r : FunctionGraph V C W} (h : Same s r) (p q : Program)
    (b d x y : Bool) :
    Same { s with toProgram := p, busy := b, context := x }
      { r with toProgram := q, busy := d, context := y } :=
  ⟨h.current, h.previous, h.world, h.calls⟩

/-- A status change is no call. -/
theorem Same.note_left {s r : FunctionGraph V C W} (h : Same s r) {e : Event V C}
    (he : e.isCall = false) : Same (s.note e) r where
  current := h.current
  previous := h.previous
  world := h.world
  calls := by
    show (e :: s.log).filter Event.isCall = r.calls
    rw [List.filter_cons, he]
    exact h.calls

theorem Same.symm {s r : FunctionGraph V C W} (h : Same s r) : Same r s :=
  ⟨h.current.symm, h.previous.symm, h.world.symm, h.calls.symm⟩

/-- `leave` changes no more than the engine's book-keeping. -/
theorem leave_same (ret : Bool) (s : FunctionGraph V C W) :
    Same s (s.leave ret) ∧ (s.leave ret).pStatus = s.pStatus ∧ (s.leave ret).busy = false ∧
      (s.leave ret).pausing = s.pausing := by
  cases ret with
  | true => exact ⟨⟨rfl, rfl, rfl, rfl⟩, rfl, rfl, rfl⟩
  | false =>
    have hcalls : s.calls = (s.leave false).calls := by
      show s.log.filter Event.isCall = (Event.unloaded :: s.log).filter Event.isCall
      simp [Event.isCall]
    exact ⟨⟨rfl, rfl, rfl, hcalls⟩, rfl, rfl, rfl⟩

theorem Same.trans {s r t : FunctionGraph V C W} (h : Same s r) (h' : Same r t) : Same s t :=
  ⟨h.current.trans h'.current, h.previous.trans h'.previous, h.world.trans h'.world,
    h.calls.trans h'.calls⟩

/-- One vertex in both modes, from the same point. -/
theorem Same.advance (hB : Quiet B) {s r : FunctionGraph V C W} (h : Same s r)
    (hs : s.pStatus = .paused) (hr : r.pStatus = .running) (hsl : s.isLoaded = true)
    (hrl : r.isLoaded = true) (hsm : s.mstep = false) (hb : s.busy = false)
    (hsp : s.pausing = false) (hrp : r.pausing = false) (hne : s.current ≠ G.exitv) :
    Paced G (s.executeStep G B) (r.pass G B) := by
  obtain ⟨hthrew, hturn⟩ := h.turn (G := G) (B := B) hB
  obtain ⟨hks, hps⟩ := turn_keeps (G := G) (B := B) hB s
  obtain ⟨hkr, hpr⟩ := turn_keeps (G := G) (B := B) hB r
  unfold executeStep pass
  dsimp only
  rw [hthrew]
  rw [hthrew] at hps
  cases ht : (r.turn G B).1 with
  | true =>
    rw [if_pos rfl, if_pos rfl]
    obtain ⟨hleave, hstatus, hbusy, hpausing⟩ := leave_same false (r.turn G B).2.fail
    have hfail : Same (s.turn G B).2.fail (r.turn G B).2.fail :=
      (hturn.setProgram _ _ _ _ _ _).note .failed
    have hp : (s.turn G B).2.pausing = false := by rw [hks.program]; exact hsp
    have hp' : (r.turn G B).2.pausing = false := by rw [hkr.program]; exact hrp
    exact {
      tied := .failed (hfail.trans hleave) rfl hstatus
      idle := hks.busy.trans hb
      steady := hp
      steady' := hpausing.trans hp'
      going := fun h => by cases h
      arrived := fun h => by cases h
      ended := fun _ => hbusy }
  | false =>
    simp only [Bool.false_eq_true, if_false]
    have hprev : (s.turn G B).2.previous = s.current := hps ht
    have hprev' : (r.turn G B).2.previous = r.current := hpr ht
    have hstatus : (r.turn G B).2.pStatus = .running := by rw [hkr.program]; exact hr
    have hpause : (r.turn G B).2.pausing = false := by rw [hkr.program]; exact hrp
    have hstatus' : (s.turn G B).2.pStatus = .paused := by rw [hks.program]; exact hs
    have hpause' : (s.turn G B).2.pausing = false := by rw [hks.program]; exact hsp
    by_cases hexit : (r.turn G B).2.current = G.exitv
    · have hmoved : (r.turn G B).2.previous ≠ (r.turn G B).2.current := by
        rw [hprev', hexit, ← h.current]
        exact hne
      rw [if_pos (hturn.current.trans hexit), if_pos ⟨hmoved, hstatus, hpause⟩]
      exact {
        tied := .arrived (((hturn.setProgram _ _ _ _ _ _).note_left rfl))
          (hturn.current.trans hexit) rfl hstatus rfl
        idle := hks.busy.trans hb
        steady := hpause'
        steady' := hpause
        going := fun h => by cases h
        arrived := fun _ _ => by
          show (s.turn G B).2.previous ≠ (s.turn G B).2.current
          rw [hturn.previous, hturn.current]
          exact hmoved
        ended := fun h => absurd hstatus h }
    · rw [if_neg (fun hc => hexit (hturn.current ▸ hc))]
      have hsl' : (s.turn G B).2.isLoaded = true := by rw [hks.program]; exact hsl
      have hsm' : (s.turn G B).2.mstep = false := by rw [hks.program]; exact hsm
      have hrl' : (r.turn G B).2.isLoaded = true := by rw [hkr.program]; exact hrl
      have hgoing : ∀ b : Bool, Paced G (s.turn G B).2 { (r.turn G B).2 with busy := b } := by
        intro b
        exact {
          tied := .going ⟨hturn.current, hturn.previous, hturn.world, hturn.calls⟩ hstatus'
            hstatus
          idle := hks.busy.trans hb
          steady := hpause'
          steady' := hpause
          going := fun _ => ⟨hsl', hsm', hrl', fun hc => hexit (hturn.current ▸ hc)⟩
          arrived := fun hc => by rw [hstatus'] at hc; cases hc
          ended := fun hc => absurd hstatus hc }
      split
      · exact hgoing true
      · exact hgoing false

/-- Running mode executes the empty command of the exit node and stops. -/
theorem pass_exit {r : FunctionGraph V C W} (hcur : r.current = G.exitv)
    (hprev : r.previous ≠ r.current) :
    (r.pass G B).pStatus = .stopped ∧ (r.pass G B).current = G.exitv ∧
      (r.pass G B).world = r.world ∧ (r.pass G B).busy = false ∧
      (r.pass G B).pausing = r.pausing ∧
      (r.pass G B).calls =
        .execute G.exitv :: .startExecution G.exitv :: .vertex G.exitv :: r.calls := by
  have hne : r.previous ≠ G.exitv := hcur ▸ hprev
  obtain ⟨t, hturn, hcurrent, hprevious, hworld, hpausing, hcalls⟩ : ∃ t,
      r.turn G B = (false, t) ∧ t.current = G.exitv ∧ t.previous = G.exitv ∧
      t.world = r.world ∧ t.pausing = r.pausing ∧
      t.calls = .execute G.exitv :: .startExecution G.exitv :: .vertex G.exitv :: r.calls := by
    refine ⟨{ (((r.note (.vertex r.current)).note (.startExecution G.exitv)).note
      (.execute G.exitv)) with previous := G.exitv }, ?_, hcur, rfl, rfl, rfl, ?_⟩
    · simp [turn, startVertex, hne, note, hcur, G.exit_outEdges, resetConditions,
        G.exit_command, executeVertex, isValid, branch]
    · rw [← hcur]
      rfl
  unfold pass
  rw [hturn]
  simp only [Bool.false_eq_true, if_false]
  rw [if_neg (fun h => h.1 (hprevious.trans hcurrent.symm)), if_pos hcurrent]
  obtain ⟨hs, hstatus, hb, hp⟩ := leave_same (!t.munloadOnStop) (t.stop.note .exited)
  have hstop : (t.stop.note .exited).calls = t.calls := rfl
  refine ⟨hstatus, hs.current.symm.trans hcurrent, hs.world.symm.trans hworld, hb,
    hp.trans hpausing, ?_⟩
  rw [← hs.calls, hstop, hcalls]

/-- One vertex execution further in both modes. -/
theorem Paced.step (hB : Quiet B) {s r : FunctionGraph V C W} (h : Paced G s r) :
    Paced G ((s.step G B (.request .step)).step G B .execute)
      (r.step G B (if r.busy then .goOn else .execute)) := by
  cases h.tied with
  | going hsame hs hr =>
    obtain ⟨hsl, hsm, hrl, hne⟩ := h.going hs
    rw [stepping_paused hs hsl hsm h.idle h.steady, running_running hr hrl h.steady']
    exact (hsame.note_left rfl).advance hB hs hr hsl hrl hsm h.idle h.steady h.steady' hne
  | arrived hsame hexit hs hr hbusy =>
    obtain ⟨hstatus, hidle, hpause, hsame'⟩ :=
      stepping_ended (G := G) (B := B) (.inl hs) h.idle h.steady
    have hprev : r.previous ≠ r.current := by
      rw [← hsame.previous, ← hsame.current]
      exact h.arrived hs hr
    obtain ⟨hrs, hrc, hrw, hrb, hrp, hcalls⟩ :=
      pass_exit (G := G) (B := B) (hsame.current.symm.trans hexit) hprev
    have hpass : r.step G B (if r.busy then .goOn else .execute) = r.pass G B := by
      simp [FunctionGraph.step, hbusy]
    rw [hpass]
    exact {
      tied := .finished (hstatus.trans hs) hrs (hsame'.current.symm.trans hexit) hrc
        (hrw.trans (hsame.world.symm.trans hsame'.world))
        (hcalls.trans (by rw [← hsame.calls, hsame'.calls]))
      idle := hidle
      steady := hpause
      steady' := hrp.trans h.steady'
      going := fun hc => by rw [hstatus, hs] at hc; cases hc
      arrived := fun _ hc => by rw [hrs] at hc; cases hc
      ended := fun _ => hrb }
  | failed hsame hs hr =>
    have hrb : r.busy = false := h.ended (by rw [hr]; simp)
    obtain ⟨hstatus, hidle, hpause, hsame'⟩ :=
      stepping_ended (G := G) (B := B) (.inr hs) h.idle h.steady
    obtain ⟨hstatus', hidle', hpause', hsame''⟩ := execute_ended (G := G) (B := B) (.inr hr) hrb
      h.steady'
    exact {
      tied := .failed (hsame'.symm.trans (hsame.trans hsame'')) (hstatus.trans hs)
        (hstatus'.trans hr)
      idle := hidle
      steady := hpause
      steady' := hpause'
      going := fun hc => by rw [hstatus, hs] at hc; cases hc
      arrived := fun hc => by rw [hstatus, hs] at hc; cases hc
      ended := fun _ => hidle' }
  | finished hs hr hexit hexit' hworld hcalls =>
    have hrb : r.busy = false := h.ended (by rw [hr]; simp)
    obtain ⟨hstatus, hidle, hpause, hsame'⟩ :=
      stepping_ended (G := G) (B := B) (.inl hs) h.idle h.steady
    obtain ⟨hstatus', hidle', hpause', hsame''⟩ := execute_ended (G := G) (B := B) (.inl hr) hrb
      h.steady'
    exact {
      tied := .finished (hstatus.trans hs) (hstatus'.trans hr)
        (hsame'.current.symm.trans hexit) (hsame''.current.symm.trans hexit')
        (hsame''.world.symm.trans (hworld.trans hsame'.world))
        (hsame''.calls.symm.trans (hcalls.trans (by rw [hsame'.calls])))
      idle := hidle
      steady := hpause
      steady' := hpause'
      going := fun hc => by rw [hstatus, hs] at hc; cases hc
      arrived := fun _ hc => by rw [hstatus', hr] at hc; cases hc
      ended := fun _ => hidle' }

theorem Startable.paced {s : FunctionGraph V C W} (h : s.Startable) :
    Paced G (s.stepping G B 0) (s.running G B 0) := by
  have hr : s.running G B 0 =
      ((s.reset G).setStatus .running).note (.accepted .start) := by
    simp [running, FunctionGraph.step, request, start, h.busy, h.isLoaded, h.stopped]
  have hs : s.stepping G B 0 = { (({ s.reset G with pausing := true }.note
      (.accepted .pause))) with pStatus := .paused, pausing := false }.note .nowPaused := by
    simp [stepping, FunctionGraph.step, request, pause, execute, h.busy, h.isLoaded, h.stopped,
      note, reset]
  rw [hr, hs]
  exact {
    tied := .going ⟨rfl, rfl, rfl, by simp [calls, note, reset, setStatus, Event.isCall]⟩ rfl rfl
    idle := h.busy
    steady := rfl
    steady' := h.pausing
    going := fun _ => ⟨h.isLoaded, h.mstep, h.isLoaded, G.start_ne_exit⟩
    arrived := fun hc => by cases hc
    ended := fun _ => h.busy }

/-- Stepping mode makes the same calls as running mode, vertex by vertex, in the same
worlds, and ends in the same status; running mode alone also executes the empty command of
the exit node. -/
theorem stepping_running (hB : Quiet B) {s : FunctionGraph V C W} (h : s.Startable) (n : ℕ) :
    Tied G (s.stepping G B n) (s.running G B n) ∧
      ((s.stepping G B n).pStatus = .stopped →
        (s.running G B (n + 1)).pStatus = .stopped) := by
  have hpaced : ∀ n, Paced G (s.stepping G B n) (s.running G B n) := by
    intro n
    induction n with
    | zero => exact h.paced
    | succ n ih => exact ih.step hB
  constructor
  · exact (hpaced n).tied
  · intro hs
    have hp := hpaced n
    cases hp.tied with
    | going hsame hs' hr => rw [hs] at hs'; cases hs'
    | failed hsame hs' hr => rw [hs] at hs'; cases hs'
    | arrived hsame hexit hs' hr hbusy =>
      have hprev : (s.running G B n).previous ≠ (s.running G B n).current := by
        rw [← hsame.previous, ← hsame.current]
        exact hp.arrived hs hr
      have hpass : s.running G B (n + 1) = (s.running G B n).pass G B := by
        simp [running, FunctionGraph.step, hbusy]
      rw [hpass]
      exact (pass_exit (hsame.current.symm.trans hexit) hprev).1
    | finished hs' hr hexit hexit' hworld hcalls =>
      have hbusy := hp.ended (by rw [hr]; simp)
      exact (execute_ended (G := G) (B := B) (.inl hr) hbusy hp.steady').1.trans hr

theorem loadedScript_startable (w : W) : (loadedScript G w).Startable :=
  ⟨rfl, rfl, rfl, rfl, rfl⟩

/-- Vertices of a program that loops while a number is positive. -/
inductive Countdown where
  | entry | body | exit
  deriving DecidableEq

/-- `while ( n > 0 ) n = n - 1;` -/
def countdown : ProgramGraph Countdown Unit Bool where
  startv := .entry
  exitv := .exit
  command
    | .body => some ()
    | _ => none
  outEdges
    | .entry => [(true, .body), (false, .exit)]
    | .body => [(false, .entry)]
    | .exit => []
  start_ne_exit := by decide
  exit_command := rfl
  exit_outEdges := rfl

/-- The condition `true` tests the number, the condition `false` always holds. -/
def countdownCommands : Commands Unit Bool ℕ where
  startExecution _ n := (false, n)
  execute _ n := (⟨[], false⟩, n - 1)
  valid _ _ := true
  resetCondition _ n := n
  evaluate c n := (some (!c || 0 < n), n)

/-- Two turns of the loop: six vertices on the way to the exit node. -/
theorem stepping_running_countdown :
    let s := loadedScript countdown 2
    (s.stepping countdown countdownCommands 5).pStatus = .stopped ∧
      (s.running countdown countdownCommands 6).pStatus = .stopped ∧
      Tied countdown (s.stepping countdown countdownCommands 6)
        (s.running countdown countdownCommands 6) := by
  have hq : Quiet countdownCommands := fun _ _ => rfl
  have hs : (loadedScript countdown 2).Startable := loadedScript_startable 2
  have h := stepping_running (G := countdown) hq hs
  exact ⟨by decide, (h 5).2 (by decide), (h 6).1⟩

/-- Running mode executes the exit node's command once more than stepping mode, which stops
when it comes to that node. -/
theorem running_exit :
    let s := loadedScript countdown 0
    let stepped := s.stepping countdown countdownCommands 9
    let run := s.running countdown countdownCommands 9
    stepped.pStatus = .stopped ∧ run.pStatus = .stopped ∧
      stepped.calls.count (.execute .exit) = 0 ∧ run.calls.count (.execute .exit) = 1 := by
  decide

end FunctionGraph
end OrocosRtt.Scripting
