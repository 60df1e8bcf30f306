import OrocosRtt.Library.Log
import OrocosRtt.Program.Graph

/-! The status protocol of a program: what a stop holds back, and what a step lets through.
`pausing` and `mstep` are consumed by a later `execute()`; what goes wrong is that nothing
clears them when the program is stopped or started in between. -/
namespace OrocosRtt.Scripting
open Library.Run Library.Log
set_option linter.unusedSectionVars false

namespace Event
variable {V C : Type}

/-- After a `stop()`, a `reset()`, the exit node or an error, with no later `start()` or
`pause()`. -/
def halted : List (Event V C) → Bool
  | [] => false
  | .accepted .stop :: _ => true
  | .accepted .reset :: _ => true
  | .exited :: _ => true
  | .failed :: _ => true
  | .accepted .start :: _ => false
  | .accepted .pause :: _ => false
  | _ :: l => halted l

/-- A `step()` was accepted, and since then no vertex was executed and the pause it belongs
to was not left. -/
def stepPending : List (Event V C) → Bool
  | [] => false
  | .accepted .step :: _ => true
  | .vertex _ :: _ => false
  | .accepted .start :: _ => false
  | .accepted .stop :: _ => false
  | .accepted .reset :: _ => false
  | _ :: l => stepPending l

/-- Commands are executed, and `execute()` changes the status, only in a program that is not
halted. -/
def Obedient (e : Event V C) (l : List (Event V C)) : Prop :=
  match e with
  | .vertex _ | .startExecution _ | .execute _ | .nowPaused | .failed => halted l = false
  | _ => True

def isVertex : Event V C → Bool
  | .vertex _ => true
  | _ => false

end Event

namespace FunctionGraph
open Event

variable {V K C W : Type} [DecidableEq V] (G : ProgramGraph V K C) (B : Commands K C W)

/-- The number of vertex executions so far. -/
def vertices (s : FunctionGraph V C W) : ℕ := s.log.countP isVertex

/-- The next vertex execution throws after its command has stopped the program. -/
def stopsThenThrows (s : FunctionGraph V C W) : Bool :=
  (s.turn G B).1 && halted (s.turn G B).2.log

/-- The condition on a step: `execute()` finds no `pause()` from before the program was
halted and no `step()` from before it last left the paused state, and a command that stops
the program is not followed by an exception. -/
def fresh (s : FunctionGraph V C W) (a : Action) : Bool :=
  match a with
  | .request _ => true
  | .execute =>
    s.busy || !s.isLoaded ||
      (if s.pausing then !halted s.log
      else
        match s.pStatus with
        | .running => !s.stopsThenThrows G B
        | .paused =>
          !s.mstep || (stepPending s.log && !s.takeStep.stopsThenThrows G B)
        | .stopped | .error | .unknown => true)
  | .goOn => !s.busy || !s.stopsThenThrows G B

/-- A step of the engine leaves the status of a halted program alone and executes none of
its vertices; in a paused program it executes one for a pending `step()`, and none without. -/
def Obeys (s : FunctionGraph V C W) (a : Action) : Prop :=
  match a with
  | .request _ => True
  | .execute =>
    (halted s.log = true →
      (s.step G B a).pStatus = s.pStatus ∧ (s.step G B a).vertices = s.vertices) ∧
    (s.busy = false → s.isLoaded = true → s.pStatus = .paused →
      (s.step G B a).vertices =
        s.vertices + if s.pausing = false ∧ stepPending s.log = true then 1 else 0)
  | .goOn =>
    halted s.log = true →
      (s.step G B a).pStatus = s.pStatus ∧ (s.step G B a).vertices = s.vertices

/-- The status and the flag of `step()` are in line with what has been requested. -/
structure Ordered (s : FunctionGraph V C W) : Prop where
  obedient : Throughout Obedient s.log
  halted : halted s.log = true → s.pStatus = .stopped ∨ s.pStatus = .error
  pending : stepPending s.log = true → s.pStatus = .paused ∧ s.mstep = true

/-- So are they between two passes of `executeUntil`. -/
structure InLine (s : FunctionGraph V C W) : Prop extends Ordered s where
  looping : s.busy = true → s.pStatus = .running ∧ s.pausing = false

variable {G B}

/-- After the vertex execution of `s`. -/
structure Turned (s t : FunctionGraph V C W) : Prop where
  obedient : Throughout Obedient t.log
  halted : Event.halted t.log = true → t.pStatus = .stopped
  pending : stepPending t.log = false
  vertices : t.vertices = s.vertices + 1
  busy : t.busy = s.busy

/-- Up to the execution of the command nothing is requested. -/
structure Turning (s t : FunctionGraph V C W) : Prop extends Turned s t where
  free : Event.halted t.log = false

theorem turning_note {s t : FunctionGraph V C W} (h : Turning s t) {e : Event V C}
    (hh : Event.halted (e :: t.log) = Event.halted t.log)
    (hp : stepPending (e :: t.log) = stepPending t.log) (hv : isVertex e = false) :
    Turning s (t.note e) where
  obedient := by
    constructor
    · unfold Obedient
      split
      all_goals first | exact h.free | exact trivial
    · exact h.obedient
  halted hc := h.halted (hh ▸ hc)
  pending := hp.trans h.pending
  vertices := by
    have := h.vertices
    simpa [vertices, note, hv] using this
  busy := h.busy
  free := hh.trans h.free

theorem Turned.ask {s t : FunctionGraph V C W} (h : Turned s t) (r : SelfRequest) :
    Turned s (t.ask G r) := by
  cases r with
  | stop =>
    exact {
      obedient := ⟨trivial, h.obedient⟩
      halted := fun _ => rfl
      pending := rfl
      vertices := h.vertices
      busy := h.busy }
  | pause =>
    show Turned s (t.pause G)
    unfold pause
    split
    · exact h
    · dsimp only
      split
      · exact {
          obedient := ⟨trivial, h.obedient⟩
          halted := fun _ => rfl
          pending := h.pending
          vertices := h.vertices
          busy := h.busy }
      · exact {
          obedient := ⟨trivial, h.obedient⟩
          halted := fun hc => by cases hc
          pending := h.pending
          vertices := h.vertices
          busy := h.busy }

theorem turn_turned {s : FunctionGraph V C W} (ho : Throughout Obedient s.log)
    (hf : Event.halted s.log = false) : Turned s (s.turn G B).2 := by
  have h : TurnRule G (Turning s) (Turned s) := {
    resetCondition := fun t c h => turning_note h rfl rfl rfl
    startExecution := fun t v h => turning_note h rfl rfl rfl
    execute := fun t v h => turning_note h rfl rfl rfl
    world := fun t w h => ⟨⟨h.obedient, h.halted, h.pending, h.vertices, h.busy⟩, h.free⟩
    previous := fun t v h => ⟨⟨h.obedient, h.halted, h.pending, h.vertices, h.busy⟩, h.free⟩
    after := fun t h => h.toTurned
    ask := fun t r h => h.ask r
    evaluate := fun t c h => ⟨⟨trivial, h.obedient⟩, h.halted, h.pending, h.vertices, h.busy⟩
    world' := fun t w h => ⟨h.obedient, h.halted, h.pending, h.vertices, h.busy⟩
    current := fun t v h => ⟨h.obedient, h.halted, h.pending, h.vertices, h.busy⟩ }
  apply h.turn
  exact {
    obedient := ⟨hf, ho⟩
    halted := fun hc => by
      have : Event.halted s.log = true := hc
      rw [hf] at this
      cases this
    pending := rfl
    vertices := by simp [vertices, note, List.countP_cons, isVertex]
    busy := rfl
    free := hf }

theorem Turned.ordered {s t : FunctionGraph V C W} (h : Turned s t) : t.Ordered where
  obedient := h.obedient
  halted hc := .inl (h.halted hc)
  pending hc := by rw [h.pending] at hc; cases hc

/-- The end of an execution that is over, at the exit node or in error. -/
theorem Turned.ended {s t : FunctionGraph V C W} (h : Turned s t) {e : Event V C}
    {p : ProgramStatus} (he : Obedient e t.log) (hp : p = .stopped ∨ p = .error)
    (hpend : stepPending (e :: t.log) = false) : ((t.setStatus p).note e).Ordered where
  obedient := ⟨he, h.obedient⟩
  halted _ := hp
  pending hc := by
    have : stepPending (e :: t.log) = true := hc
    rw [hpend] at this
    cases this

theorem Ordered.idle {s : FunctionGraph V C W} (h : s.Ordered) (hb : s.busy = false) :
    s.InLine where
  toOrdered := h
  looping hc := by rw [hb] at hc; cases hc

theorem Ordered.leave {s : FunctionGraph V C W} (h : s.Ordered) (b : Bool) :
    (s.leave b).InLine := by
  cases b with
  | true => exact ⟨⟨h.obedient, h.halted, h.pending⟩, fun hc => by cases hc⟩
  | false => exact ⟨⟨⟨trivial, h.obedient⟩, h.halted, h.pending⟩, fun hc => by cases hc⟩

theorem leave_status (b : Bool) (s : FunctionGraph V C W) :
    (s.leave b).pStatus = s.pStatus ∧ (s.leave b).vertices = s.vertices := by
  cases b with
  | true => exact ⟨rfl, rfl⟩
  | false => exact ⟨rfl, rfl⟩

/-- One vertex execution in stepping mode. -/
theorem executeStep_inLine {s : FunctionGraph V C W} (ho : Throughout Obedient s.log)
    (hf : Event.halted s.log = false) (hb : s.busy = false)
    (hok : s.stopsThenThrows G B = false) :
    (s.executeStep G B).InLine ∧ (s.executeStep G B).vertices = s.vertices + 1 := by
  have ht := turn_turned (G := G) (B := B) ho hf
  have hbusy : (s.turn G B).2.busy = false := ht.busy.trans hb
  unfold stopsThenThrows at hok
  unfold executeStep
  dsimp only
  split
  · next hthrew =>
    have hfree : Event.halted (s.turn G B).2.log = false := by simpa [hthrew] using hok
    constructor
    · exact (ht.ended (e := .failed) hfree (.inr rfl) ht.pending).idle hbusy
    · exact ht.vertices
  · split
    · constructor
      · exact (ht.ended (e := .exited) trivial (.inl rfl) ht.pending).idle hbusy
      · exact ht.vertices
    · exact ⟨ht.ordered.idle hbusy, ht.vertices⟩

/-- A pass of running mode. -/
theorem pass_inLine {s : FunctionGraph V C W} (ho : Throughout Obedient s.log)
    (hf : Event.halted s.log = false) (hok : s.stopsThenThrows G B = false) :
    (s.pass G B).InLine := by
  have ht := turn_turned (G := G) (B := B) ho hf
  unfold stopsThenThrows at hok
  unfold pass
  dsimp only
  split
  · next hthrew =>
    have hfree : Event.halted (s.turn G B).2.log = false := by simpa [hthrew] using hok
    exact (ht.ended (e := .failed) hfree (.inr rfl) ht.pending).leave false
  · split
    · next hgo =>
      have hord := ht.ordered
      exact ⟨⟨hord.obedient, hord.halted, hord.pending⟩, fun _ => hgo.2⟩
    · split
      · exact (ht.ended (e := .exited) trivial (.inl rfl) ht.pending).leave _
      · exact ht.ordered.leave true

theorem InLine.request {s : FunctionGraph V C W} (h : s.InLine) (hb : s.busy = false)
    (r : Request) : (s.request G r).InLine := by
  cases r with
  | start =>
    have hstarted : ∀ t : FunctionGraph V C W, t.log = s.log → t.busy = s.busy →
        ((t.setStatus .running).note (.accepted .start)).InLine := by
      intro t hl hb'
      refine Ordered.idle ?_ (hb'.trans hb)
      exact {
        obedient := ⟨trivial, (hl.symm ▸ h.obedient : Throughout Obedient t.log)⟩
        halted := fun hc => by cases hc
        pending := fun hc => by cases hc }
    show (s.start G).InLine
    unfold start
    split
    · exact h
    · split
      · exact hstarted _ rfl rfl
      · split
        · exact hstarted _ rfl rfl
        · exact h
  | pause =>
    show (s.pause G).InLine
    unfold pause
    split
    · exact h
    · dsimp only
      split
      · next hs =>
        refine Ordered.idle ?_ hb
        exact {
          obedient := ⟨trivial, h.obedient⟩
          halted := fun hc => by cases hc
          pending := fun hc => by
            have := (h.pending hc).1
            rw [hs] at this
            cases this }
      · refine Ordered.idle ?_ hb
        exact {
          obedient := ⟨trivial, h.obedient⟩
          halted := fun hc => by cases hc
          pending := h.pending }
  | step =>
    show s.requestStep.InLine
    unfold requestStep
    split
    · next hc =>
      refine Ordered.idle ?_ hb
      exact {
        obedient := ⟨trivial, h.obedient⟩
        halted := h.halted
        pending := fun _ => ⟨hc.2.1, rfl⟩ }
    · exact h
  | stop =>
    refine Ordered.idle ?_ hb
    exact {
      obedient := ⟨trivial, h.obedient⟩
      halted := fun _ => .inl rfl
      pending := fun hc => by cases hc }
  | reset =>
    refine Ordered.idle ?_ hb
    exact {
      obedient := ⟨trivial, h.obedient⟩
      halted := fun _ => .inl rfl
      pending := fun hc => by cases hc }

/-- A program under way is not halted. -/
theorem Ordered.free {s : FunctionGraph V C W} (h : s.Ordered)
    (hs : s.pStatus = .running ∨ s.pStatus = .paused) : Event.halted s.log = false := by
  cases hh : Event.halted s.log with
  | false => rfl
  | true =>
    rcases h.halted hh with hc | hc <;> rcases hs with hs | hs <;> rw [hs] at hc <;> cases hc

/-- `execute()` on a program that is neither running nor paused. -/
theorem ended_inLine {s : FunctionGraph V C W} (h : s.InLine) {p : ProgramStatus}
    (hs : s.pStatus = p) (hp : p ≠ .paused) (b : Bool) (n : ℕ) :
    (s.leave b).InLine ∧
      (Event.halted s.log = true → (s.leave b).pStatus = p ∧ (s.leave b).vertices = s.vertices) ∧
      (p = .paused → (s.leave b).vertices = s.vertices + n) := by
  obtain ⟨hstatus, hv⟩ := leave_status b s
  refine ⟨h.toOrdered.leave b, fun _ => ⟨hstatus.trans hs, hv⟩, fun hc => absurd hc hp⟩

theorem execute_inLine {s : FunctionGraph V C W} (h : s.InLine) (hb : s.busy = false)
    (hf : (if s.pausing then !Event.halted s.log
      else
        match s.pStatus with
        | .running => !s.stopsThenThrows G B
        | .paused =>
          !s.mstep || (stepPending s.log && !s.takeStep.stopsThenThrows G B)
        | .stopped | .error | .unknown => true) = true) :
    (s.execute G B).InLine ∧
      (Event.halted s.log = true →
        (s.execute G B).pStatus = s.pStatus ∧ (s.execute G B).vertices = s.vertices) ∧
      (s.pStatus = .paused → (s.execute G B).vertices =
        s.vertices + if s.pausing = false ∧ stepPending s.log = true then 1 else 0) := by
  have hfree := h.toOrdered.free
  unfold execute
  cases hp : s.pausing with
  | true =>
    have hn : Event.halted s.log = false := by simpa [hp] using hf
    simp only [if_true, Bool.true_eq_false, false_and, if_false, Nat.add_zero]
    constructor
    · refine Ordered.idle ?_ hb
      exact {
        obedient := ⟨hn, h.obedient⟩
        halted := fun hc => by
          have hc' : Event.halted s.log = true := hc
          rw [hn] at hc'
          cases hc'
        pending := fun hc => ⟨rfl, (h.pending hc).2⟩ }
    · constructor
      · intro hc
        rw [hn] at hc
        cases hc
      · exact fun _ => rfl
  | false =>
    simp only [hp, Bool.false_eq_true, if_false, true_and] at hf ⊢
    cases hs : s.pStatus with
    | running =>
      rw [hs] at hf
      have hn := hfree (.inl hs)
      refine ⟨pass_inLine h.obedient hn (by simpa using hf), fun hc => ?_, fun hc => by cases hc⟩
      rw [hn] at hc
      cases hc
    | paused =>
      rw [hs] at hf
      have hn := hfree (.inr hs)
      have hnone : Event.halted s.log = true → False := fun hc => by rw [hn] at hc; cases hc
      cases hm : s.mstep with
      | true =>
        obtain ⟨hpend, hok⟩ : stepPending s.log = true ∧
            s.takeStep.stopsThenThrows G B = false := by
          simpa [hm] using hf
        obtain ⟨hin, hv⟩ := executeStep_inLine (G := G) (B := B) (s := s.takeStep) h.obedient
          hn hb hok
        simp only [if_true, hpend]
        exact ⟨hin, fun hc => (hnone hc).elim, fun _ => hv⟩
      | false =>
        have hpend : stepPending s.log = false := by
          cases hc : stepPending s.log with
          | false => rfl
          | true =>
            have := (h.pending hc).2
            rw [hm] at this
            cases this
        simp only [Bool.false_eq_true, if_false, hpend, Nat.add_zero]
        exact ⟨h, fun hc => (hnone hc).elim, fun _ => by simp⟩
    | stopped => exact ended_inLine h hs (by simp) _ _
    | error => exact ended_inLine h hs (by simp) _ _
    | unknown => exact ended_inLine h hs (by simp) _ _

theorem InLine.step {s : FunctionGraph V C W} {a : Action} (h : s.InLine)
    (hf : s.fresh G B a = true) : (s.step G B a).InLine ∧ s.Obeys G B a := by
  cases a with
  | request r =>
    refine ⟨?_, trivial⟩
    unfold FunctionGraph.step
    dsimp only
    split
    · exact h
    · next hb => exact h.request (by simpa using hb) r
  | goOn =>
    unfold Obeys FunctionGraph.step
    unfold fresh at hf
    dsimp only
    split
    · next hb =>
      have hfree := h.toOrdered.free (.inl (h.looping hb).1)
      constructor
      · exact pass_inLine h.obedient hfree (by simpa [hb] using hf)
      · intro hc
        rw [hfree] at hc
        cases hc
    · exact ⟨h, fun _ => ⟨rfl, rfl⟩⟩
  | execute =>
    unfold Obeys FunctionGraph.step
    unfold fresh at hf
    cases hb : s.busy with
    | true => simp [h]
    | false =>
      cases hl : s.isLoaded with
      | false => simp [h]
      | true =>
        simp only [hb, hl, Bool.false_eq_true, Bool.true_eq_false, or_self, if_false,
          Bool.not_true, Bool.false_or, forall_const] at hf ⊢
        exact execute_inLine h hb hf

theorem loaded_inLine (unloadOnStop : Bool) (w : W) : (loaded unloadOnStop G w).InLine where
  obedient := trivial
  halted hc := by cases hc
  pending hc := by cases hc
  looping hc := by cases hc

/-- In every run that finds the flags of `pause()` and `step()` fresh, no command of a
halted program is executed, `execute()` does not change its status, and a paused program
executes exactly one vertex for each `step()`. -/
theorem requests_obeyed (G : ProgramGraph V K C) (B : Commands K C W) (unloadOnStop : Bool)
    (w : W) (actions : List Action)
    (h : Along (step G B) (fun s a => s.fresh G B a = true) (loaded unloadOnStop G w)
      actions) :
    Throughout Obedient (run (step G B) (loaded unloadOnStop G w) actions).log ∧
      Along (step G B) (Obeys G B) (loaded unloadOnStop G w) actions := by
  have hinit : (loaded unloadOnStop G w).InLine := loaded_inLine unloadOnStop w
  constructor
  · have hrun : (run (step G B) (loaded unloadOnStop G w) actions).InLine :=
      run_invariant (I := InLine) (fun t a ht ha => (ht.step ha).1) hinit h
    exact hrun.obedient
  · exact h.imp_of_invariant (I := InLine) (fun t a ht ha => (ht.step ha).1)
      (fun t a ht ha => (ht.step ha).2) hinit

/-- A loop whose command waits until it is let go on. -/
def waiting : Commands Unit Unit Bool where
  startExecution _ w := (false, w)
  execute _ w := (⟨[], false⟩, w)
  valid _ w := w
  resetCondition _ w := w
  evaluate _ w := (some true, w)

/-- A program that is started, paused, stepped twice, resumed, stopped and started again. -/
theorem requests_obeyed_run :
    let actions : List Action := [.request .start, .execute, .request .pause, .execute,
      .request .step, .execute, .execute, .request .step, .execute, .request .start, .execute,
      .request .stop, .execute, .request .start, .execute]
    Throughout Obedient (run (step oneCommand waiting) (loaded false oneCommand false) actions).log ∧
      (run (step oneCommand waiting) (loaded false oneCommand false) actions).vertices = 5 := by
  have h := requests_obeyed oneCommand waiting false false [.request .start, .execute,
    .request .pause, .execute, .request .step, .execute, .execute, .request .step, .execute,
    .request .start, .execute, .request .stop, .execute, .request .start, .execute] (by decide)
  exact ⟨h.1, by decide⟩

/-- `pause()`, then `stop()`: the next `execute()` turns the stopped program into a paused
one, and a `step()` then executes a command of it. In the same way a `step()` accepted
before `start()` is carried out when the program has been paused again. -/
theorem requests_stale :
    let stopped := run (step oneCommand waiting) (loaded false oneCommand false)
      [.request .start, .execute, .request .pause, .request .stop]
    let paused := run (step oneCommand waiting) (loaded false oneCommand false)
      [.request .pause, .execute, .request .step, .request .start, .execute, .request .pause,
        .execute]
    stopped.pStatus = .stopped ∧ (stopped.step oneCommand waiting .execute).pStatus = .paused ∧
      (run (step oneCommand waiting) stopped [.execute, .request .step, .execute]).vertices =
        stopped.vertices + 1 ∧
      paused.pStatus = .paused ∧
      (paused.step oneCommand waiting .execute).vertices = paused.vertices + 1 := by
  decide

end FunctionGraph
end OrocosRtt.Scripting
