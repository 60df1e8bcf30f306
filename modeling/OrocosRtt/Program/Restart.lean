import OrocosRtt.Program.Graph

/-! What keeps a program script in the engine, and how it is run again after an error. -/
namespace OrocosRtt.Scripting
open Library.Run
set_option linter.unusedSectionVars false

namespace FunctionGraph

variable {V K C W : Type} [DecidableEq V] {G : ProgramGraph V K C} {B : Commands K C W}

/-- In running mode no command or condition throws: the pass that the action makes does not
end in one of the `catch` blocks of `executeUntil`. -/
def Unfailing (G : ProgramGraph V K C) (B : Commands K C W) (s : FunctionGraph V C W)
    (a : Action) : Prop :=
  match a with
  | .request _ => True
  | .execute =>
    s.busy = false → s.isLoaded = true → s.pausing = false → s.pStatus = .running →
      (s.turn G B).1 = false
  | .goOn => s.busy = true → (s.turn G B).1 = false

/-- Loaded in the engine, its service registered. -/
def Present (s : FunctionGraph V C W) : Prop := s.isLoaded = true ∧ s.context = true

/-- A program script between two actions. -/
structure Script (s : FunctionGraph V C W) : Prop where
  keeps : s.munloadOnStop = false
  looping : s.busy = true → s.pStatus = .running

theorem pause_eq (s : FunctionGraph V C W) :
    (s.pause G).isLoaded = s.isLoaded ∧ (s.pause G).context = s.context ∧
      (s.pause G).munloadOnStop = s.munloadOnStop ∧ (s.pause G).busy = s.busy ∧
      (s.pause G).pStatus = s.pStatus := by
  unfold pause
  split
  · exact ⟨rfl, rfl, rfl, rfl, rfl⟩
  · dsimp only
    split
    · next h => exact ⟨rfl, rfl, rfl, rfl, h.symm⟩
    · exact ⟨rfl, rfl, rfl, rfl, rfl⟩

/-- No request loads or unloads a program. -/
theorem request_eq (r : Request) (s : FunctionGraph V C W) :
    (s.request G r).isLoaded = s.isLoaded ∧ (s.request G r).context = s.context ∧
      (s.request G r).munloadOnStop = s.munloadOnStop ∧ (s.request G r).busy = s.busy := by
  cases r with
  | start =>
    show (s.start G).isLoaded = _ ∧ (s.start G).context = _ ∧ (s.start G).munloadOnStop = _ ∧
      (s.start G).busy = _
    unfold start
    split
    · exact ⟨rfl, rfl, rfl, rfl⟩
    · split
      · exact ⟨rfl, rfl, rfl, rfl⟩
      · split
        · exact ⟨rfl, rfl, rfl, rfl⟩
        · exact ⟨rfl, rfl, rfl, rfl⟩
  | pause =>
    obtain ⟨h₁, h₂, h₃, h₄, -⟩ := pause_eq (G := G) s
    exact ⟨h₁, h₂, h₃, h₄⟩
  | step =>
    show s.requestStep.isLoaded = _ ∧ s.requestStep.context = _ ∧
      s.requestStep.munloadOnStop = _ ∧ s.requestStep.busy = _
    unfold requestStep
    split
    · exact ⟨rfl, rfl, rfl, rfl⟩
    · exact ⟨rfl, rfl, rfl, rfl⟩
  | stop => exact ⟨rfl, rfl, rfl, rfl⟩
  | reset => exact ⟨rfl, rfl, rfl, rfl⟩

theorem ask_eq (r : SelfRequest) (s : FunctionGraph V C W) :
    (s.ask G r).isLoaded = s.isLoaded ∧ (s.ask G r).context = s.context ∧
      (s.ask G r).munloadOnStop = s.munloadOnStop ∧ (s.ask G r).busy = s.busy := by
  cases r with
  | stop => exact request_eq (G := G) .stop s
  | pause => exact request_eq (G := G) .pause s

/-- Nor does a vertex execution. -/
theorem turn_eq (s : FunctionGraph V C W) :
    (s.turn G B).2.isLoaded = s.isLoaded ∧ (s.turn G B).2.context = s.context ∧
      (s.turn G B).2.munloadOnStop = s.munloadOnStop ∧ (s.turn G B).2.busy = s.busy := by
  let I : FunctionGraph V C W → Prop := fun t => t.isLoaded = s.isLoaded ∧
    t.context = s.context ∧ t.munloadOnStop = s.munloadOnStop ∧ t.busy = s.busy
  have h : TurnRule G I I := {
    resetCondition := fun _ _ h => h
    startExecution := fun _ _ h => h
    execute := fun _ _ h => h
    world := fun _ _ h => h
    previous := fun _ _ h => h
    after := fun _ h => h
    ask := fun t r h => by
      obtain ⟨h₁, h₂, h₃, h₄⟩ := ask_eq (G := G) r t
      exact ⟨h₁.trans h.1, h₂.trans h.2.1, h₃.trans h.2.2.1, h₄.trans h.2.2.2⟩
    evaluate := fun _ _ h => h
    world' := fun _ _ h => h
    current := fun _ _ h => h }
  exact h.turn (B := B) ⟨rfl, rfl, rfl, rfl⟩

theorem Script.of_request {s : FunctionGraph V C W} (h : s.Script) (hb : s.busy = false)
    (r : Request) : (s.request G r).Script := by
  obtain ⟨-, -, hm, hb'⟩ := request_eq (G := G) r s
  constructor
  · exact hm.trans h.keeps
  · intro hbusy
    rw [hb', hb] at hbusy
    cases hbusy

theorem Script.leave {s : FunctionGraph V C W} (h : s.munloadOnStop = false) (b : Bool) :
    (s.leave b).Script := by
  cases b
  · exact ⟨h, fun hb => by cases hb⟩
  · exact ⟨h, fun hb => by cases hb⟩

theorem Script.pass {s : FunctionGraph V C W} (h : s.Script) : (s.pass G B).Script := by
  obtain ⟨-, -, hm, -⟩ := turn_eq (G := G) (B := B) s
  have hm := hm.trans h.keeps
  unfold FunctionGraph.pass
  dsimp only
  split
  · apply Script.leave
    exact hm
  · split
    · next hc => exact ⟨hm, fun _ => hc.2.1⟩
    · split
      · apply Script.leave
        exact hm
      · exact Script.leave hm _

theorem Script.executeStep {s : FunctionGraph V C W} (h : s.Script) (hb : s.busy = false) :
    (s.executeStep G B).Script := by
  obtain ⟨-, -, hm, hb'⟩ := turn_eq (G := G) (B := B) s
  have hm := hm.trans h.keeps
  have hb' := hb'.trans hb
  have hidle : ∀ t : FunctionGraph V C W, t.munloadOnStop = false → t.busy = false →
      t.Script := fun t h hb => ⟨h, fun hc => by rw [hb] at hc; cases hc⟩
  unfold FunctionGraph.executeStep
  dsimp only
  split
  · exact hidle _ hm hb'
  · split
    · exact hidle _ hm hb'
    · exact hidle _ hm hb'

theorem Script.step {s : FunctionGraph V C W} (h : s.Script) (a : Action) :
    (s.step G B a).Script := by
  cases a with
  | request r =>
    unfold FunctionGraph.step
    dsimp only
    split
    · exact h
    · next hb => exact h.of_request (by simpa using hb) r
  | execute =>
    unfold FunctionGraph.step
    dsimp only
    split
    · exact h
    · next hb =>
      have hb : s.busy = false := by
        cases hc : s.busy
        · rfl
        · exact absurd (.inl hc) hb
      unfold FunctionGraph.execute
      split
      · exact ⟨h.keeps, fun hc => absurd (hb.symm.trans hc) (by simp)⟩
      · split
        · exact h.pass
        · split
          · exact Script.executeStep ⟨h.keeps, h.looping⟩ hb
          · exact h
        · exact Script.leave h.keeps _
        · exact Script.leave h.keeps _
        · exact Script.leave h.keeps _
  | goOn =>
    unfold FunctionGraph.step
    dsimp only
    split
    · exact h.pass
    · exact h

theorem leave_false_not_present (s : FunctionGraph V C W) : ¬ (s.leave false).Present :=
  fun h => by cases h.1

/-- A pass takes a program script out of the engine exactly when something threw. -/
theorem pass_present {s : FunctionGraph V C W} (h : s.Script) (hp : s.Present) :
    (s.pass G B).Present ↔ (s.turn G B).1 = false := by
  obtain ⟨hl, hc, hm, -⟩ := turn_eq (G := G) (B := B) s
  have hp' : (s.turn G B).2.Present := ⟨hl.trans hp.1, hc.trans hp.2⟩
  have hm := hm.trans h.keeps
  unfold FunctionGraph.pass
  dsimp only
  split
  · next ht => simp [ht, leave_false_not_present]
  · next ht =>
    have ht : (s.turn G B).1 = false := by simpa using ht
    rw [ht]
    simp only [iff_true]
    split
    · exact hp'
    · split
      · rw [hm]
        exact hp'
      · exact hp'

theorem executeStep_present {s : FunctionGraph V C W} (hp : s.Present) :
    (s.executeStep G B).Present := by
  obtain ⟨hl, hc, -, -⟩ := turn_eq (G := G) (B := B) s
  have hp' : (s.turn G B).2.Present := ⟨hl.trans hp.1, hc.trans hp.2⟩
  unfold FunctionGraph.executeStep
  dsimp only
  split
  · exact hp'
  · split
    · exact hp'
    · exact hp'

theorem step_present {s : FunctionGraph V C W} (h : s.Script) (hp : s.Present) (a : Action) :
    (s.step G B a).Present ↔ Unfailing G B s a := by
  cases a with
  | request r =>
    obtain ⟨hl, hc, -, -⟩ := request_eq (G := G) r s
    unfold FunctionGraph.step Unfailing
    simp only [iff_true]
    split
    · exact hp
    · exact ⟨hl.trans hp.1, hc.trans hp.2⟩
  | execute =>
    unfold FunctionGraph.step Unfailing
    cases hb : s.busy with
    | true => simp [hp]
    | false =>
      have hl : s.isLoaded = true := hp.1
      simp only [hl, Bool.false_eq_true, Bool.true_eq_false, or_self, if_false, forall_const]
      unfold FunctionGraph.execute
      cases hpause : s.pausing with
      | true =>
        simp only [if_true, Bool.true_eq_false, false_imp_iff, iff_true]
        exact hp
      | false =>
        simp only [Bool.false_eq_true, if_false, forall_const]
        cases hs : s.pStatus with
        | running => simpa using pass_present h hp
        | paused =>
          simp only [reduceCtorEq, false_imp_iff, iff_true]
          split
          · exact executeStep_present hp
          · exact hp
        | stopped => simp [h.keeps, leave]; exact hp
        | error => simp [h.keeps, leave]; exact hp
        | unknown => simp [h.keeps, leave]; exact hp
  | goOn =>
    unfold FunctionGraph.step Unfailing
    cases hb : s.busy with
    | true => simpa using pass_present h hp
    | false => simp [hp]

theorem present_of_leave {b : Bool} {s : FunctionGraph V C W} (h : (s.leave b).Present) :
    s.Present := by
  cases b with
  | true => exact h
  | false => exact absurd h (leave_false_not_present s)

theorem present_of_turn {s : FunctionGraph V C W} (h : (s.turn G B).2.Present) :
    s.Present := by
  obtain ⟨hl, hc, -, -⟩ := turn_eq (G := G) (B := B) s
  exact ⟨hl.symm.trans h.1, hc.symm.trans h.2⟩

theorem present_of_pass {s : FunctionGraph V C W} (h : (s.pass G B).Present) : s.Present := by
  unfold FunctionGraph.pass at h
  dsimp only at h
  split at h
  · exact absurd h (leave_false_not_present _)
  · split at h
    · exact present_of_turn h
    · split at h
      · exact present_of_turn (present_of_leave h : ((s.turn G B).2.stop.note .exited).Present)
      · exact present_of_turn (present_of_leave h)

theorem present_of_executeStep {s : FunctionGraph V C W} (h : (s.executeStep G B).Present) :
    s.Present := by
  unfold FunctionGraph.executeStep at h
  dsimp only at h
  split at h
  · exact present_of_turn (show (s.turn G B).2.Present from h)
  · split at h
    · exact present_of_turn (show (s.turn G B).2.Present from h)
    · exact present_of_turn h

theorem present_of_execute {s : FunctionGraph V C W} (h : (s.execute G B).Present) :
    s.Present := by
  unfold FunctionGraph.execute at h
  split at h
  · exact h
  · split at h
    · exact present_of_pass h
    · split at h
      · exact (present_of_executeStep h : s.takeStep.Present)
      · exact h
    · exact present_of_leave h
    · exact present_of_leave h
    · exact present_of_leave h

/-- Nothing loads a program again. -/
theorem present_of_step {s : FunctionGraph V C W} {a : Action} (h : (s.step G B a).Present) :
    s.Present := by
  cases a with
  | request r =>
    unfold FunctionGraph.step at h
    dsimp only at h
    split at h
    · exact h
    · obtain ⟨hl, hc, -, -⟩ := request_eq (G := G) r s
      exact ⟨hl.symm.trans h.1, hc.symm.trans h.2⟩
  | execute =>
    unfold FunctionGraph.step at h
    dsimp only at h
    split at h
    · exact h
    · exact present_of_execute h
  | goOn =>
    unfold FunctionGraph.step at h
    dsimp only at h
    split at h
    · exact present_of_pass h
    · exact h

/-- `stop()` and `start()`, then the next step of the engine executes the program's first
statement. -/
def Restarts (G : ProgramGraph V K C) (B : Commands K C W) (s : FunctionGraph V C W) : Prop :=
  let r := (s.step G B (.request .stop)).step G B (.request .start)
  r.pStatus = .running ∧ r.current = G.startv ∧
    .vertex G.startv :: r.log <:+ (r.step G B .execute).log

theorem turn_log (s : FunctionGraph V C W) :
    .vertex s.current :: s.log <:+ (s.turn G B).2.log := by
  let I : FunctionGraph V C W → Prop := fun t => .vertex s.current :: s.log <:+ t.log
  have hcons : ∀ (t : FunctionGraph V C W) e, I t → I (t.note e) :=
    fun t e h => h.trans (List.suffix_cons e t.log)
  have hask : ∀ (t : FunctionGraph V C W) r, I t → I (t.ask G r) := by
    intro t r h
    cases r with
    | stop => exact hcons _ _ h
    | pause =>
      show I (t.pause G)
      unfold pause
      split
      · exact h
      · dsimp only
        split
        · exact hcons _ _ h
        · exact hcons _ _ h
  have h : TurnRule G I I := {
    resetCondition := fun t _ h => hcons t _ h
    startExecution := fun t _ h => hcons t _ h
    execute := fun t _ h => hcons t _ h
    world := fun _ _ h => h
    previous := fun _ _ h => h
    after := fun _ h => h
    ask := hask
    evaluate := fun t _ h => hcons t _ h
    world' := fun _ _ h => h
    current := fun _ _ h => h }
  apply h.turn
  show .vertex s.current :: s.log <:+ .vertex s.current :: s.log
  simp

theorem leave_log (b : Bool) (s : FunctionGraph V C W) : s.log <:+ (s.leave b).log := by
  cases b with
  | true => simp [leave]
  | false => exact List.suffix_cons _ _

theorem pass_log (s : FunctionGraph V C W) :
    .vertex s.current :: s.log <:+ (s.pass G B).log := by
  have ht := turn_log (G := G) (B := B) s
  unfold pass
  dsimp only
  split
  · exact (ht.trans (List.suffix_cons _ _)).trans (leave_log false (s.turn G B).2.fail)
  · split
    · exact ht
    · split
      · have hexit : (s.turn G B).2.log <:+ ((s.turn G B).2.stop.note .exited).log :=
          List.suffix_cons _ _
        exact (ht.trans hexit).trans (leave_log _ _)
      · exact ht.trans (leave_log true _)

/-- After an error a program that is still loaded starts over, unless a pause is pending. -/
theorem restarts_iff {s : FunctionGraph V C W} (hl : s.isLoaded = true) (hb : s.busy = false) :
    s.Restarts G B ↔ s.pausing = false := by
  have hstop : s.step G B (.request .stop) = s.stop.note (.accepted .stop) := by
    simp [step, request, hb]
  have hstart : (s.stop.note (.accepted .stop)).step G B (.request .start) =
      (((s.stop.note (.accepted .stop)).reset G).setStatus .running).note (.accepted .start) := by
    simp [step, request, start, stop, note, setStatus, hb, hl]
  unfold Restarts
  rw [hstop, hstart]
  generalize hr : (((s.stop.note (.accepted .stop)).reset G).setStatus .running).note
    (.accepted .start) = r
  have hstatus : r.pStatus = .running := by rw [← hr]; rfl
  have hcurrent : r.current = G.startv := by rw [← hr]; rfl
  have hloaded : r.isLoaded = true := by rw [← hr]; exact hl
  have hbusy : r.busy = false := by rw [← hr]; exact hb
  have hpausing : r.pausing = s.pausing := by rw [← hr]; rfl
  have hexecute : r.step G B .execute = r.execute G B := by simp [step, hbusy, hloaded]
  dsimp only
  rw [hexecute, ← hpausing]
  unfold execute
  cases hp : r.pausing with
  | true =>
    simp only [if_true, Bool.true_eq_false, iff_false]
    rintro ⟨-, -, hlog⟩
    have heq : .vertex G.startv :: r.log = .nowPaused :: r.log :=
      hlog.eq_of_length (by simp [note])
    cases heq
  | false =>
    simp only [Bool.false_eq_true, if_false, hstatus, iff_true]
    constructor
    · exact trivial
    · constructor
      · exact hcurrent
      · rw [← hcurrent]
        exact pass_log r

/-- A program script stays in the engine with its service exactly as long as nothing throws
in running mode; where it is there after an error (of stepping mode), it can be run again
from its first statement exactly when no `pause()` is pending. -/
theorem script_stays (G : ProgramGraph V K C) (B : Commands K C W) (w : W)
    (actions : List Action) :
    let s := run (step G B) (loadedScript G w) actions
    (s.Present ↔ Along (step G B) (Unfailing G B) (loadedScript G w) actions) ∧
    (s.Present → s.pStatus = .error → (s.Restarts G B ↔ s.pausing = false)) := by
  intro s
  have hinit : (loadedScript G w).Script := ⟨rfl, fun h => by cases h⟩
  have hscript : s.Script :=
    run_invariant (I := Script) (fun t a h _ => h.step a) hinit (along_trivial (step G B) _ _)
  constructor
  · apply run_keeps_iff (I := Script) (P := Present)
    · exact fun t a h _ => h.step a
    · exact fun t a hn h => hn (present_of_step h)
    · exact fun t a h hp => step_present h hp a
    · exact hinit
    · exact ⟨rfl, rfl⟩
  · intro hp he
    apply restarts_iff hp.1
    cases hb : s.busy with
    | false => rfl
    | true =>
      have := hscript.looping hb
      rw [he] at this
      cases this

/-- A program whose first statement throws. -/
def throwing : Commands Unit Unit Unit where
  startExecution _ w := (false, w)
  execute _ w := (⟨[], true⟩, w)
  valid _ _ := true
  resetCondition _ w := w
  evaluate _ w := (some true, w)

/-- The first statement throws in running mode: `executeUntil` returns false, the engine
unloads the program and its service is removed; it cannot be started again. -/
theorem script_unloaded :
    let s := run (step oneCommand throwing) (loadedScript oneCommand ())
      [.request .start, .execute]
    s.pStatus = .error ∧ s.isLoaded = false ∧ s.context = false ∧
      (run (step oneCommand throwing) s [.request .stop, .request .start]).pStatus =
        .stopped := by
  decide

end FunctionGraph
end OrocosRtt.Scripting
