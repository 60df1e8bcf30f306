import OrocosRtt.Task.Core

/-! The two states of a task at rest. An operation on its way sets the target state first
and the task state after its hook; between the two, user code may set either. -/
namespace OrocosRtt.Task
open Library.Run

/-- The frame's operation has announced a target state that it has not reached yet. -/
def Frame.inTransition : Frame → Bool
  | .configure | .cleanup | .start | .stopTask _ | .stop => true
  | _ => false

namespace TaskCore

/-- When the call that `f` waits for returns `b`, the state that its operation does not
write is still what the operation left there. -/
def undisturbedFrame (t : TaskCore) (b : Bool) (f : Frame) : Bool :=
  match f with
  | .configure => !b || t.mTargetState = .stopped
  | .cleanup => t.mTargetState = .preOperational
  | .start => if b then t.mTargetState = .running else t.mTaskState = .stopped
  | .stop => t.mTargetState = .stopped
  -- a start() that failed with an exception was not undone by the hooks of exception()
  | .exceptionHook (.caught .start) => !t.isRunning
  | .fatal (.caught .start) => !t.isRunning
  | _ => true

/-- The condition on a step: what `undisturbedFrame` says of a return, and `start()` is not
called on a task that is running, which it refuses as documented. -/
def undisturbed (t : TaskCore) (a : Action) : Bool :=
  match a with
  | .call op => op ≠ .start || !t.isRunning
  | .ret b =>
    match t.stack with
    | [] => true
    | f :: _ => t.undisturbedFrame b f
  | .throw => true

/-- No operation on the stack is in transition. -/
def Calm (t : TaskCore) : Prop := ∀ f ∈ t.stack, f.inTransition = false

/-- Outside transitions the two states agree. -/
def Coupled (t : TaskCore) : Prop := t.Calm → t.mTaskState = t.mTargetState

theorem calm_enter (f : Frame) (t : TaskCore) :
    (t.enter f).Calm ↔ f.inTransition = false ∧ t.Calm := by
  simp [Calm]

theorem Calm.of_processError {t : TaskCore} (h : t.processError.Calm) : t.Calm := by
  unfold processError at h
  split at h
  · exact ((calm_enter _ t).mp h).2
  · exact h

theorem Calm.of_processChildren {t : TaskCore} (h : t.processChildren.Calm) : t.Calm := by
  unfold processChildren at h
  split at h
  · exact ((calm_enter _ t).mp h).2
  · exact h.of_processError

theorem Calm.of_resume {c : Caller} {t : TaskCore} (h : (t.resume c).Calm) : t.Calm := by
  cases c with
  | direct => exact h
  | caught op => exact h
  | update => exact Calm.of_processError h
  | errorHook => exact h

theorem Calm.of_exceptionRest {copy : TaskState} {c : Caller} {t : TaskCore}
    (h : (t.exceptionRest copy c).Calm) : t.Calm := by
  unfold exceptionRest at h
  split at h
  · exact ((calm_enter _ t).mp h).2
  · exact ((calm_enter _ t).mp h).2

theorem Coupled.of_agree {t : TaskCore} (h : t.mTaskState = t.mTargetState) : t.Coupled :=
  fun _ => h

theorem coupled_enter {f : Frame} (t : TaskCore) (hf : f.inTransition = true) :
    (t.enter f).Coupled := by
  intro hc
  have := ((calm_enter f t).mp hc).1
  rw [hf] at this
  cases this

theorem Coupled.enter {t : TaskCore} (h : t.Coupled) (f : Frame) : (t.enter f).Coupled :=
  fun hc => h ((calm_enter f t).mp hc).2

theorem Coupled.processError {t : TaskCore} (h : t.Coupled) : t.processError.Coupled := by
  intro hc
  rw [processError_mTaskState, processError_mTargetState]
  exact h hc.of_processError

theorem Coupled.processChildren {t : TaskCore} (h : t.Coupled) :
    t.processChildren.Coupled := by
  intro hc
  rw [processChildren_mTaskState, processChildren_mTargetState]
  exact h hc.of_processChildren

theorem Coupled.resume {t : TaskCore} (h : t.Coupled) (c : Caller) : (t.resume c).Coupled := by
  intro hc
  rw [resume_mTaskState, resume_mTargetState]
  exact h hc.of_resume

theorem Coupled.exceptionRest {t : TaskCore} (h : t.Coupled) (copy : TaskState) (c : Caller) :
    (t.exceptionRest copy c).Coupled := by
  intro hc
  rw [exceptionRest_mTaskState, exceptionRest_mTargetState]
  exact h hc.of_exceptionRest

theorem exception_coupled (c : Caller) (t : TaskCore) : (t.exception c).Coupled :=
  Coupled.of_agree (by simp)

theorem fatal_coupled (c : Caller) (t : TaskCore) : (t.fatal c).Coupled :=
  Coupled.of_agree rfl

theorem Coupled.invoke {t : TaskCore} (h : t.Coupled) (op : Operation) :
    (t.invoke op).Coupled := by
  cases op with
  | configure =>
    show t.configure.Coupled
    unfold configure
    split
    · exact coupled_enter _ rfl
    · exact h
  | cleanup =>
    show t.cleanup.Coupled
    unfold cleanup
    split
    · exact coupled_enter _ rfl
    · exact h
  | start =>
    show t.start.Coupled
    unfold start
    split
    · exact coupled_enter _ rfl
    · exact h
  | stop =>
    show t.stop.Coupled
    unfold stop
    split
    · exact coupled_enter _ rfl
    · exact h
  | error =>
    show t.error.Coupled
    unfold error
    split
    · exact h
    · exact Coupled.of_agree rfl
  | exception => exact exception_coupled .direct t
  | recover =>
    show t.recover.Coupled
    unfold recover
    split
    · exact Coupled.of_agree rfl
    · split
      · exact Coupled.of_agree rfl
      · exact h
  | fatal => exact fatal_coupled .direct t
  | step => exact h.processChildren

/-- An undisturbed return ends a transition in the state it announced. -/
theorem coupled_afterReturn {t : TaskCore} {f : Frame} {b : Bool}
    (h : f.inTransition = false → t.Coupled) (hu : t.undisturbedFrame b f = true) :
    (t.afterReturn f b).Coupled := by
  cases f with
  | configure =>
    cases b with
    | false => exact Coupled.of_agree rfl
    | true =>
      have ht : t.mTargetState = .stopped := by simpa [undisturbedFrame] using hu
      exact Coupled.of_agree ht.symm
  | cleanup =>
    have ht : t.mTargetState = .preOperational := by simpa [undisturbedFrame] using hu
    exact Coupled.of_agree ht.symm
  | start =>
    cases b with
    | false =>
      have ht : t.mTaskState = .stopped := by simpa [undisturbedFrame] using hu
      exact Coupled.of_agree ht
    | true =>
      have ht : t.mTargetState = .running := by simpa [undisturbedFrame] using hu
      exact (Coupled.of_agree ht.symm : (t.become .running).Coupled).enter _
  | trigger => exact h rfl
  | stopTask orig =>
    cases b with
    | false => exact Coupled.of_agree rfl
    | true => exact coupled_enter _ rfl
  | stop =>
    have ht : t.mTargetState = .stopped := by simpa [undisturbedFrame] using hu
    exact Coupled.of_agree ht.symm
  | exceptionStop copy c => exact (h rfl).exceptionRest copy c
  | exceptionCleanup c => exact (h rfl).enter _
  | exceptionHook c => exact (h rfl).resume c
  | fatal c => exact (h rfl).resume c
  | prepareUpdateHook => exact (h rfl).enter _
  | updateHook => exact (h rfl).processError
  | errorHook => exact h rfl

theorem coupled_afterThrow {t : TaskCore} {f : Frame} (h : f.inTransition = false → t.Coupled) :
    (t.afterThrow f).Coupled := by
  cases f with
  | fatal c => exact h rfl
  | exceptionStop copy c => exact fatal_coupled c t
  | exceptionCleanup c => exact fatal_coupled c t
  | exceptionHook c => exact fatal_coupled c t
  | _ => exact exception_coupled _ t

/-- Below a frame that is not in transition the stack is as calm as with it. -/
theorem Coupled.leave {t : TaskCore} {f : Frame} {s : List Frame} (h : t.Coupled)
    (hs : t.stack = f :: s) (e : Event) (hf : f.inTransition = false) :
    (t.leave s e).Coupled := by
  intro hc
  apply h
  intro g hg
  rw [hs] at hg
  cases hg with
  | head => exact hf
  | tail _ hg => exact hc g hg

theorem Coupled.step {t : TaskCore} {a : Action} (h : t.Coupled) (hu : t.undisturbed a = true) :
    (t.step a).Coupled := by
  cases a with
  | call op => exact Coupled.invoke (t := t.note (.called op)) h op
  | ret b =>
    unfold TaskCore.step
    unfold undisturbed at hu
    cases hs : t.stack with
    | nil => exact h
    | cons f s =>
      rw [hs] at hu
      exact coupled_afterReturn (t := t.leave s (.left f.hook b)) (h.leave hs _) hu
  | throw =>
    unfold TaskCore.step
    cases hs : t.stack with
    | nil => exact h
    | cons f s => exact coupled_afterThrow (h.leave hs _)

/-- When the last thing that happened is that `start()` returned false, the task is not
running. -/
def StartRefused (t : TaskCore) : Prop :=
  t.log.head? = some (.returned .start false) → t.isRunning = false

theorem StartRefused.of_log {t : TaskCore} {e : Event} {l : List Event} (hl : t.log = e :: l)
    (he : e ≠ .returned .start false) : t.StartRefused := by
  intro h
  rw [hl] at h
  exact absurd (Option.some.inj h) he

theorem startRefused_enter (f : Frame) (t : TaskCore) : (t.enter f).StartRefused :=
  StartRefused.of_log rfl (by simp)

theorem startRefused_note {e : Event} (t : TaskCore) (he : e ≠ .returned .start false) :
    (t.note e).StartRefused :=
  StartRefused.of_log rfl he

theorem StartRefused.processError {t : TaskCore} (h : t.StartRefused) :
    t.processError.StartRefused := by
  unfold TaskCore.processError
  split
  · exact startRefused_enter _ t
  · exact h

theorem exceptionRest_startRefused (copy : TaskState) (c : Caller) (t : TaskCore) :
    (t.exceptionRest copy c).StartRefused := by
  unfold exceptionRest
  split
  · exact startRefused_enter _ t
  · exact startRefused_enter _ t

theorem exception_startRefused (c : Caller) (t : TaskCore) :
    (t.exception c).StartRefused := by
  unfold exception
  split
  · exact startRefused_enter _ _
  · exact exceptionRest_startRefused _ c _

theorem StartRefused.resume {t : TaskCore} {c : Caller} (h : t.StartRefused)
    (hc : c = .caught .start → t.isRunning = false) : (t.resume c).StartRefused := by
  cases c with
  | direct => exact h
  | update => exact StartRefused.processError h
  | errorHook => exact h
  | caught op =>
    by_cases ho : op = .start
    · subst ho
      exact fun _ => hc rfl
    · exact startRefused_note t (by simp [ho])

theorem startRefused_invoke {t : TaskCore} {op : Operation}
    (hl : t.log.head? = some (.called op)) (hu : op = .start → t.isRunning = false) :
    (t.invoke op).StartRefused := by
  have h : t.StartRefused := by
    intro h
    rw [hl] at h
    cases h
  cases op with
  | configure =>
    show t.configure.StartRefused
    unfold configure
    split
    · exact startRefused_enter _ _
    · exact startRefused_note t (by simp)
  | cleanup =>
    show t.cleanup.StartRefused
    unfold cleanup
    split
    · exact startRefused_enter _ _
    · exact startRefused_note t (by simp)
  | start =>
    show t.start.StartRefused
    unfold start
    split
    · exact startRefused_enter _ _
    · exact fun _ => hu rfl
  | stop =>
    show t.stop.StartRefused
    unfold stop
    split
    · exact startRefused_enter _ _
    · exact startRefused_note t (by simp)
  | error =>
    show t.error.StartRefused
    unfold error
    split
    · exact h
    · intro hh
      rw [assign_log, hl] at hh
      cases hh
  | exception => exact exception_startRefused .direct t
  | recover =>
    show t.recover.StartRefused
    unfold recover
    split
    · exact startRefused_note _ (by simp)
    · split
      · exact startRefused_note _ (by simp)
      · exact startRefused_note t (by simp)
  | fatal => exact startRefused_enter _ _
  | step =>
    show t.processChildren.StartRefused
    unfold processChildren
    split
    · exact startRefused_enter _ t
    · exact h.processError

theorem startRefused_afterReturn {t : TaskCore} {f : Frame} {b : Bool} (h : t.StartRefused)
    (hu : t.undisturbedFrame b f = true) : (t.afterReturn f b).StartRefused := by
  cases f with
  | configure =>
    cases b with
    | false => exact startRefused_note _ (by simp)
    | true => exact startRefused_note _ (by simp)
  | cleanup => exact startRefused_note _ (by simp)
  | start =>
    cases b with
    | false =>
      have hs : t.mTaskState = .stopped := by simpa [undisturbedFrame] using hu
      intro _
      show (t.aim .stopped).isRunning = false
      unfold isRunning
      rw [aim_mTaskState, hs]
      decide
    | true => exact startRefused_enter _ _
  | trigger => exact startRefused_note _ (by simp)
  | stopTask orig =>
    cases b with
    | false => exact startRefused_note _ (by simp)
    | true => exact startRefused_enter _ _
  | stop => exact startRefused_note _ (by simp)
  | exceptionStop copy c => exact exceptionRest_startRefused copy c t
  | exceptionCleanup c => exact startRefused_enter _ _
  | exceptionHook c =>
    apply h.resume
    rintro rfl
    simpa [undisturbedFrame] using hu
  | fatal c =>
    apply h.resume
    rintro rfl
    simpa [undisturbedFrame] using hu
  | prepareUpdateHook => exact startRefused_enter _ _
  | updateHook => exact h.processError
  | errorHook => exact h

theorem startRefused_afterThrow {t : TaskCore} (h : t.StartRefused) (f : Frame) :
    (t.afterThrow f).StartRefused := by
  cases f with
  | fatal c => exact h
  | exceptionStop copy c => exact startRefused_enter _ _
  | exceptionCleanup c => exact startRefused_enter _ _
  | exceptionHook c => exact startRefused_enter _ _
  | _ => exact exception_startRefused _ t

theorem StartRefused.step {t : TaskCore} {a : Action} (h : t.StartRefused)
    (hu : t.undisturbed a = true) : (t.step a).StartRefused := by
  cases a with
  | call op =>
    apply startRefused_invoke rfl
    rintro rfl
    show t.isRunning = false
    simpa [undisturbed] using hu
  | ret b =>
    unfold TaskCore.step
    unfold undisturbed at hu
    cases hs : t.stack with
    | nil => exact h
    | cons f s =>
      rw [hs] at hu
      apply startRefused_afterReturn (t := t.leave s (.left f.hook b)) _ hu
      exact StartRefused.of_log rfl (by simp)
  | throw =>
    unfold TaskCore.step
    cases hs : t.stack with
    | nil => exact h
    | cons f s => exact startRefused_afterThrow (StartRefused.of_log rfl (by simp)) f

/-- In a run whose steps are undisturbed, a task at rest has reached its target state, a
`start()` that returned false leaves it not running, and the engine calls `updateHook` or
`errorHook` of a running task in every step. -/
theorem settled (initial : TaskState) (actions : List Action)
    (h : Along step (fun t a => t.undisturbed a = true) (create initial) actions) :
    let t := run step (create initial) actions
    (t.stack = [] → t.mTaskState = t.mTargetState) ∧
    (t.log.head? = some (.returned .start false) → t.isRunning = false) ∧
    (t.stack = [] → t.mTaskState = .running →
      (t.step (.call .step)).stack = [.prepareUpdateHook] ∧
      ∀ (t' : TaskCore) b s, t'.stack = .prepareUpdateHook :: s →
        (t'.step (.ret b)).stack = .updateHook :: s) ∧
    (t.stack = [] → t.mTaskState = .runTimeError →
      (t.step (.call .step)).stack = [.errorHook]) := by
  intro t
  have hi : t.Coupled ∧ t.StartRefused := by
    apply run_invariant (I := fun t => t.Coupled ∧ t.StartRefused) _ _ h
    · intro t a hi hu
      exact ⟨hi.1.step hu, hi.2.step hu⟩
    · exact ⟨Coupled.of_agree rfl, fun h => by cases h⟩
  have hrest : t.stack = [] → t.mTaskState = t.mTargetState := by
    intro hs
    apply hi.1
    unfold Calm
    simp [hs]
  constructor
  · exact hrest
  constructor
  · exact hi.2
  constructor
  · intro hs hr
    have ht := hrest hs
    constructor
    · simp [step, invoke, processChildren, hr, ← ht, hs]
    · intro t' b s hs'
      simp [step, hs', afterReturn]
  · intro hs hr
    simp [step, invoke, processChildren, processError, hr, hs]

/-- A task that is configured, started, runs into an error in `updateHook`, recovers and is
stopped. -/
theorem settled_recovery :
    let t := run step (create .preOperational)
      [.call .configure, .ret true, .call .start, .ret true, .ret true, .call .step, .ret true,
        .call .error, .ret true, .ret true, .call .recover]
    t.stack = [] ∧ t.mTaskState = .running ∧ t.mTaskState = t.mTargetState := by
  have h := settled .preOperational
    [.call .configure, .ret true, .call .start, .ret true, .ret true, .call .step, .ret true,
        .call .error, .ret true, .ret true, .call .recover] (by decide)
  exact ⟨by decide, by decide, h.1 (by decide)⟩

/-- `startHook` calls `error()` and returns true: the task is at rest in `Running` with the
target `RunTimeError`, and an engine step calls neither hook. -/
theorem unserved :
    let t := run step (create .stopped) [.call .start, .call .error, .ret true, .ret true]
    t.stack = [] ∧ t.mTaskState = .running ∧ t.mTargetState = .runTimeError ∧
      (t.step (.call .step)).stack = [] := by
  decide

end TaskCore
end OrocosRtt.Task
