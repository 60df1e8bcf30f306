import OrocosRtt.Task.Core

/-! `FatalError` and what leaves it: the operations that write the state after their hook
returned, and `exception()`. -/
namespace OrocosRtt.Task
open Library.Run

/-- A return of `b` from the call that the frame waits for writes a state into the task. -/
def Frame.writes (b : Bool) : Frame → Bool
  | .configure => true
  | .cleanup => true
  | .start => b
  | .stopTask _ => !b
  | .stop => true
  | _ => false

/-- What the call throws is caught and answered by `exception()`. -/
def Frame.guarded : Frame → Bool
  | .configure | .cleanup | .start | .trigger | .stopTask _ | .stop => true
  | .prepareUpdateHook | .updateHook | .errorHook => true
  | _ => false

namespace TaskCore

/-- In `FatalError` no operation ends that writes the state after its hook, nothing throws
into `configure`, `cleanup`, `start`, `stop` or the engine, and `exception()` is not called. -/
def Abides (t : TaskCore) (a : Action) : Prop :=
  t.mTaskState = .fatalError →
    match a with
    | .call op => op ≠ .exception
    | .ret b => ∀ f ∈ t.stack.head?, f.writes b = false
    | .throw => ∀ f ∈ t.stack.head?, f.guarded = false

/-- `error()` sees from the target state that a task in `FatalError` is not running. -/
def FatalAim (t : TaskCore) : Prop :=
  t.mTaskState = .fatalError → t.mTargetState < .running

theorem FatalAim.of_eq {t t' : TaskCore} (h : FatalAim t) (hs : t'.mTaskState = t.mTaskState)
    (ht : t'.mTargetState = t.mTargetState) : FatalAim t' := by
  unfold FatalAim
  rw [hs, ht]
  exact h

theorem FatalAim.of_agree {t : TaskCore} (h : t.mTargetState = t.mTaskState) : FatalAim t := by
  intro hf
  rw [h, hf]
  decide

theorem FatalAim.of_ne {t : TaskCore} (h : t.mTaskState ≠ .fatalError) : FatalAim t :=
  fun hf => absurd hf h

theorem FatalAim.of_target {t : TaskCore} (h : t.mTargetState < .running) : FatalAim t :=
  fun _ => h

theorem create_fatalAim (initial : TaskState) : FatalAim (create initial) :=
  FatalAim.of_agree rfl

theorem exception_fatalAim (c : Caller) (t : TaskCore) : FatalAim (t.exception c) :=
  FatalAim.of_agree (by simp)

theorem fatal_fatalAim (c : Caller) (t : TaskCore) : FatalAim (t.fatal c) :=
  FatalAim.of_agree (by simp)

theorem FatalAim.invoke {t : TaskCore} (h : FatalAim t) (op : Operation) :
    FatalAim (t.invoke op) := by
  cases op with
  | configure =>
    show FatalAim t.configure
    unfold configure
    split
    · exact FatalAim.of_target (show TaskState.stopped < .running by decide)
    · exact h
  | cleanup =>
    show FatalAim t.cleanup
    unfold cleanup
    split
    · exact FatalAim.of_target (show TaskState.preOperational < .running by decide)
    · exact h
  | start =>
    show FatalAim t.start
    unfold start
    split
    · next hs => exact FatalAim.of_ne (by simp [hs])
    · exact h
  | stop =>
    show FatalAim t.stop
    unfold stop
    split
    · exact FatalAim.of_target (show TaskState.stopped < .running by decide)
    · exact h
  | error =>
    show FatalAim t.error
    unfold error
    split
    · exact h
    · exact FatalAim.of_agree rfl
  | exception => exact exception_fatalAim .direct t
  | recover =>
    show FatalAim t.recover
    unfold recover
    split
    · exact FatalAim.of_agree rfl
    · split
      · exact FatalAim.of_agree rfl
      · exact h
  | fatal => exact fatal_fatalAim .direct t
  | step => exact h.of_eq (processChildren_mTaskState t) (processChildren_mTargetState t)

theorem FatalAim.afterReturn {t : TaskCore} (h : FatalAim t) (f : Frame) (b : Bool) :
    FatalAim (t.afterReturn f b) := by
  cases f with
  | configure =>
    cases b
    · exact FatalAim.of_agree rfl
    · exact FatalAim.of_ne (by simp [TaskCore.afterReturn])
  | cleanup => exact FatalAim.of_ne (by simp [TaskCore.afterReturn])
  | start =>
    cases b
    · exact FatalAim.of_target (show TaskState.stopped < .running by decide)
    · exact FatalAim.of_ne (by simp [TaskCore.afterReturn])
  | trigger => exact h
  | stopTask orig =>
    cases b
    · exact FatalAim.of_agree rfl
    · exact h
  | stop => exact FatalAim.of_ne (by simp [TaskCore.afterReturn])
  | exceptionStop copy c =>
    exact h.of_eq (exceptionRest_mTaskState copy c t) (exceptionRest_mTargetState copy c t)
  | exceptionCleanup c => exact h
  | exceptionHook c => exact h.of_eq (resume_mTaskState c t) (resume_mTargetState c t)
  | fatal c => exact h.of_eq (resume_mTaskState c t) (resume_mTargetState c t)
  | prepareUpdateHook => exact h
  | updateHook => exact h.of_eq (processError_mTaskState t) (processError_mTargetState t)
  | errorHook => exact h

theorem FatalAim.afterThrow {t : TaskCore} (h : FatalAim t) (f : Frame) :
    FatalAim (t.afterThrow f) := by
  cases f with
  | fatal c => exact h
  | exceptionStop copy c => exact fatal_fatalAim c t
  | exceptionCleanup c => exact fatal_fatalAim c t
  | exceptionHook c => exact fatal_fatalAim c t
  | _ => exact exception_fatalAim _ t

theorem FatalAim.step {t : TaskCore} (h : FatalAim t) (a : Action) : FatalAim (t.step a) := by
  cases a with
  | call op => exact FatalAim.invoke (t := t.note (.called op)) h op
  | ret b =>
    unfold TaskCore.step
    cases hs : t.stack with
    | nil => exact h
    | cons f s => exact FatalAim.afterReturn (t := t.leave s (.left f.hook b)) h f b
  | throw =>
    unfold TaskCore.step
    cases hs : t.stack with
    | nil => exact h
    | cons f s => exact FatalAim.afterThrow (t := t.leave s (.threw f.hook)) h f

/-- In `FatalError` every operation but `exception()` leaves the state alone. -/
theorem invoke_fatalError {t : TaskCore} (hf : t.mTaskState = .fatalError)
    (ht : t.mTargetState < .running) (op : Operation) :
    (t.invoke op).mTaskState = .fatalError ↔ op ≠ .exception := by
  cases op with
  | configure => simp [invoke, configure_mTaskState, hf]
  | cleanup => simp [invoke, cleanup_mTaskState, hf]
  | start => simp [invoke, start_mTaskState, hf]
  | stop => simp [invoke, stop_mTaskState, hf]
  | error => simp [invoke, error, ht, hf]
  | exception => simp [invoke]
  | recover => simp [invoke, recover, hf]
  | fatal => simp [invoke]
  | step => simp [invoke, hf]

theorem afterReturn_fatalError {t : TaskCore} (hf : t.mTaskState = .fatalError) (f : Frame)
    (b : Bool) : (t.afterReturn f b).mTaskState = .fatalError ↔ f.writes b = false := by
  cases f with
  | stopTask orig =>
    have ho : orig.1 ≠ .fatalError := by
      intro h
      exact absurd (h ▸ orig.2) (by decide)
    cases b <;> simp [afterReturn, Frame.writes, hf, ho]
  | configure => cases b <;> simp [afterReturn, Frame.writes]
  | start => cases b <;> simp [afterReturn, Frame.writes, hf]
  | _ => simp [afterReturn, Frame.writes, hf]

theorem afterThrow_fatalError {t : TaskCore} (hf : t.mTaskState = .fatalError) (f : Frame) :
    (t.afterThrow f).mTaskState = .fatalError ↔ f.guarded = false := by
  cases f <;> simp [afterThrow, Frame.guarded, hf]

/-- A step leaves `FatalError` alone exactly when it abides by the rules above. -/
theorem step_fatalError {t : TaskCore} (h : FatalAim t) (a : Action) :
    (t.mTaskState = .fatalError → (t.step a).mTaskState = .fatalError) ↔ t.Abides a := by
  unfold Abides
  apply imp_congr_right
  intro hf
  have ht := h hf
  cases a with
  | call op => exact invoke_fatalError (t := t.note (.called op)) hf ht op
  | ret b =>
    unfold step
    cases hs : t.stack with
    | nil => simp [hf]
    | cons f s =>
      simpa using afterReturn_fatalError (t := t.leave s (.left f.hook b)) hf f b
  | throw =>
    unfold step
    cases hs : t.stack with
    | nil => simp [hf]
    | cons f s =>
      simpa using afterThrow_fatalError (t := t.leave s (.threw f.hook)) hf f

/-- Once entered, `FatalError` is the task's state for the rest of the run, exactly when
every step of the run abides. -/
theorem fatalError_permanent (initial : TaskState) (actions : List Action) :
    (∀ as bs cs, actions = as ++ bs ++ cs →
      (run step (create initial) as).mTaskState = .fatalError →
      (run step (create initial) (as ++ bs)).mTaskState = .fatalError) ↔
    Along step Abides (create initial) actions := by
  have hkeeps : Along step (fun t a => t.mTaskState = .fatalError →
      (step t a).mTaskState = .fatalError) (create initial) actions ↔
      Along step Abides (create initial) actions :=
    along_congr (I := FatalAim) (fun t a h => h.step a) (fun t a h => step_fatalError h a)
      (create_fatalAim initial)
  rw [← hkeeps]
  exact (along_keeps_iff (P := fun t : TaskCore => t.mTaskState = .fatalError)).symm

/-- `configureHook` calls `fatal()` and returns true: `configure()` then writes `Stopped`. -/
theorem fatalError_left :
    let t := run step (create .preOperational) [.call .configure, .call .fatal, .ret true]
    t.mTaskState = .fatalError ∧ (t.step (.ret true)).mTaskState = .stopped ∧
      (t.step (.ret true)).mTargetState = .fatalError := by
  decide

end TaskCore
end OrocosRtt.Task
