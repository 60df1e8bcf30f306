import OrocosRtt.Library.Log
import OrocosRtt.Task.Core

/-! How the hooks pair up when they only return or throw: a `stopHook` for each `startHook`
that succeeded, a `cleanupHook` for each `configureHook` that succeeded. -/
namespace OrocosRtt.Task
open Library.Run Library.Log

/-- Each `stopHook` call comes after a `startHook` that returned true. -/
def StopPaired (l : List Event) : Prop := Paired (.left .startHook true) (.entered .stopHook) l

/-- Each `cleanupHook` call comes after a `configureHook` that returned true. -/
def CleanupPaired (l : List Event) : Prop :=
  Paired (.left .configureHook true) (.entered .cleanupHook) l

def Started (l : List Event) : Prop := Open (.left .startHook true) (.entered .stopHook) l

def Configured (l : List Event) : Prop :=
  Open (.left .configureHook true) (.entered .cleanupHook) l

/-- Frames of the engine and of `exception()`, which may stand on a `trigger()` that runs
an engine step itself. -/
def Frame.ofStep : Frame → Bool
  | .exceptionStop _ _ | .exceptionCleanup _ | .exceptionHook _ | .fatal _ => true
  | .prepareUpdateHook | .updateHook | .errorHook => true
  | _ => false

namespace TaskCore

/-- Hooks call no operation; `trigger()` may run an engine step. -/
def unnested (t : TaskCore) (a : Action) : Bool :=
  match a with
  | .call op => t.stack = [] || (op = .step && t.stack = [.trigger])
  | .ret _ => true
  | .throw => true

/-- The `stopHook` that `stop()` calls does not throw, nor does the `cleanupHook` that
`cleanup()` calls on a task that started in `PreOperational`. -/
def orderly (t : TaskCore) (a : Action) : Bool :=
  match a with
  | .call _ => true
  | .ret _ => true
  | .throw =>
    match t.stack with
    | .stop :: _ => false
    | .cleanup :: _ => t.mInitialState ≠ .preOperational
    | _ => true

/-- The hooks called so far are paired. -/
structure Tallied (t : TaskCore) : Prop where
  initial : t.mInitialState < .running
  stops : StopPaired t.log
  cleanups : t.mInitialState = .preOperational → CleanupPaired t.log

/-- The hooks that `exception()` would call in the task's state may be called. -/
structure Backed (t : TaskCore) : Prop extends Tallied t where
  started : .running ≤ t.mTaskState → Started t.log
  configured : t.mInitialState = .preOperational → .stopped ≤ t.mTaskState →
    Configured t.log

/-- A task between operations. -/
structure Ready (t : TaskCore) : Prop extends Backed t where
  aimed : .running ≤ t.mTargetState → .running ≤ t.mTaskState

/-- What holds while the call of a frame is under way. -/
def Awaits (t : TaskCore) : Frame → Prop
  | .configure => t.Backed ∧ t.mTargetState < .running
  | .cleanup => t.Tallied ∧ t.mTaskState = .stopped ∧ t.mTargetState < .running
  | .start => t.Backed ∧ t.mTaskState = .stopped
  | .stopTask _ => t.Backed ∧ .running ≤ t.mTaskState ∧ t.mTargetState < .running
  | .stop =>
    t.Tallied ∧ (t.mInitialState = .preOperational → Configured t.log) ∧
      t.mTargetState < .running
  | .exceptionStop copy _ =>
    t.Ready ∧ t.mTaskState < .stopped ∧ t.mTargetState < .stopped ∧
      (t.mInitialState = .preOperational → .stopped ≤ copy → Configured t.log)
  | _ => t.Ready

/-- The stack of a task whose hooks call nothing, with what holds for the call on top. -/
def Balanced (t : TaskCore) : Prop :=
  match t.stack with
  | [] => t.Ready
  | [f] => t.Awaits f
  | [f, .trigger] => f.ofStep = true ∧ t.Awaits f
  | _ => False

/-- Nothing is under way, except perhaps the `trigger()` at the end of `start()`. -/
def Idle (t : TaskCore) : Prop := t.stack = [] ∨ t.stack = [.trigger]

theorem Ready.balanced {t : TaskCore} (h : t.Ready) (hi : t.Idle) : t.Balanced := by
  unfold Balanced
  rcases hi with hs | hs
  · rw [hs]; exact h
  · rw [hs]; exact h

theorem balanced_enter {t : TaskCore} {f : Frame} (hs : t.stack = [])
    (h : (t.enter f).Awaits f) : (t.enter f).Balanced := by
  unfold Balanced
  rw [enter_stack, hs]
  exact h

theorem balanced_enter_ofStep {t : TaskCore} {f : Frame} (hi : t.Idle) (hf : f.ofStep = true)
    (h : (t.enter f).Awaits f) : (t.enter f).Balanced := by
  rcases hi with hs | hs
  · exact balanced_enter hs h
  · unfold Balanced
    rw [enter_stack, hs]
    exact ⟨hf, h⟩

/-- What is tallied depends on the log alone. -/
theorem Tallied.of_log {t t' : TaskCore} (h : t.Tallied)
    (hi : t'.mInitialState = t.mInitialState) (hl : t'.log = t.log) : t'.Tallied where
  initial := by rw [hi]; exact h.initial
  stops := by rw [hl]; exact h.stops
  cleanups hp := by rw [hl]; exact h.cleanups (hi ▸ hp)

theorem Backed.of_log {t t' : TaskCore} (h : t.Backed)
    (hi : t'.mInitialState = t.mInitialState) (hl : t'.log = t.log)
    (hr : .running ≤ t'.mTaskState → .running ≤ t.mTaskState)
    (hc : .stopped ≤ t'.mTaskState → .stopped ≤ t.mTaskState) : t'.Backed where
  toTallied := h.toTallied.of_log hi hl
  started hs := by rw [hl]; exact h.started (hr hs)
  configured hp hs := by rw [hl]; exact h.configured (hi ▸ hp) (hc hs)

theorem Ready.of_log {t t' : TaskCore} (h : t.Ready)
    (hi : t'.mInitialState = t.mInitialState) (hl : t'.log = t.log)
    (hs : t'.mTaskState = t.mTaskState) (ht : t'.mTargetState = t.mTargetState) :
    t'.Ready where
  toBacked := h.toBacked.of_log hi hl (fun h => hs ▸ h) (fun h => hs ▸ h)
  aimed hr := by
    rw [hs]
    exact h.aimed (ht ▸ hr)

/-- Entries that open or close nothing. -/
theorem Tallied.note {t : TaskCore} (h : t.Tallied) {e : Event} (hs : e ≠ .entered .stopHook)
    (hc : e ≠ .entered .cleanupHook) : (t.note e).Tallied where
  initial := h.initial
  stops := Paired.cons h.stops hs
  cleanups hp := Paired.cons (h.cleanups hp) hc

theorem Backed.note {t : TaskCore} (h : t.Backed) {e : Event} (hs : e ≠ .entered .stopHook)
    (hc : e ≠ .entered .cleanupHook) : (t.note e).Backed where
  toTallied := h.toTallied.note hs hc
  started hr := Open.cons (h.started hr) hs
  configured hp hr := Open.cons (h.configured hp hr) hc

theorem Ready.note {t : TaskCore} (h : t.Ready) {e : Event} (hs : e ≠ .entered .stopHook)
    (hc : e ≠ .entered .cleanupHook) : (t.note e).Ready where
  toBacked := h.toBacked.note hs hc
  aimed := h.aimed

theorem Tallied.enter {t : TaskCore} (h : t.Tallied) (f : Frame) (hs : f.hook ≠ .stopHook)
    (hc : f.hook ≠ .cleanupHook) : (t.enter f).Tallied :=
  (h.note (e := .entered f.hook) (by simp [hs]) (by simp [hc])).of_log rfl rfl

theorem Backed.enter {t : TaskCore} (h : t.Backed) (f : Frame) (hs : f.hook ≠ .stopHook)
    (hc : f.hook ≠ .cleanupHook) : (t.enter f).Backed :=
  (h.note (e := .entered f.hook) (by simp [hs]) (by simp [hc])).of_log rfl rfl id id

theorem Ready.enter {t : TaskCore} (h : t.Ready) (f : Frame) (hs : f.hook ≠ .stopHook)
    (hc : f.hook ≠ .cleanupHook) : (t.enter f).Ready :=
  (h.note (e := .entered f.hook) (by simp [hs]) (by simp [hc])).of_log rfl rfl rfl rfl

/-- A `stopHook` is called where one is owed. -/
theorem Tallied.enter_stopHook {t : TaskCore} (h : t.Tallied) {f : Frame}
    (hf : f.hook = .stopHook) (hs : Started t.log) : (t.enter f).Tallied where
  initial := h.initial
  stops := by
    rw [enter_log, hf]
    exact Paired.close h.stops hs
  cleanups hp := by
    rw [enter_log, hf]
    exact Paired.cons (h.cleanups hp) (by simp)

theorem Tallied.enter_cleanupHook {t : TaskCore} (h : t.Tallied) {f : Frame}
    (hf : f.hook = .cleanupHook)
    (hc : t.mInitialState = .preOperational → Configured t.log) : (t.enter f).Tallied where
  initial := h.initial
  stops := by
    rw [enter_log, hf]
    exact Paired.cons h.stops (by simp)
  cleanups hp := by
    rw [enter_log, hf]
    exact Paired.close (h.cleanups hp) (hc hp)

/-- A task that is neither running nor configured owes no hook. -/
theorem Tallied.ready {t : TaskCore} (h : t.Tallied) (hs : t.mTaskState < .stopped)
    (ht : t.mTargetState < .stopped) : t.Ready where
  toTallied := h
  started hr := by simp only [TaskState.le_def, TaskState.lt_def, TaskState.rank] at *; omega
  configured _ hr := absurd hs (TaskState.not_lt.mpr hr)
  aimed hr := by simp only [TaskState.le_def, TaskState.lt_def, TaskState.rank] at *; omega

theorem Ready.exceptionRest {t : TaskCore} (h : t.Ready) (hi : t.Idle) {copy : TaskState}
    (c : Caller) (hs : t.mTaskState < .stopped) (ht : t.mTargetState < .stopped)
    (hc : t.mInitialState = .preOperational → .stopped ≤ copy → Configured t.log) :
    (t.exceptionRest copy c).Balanced := by
  unfold TaskCore.exceptionRest
  split
  · next hcopy =>
    apply balanced_enter_ofStep hi rfl
    show Ready _
    exact (h.toTallied.enter_cleanupHook rfl fun hp => hc hp hcopy.1).ready hs ht
  · apply balanced_enter_ofStep hi rfl
    exact h.enter _ (by simp [Frame.hook]) (by simp [Frame.hook])

theorem Tallied.ready_assign {t : TaskCore} (h : t.Tallied) {s : TaskState}
    (hs : s < .stopped) : (t.assign s).Ready :=
  (h.of_log rfl rfl : (t.assign s).Tallied).ready hs hs

/-- `exception()` calls the hooks that the state it was called in owes. -/
theorem Backed.exception {t : TaskCore} (h : t.Backed) (hi : t.Idle) (c : Caller) :
    (t.exception c).Balanced := by
  have hready : (t.assign .exception).Ready := h.toTallied.ready_assign (by decide)
  unfold TaskCore.exception
  split
  · next hr =>
    apply balanced_enter_ofStep (t := t.assign .exception) hi rfl
    constructor
    · have ht : ((t.assign .exception).enter (.exceptionStop t.mTaskState c)).Tallied :=
        hready.toTallied.enter_stopHook rfl (h.started hr)
      exact ht.ready (show TaskState.exception < .stopped by decide)
        (show TaskState.exception < .stopped by decide)
    · refine ⟨(by decide : TaskState.exception < .stopped),
        (by decide : TaskState.exception < .stopped), ?_⟩
      intro hp hc
      exact Open.cons (h.configured hp hc) (by simp [Frame.hook])
  · exact hready.exceptionRest hi c (show TaskState.exception < .stopped by decide)
      (show TaskState.exception < .stopped by decide) h.configured

theorem Tallied.fatal {t : TaskCore} (h : t.Tallied) (hi : t.Idle) (c : Caller) :
    (t.fatal c).Balanced := by
  apply balanced_enter_ofStep (t := t.assign .fatalError) hi rfl
  apply Ready.enter
  · exact h.ready_assign (by decide)
  · simp [Frame.hook]
  · simp [Frame.hook]

theorem Ready.processError {t : TaskCore} (h : t.Ready) (hi : t.Idle) :
    t.processError.Balanced := by
  unfold TaskCore.processError
  split
  · exact balanced_enter_ofStep hi rfl (h.enter _ (by simp [Frame.hook]) (by simp [Frame.hook]))
  · exact h.balanced hi

theorem Ready.processChildren {t : TaskCore} (h : t.Ready) (hi : t.Idle) :
    t.processChildren.Balanced := by
  unfold TaskCore.processChildren
  split
  · exact balanced_enter_ofStep hi rfl (h.enter _ (by simp [Frame.hook]) (by simp [Frame.hook]))
  · exact h.processError hi

theorem Ready.resume {t : TaskCore} (h : t.Ready) (hi : t.Idle) (c : Caller) :
    (t.resume c).Balanced := by
  cases c with
  | direct => exact h.balanced hi
  | caught op => exact (h.note (by simp) (by simp)).balanced hi
  | update => exact h.processError hi
  | errorHook => exact h.balanced hi

/-- The result of an operation that is over. -/
theorem Ready.returned {t : TaskCore} (h : t.Ready) (hi : t.Idle) (op : Operation) (b : Bool) :
    (t.note (.returned op b)).Balanced :=
  (h.note (by simp) (by simp)).balanced hi

/-- A running task that runs on, perhaps in its error state. -/
theorem Backed.ready_assign {t : TaskCore} (h : t.Backed) (hr : .running ≤ t.mTaskState)
    (s : TaskState) : (t.assign s).Ready where
  toBacked := h.of_log rfl rfl (fun _ => hr) (fun _ => by
    simp only [TaskState.le_def, TaskState.rank] at *
    omega)
  aimed hs := hs

/-- A task back in its initial state owes no hook. -/
theorem Tallied.ready_recover {t : TaskCore} (h : t.Tallied) :
    (t.assign t.mInitialState).Ready where
  toTallied := h.of_log rfl rfl
  started hr := absurd h.initial (TaskState.not_lt.mpr hr)
  configured hp hc := by
    have hp' : t.mInitialState = .preOperational := hp
    rw [assign_mTaskState, hp'] at hc
    exact absurd hc (by decide)
  aimed hr := hr

theorem Ready.invoke {t : TaskCore} (h : t.Ready) (hs : t.stack = []) (op : Operation) :
    (t.invoke op).Balanced := by
  have hi : t.Idle := .inl hs
  cases op with
  | configure =>
    show t.configure.Balanced
    unfold configure
    split
    · apply balanced_enter (t := t.aim .stopped) hs
      constructor
      · apply Backed.enter
        · exact h.toBacked.of_log rfl rfl id id
        · simp [Frame.hook]
        · simp [Frame.hook]
      · exact (by decide : TaskState.stopped < .running)
    · exact h.returned hi _ _
  | cleanup =>
    show t.cleanup.Balanced
    unfold cleanup
    split
    · next hstate =>
      apply balanced_enter (t := t.aim .preOperational) hs
      constructor
      · apply Tallied.enter_cleanupHook
        · exact h.toTallied.of_log rfl rfl
        · rfl
        · intro hp
          exact h.configured hp (by rw [hstate]; decide)
      · exact ⟨hstate, (by decide : TaskState.preOperational < .running)⟩
    · exact h.returned hi _ _
  | start =>
    show t.start.Balanced
    unfold start
    split
    · next hstate =>
      apply balanced_enter (t := t.aim .running) hs
      constructor
      · apply Backed.enter
        · exact h.toBacked.of_log rfl rfl id id
        · simp [Frame.hook]
        · simp [Frame.hook]
      · exact hstate
    · exact h.returned hi _ _
  | stop =>
    show t.stop.Balanced
    unfold stop
    split
    · next hr =>
      apply balanced_enter (t := t.aim .stopped) hs
      constructor
      · apply Backed.enter
        · exact h.toBacked.of_log rfl rfl id id
        · simp [Frame.hook]
        · simp [Frame.hook]
      · exact ⟨hr, (by decide : TaskState.stopped < .running)⟩
    · exact h.returned hi _ _
  | error =>
    show t.error.Balanced
    unfold error
    split
    · exact h.balanced hi
    · next ht =>
      exact (h.toBacked.ready_assign (h.aimed (TaskState.not_lt.mp ht)) _).balanced hi
  | exception => exact h.toBacked.exception hi .direct
  | recover =>
    show t.recover.Balanced
    unfold recover
    split
    · exact h.toTallied.ready_recover.returned hi _ _
    · split
      · next hstate =>
        exact (h.toBacked.ready_assign (by rw [hstate]; decide) _).returned hi _ _
      · exact h.returned hi _ _
  | fatal => exact h.toTallied.fatal hi .direct
  | step => exact h.processChildren hi

/-- Leaving a call opens and closes nothing that a frame relies on. -/
theorem Awaits.leave {t : TaskCore} {f : Frame} (h : t.Awaits f) (s : List Frame) {e : Event}
    (hs : e ≠ .entered .stopHook) (hc : e ≠ .entered .cleanupHook) :
    (t.leave s e).Awaits f := by
  have hready : t.Ready → (t.leave s e).Ready := fun hr => (hr.note hs hc).of_log rfl rfl rfl rfl
  have hbacked : t.Backed → (t.leave s e).Backed :=
    fun hr => (hr.note hs hc).of_log rfl rfl id id
  have htallied : t.Tallied → (t.leave s e).Tallied := fun hr => (hr.note hs hc).of_log rfl rfl
  cases f with
  | configure => exact ⟨hbacked h.1, h.2⟩
  | cleanup => exact ⟨htallied h.1, h.2⟩
  | start => exact ⟨hbacked h.1, h.2⟩
  | stopTask orig => exact ⟨hbacked h.1, h.2⟩
  | stop => exact ⟨htallied h.1, fun hp => Open.cons (h.2.1 hp) hc, h.2.2⟩
  | exceptionStop copy c =>
    exact ⟨hready h.1, h.2.1, h.2.2.1, fun hp hcopy => Open.cons (h.2.2.2 hp hcopy) hc⟩
  | _ => exact hready h

theorem Awaits.afterReturn {t : TaskCore} {f : Frame} {b : Bool} (h : t.Awaits f)
    (hi : t.Idle) (hs : f.ofStep = false → t.stack = []) {l : List Event}
    (hl : t.log = .left f.hook b :: l) : (t.afterReturn f b).Balanced := by
  cases f with
  | configure =>
    cases b with
    | false => exact (h.1.toTallied.ready_assign (by decide)).returned hi _ _
    | true =>
      apply Ready.returned (t := t.become .stopped) _ hi
      constructor
      · constructor
        · exact h.1.toTallied.of_log rfl rfl
        · exact fun hr => absurd hr (by decide : ¬ TaskState.running ≤ .stopped)
        · intro _ _
          show Configured t.log
          rw [hl]
          exact .inl rfl
      · exact fun hr => absurd hr (by rw [become_mTargetState]; exact Nat.not_le.mpr h.2)
  | cleanup =>
    apply Ready.returned (t := t.become .preOperational) _ hi
    constructor
    · constructor
      · exact h.1.of_log rfl rfl
      · exact fun hr => absurd hr (by decide : ¬ TaskState.running ≤ .preOperational)
      · exact fun _ hr => absurd hr (by decide : ¬ TaskState.stopped ≤ .preOperational)
    · exact fun hr => absurd hr (by rw [become_mTargetState]; exact Nat.not_le.mpr h.2.2)
  | start =>
    cases b with
    | false =>
      apply Ready.returned (t := t.aim .stopped) _ hi
      constructor
      · exact h.1.of_log rfl rfl id id
      · exact fun hr => absurd hr (by decide : ¬ TaskState.running ≤ .stopped)
    | true =>
      apply balanced_enter (t := t.become .running) (hs rfl)
      show Ready _
      apply Ready.enter
      · constructor
        · constructor
          · exact h.1.toTallied.of_log rfl rfl
          · intro _
            show Started t.log
            rw [hl]
            exact .inl rfl
          · intro hp _
            exact h.1.configured hp (by rw [h.2]; decide)
        · exact fun _ => (by decide : TaskState.running ≤ .running)
      · simp [Frame.hook]
      · simp [Frame.hook]
  | trigger => exact Ready.returned h hi _ _
  | stopTask orig =>
    cases b with
    | false => exact (h.1.ready_assign h.2.1 _).returned hi _ _
    | true =>
      apply balanced_enter (hs rfl)
      constructor
      · exact h.1.toTallied.enter_stopHook rfl (h.1.started h.2.1)
      · constructor
        · intro hp
          apply Open.cons _ (by simp [Frame.hook])
          apply h.1.configured hp
          have hr := h.2.1
          simp only [TaskState.le_def, TaskState.rank] at *
          omega
        · exact h.2.2
  | stop =>
    apply Ready.returned (t := t.become .stopped) _ hi
    constructor
    · constructor
      · exact h.1.of_log rfl rfl
      · exact fun hr => absurd hr (by decide : ¬ TaskState.running ≤ .stopped)
      · exact fun hp _ => h.2.1 hp
    · exact fun hr => absurd hr (by rw [become_mTargetState]; exact Nat.not_le.mpr h.2.2)
  | exceptionStop copy c => exact Ready.exceptionRest h.1 hi c h.2.1 h.2.2.1 h.2.2.2
  | exceptionCleanup c =>
    exact balanced_enter_ofStep hi rfl
      (Ready.enter h _ (by simp [Frame.hook]) (by simp [Frame.hook]))
  | exceptionHook c => exact Ready.resume h hi c
  | fatal c => exact Ready.resume h hi c
  | prepareUpdateHook =>
    exact balanced_enter_ofStep hi rfl
      (Ready.enter h _ (by simp [Frame.hook]) (by simp [Frame.hook]))
  | updateHook => exact Ready.processError h hi
  | errorHook => exact Ready.balanced h hi

/-- A call that throws, other than the two that leave their hook owed for in the state. -/
theorem Awaits.afterThrow {t : TaskCore} {f : Frame} (h : t.Awaits f) (hi : t.Idle)
    (hstop : f ≠ .stop) (hclean : f = .cleanup → t.mInitialState ≠ .preOperational) :
    (t.afterThrow f).Balanced := by
  cases f with
  | configure => exact Backed.exception h.1 hi _
  | cleanup =>
    apply Backed.exception _ hi
    constructor
    · exact h.1
    · intro hr
      rw [h.2.1] at hr
      exact absurd hr (by decide)
    · exact fun hp => absurd hp (hclean rfl)
  | start => exact Backed.exception h.1 hi _
  | trigger => exact (show t.Ready from h).toBacked.exception hi _
  | stopTask orig => exact Backed.exception h.1 hi _
  | stop => exact absurd rfl hstop
  | exceptionStop copy c => exact h.1.toTallied.fatal hi c
  | exceptionCleanup c => exact (show t.Ready from h).toTallied.fatal hi c
  | exceptionHook c => exact (show t.Ready from h).toTallied.fatal hi c
  | fatal c => exact (show t.Ready from h).balanced hi
  | prepareUpdateHook => exact (show t.Ready from h).toBacked.exception hi _
  | updateHook => exact (show t.Ready from h).toBacked.exception hi _
  | errorHook => exact (show t.Ready from h).toBacked.exception hi _

theorem Awaits.tallied {t : TaskCore} {f : Frame} (h : t.Awaits f) : t.Tallied := by
  cases f with
  | configure => exact h.1.toTallied
  | cleanup => exact h.1
  | start => exact h.1.toTallied
  | stopTask orig => exact h.1.toTallied
  | stop => exact h.1
  | exceptionStop copy c => exact h.1.toTallied
  | _ => exact (show t.Ready from h).toTallied

/-- The call on top of a balanced stack and what stands below it. -/
theorem Balanced.top {t : TaskCore} (h : t.Balanced) {f : Frame} {s : List Frame}
    (hs : t.stack = f :: s) :
    t.Awaits f ∧ (s = [] ∨ s = [.trigger]) ∧ (f.ofStep = false → s = []) := by
  unfold Balanced at h
  rw [hs] at h
  split at h
  · next heq => cases heq
  · next heq =>
    obtain ⟨rfl, rfl⟩ := List.cons.inj heq
    exact ⟨h, .inl rfl, fun _ => rfl⟩
  · next heq =>
    obtain ⟨rfl, rfl⟩ := List.cons.inj heq
    exact ⟨h.2, .inr rfl, fun hf => by rw [h.1] at hf; cases hf⟩
  · exact h.elim

theorem Balanced.tallied {t : TaskCore} (h : t.Balanced) : t.Tallied := by
  cases hs : t.stack with
  | nil =>
    unfold Balanced at h
    rw [hs] at h
    exact h.toTallied
  | cons f s => exact (h.top hs).1.tallied

theorem Balanced.step {t : TaskCore} {a : Action} (h : t.Balanced) (hu : t.unnested a = true)
    (ho : t.orderly a = true) : (t.step a).Balanced := by
  cases a with
  | call op =>
    by_cases hs : t.stack = []
    · have hr : t.Ready := by
        unfold Balanced at h
        rw [hs] at h
        exact h
      exact (hr.note (by simp) (by simp) : (t.note (.called op)).Ready).invoke hs op
    · -- the engine step that `trigger()` runs
      obtain ⟨rfl, ht⟩ : op = .step ∧ t.stack = [.trigger] := by simpa [unnested, hs] using hu
      have hr : t.Ready := (h.top ht).1
      exact (hr.note (by simp) (by simp) : (t.note (.called .step)).Ready).processChildren
        (.inr ht)
  | ret b =>
    unfold TaskCore.step
    cases hs : t.stack with
    | nil => exact h
    | cons f s =>
      obtain ⟨hf, hi, hn⟩ := h.top hs
      exact (hf.leave s (by simp) (by simp)).afterReturn hi hn rfl
  | throw =>
    unfold TaskCore.step
    cases hs : t.stack with
    | nil => exact h
    | cons f s =>
      obtain ⟨hf, hi, hn⟩ := h.top hs
      apply (hf.leave s (by simp) (by simp)).afterThrow hi
      · rintro rfl
        simp [orderly, hs] at ho
      · rintro rfl
        simpa [orderly, hs] using ho

theorem create_balanced {initial : TaskState} (hi : initial < .running) :
    (create initial).Balanced := by
  constructor
  · constructor
    · exact ⟨hi, trivial, fun _ => trivial⟩
    · exact fun hr => absurd hi (TaskState.not_lt.mpr hr)
    · intro hp hc
      have hp' : initial = .preOperational := hp
      have hc' : TaskState.stopped ≤ initial := hc
      rw [hp'] at hc'
      exact absurd hc' (by decide)
  · exact fun hr => hr

/-- In a run whose hooks only return or throw, in which neither the `stopHook` of `stop()`
nor the `cleanupHook` of `cleanup()` throws, every `stopHook` is called for its own
`startHook` and every `cleanupHook` for its own `configureHook`. -/
theorem hooks_paired (initial : TaskState) (hi : initial < .running) (actions : List Action)
    (hrun : Along step (fun t a => t.unnested a = true ∧ t.orderly a = true)
      (create initial) actions) :
    let t := run step (create initial) actions
    StopPaired t.log ∧ (t.mInitialState = .preOperational → CleanupPaired t.log) := by
  intro t
  have hb : t.Balanced := by
    apply run_invariant (I := Balanced) _ (create_balanced hi) hrun
    exact fun t a hb h => hb.step h.1 h.2
  exact ⟨hb.tallied.stops, hb.tallied.cleanups⟩

/-- A task that is configured and started, whose `updateHook` throws, and that is recovered,
configured, started and stopped again. -/
theorem hooks_paired_exception :
    let t := run step (create .preOperational)
      [.call .configure, .ret true, .call .start, .ret true, .ret true, .call .step, .ret true,
        .throw, .ret true, .ret true, .ret true, .call .recover, .call .configure, .ret true,
        .call .start, .ret true, .ret true, .call .stop, .ret true, .ret true]
    StopPaired t.log ∧ CleanupPaired t.log ∧ t.mTaskState = .stopped := by
  have h := hooks_paired .preOperational (by decide)
    [.call .configure, .ret true, .call .start, .ret true, .ret true, .call .step, .ret true,
        .throw, .ret true, .ret true, .ret true, .call .recover, .call .configure, .ret true,
        .call .start, .ret true, .ret true, .call .stop, .ret true, .ret true] (by decide)
  exact ⟨h.1, h.2 (by decide), by decide⟩

/-- `stopHook` throws in `stop()`: the task is still in `Running`, so that `exception()`
calls `stopHook` once more. With a `cleanupHook` it is the same. -/
theorem hooks_unpaired :
    let stopping := [.call .start, .ret true, .ret true, .call .stop, .ret true, .throw]
    let cleaning := [.call .configure, .ret true, .call .cleanup, .throw]
    Along step (fun t a => t.unnested a = true) (create .stopped) stopping ∧
      ¬ StopPaired (run step (create .stopped) stopping).log ∧
    Along step (fun t a => t.unnested a = true) (create .preOperational) cleaning ∧
      ¬ CleanupPaired (run step (create .preOperational) cleaning).log := by
  unfold StopPaired CleanupPaired
  decide

end TaskCore
end OrocosRtt.Task
