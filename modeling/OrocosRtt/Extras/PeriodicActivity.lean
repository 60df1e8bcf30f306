import OrocosRtt.Extras.TimerThread
import OrocosRtt.Library.Run
import Mathlib.Data.List.ReduceOption
import Mathlib.Data.List.Nodup
import Mathlib.Data.List.Induction

/-! Periodic activities: each one puts itself in the list of its timer thread when it starts and
takes itself out when it stops, also from within a step of that thread. -/
namespace OrocosRtt.Extras

/-- A timer thread with the flags of the activities that use it. -/
structure Activities (A : Type) where
  thread : TimerThread A
  running : A → Bool
  active : A → Bool

/-- A call of an activity's own `start` or `stop`, with whether the thread runs or could be
started, and with what `initialize` returns. -/
inductive Call (A : Type) where
  | start (a : A) (threadRuns initialized : Bool)
  | stop (a : A)
  deriving DecidableEq

/-- What happens in a step of the thread; a start or a stop is one that returned true. -/
inductive Event (A : Type) where
  | executes (a : A)
  | starts (a : A)
  | stops (a : A)
  deriving DecidableEq

namespace Activities

variable {A : Type} [DecidableEq A]

def create : Activities A where
  thread := .create
  running := fun _ => false
  active := fun _ => false

def start (s : Activities A) (a : A) (threadRuns initialized : Bool) : Activities A × Bool :=
  if s.active a then (s, false)
  else if !threadRuns then (s, false)
  else
    let s := { s with active := Function.update s.active a true }
    if !initialized then ({ s with active := Function.update s.active a false }, false)
    else
      match s.thread.addActivity a with
      | (_, false) => ({ s with active := Function.update s.active a false }, false)
      | (thread, true) =>
        ({ s with thread := thread, running := Function.update s.running a true }, true)

def stop (s : Activities A) (a : A) : Activities A × Bool :=
  if !s.active a then (s, false)
  else
    match s.thread.removeActivity a with
    | (_, false) => (s, false)
    | (thread, true) =>
      (⟨thread, Function.update s.running a false, Function.update s.active a false⟩, true)

def perform (s : Activities A) : Call A → Activities A × List (Event A)
  | .start a threadRuns initialized =>
    let r := s.start a threadRuns initialized
    (r.1, if r.2 then [.starts a] else [])
  | .stop a =>
    let r := s.stop a
    (r.1, if r.2 then [.stops a] else [])

def performAll (s : Activities A) : List (Call A) → Activities A × List (Event A)
  | [] => (s, [])
  | c :: cs =>
    let r := s.perform c
    let r' := r.1.performAll cs
    (r'.1, r.2 ++ r'.2)

/-- The loop of `TimerThread::step` from slot `i` on. The first list of `calls` is what the next
activity to be executed calls in its `step()`. -/
def stepFrom (s : Activities A) (i : ℕ) (calls : List (List (Call A))) :
    Activities A × List (Event A) :=
  if _h : i < s.thread.tasks.length then
    match s.thread.tasks.getD i none with
    | none => s.stepFrom (i + 1) calls
    | some a =>
      let r := s.performAll (calls.headD [])
      let r' := r.1.stepFrom (i + 1) calls.tail
      (r'.1, .executes a :: r.2 ++ r'.2)
  else (s, [])
termination_by maxActivities - i
decreasing_by
  all_goals
    have := s.thread.bounded
    omega

/-- `if ( cleanup ) this->reorderList();` -/
def cleanUp (s : Activities A) : Activities A :=
  if s.thread.cleanup then { s with thread := s.thread.reorderList } else s

/-- `TimerThread::step`, with what happens in it. -/
def step (s : Activities A) (calls : List (List (Call A))) : Activities A × List (Event A) :=
  let r := s.stepFrom 0 calls
  (r.1.cleanUp, r.2)

/-- The loop of `TimerThread::finalize` from slot `i` on. -/
def finalizeFrom (s : Activities A) (i : ℕ) : Activities A :=
  if _h : i < s.thread.tasks.length then
    match s.thread.tasks.getD i none with
    | none => s.finalizeFrom (i + 1)
    | some a => (s.stop a).1.finalizeFrom (i + 1)
  else s
termination_by maxActivities - i
decreasing_by
  all_goals
    have := s.thread.bounded
    omega

def finalize (s : Activities A) : Activities A := (s.finalizeFrom 0).cleanUp

/-- What is done between the steps of the thread, and the steps. -/
inductive Action (A : Type) where
  | call (c : Call A)
  | step (calls : List (List (Call A)))
  | finalize

def act (s : Activities A) : Action A → Activities A
  | .call c => (s.perform c).1
  | .step calls => (s.step calls).1
  | .finalize => s.finalize

/-! ### The list and the flags -/

/-- The running activities are in the list once, the others are not, and `cleanup` tells whether
there is a cleared slot. -/
structure Agrees (s : Activities A) : Prop where
  listed : ∀ a, s.thread.tasks.count (some a) = if s.running a then 1 else 0
  active : s.active = s.running
  cleanup : s.thread.cleanup = true ↔ none ∈ s.thread.tasks

theorem create_agrees : (create : Activities A).Agrees where
  listed := fun _ => rfl
  active := rfl
  cleanup := by simp [create, TimerThread.create]

variable {s : Activities A}

theorem Agrees.mem_of_running (h : s.Agrees) {a : A} (hrun : s.running a = true) :
    some a ∈ s.thread.tasks := by
  apply List.count_pos_iff.mp
  rw [h.listed a, hrun]
  decide

theorem Agrees.not_mem (h : s.Agrees) {a : A} (hrun : s.running a = false) :
    some a ∉ s.thread.tasks := by
  apply List.count_eq_zero.mp
  rw [h.listed a, hrun]
  rfl

theorem start_spec (h : s.Agrees) (a : A) (threadRuns initialized : Bool) :
    s.start a threadRuns initialized = (s, false) ∨ ∃ t : TimerThread A,
      s.start a threadRuns initialized =
        (⟨t, Function.update s.running a true, Function.update s.active a true⟩, true) ∧
      s.running a = false ∧ t.tasks = s.thread.tasks ++ [some a] ∧
        t.cleanup = s.thread.cleanup := by
  unfold start
  cases hact : s.active a with
  | true => exact .inl rfl
  | false =>
    have hback : Function.update (Function.update s.active a true) a false = s.active := by
      rw [Function.update_idem, ← hact, Function.update_eq_self]
    rw [if_neg Bool.false_ne_true]
    cases threadRuns with
    | false => exact .inl rfl
    | true =>
      cases initialized with
      | false => exact .inl (by simp [hback])
      | true =>
        by_cases hfull : s.thread.tasks.length = maxActivities
        · exact .inl (by simp [TimerThread.addActivity, hfull, hback])
        · refine .inr ⟨(s.thread.addActivity a).1, ?_, by rw [← h.active, hact], ?_⟩
          · simp [TimerThread.addActivity, hfull]
          · simp [TimerThread.addActivity, hfull]

theorem stop_spec (h : s.Agrees) (a : A) :
    s.stop a = (s, false) ∨ ∃ t : TimerThread A,
      s.stop a = (⟨t, Function.update s.running a false, Function.update s.active a false⟩, true) ∧
      s.running a = true ∧ t.tasks = s.thread.tasks.set (s.thread.tasks.idxOf (some a)) none ∧
        t.cleanup = true := by
  unfold stop
  cases hact : s.active a with
  | false => exact .inl rfl
  | true =>
    have hrun : s.running a = true := by rw [← h.active, hact]
    have hmem := h.mem_of_running hrun
    refine .inr ⟨(s.thread.removeActivity a).1, ?_, hrun, ?_⟩
    · simp [TimerThread.removeActivity, hmem]
    · simp [TimerThread.removeActivity, hmem]

theorem start_agrees (h : s.Agrees) {a : A} (hrun : s.running a = false) {t : TimerThread A}
    (htasks : t.tasks = s.thread.tasks ++ [some a]) (hclean : t.cleanup = s.thread.cleanup) :
    Agrees ⟨t, Function.update s.running a true, Function.update s.active a true⟩ where
  listed := by
    intro b
    have hb := h.listed b
    rw [htasks, List.count_append, hb]
    by_cases hba : b = a
    · subst hba
      simp [hrun]
    · simp [Function.update_of_ne hba, Ne.symm hba]
  active := by rw [h.active]
  cleanup := by
    show t.cleanup = true ↔ none ∈ t.tasks
    rw [hclean, htasks, h.cleanup]
    simp

theorem count_set_none {tasks : List (Option A)} {a : A} (hmem : some a ∈ tasks) (b : A) :
    (tasks.set (tasks.idxOf (some a)) none).count (some b) =
      tasks.count (some b) - if b = a then 1 else 0 := by
  induction tasks with
  | nil => cases hmem
  | cons x tasks ih =>
    by_cases hx : x = some a
    · subst hx
      by_cases hba : b = a
      · simp [hba]
      · simp [hba, Ne.symm hba]
    · have hmem' : some a ∈ tasks := by
        rcases List.mem_cons.mp hmem with he | hm
        · exact absurd he.symm hx
        · exact hm
      rw [List.idxOf_cons_ne _ hx, List.set_cons_succ, List.count_cons, List.count_cons, ih hmem']
      by_cases hba : b = a
      · subst hba
        simp [hx]
      · simp [hba]

theorem stop_agrees (h : s.Agrees) {a : A} (hrun : s.running a = true) {t : TimerThread A}
    (htasks : t.tasks = s.thread.tasks.set (s.thread.tasks.idxOf (some a)) none)
    (hclean : t.cleanup = true) :
    Agrees ⟨t, Function.update s.running a false, Function.update s.active a false⟩ where
  listed := by
    intro b
    have hmem := h.mem_of_running hrun
    rw [htasks, count_set_none hmem, h.listed b]
    by_cases hba : b = a
    · subst hba
      simp [hrun]
    · simp [hba]
  active := by rw [h.active]
  cleanup := by
    have hmem := h.mem_of_running hrun
    show t.cleanup = true ↔ none ∈ t.tasks
    rw [hclean, htasks]
    exact ⟨fun _ => List.mem_set (List.idxOf_lt_length_iff.mpr hmem) none, fun _ => rfl⟩

/-- All that a call can do. -/
theorem perform_cases (h : s.Agrees) (c : Call A) :
    s.perform c = (s, []) ∨
    (∃ a, (s.perform c).2 = [.starts a] ∧ (s.perform c).1.Agrees ∧
      (s.perform c).1.thread.tasks = s.thread.tasks ++ [some a]) ∨
    ∃ a, (s.perform c).2 = [.stops a] ∧ (s.perform c).1.Agrees ∧
      (s.perform c).1.running a = false ∧
      (s.perform c).1.thread.tasks = s.thread.tasks.set (s.thread.tasks.idxOf (some a)) none := by
  cases c with
  | start a threadRuns initialized =>
    rcases start_spec h a threadRuns initialized with he | ⟨t, he, hrun, htasks, hclean⟩
    · exact .inl (by simp [perform, he])
    · have hs := start_agrees h hrun htasks hclean
      exact .inr (.inl ⟨a, by simp [perform, he], by simpa [perform, he] using hs,
        by simpa [perform, he] using htasks⟩)
  | stop a =>
    rcases stop_spec h a with he | ⟨t, he, hrun, htasks, hclean⟩
    · exact .inl (by simp [perform, he])
    · have hs := stop_agrees h hrun htasks hclean
      exact .inr (.inr ⟨a, by simp [perform, he], by simpa [perform, he] using hs,
        by simp [perform, he], by simpa [perform, he] using htasks⟩)

theorem performAll_agrees (h : s.Agrees) (cs : List (Call A)) : (s.performAll cs).1.Agrees := by
  induction cs generalizing s with
  | nil => exact h
  | cons c cs ih =>
    apply ih
    rcases perform_cases h c with he | ⟨a, -, ha, -⟩ | ⟨a, -, ha, -⟩
    · rwa [he]
    · exact ha
    · exact ha

theorem cleanUp_agrees (h : s.Agrees) : s.cleanUp.Agrees := by
  unfold cleanUp
  split
  · refine ⟨fun a => ?_, h.active, ?_⟩
    · show (TimerThread.reordered s.thread.tasks).count (some a) = _
      rw [TimerThread.reordered_eq, List.count_filter (by rfl)]
      exact h.listed a
    · show false = true ↔ none ∈ TimerThread.reordered s.thread.tasks
      rw [TimerThread.reordered_eq]
      simp
  · exact h

/-! ### What happens in a step -/

def executions (trace : List (Event A)) : List A :=
  trace.filterMap fun e => match e with
    | .executes a => some a
    | .starts _ | .stops _ => none

def startedIn (trace : List (Event A)) : List A :=
  trace.filterMap fun e => match e with
    | .starts a => some a
    | .executes _ | .stops _ => none

def dueAfter (a : A) (d : Bool) : Event A → Bool
  | .starts b => if b = a then true else d
  | .executes b | .stops b => if b = a then false else d

/-- The activity is still to be executed after these events, if it was to be at first. -/
def due (a : A) (trace : List (Event A)) : Bool :=
  trace.foldl (dueAfter a) true

/-- The activity is executed, and started again later. -/
def Restarted (a : A) (trace : List (Event A)) : Prop :=
  ∃ pre post, trace = pre ++ .executes a :: post ∧ .starts a ∈ post

/-- Each activity that is executed is due. -/
def Timely (trace : List (Event A)) : Prop :=
  ∀ pre a post, trace = pre ++ .executes a :: post → due a pre = true

theorem due_append_singleton (a : A) (trace : List (Event A)) (e : Event A) :
    due a (trace ++ [e]) = dueAfter a (due a trace) e := by
  rw [due, List.foldl_append]
  rfl

theorem timely_append_singleton {trace : List (Event A)} {e : Event A} (h : Timely trace)
    (he : ∀ a, e = .executes a → due a trace = true) : Timely (trace ++ [e]) := by
  intro pre a post heq
  rcases List.eq_nil_or_concat post with rfl | ⟨post, x, rfl⟩
  · obtain ⟨rfl, hx⟩ := List.append_inj' heq rfl
    exact he a (List.cons.inj hx).1
  · have hsplit : trace ++ [e] = (pre ++ .executes a :: post) ++ [x] := by
      rw [heq, List.append_assoc, List.concat_eq_append]
      rfl
    exact h pre a post (List.append_inj' hsplit rfl).1

theorem starts_of_due {a : A} {pre mid : List (Event A)} {e : Event A}
    (he : dueAfter a (due a pre) e = false) (h : due a (pre ++ e :: mid) = true) :
    .starts a ∈ mid := by
  by_contra hno
  have hfalse : ∀ l : List (Event A), .starts a ∉ l → l.foldl (dueAfter a) false = false := by
    intro l
    induction l with
    | nil => intro _; rfl
    | cons x l ih =>
      intro hl
      rw [List.mem_cons, not_or] at hl
      have hx : dueAfter a false x = false := by
        cases x with
        | starts b =>
          have hb : b ≠ a := fun hb => hl.1 (by rw [hb])
          simp [dueAfter, hb]
        | executes b => simp [dueAfter]
        | stops b => simp [dueAfter]
      rw [List.foldl_cons, hx]
      exact ih hl.2
  rw [due, List.foldl_append, List.foldl_cons] at h
  have hstep : dueAfter a (pre.foldl (dueAfter a) true) e = false := he
  rw [hstep, hfalse mid hno] at h
  cases h

theorem timely_of_append {pre post : List (Event A)} (h : Timely (pre ++ post)) : Timely pre := by
  intro p a q heq
  exact h p a (q ++ post) (by rw [heq, List.append_assoc, List.cons_append])

omit [DecidableEq A] in
theorem mem_executions {a : A} {trace : List (Event A)} :
    a ∈ executions trace ↔ .executes a ∈ trace := by
  rw [executions, List.mem_filterMap]
  constructor
  · rintro ⟨e, he, hea⟩
    cases e with
    | executes b =>
      cases hea
      exact he
    | starts b => cases hea
    | stops b => cases hea
  · intro h
    exact ⟨_, h, rfl⟩

/-- An activity that is due, though it was executed, was started again. -/
theorem nodup_executions_iff {trace : List (Event A)} (h : Timely trace) :
    (executions trace).Nodup ↔
      ∀ pre a post, trace = pre ++ .executes a :: post → ¬ Restarted a pre := by
  constructor
  · rintro hnodup pre a post rfl ⟨p, q, rfl, -⟩
    have hsplit : executions (p ++ .executes a :: q ++ .executes a :: post) =
        executions p ++ a :: executions q ++ a :: executions post := by simp [executions]
    rw [hsplit] at hnodup
    have hmem : a ∈ executions p ++ a :: executions q :=
      List.mem_append_right _ List.mem_cons_self
    exact List.disjoint_of_nodup_append hnodup hmem List.mem_cons_self
  · intro hfresh
    induction trace using List.reverseRecOn with
    | nil => exact List.nodup_nil
    | append_singleton l e ih =>
      have hl := ih (timely_of_append h) fun pre a post heq =>
        hfresh pre a (post ++ [e]) (by rw [heq, List.append_assoc, List.cons_append])
      cases e with
      | starts a => simpa [executions] using hl
      | stops a => simpa [executions] using hl
      | executes a =>
        have hnot : a ∉ executions l := by
          intro hmem
          obtain ⟨p, q, rfl⟩ := List.append_of_mem (mem_executions.mp hmem)
          have hdue := h (p ++ .executes a :: q) a [] rfl
          have hstart := starts_of_due (by simp [dueAfter]) hdue
          exact hfresh _ a [] rfl ⟨p, q, rfl, hstart⟩
        have hsnoc : executions (l ++ [.executes a]) = executions l ++ [a] := by
          simp [executions]
        rw [hsnoc]
        exact List.Nodup.append hl (List.nodup_singleton a) (by simpa using hnot)

variable {first : List A} {i : ℕ} {past : List (Event A)}

/-- The loop has come to slot `i` after the events `past`; `first` are the activities that were
in the list when it began. -/
structure Going (first : List A) (s : Activities A) (i : ℕ) (past : List (Event A)) : Prop where
  agrees : s.Agrees
  le : i ≤ s.thread.tasks.length
  due : ∀ a, some a ∈ s.thread.tasks.drop i → due a past = true
  order : (executions past ++ (s.thread.tasks.drop i).reduceOption).Sublist
    (first ++ startedIn past)
  timely : Timely past

omit [DecidableEq A] in
theorem reduceOption_set_none (l : List (Option A)) (k : ℕ) :
    (l.set k none).reduceOption.Sublist l.reduceOption := by
  induction l generalizing k with
  | nil => exact List.Sublist.refl _
  | cons x l ih =>
    cases k with
    | zero =>
      rw [List.set_cons_zero, List.reduceOption_cons_of_none]
      cases x with
      | none => exact List.Sublist.refl _
      | some a => exact List.sublist_cons_self a _
    | succ k =>
      rw [List.set_cons_succ]
      cases x with
      | none => exact ih k
      | some a => exact (ih k).cons_cons a

omit [DecidableEq A] in
theorem drop_set_none (l : List (Option A)) (k i : ℕ) :
    ((l.set k none).drop i).reduceOption.Sublist (l.drop i).reduceOption ∧
      ∀ a, some a ∈ (l.set k none).drop i → some a ∈ l.drop i := by
  rcases Nat.lt_or_ge k i with hk | hk
  · rw [List.drop_set_of_lt hk]
    exact ⟨List.Sublist.refl _, fun _ h => h⟩
  · rw [List.drop_set, if_neg (Nat.not_lt.mpr hk)]
    refine ⟨reduceOption_set_none _ _, fun a ha => ?_⟩
    rcases List.mem_or_eq_of_mem_set ha with hmem | he
    · exact hmem
    · cases he

omit [DecidableEq A] in
theorem drop_eq_getD_cons {l : List (Option A)} {i : ℕ} (h : i < l.length) :
    l.drop i = l.getD i none :: l.drop (i + 1) := by
  rw [List.drop_eq_getElem_cons h, List.getD_eq_getElem?_getD, List.getElem?_eq_getElem h]
  rfl

theorem Going.perform (h : Going first s i past) (c : Call A) :
    Going first (s.perform c).1 i (past ++ (s.perform c).2) := by
  rcases perform_cases h.agrees c with he | ⟨a, he, ha, htasks⟩ | ⟨a, he, ha, hrun, htasks⟩
  · rw [he, List.append_nil]
    exact h
  · have hdrop : (s.perform c).1.thread.tasks.drop i = s.thread.tasks.drop i ++ [some a] := by
      rw [htasks, List.drop_append_of_le_length h.le]
    rw [he]
    refine ⟨ha, ?_, ?_, ?_, timely_append_singleton h.timely (fun _ hc => by cases hc)⟩
    · rw [htasks, List.length_append]
      exact Nat.le_trans h.le (Nat.le_add_right _ _)
    · intro b hb
      rw [due_append_singleton]
      by_cases hab : a = b
      · simp [dueAfter, hab]
      · rw [hdrop, List.mem_append, List.mem_singleton] at hb
        rcases hb with hb | hb
        · simpa [dueAfter, hab] using h.due b hb
        · exact absurd (Option.some.inj hb).symm hab
    · have hex : executions (past ++ [.starts a]) = executions past := by simp [executions]
      have hst : startedIn (past ++ [.starts a]) = startedIn past ++ [a] := by simp [startedIn]
      rw [hdrop, hex, hst, List.reduceOption_append, ← List.append_assoc, ← List.append_assoc]
      exact h.order.append (List.Sublist.refl _)
  · obtain ⟨hsub, hmem⟩ := drop_set_none s.thread.tasks (s.thread.tasks.idxOf (some a)) i
    rw [← htasks] at hsub hmem
    rw [he]
    refine ⟨ha, ?_, ?_, ?_, timely_append_singleton h.timely (fun _ hc => by cases hc)⟩
    · rw [htasks, List.length_set]
      exact h.le
    · intro b hb
      have hab : a ≠ b := by
        rintro rfl
        exact ha.not_mem hrun (List.mem_of_mem_drop hb)
      rw [due_append_singleton]
      simpa [dueAfter, hab] using h.due b (hmem b hb)
    · have hex : executions (past ++ [.stops a]) = executions past := by simp [executions]
      have hst : startedIn (past ++ [.stops a]) = startedIn past := by simp [startedIn]
      rw [hex, hst]
      exact ((List.Sublist.refl _).append hsub).trans h.order

theorem Going.performAll (cs : List (Call A)) : ∀ {s : Activities A} {past : List (Event A)},
    Going first s i past → Going first (s.performAll cs).1 i (past ++ (s.performAll cs).2) := by
  induction cs with
  | nil =>
    intro s past h
    rw [Activities.performAll, List.append_nil]
    exact h
  | cons c cs ih =>
    intro s past h
    have hcs := ih (h.perform c)
    rwa [List.append_assoc] at hcs

/-- The activity in slot `i` is executed: it is in no later slot. -/
theorem Going.execute (h : Going first s i past) (hi : i < s.thread.tasks.length) {a : A}
    (ha : s.thread.tasks.getD i none = some a) : Going first s (i + 1) (past ++ [.executes a]) := by
  have hdrop := drop_eq_getD_cons hi
  rw [ha] at hdrop
  have honce : some a ∉ s.thread.tasks.drop (i + 1) := by
    intro hmem
    have hpos := List.count_pos_iff.mpr hmem
    have hle : (s.thread.tasks.drop i).count (some a) ≤ s.thread.tasks.count (some a) :=
      (List.drop_sublist i _).count_le _
    rw [hdrop, List.count_cons_self, h.agrees.listed a] at hle
    split at hle
    · omega
    · omega
  have hdue : Activities.due a past = true := h.due a (by rw [hdrop]; exact List.mem_cons_self)
  refine ⟨h.agrees, hi, ?_, ?_, timely_append_singleton h.timely ?_⟩
  · intro b hb
    have hab : a ≠ b := by
      rintro rfl
      exact honce hb
    rw [due_append_singleton]
    simpa [dueAfter, hab] using h.due b (by rw [hdrop]; exact List.mem_cons_of_mem _ hb)
  · have hex : executions (past ++ [.executes a]) = executions past ++ [a] := by simp [executions]
    have hst : startedIn (past ++ [.executes a]) = startedIn past := by simp [startedIn]
    have horder := h.order
    rw [hdrop, List.reduceOption_cons_of_some] at horder
    rw [hex, hst, List.append_assoc]
    exact horder
  · rintro b hb
    cases hb
    exact hdue

theorem Going.skip (h : Going first s i past) (hi : i < s.thread.tasks.length)
    (hnone : s.thread.tasks.getD i none = none) : Going first s (i + 1) past := by
  have hdrop := drop_eq_getD_cons hi
  rw [hnone] at hdrop
  refine ⟨h.agrees, hi, ?_, ?_, h.timely⟩
  · intro b hb
    exact h.due b (by rw [hdrop]; exact List.mem_cons_of_mem _ hb)
  · have horder := h.order
    rwa [hdrop, List.reduceOption_cons_of_none] at horder

theorem Going.stepFrom (calls : List (List (Call A))) (h : Going first s i past) :
    ∃ j, Going first (s.stepFrom i calls).1 j (past ++ (s.stepFrom i calls).2) := by
  induction s, i, calls using stepFrom.induct generalizing past with
  | case1 s i calls hi hnone ih =>
    unfold Activities.stepFrom
    rw [dif_pos hi, hnone]
    exact ih (h.skip hi hnone)
  | case2 s i calls hi a ha r =>
    rename_i ih
    unfold Activities.stepFrom
    rw [dif_pos hi, ha]
    obtain ⟨j, hj⟩ := ih ((h.execute hi ha).performAll _)
    refine ⟨j, ?_⟩
    rw [List.append_assoc, List.append_assoc] at hj
    exact hj
  | case3 s i calls hi =>
    unfold Activities.stepFrom
    rw [dif_neg hi, List.append_nil]
    exact ⟨i, h⟩

/-- A step of the thread, from its first slot on. -/
theorem step_going (h : s.Agrees) (calls : List (List (Call A))) :
    (s.step calls).1.Agrees ∧ Timely (s.step calls).2 ∧
      (executions (s.step calls).2).Sublist
        (s.thread.tasks.reduceOption ++ startedIn (s.step calls).2) := by
  have hfirst : Going s.thread.tasks.reduceOption s 0 [] := by
    refine ⟨h, Nat.zero_le _, fun _ _ => rfl, ?_, ?_⟩
    · simp [executions, startedIn]
    · intro pre a post heq
      exact absurd heq.symm (by simp)
  obtain ⟨j, hj⟩ := hfirst.stepFrom calls
  rw [List.nil_append] at hj
  exact ⟨cleanUp_agrees hj.agrees, hj.timely, (List.sublist_append_left _ _).trans hj.order⟩

theorem finalizeFrom_agrees (h : s.Agrees) (i : ℕ) : (s.finalizeFrom i).Agrees := by
  induction s, i using finalizeFrom.induct with
  | case1 s i hi hnone ih =>
    unfold finalizeFrom
    rw [dif_pos hi, hnone]
    exact ih h
  | case2 s i hi a ha ih =>
    unfold finalizeFrom
    rw [dif_pos hi, ha]
    apply ih
    have hstop := performAll_agrees h [.stop a]
    exact hstop
  | case3 s i hi =>
    unfold finalizeFrom
    rwa [dif_neg hi]

theorem act_agrees (h : s.Agrees) (a : Action A) : (s.act a).Agrees := by
  cases a with
  | call c => exact performAll_agrees h [c]
  | step calls => exact (step_going h calls).1
  | finalize => exact cleanUp_agrees (finalizeFrom_agrees h 0)

theorem run_agrees (acts : List (Action A)) : (Library.Run.run act create acts).Agrees :=
  have hstep (s : Activities A) (a : Action A) (h : s.Agrees) (_ : True) : (s.act a).Agrees :=
    act_agrees h a
  Library.Run.run_invariant hstep create_agrees (Library.Run.along_trivial _ _ acts)

/-- Between steps the list has each running activity once and no other one; the cleared slots are
removed and nothing else; a step goes through the list and what is started in it, and executes no
activity after it was stopped; and it executes an activity twice exactly when the loop comes to an
activity that was started again after it was executed. -/
theorem executes_once_iff (acts : List (Action A)) :
    let s : Activities A := Library.Run.run act create acts
    (∀ a, s.thread.tasks.count (some a) = if s.running a then 1 else 0) ∧
    (∀ t : TimerThread A, t.reorderList.tasks = t.tasks.filter Option.isSome) ∧
    ∀ calls, let trace := (s.step calls).2
      (executions trace).Sublist (s.thread.tasks.reduceOption ++ startedIn trace) ∧
      (∀ pre a mid post, trace = pre ++ .stops a :: (mid ++ .executes a :: post) →
        .starts a ∈ mid) ∧
      ((executions trace).Nodup ↔
        ∀ pre a post, trace = pre ++ .executes a :: post → ¬ Restarted a pre) := by
  intro s
  have hs := run_agrees acts
  refine ⟨hs.listed, fun t => TimerThread.reordered_eq t.tasks, fun calls => ?_⟩
  obtain ⟨-, htimely, horder⟩ := step_going hs calls
  refine ⟨horder, ?_, ?_⟩
  · intro pre a mid post heq
    have hdue := htimely (pre ++ .stops a :: mid) a post (by rw [heq]; simp)
    exact starts_of_due (by simp [dueAfter]) hdue
  · exact nodup_executions_iff htimely

/-- An activity that stops and starts itself is executed again in the same step. -/
theorem executed_twice : ¬ ∀ (acts : List (Action Unit)) (calls : List (List (Call Unit))),
    (executions ((Library.Run.run act create acts).step calls).2).Nodup := by
  intro h
  have honce := h [.call (.start () true true)] [[.stop (), .start () true true]]
  have hall : Function.update (fun _ : Unit => false) () true = fun _ => true := by
    funext u
    rfl
  have hs : Library.Run.run act create [.call (.start () true true)] =
      ⟨⟨[some ()], false, by decide⟩, fun _ => true, fun _ => true⟩ := by
    simp [Library.Run.run, act, perform, start, create, TimerThread.create,
      TimerThread.addActivity, maxActivities, hall]
  rw [hs] at honce
  simp [Activities.step, stepFrom, Activities.performAll, Activities.perform, stop, start,
    TimerThread.removeActivity, TimerThread.addActivity, maxActivities, executions] at honce

end Activities
end OrocosRtt.Extras
