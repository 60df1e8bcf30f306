import OrocosRtt.Os.Thread
import Mathlib.Data.Fintype.Basic

/-! Whether a periodic thread that reports running runs: a `stop` that gives up restores the flag
`running`, and the thread function may have left for its semaphore by then. -/
namespace OrocosRtt.Os.Thread

open Library.Run

variable {τ : Type} [DecidableEq τ]

/-- A `start` that is sure to signal the semaphore. -/
def Call.signals : Call → Bool
  | .startRunning | .startSignal => true
  | _ => false

/-- The thread function waits for a command and there is none. -/
def State.blocked (s : State τ) : Prop := s.place = .semWait ∧ s.sem = 0

/-- No call of `start` or `stop` is in progress. -/
def State.atRest (s : State τ) : Prop := ∀ t, s.calls t = .idle

/-- An `emergencyStop` is to come, or is not done. -/
def State.failing (c : Config) (s : State τ) : Bool :=
  match s.place with
  | .unwind | .caughtInloop | .stopRunning => true
  | .leave => s.overruns = c.maxOverRun
  | p => p.emergency

/-- The thread function by itself, as long as `step` does not throw and meets its period, calls
`step` again and again. -/
def KeepsStepping (c : Config) (s : State τ) : Prop :=
  ∀ n, ∃ m, n ≤ m ∧ (run (step c) s (List.replicate m (.thread .ok))).place = .step

structure Responsive (c : Config) (acts : List (Act τ)) : Prop where
  awake : (after c acts).atRest → (after c acts).running = true → ¬ (after c acts).blocked
  /-- The last step is a `stop` that gives up. -/
  restored : ∀ acts₀ t o, acts = acts₀ ++ [.call t o] → (after c acts₀).calls t = .stopRestore →
    (after c acts).atRest → (after c acts).active = true → (after c acts).failing c = false →
      KeepsStepping c (after c acts)

/-- With `running` set and no `start` about to signal it, the thread function does not go to its
empty semaphore, and a `stop` does not set `running` when it is there. -/
def Heard (s : State τ) : Act τ → Prop
  | .thread _ =>
    s.place = .testActive → s.active = false → s.running = true → s.sem = 0 →
      ∃ t, (s.calls t).signals = true
  | .call t _ =>
    s.calls t = .stopRestore → s.place = .semWait → s.sem = 0 → ∃ u, (s.calls u).signals = true
  | _ => True

instance decidableHeard [Fintype τ] (s : State τ) : ∀ a, Decidable (Heard s a)
  | .thread _ => inferInstanceAs (Decidable (_ → _ → _ → _ → ∃ t, (s.calls t).signals = true))
  | .call _ _ => inferInstanceAs (Decidable (_ → _ → _ → ∃ u, (s.calls u).signals = true))
  | .start _ => .isTrue trivial
  | .stop _ => .isTrue trivial

/-! ### The thread function is told -/

/-- A place that only a thread that is not periodic comes to. -/
def Place.aperiodic : Place → Bool
  | .setInloop | .loop | .clearInloop | .unlock | .caughtInloop => true
  | _ => false

structure Told (s : State τ) : Prop where
  signalled : s.place = .semWait → s.sem = 0 → s.running = true →
    ∃ t, (s.calls t).signals = true
  thread : s.breaker = .thread → s.place.holds = true
  caller : ∀ t, s.breaker = .caller t → s.calls t = .stopUnlock
  periodic : s.place.aperiodic = false

omit [DecidableEq τ] in
theorem create_told : Told (create (τ := τ)) where
  signalled h := by cases h
  thread h := by cases h
  caller _ h := by cases h
  periodic := rfl

omit [DecidableEq τ] in
/-- The thread function goes to a place where it does not wait for a command. -/
theorem Told.turn {s : State τ} (h : Told s) {p : Place} {a r i : Bool} {n : ℕ} {v : ℤ}
    {l : List Event} (hp : p ≠ .semWait) (hh : s.place.holds = true → p.holds = true)
    (hper : p.aperiodic = false) :
    Told { s with
      place := p, active := a, running := r, inloop := i, sem := n, overruns := v, log := l } where
  signalled hw := absurd hw hp
  thread hb := hh (h.thread hb)
  caller := h.caller
  periodic := hper

omit [DecidableEq τ] in
theorem Told.await {s : State τ} (h : Told s) (c : Config) (hh : s.place.holds = false)
    (hs : s.sem = 0 → s.running = true → ∃ t, (s.calls t).signals = true) :
    Told (s.await c) where
  signalled _ := hs
  thread hb := by
    have hholds := h.thread hb
    rw [hh] at hholds
    cases hholds
  caller := h.caller
  periodic := rfl

omit [DecidableEq τ] in
theorem Told.free {s : State τ} {p : Place} (hp : p ≠ .semWait) (hper : p.aperiodic = false) :
    Told { s with place := p, breaker := .free } where
  signalled hw := absurd hw hp
  thread hb := by cases hb
  caller _ hb := by cases hb
  periodic := hper

theorem threadMove_told {c : Config} (hc : c.periodic = true) {s : State τ} {o : Outcome}
    (h : Told s) (ha : Heard s (.thread o)) : Told (threadMove c s o) := by
  have hper := h.periodic
  unfold threadMove
  cases hp : s.place with
  | testActive =>
    dsimp only
    split
    · exact h.turn nofun (by rw [hp]; exact id) rfl
    · rename_i hactive
      exact h.await c (by rw [hp]; rfl) fun hs hr => ha hp (by simpa using hactive) hr hs
  | testPeriod =>
    dsimp only
    rw [hc, Bool.not_true, Bool.and_false, if_neg Bool.false_ne_true]
    exact h.turn nofun (by rw [hp]; exact id) rfl
  | testRunning =>
    dsimp only
    split
    · exact h.turn nofun (by rw [hp]; exact id) rfl
    · rename_i hrunning
      exact h.await c (by rw [hp]; rfl) fun _ hr => absurd hr hrunning
  | semWait =>
    dsimp only
    split
    · exact h
    · exact h.turn nofun (by rw [hp]; exact id) rfl
  | enter =>
    dsimp only
    split
    · exact h.turn nofun (by rw [hp]; exact id) rfl
    · exact h.turn nofun (by rw [hp]; exact id) rfl
  | lock =>
    dsimp only
    split
    · exact ⟨nofun, fun _ => rfl, nofun, rfl⟩
    · exact h
  | cycle =>
    dsimp only
    split
    · exact h.turn nofun (fun _ => rfl) rfl
    · exact h.turn nofun (fun _ => rfl) rfl
  | step =>
    dsimp only
    split
    · exact h.turn nofun (fun _ => rfl) rfl
    · exact h.turn nofun (fun _ => rfl) rfl
  | waitPeriod =>
    dsimp only
    split
    · split
      · exact h.turn nofun (fun _ => rfl) rfl
      · exact h.turn nofun (fun _ => rfl) rfl
    · exact h.turn nofun (fun _ => rfl) rfl
  | leave =>
    dsimp only
    split
    · exact Told.free nofun rfl
    · exact Told.free nofun rfl
  | unwind =>
    dsimp only
    rw [hc, if_pos rfl]
    exact Told.free nofun rfl
  | stopRunning => exact h.turn nofun (by rw [hp]; exact id) rfl
  | stopInloop => exact h.turn nofun (by rw [hp]; exact id) rfl
  | stopActive => exact h.turn nofun (by rw [hp]; exact id) rfl
  | stopFinalize => exact h.turn nofun (by rw [hp]; exact id) rfl
  | finalizing => exact h.turn nofun (by rw [hp]; exact id) rfl
  | setInloop => rw [hp] at hper; cases hper
  | loop => rw [hp] at hper; cases hper
  | clearInloop => rw [hp] at hper; cases hper
  | unlock => rw [hp] at hper; cases hper
  | caughtInloop => rw [hp] at hper; cases hper

/-- A call goes on; it may set `running` when the thread function is told. -/
theorem Told.call {s : State τ} (h : Told s) {t : τ} {k₀ k : Call} {n : ℕ} {a r d : Bool}
    {b : Holder τ} {l : List Event} (hk₀ : s.calls t = k₀) (hn : s.sem ≤ n)
    (hs : k₀.signals = true → n = 0 → k.signals = true)
    (hr : r = true → s.place = .semWait → s.sem = 0 → ∃ u, (s.calls u).signals = true)
    (hthread : b = .thread → s.breaker = .thread)
    (hcaller : ∀ u, b = .caller u →
      u = t ∧ k = .stopUnlock ∨ s.breaker = .caller u ∧ k₀ ≠ .stopUnlock) :
    Told ({ s with sem := n, active := a, running := r, stopped := d, breaker := b, log := l }.call
      t k) where
  signalled hp hz ht := by
    have hz₀ : n = 0 := hz
    obtain ⟨u, hu⟩ := hr ht hp (by omega)
    by_cases hut : u = t
    · rw [hut, hk₀] at hu
      exact ⟨t, by rw [State.call_self]; exact hs hu hz⟩
    · exact ⟨u, by rw [State.call_other _ k hut]; exact hu⟩
  thread hb := h.thread (hthread hb)
  caller u hb := by
    rcases hcaller u hb with ⟨rfl, hk⟩ | ⟨hold, hne⟩
    · rw [State.call_self, hk]
    · have hu := h.caller u hold
      have hut : u ≠ t := by
        rintro rfl
        exact hne (hk₀.symm.trans hu)
      rw [State.call_other _ k hut]
      exact hu
  periodic := h.periodic

/-- The call leaves `running` and the mutex alone. -/
theorem Told.call_keep {s : State τ} (h : Told s) {t : τ} {k₀ k : Call} {n : ℕ} {a d : Bool}
    {l : List Event} (hk₀ : s.calls t = k₀) (hne : k₀ ≠ .stopUnlock) (hn : s.sem ≤ n)
    (hs : k₀.signals = true → n = 0 → k.signals = true) :
    Told ({ s with sem := n, active := a, stopped := d, log := l }.call t k) :=
  h.call hk₀ hn hs (fun hr hp hz => h.signalled hp hz hr) id fun _ hb => .inr ⟨hb, hne⟩

theorem callMove_told {c : Config} {s : State τ} {t : τ} {o : Outcome} (h : Told s)
    (ha : Heard s (.call t o)) : Told (callMove c s t o) := by
  unfold callMove
  cases hk : s.calls t with
  | idle => exact h
  | startTest =>
    dsimp only
    split
    · split
      · exact h.call_keep hk nofun (Nat.le_refl _) nofun
      · exact h.call_keep hk nofun (Nat.le_refl _) nofun
    · exact h.call_keep hk nofun (Nat.le_refl _) nofun
  | startSem =>
    dsimp only
    split
    · exact h.call_keep hk nofun (Nat.le_refl _) nofun
    · exact h.call_keep hk nofun (Nat.le_refl _) nofun
  | startTrigger => exact h.call_keep hk nofun (Nat.le_succ _) nofun
  | startActive => exact h.call_keep hk nofun (Nat.le_refl _) nofun
  | initializing =>
    cases o with
    | ok => exact h.call_keep hk nofun (Nat.le_refl _) nofun
    | fails => exact h.call_keep hk nofun (Nat.le_refl _) nofun
    | throws => exact h.call_keep hk nofun (Nat.le_refl _) nofun
  | startCheck =>
    dsimp only
    split
    · exact h.call_keep hk nofun (Nat.le_refl _) nofun
    · exact h.call_keep hk nofun (Nat.le_refl _) nofun
  | startFail => exact h.call_keep hk nofun (Nat.le_refl _) nofun
  | startRunning =>
    exact h.call hk (Nat.le_refl _) (fun _ _ => rfl) (fun _ _ _ => ⟨t, by rw [hk]; rfl⟩) id
      fun _ hb => .inr ⟨hb, nofun⟩
  | startSignal => exact h.call_keep hk nofun (Nat.le_succ _) fun _ hz => nomatch hz
  | stopTest =>
    dsimp only
    split
    · exact h.call_keep hk nofun (Nat.le_refl _) nofun
    · exact h.call_keep hk nofun (Nat.le_refl _) nofun
  | stopClear =>
    exact h.call hk (Nat.le_refl _) nofun nofun id fun _ hb => .inr ⟨hb, nofun⟩
  | stopInloop =>
    dsimp only
    split
    · exact h.call_keep hk nofun (Nat.le_refl _) nofun
    · exact h.call_keep hk nofun (Nat.le_refl _) nofun
  | breakLoop =>
    cases o with
    | ok => exact h.call_keep hk nofun (Nat.le_refl _) nofun
    | fails => exact h.call_keep hk nofun (Nat.le_refl _) nofun
    | throws => exact h.call_keep hk nofun (Nat.le_refl _) nofun
  | stopLock =>
    dsimp only
    split
    · exact h.call_keep hk nofun (Nat.le_refl _) nofun
    · split
      · refine h.call hk (Nat.le_refl _) nofun (fun hr hp hz => h.signalled hp hz hr) nofun ?_
        intro u hu
        cases hu
        exact .inl ⟨rfl, rfl⟩
      · exact h
  | stopUnlock =>
    exact h.call hk (Nat.le_refl _) nofun (fun hr hp hz => h.signalled hp hz hr) nofun nofun
  | stopFinalize => exact h.call_keep hk nofun (Nat.le_refl _) nofun
  | finalizing => exact h.call_keep hk nofun (Nat.le_refl _) nofun
  | stopActive => exact h.call_keep hk nofun (Nat.le_refl _) nofun
  | stopRestore =>
    exact h.call hk (Nat.le_refl _) nofun (fun _ hp hz => ha hk hp hz) id
      fun _ hb => .inr ⟨hb, nofun⟩

theorem step_told {c : Config} (hc : c.periodic = true) {s : State τ} {a : Act τ} (h : Told s)
    (ha : Heard s a) : Told (step c s a) := by
  cases a with
  | thread o => exact threadMove_told hc h ha
  | call t o => exact callMove_told h ha
  | start t =>
    dsimp only [step]
    split
    · rename_i hk
      exact h.call_keep hk nofun (Nat.le_refl _) nofun
    · exact h
  | stop t =>
    dsimp only [step]
    split
    · rename_i hk
      exact h.call_keep hk nofun (Nat.le_refl _) nofun
    · exact h

/-! ### The thread function by itself -/

/-- The thread function is on its round from one `step` to the next. -/
structure OnRound (c : Config) (s : State τ) : Prop where
  active : s.active = true
  running : s.running = true
  periodic : s.place.aperiodic = false
  wait : s.place = .semWait → s.sem ≠ 0
  failing : s.failing c = false
  unlocked : s.place.holds = false → s.breaker = .free

/-- How many moves away `step` is. -/
def Place.distance : Place → ℕ
  | .leave => 7
  | .testActive => 6
  | .testPeriod => 5
  | .testRunning | .semWait => 4
  | .enter => 3
  | .lock | .waitPeriod => 2
  | .cycle => 1
  | _ => 0

omit [DecidableEq τ] in
theorem OnRound.turn {c : Config} {s : State τ} (h : OnRound c s) {p : Place} {n : ℕ} {v : ℤ}
    {b : Holder τ} (hw : p ≠ .semWait) (hper : p.aperiodic = false)
    (hfail : State.failing c { s with place := p, sem := n, overruns := v, breaker := b } = false)
    (hb : p.holds = false → b = .free) :
    OnRound c { s with place := p, sem := n, overruns := v, breaker := b } :=
  ⟨h.active, h.running, hper, fun hp => absurd hp hw, hfail, hb⟩

theorem OnRound.move {c : Config} (hc : c.periodic = true) {s : State τ} (h : OnRound c s) :
    OnRound c (threadMove c s .ok) ∧
      (s.place ≠ .step → (threadMove c s .ok).place.distance < s.place.distance) := by
  have hper := h.periodic
  have hfail := h.failing
  have hfree := h.unlocked
  unfold State.failing at hfail
  unfold threadMove
  cases hp : s.place with
  | testActive =>
    dsimp only
    rw [if_pos h.active]
    exact ⟨h.turn nofun rfl rfl (fun _ => hfree (by rw [hp]; rfl)), fun _ => by simp [Place.distance]⟩
  | testPeriod =>
    dsimp only
    rw [hc, Bool.not_true, Bool.and_false, if_neg Bool.false_ne_true]
    exact ⟨h.turn nofun rfl rfl (fun _ => hfree (by rw [hp]; rfl)), fun _ => by simp [Place.distance]⟩
  | testRunning =>
    dsimp only
    rw [if_pos h.running]
    exact ⟨h.turn nofun rfl rfl (fun _ => hfree (by rw [hp]; rfl)), fun _ => by simp [Place.distance]⟩
  | semWait =>
    dsimp only
    rw [if_neg (h.wait hp)]
    exact ⟨h.turn nofun rfl rfl (fun _ => hfree (by rw [hp]; rfl)), fun _ => by simp [Place.distance]⟩
  | enter =>
    dsimp only
    rw [if_pos h.running]
    exact ⟨h.turn nofun rfl rfl (fun _ => hfree (by rw [hp]; rfl)), fun _ => by simp [Place.distance]⟩
  | lock =>
    dsimp only
    rw [if_pos (hfree (by rw [hp]; rfl)), if_pos hc]
    exact ⟨h.turn nofun rfl rfl nofun, fun _ => by simp [Place.distance]⟩
  | cycle =>
    dsimp only
    rw [if_pos h.running]
    exact ⟨h.turn nofun rfl rfl nofun, fun _ => by simp [Place.distance]⟩
  | step =>
    dsimp only
    rw [if_neg nofun]
    exact ⟨h.turn nofun rfl rfl nofun, fun hne => absurd rfl hne⟩
  | waitPeriod =>
    dsimp only
    rw [if_neg nofun]
    exact ⟨h.turn nofun rfl rfl nofun, fun _ => by simp [Place.distance]⟩
  | leave =>
    rw [hp] at hfail
    have hne : s.overruns ≠ c.maxOverRun := by simpa using hfail
    dsimp only
    rw [if_neg hne]
    exact ⟨h.turn nofun rfl rfl (fun _ => rfl), fun _ => by simp [Place.distance]⟩
  | unwind | stopRunning => rw [hp] at hfail; cases hfail
  | stopInloop | stopActive | stopFinalize | finalizing => rw [hp] at hfail; cases hfail
  | setInloop | loop | clearInloop | unlock | caughtInloop => rw [hp] at hper; cases hper

theorem OnRound.run {c : Config} (hc : c.periodic = true) {s : State τ} (h : OnRound c s) (n : ℕ) :
    OnRound c (run (step c) s (List.replicate n (.thread .ok))) := by
  induction n generalizing s with
  | zero => exact h
  | succ n ih => exact ih (h.move hc).1

theorem OnRound.steps {c : Config} (hc : c.periodic = true) {s : State τ} (h : OnRound c s) :
    ∃ m, (Library.Run.run (step c) s (List.replicate m (.thread .ok))).place = .step := by
  generalize hd : s.place.distance = d
  induction d using Nat.strong_induction_on generalizing s with
  | _ d ih =>
    by_cases hp : s.place = .step
    · exact ⟨0, hp⟩
    · obtain ⟨hnext, hlt⟩ := h.move hc
      obtain ⟨m, hm⟩ := ih _ (hd ▸ hlt hp) hnext rfl
      exact ⟨m + 1, hm⟩

theorem OnRound.keepsStepping {c : Config} (hc : c.periodic = true) {s : State τ}
    (h : OnRound c s) : KeepsStepping c s := by
  intro n
  obtain ⟨m, hm⟩ := (h.run hc n).steps hc
  refine ⟨n + m, Nat.le_add_right n m, ?_⟩
  rw [List.replicate_add, run_append]
  exact hm

omit [DecidableEq τ] in
theorem Told.onRound {c : Config} {s : State τ} (h : Told s) (hrest : s.atRest)
    (hactive : s.active = true) (hrunning : s.running = true) (hfail : s.failing c = false) :
    OnRound c s where
  active := hactive
  running := hrunning
  periodic := h.periodic
  wait hp hz := by
    obtain ⟨t, ht⟩ := h.signalled hp hz hrunning
    rw [hrest t] at ht
    cases ht
  failing := hfail
  unlocked hh := by
    cases hb : s.breaker with
    | free => rfl
    | thread =>
      have hholds := h.thread hb
      rw [hh] at hholds
      cases hholds
    | caller t =>
      have ht := h.caller t hb
      rw [hrest t] at ht
      cases ht

/-- In a run in which the thread function is heard, no thread that reports running is stuck, and
one that could not be stopped keeps executing `step`. -/
theorem running_responds (c : Config) (hc : c.periodic = true) (acts : List (Act τ))
    (h : Along (step c) Heard create acts) : Responsive c acts := by
  have ht : Told (after c acts) :=
    run_invariant (fun _ _ => step_told hc) create_told h
  refine ⟨?_, ?_⟩
  · rintro hrest hrunning ⟨hp, hz⟩
    obtain ⟨t, hsignals⟩ := ht.signalled hp hz hrunning
    rw [hrest t] at hsignals
    cases hsignals
  · rintro acts₀ t o rfl hk hrest hactive hfail
    have hrunning : (after c (acts₀ ++ [.call t o])).running = true := by
      rw [after, run_append]
      show (callMove c (after c acts₀) t o).running = true
      unfold callMove
      rw [hk]
      rfl
    exact (ht.onRound hrest hactive hrunning hfail).keepsStepping hc

/-- A periodic thread that executes `step`, and a `stop` whose attempt to lock times out. -/
def timedOut : List (Act Unit) :=
  .thread .ok :: .start () :: List.replicate 6 (.call () .ok) ++ List.replicate 4 (.thread .ok) ++
    [.stop (), .call () .ok, .call () .ok, .call () .fails]

theorem running_responds_restored :
    Responsive ⟨true, 5⟩ (timedOut ++ [.call () .ok]) ∧
      (after ⟨true, 5⟩ (timedOut ++ [.call () .ok])).running = true :=
  ⟨running_responds ⟨true, 5⟩ rfl _ (by decide), rfl⟩

/-- Before `stop` restores `running`, the thread function sees the cleared flag and goes to its
semaphore. -/
theorem restored_unheard :
    ¬ Responsive ⟨true, 5⟩
      (timedOut ++ List.replicate 7 (.thread .ok) ++ [.call () .ok]) :=
  fun h => h.awake (fun _ => rfl) rfl ⟨rfl, rfl⟩

end OrocosRtt.Os.Thread
