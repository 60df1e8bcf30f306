import OrocosRtt.Os.Thread
import Mathlib.Data.Fintype.Basic

/-! What `start`, `stop` and `emergencyStop` promise about `initialize`, `finalize`, `step` and
`loop`, and the runs that keep it: `breaker` protects the calls of `step` and `loop`, not the
tests that lead to them, and neither `finalize` nor a `start` is under it. -/
namespace OrocosRtt.Os.Thread

variable {τ : Type} [DecidableEq τ]

structure LifeCycle (s : State τ) : Prop where
  /-- After `stop` returned true, nothing runs before the next `start`. -/
  stopped : s.stopped = true → s.place.executing = false
  alternating : Alternating s.log
  single : ∀ t u, s.calls t = .finalizing → s.calls u = .finalizing → t = u
  emergency : s.place = .finalizing → ∀ t, s.calls t ≠ .finalizing
  apart : ∀ t, s.calls t = .finalizing → s.place.executing = false

/-- The thread is active, no call of `start` is setting it up, no call of `stop` is taking it
down, and there is no `emergencyStop` on its way. -/
structure Quiet (s : State τ) : Prop where
  active : s.active = true
  calls : ∀ t, (s.calls t).busy = false
  thread : s.place.emergency = false

/-- The steps that matter fall apart: an `emergencyStop`, and in a thread that is not periodic the
lock before `loop`, a lock of `stop` and a `stop` that gives up find the thread quiet; a `start`
that found the thread inactive still finds it so, and no `emergencyStop` on its way; and
`initialize` does not throw. -/
def Apart (c : Config) (s : State τ) : Act τ → Prop
  | .thread _ =>
    (s.place = .stopRunning → Quiet s) ∧
      (s.place = .lock → s.breaker = .free → c.periodic = false → Quiet s)
  | .call t o =>
    (s.calls t = .startActive → s.active = false ∧ s.place.emergency = false) ∧
      (s.calls t = .stopLock → o ≠ .fails → s.breaker = .free →
        Quiet s ∧ s.running = false) ∧
      (s.calls t = .stopRestore → Quiet s) ∧
      (s.calls t = .initializing → o ≠ .throws)
  | _ => True

instance decidableQuiet [Fintype τ] (s : State τ) : Decidable (Quiet s) :=
  decidable_of_iff
    (s.active = true ∧ (∀ t, (s.calls t).busy = false) ∧ s.place.emergency = false)
    ⟨fun h => ⟨h.1, h.2.1, h.2.2⟩, fun h => ⟨h.active, h.calls, h.thread⟩⟩

instance decidableApart [Fintype τ] (c : Config) (s : State τ) : ∀ a, Decidable (Apart c s a)
  | .thread _ => inferInstanceAs (Decidable (_ ∧ _))
  | .call _ _ => inferInstanceAs (Decidable (_ ∧ _ ∧ _ ∧ _))
  | .start _ => .isTrue trivial
  | .stop _ => .isTrue trivial

/-! ### The invariant -/

/-- `step` or `loop` runs, or the thread function is committed to calling `loop`. -/
def Place.loops : Place → Bool
  | .step | .setInloop | .loop => true
  | _ => false

/-- A busy call at this place leaves an `initialize` without its `finalize`. -/
def Call.opened : Call → Bool
  | .startCheck | .startRunning | .stopUnlock | .stopFinalize => true
  | _ => false

/-- What a busy call knows as long as it is busy. -/
structure Alone (s : State τ) (k : Call) : Prop where
  active : s.active = true
  running : s.running = false
  thread : s.place.emergency = false
  loops : s.place.loops = false
  opened : opened s.log = k.opened

structure Inv (s : State τ) : Prop where
  single : ∀ t u, (s.calls t).busy = true → (s.calls u).busy = true → t = u
  busy : ∀ t, (s.calls t).busy = true → Alone s (s.calls t)
  running : s.running = true → s.active = true ∧ s.place.emergency = false
  loops : s.place.loops = true → s.active = true
  emergency : s.place.emergency = true → opened s.log = (s.place != .finalizing) ∧
    s.active = (s.place == .stopInloop || s.place == .stopActive)
  quiet : (∀ t, (s.calls t).busy = false) → s.place.emergency = false → opened s.log = s.active
  stopped : s.stopped = true → s.active = false
  alternating : Alternating s.log
  holds : s.place.holds = true ↔ s.breaker = .thread
  locked : ∀ t, s.calls t = .stopUnlock → s.breaker = .caller t

omit [DecidableEq τ] in
theorem create_inv : Inv (create (τ := τ)) where
  single _ _ h := by cases h
  busy _ h := by cases h
  running h := by cases h
  loops h := by cases h
  emergency h := by cases h
  quiet _ _ := rfl
  stopped _ := rfl
  alternating := trivial
  holds := by simp [create, Place.holds]
  locked _ h := by cases h

section
omit [DecidableEq τ]
variable {s : State τ}

theorem not_busy {k : Call} (h : k.busy = false) : k ≠ .stopUnlock := by
  rintro rfl
  cases h

theorem loops_holds {p : Place} (h : p.holds = false) : p.loops = false := by
  cases p <;> simp_all [Place.holds, Place.loops]

theorem Inv.idle (h : Inv s)
    (hs : s.active = false ∨ s.running = true ∨ s.place.emergency = true ∨ s.place.loops = true)
    (t : τ) : (s.calls t).busy = false := by
  by_contra hb
  have ha := h.busy t (by simpa using hb)
  obtain hs | hs | hs | hs := hs
  · exact Bool.false_ne_true (hs.symm.trans ha.active)
  · exact Bool.false_ne_true (ha.running.symm.trans hs)
  · exact Bool.false_ne_true (ha.thread.symm.trans hs)
  · exact Bool.false_ne_true (ha.loops.symm.trans hs)

theorem Inv.quiet_running (h : Inv s) (hr : s.running = true) : Quiet s :=
  ⟨(h.running hr).1, h.idle (.inr (.inl hr)), (h.running hr).2⟩

theorem Inv.free (h : Inv s) (hb : s.breaker ≠ .thread) : s.place.holds = false := by
  by_contra hh
  exact hb (h.holds.mp (by simpa using hh))

/-! ### The thread function -/

/-- The thread function moves outside `emergencyStop`. -/
theorem Inv.turn (h : Inv s) {p₀ p : Place} (hp₀ : s.place = p₀) (he₀ : p₀.emergency = false)
    (he : p.emergency = false) {b : Holder τ} {n : ℕ} {i : Bool} {v : ℤ}
    (hloops : p.loops = true → Quiet s) (hholds : p.holds = true ↔ b = .thread)
    (hlocked : ∀ t, s.calls t = .stopUnlock → b = .caller t) :
    Inv { s with place := p, breaker := b, sem := n, inloop := i, overruns := v } where
  single := h.single
  busy t ht := by
    have ha := h.busy t ht
    refine ⟨ha.active, ha.running, he, ?_, ha.opened⟩
    by_contra hl
    have hq := hloops (by simpa using hl)
    exact Bool.false_ne_true ((hq.calls t).symm.trans ht)
  running hr := ⟨(h.running hr).1, he⟩
  loops hl := (hloops hl).active
  emergency hl := absurd (he.symm.trans hl) Bool.false_ne_true
  quiet hcalls _ := h.quiet hcalls (by rw [hp₀]; exact he₀)
  stopped := h.stopped
  alternating := h.alternating
  holds := hholds
  locked := hlocked

theorem Inv.turn_keep (h : Inv s) {p₀ p : Place} {n : ℕ} {i : Bool} {v : ℤ}
    (hp₀ : s.place = p₀) (he₀ : p₀.emergency = false) (he : p.emergency = false)
    (hh : p.holds = p₀.holds) (hloops : p.loops = true → Quiet s) :
    Inv { s with place := p, sem := n, inloop := i, overruns := v } :=
  h.turn hp₀ he₀ he hloops (by rw [hh, ← hp₀]; exact h.holds) h.locked

theorem Inv.turn_take (h : Inv s) {p₀ p : Place} (hp₀ : s.place = p₀)
    (he₀ : p₀.emergency = false) (he : p.emergency = false) (hb : s.breaker = .free)
    (hh : p.holds = true) (hloops : p.loops = true → Quiet s) :
    Inv { s with place := p, breaker := .thread } := by
  refine h.turn hp₀ he₀ he hloops (by simp [hh]) fun t ht => ?_
  have hlocked := h.locked t ht
  rw [hb] at hlocked
  cases hlocked

theorem Inv.turn_leave (h : Inv s) {p₀ p : Place} (hp₀ : s.place = p₀)
    (he₀ : p₀.emergency = false) (he : p.emergency = false) (hh₀ : p₀.holds = true)
    (hh : p.holds = false) : Inv { s with place := p, breaker := .free } := by
  refine h.turn hp₀ he₀ he (fun hl => ?_) (by simp [hh]) fun t ht => ?_
  · rw [loops_holds hh] at hl
    cases hl
  · have hlocked := h.locked t ht
    rw [h.holds.mp (by rw [hp₀]; exact hh₀)] at hlocked
    cases hlocked

/-- The thread function moves within `emergencyStop`, or into it. -/
theorem Inv.turn_emergency (h : Inv s) {p₀ p : Place} (hp₀ : s.place = p₀)
    (hcalls : ∀ t, (s.calls t).busy = false) (hh₀ : p₀.holds = false) (he : p.emergency = true)
    {a i : Bool} {l : List Event} (hopen : opened l = (p != .finalizing))
    (ha : a = (p == .stopInloop || p == .stopActive)) (hl : Alternating l)
    (hstop : s.stopped = true → a = false) :
    Inv { s with running := false, inloop := i, active := a, place := p, log := l } where
  single := h.single
  busy t ht := absurd ((hcalls t).symm.trans ht) Bool.false_ne_true
  running hr := by cases hr
  loops hl := by cases p <;> cases he <;> cases hl
  emergency _ := ⟨hopen, ha⟩
  quiet _ hq := absurd (hq.symm.trans he) Bool.false_ne_true
  stopped := hstop
  alternating := hl
  holds := by
    have hp : p.holds = false := by cases p <;> cases he <;> rfl
    show p.holds = true ↔ _
    rw [hp, ← hh₀, ← hp₀]
    exact h.holds
  locked := h.locked

theorem Inv.turn_within (h : Inv s) {p₀ p : Place} (hp₀ : s.place = p₀)
    (he₀ : p₀.emergency = true) (hh₀ : p₀.holds = false) (he : p.emergency = true)
    {a i : Bool} {l : List Event} (hopen : opened l = (p != .finalizing))
    (ha : a = (p == .stopInloop || p == .stopActive)) (hl : Alternating l)
    (hstop : s.stopped = true → a = false) :
    Inv { s with inloop := i, active := a, place := p, log := l } := by
  have hem : s.place.emergency = true := by rw [hp₀]; exact he₀
  have hrunning : s.running = false := by
    by_contra hr
    exact Bool.false_ne_true ((h.running (by simpa using hr)).2.symm.trans hem)
  have hnext := h.turn_emergency hp₀ (h.idle (.inr (.inr (.inl hem)))) hh₀ he (i := i) hopen ha hl hstop
  rwa [← hrunning] at hnext

theorem Inv.turn_done (h : Inv s) (hp : s.place = .finalizing) : Inv (s.goto .testActive) := by
  have hem : s.place.emergency = true := by rw [hp]; rfl
  obtain ⟨hopen, hactive⟩ := h.emergency hem
  rw [hp] at hopen hactive
  have hidle := h.idle (.inr (.inr (.inl hem)))
  refine
    { single := h.single
      busy := fun t ht => absurd ((hidle t).symm.trans ht) Bool.false_ne_true
      running := fun hr => absurd ((h.running hr).2.symm.trans hem) Bool.false_ne_true
      loops := nofun
      emergency := nofun
      quiet := fun _ _ => hopen.trans hactive.symm
      stopped := h.stopped
      alternating := h.alternating
      holds := ?_
      locked := h.locked }
  have hholds := h.holds
  rw [hp] at hholds
  exact hholds

end

theorem threadMove_inv {c : Config} {s : State τ} {o : Outcome} (h : Inv s)
    (ha : Apart c s (.thread o)) : Inv (threadMove c s o) := by
  unfold threadMove
  cases hp : s.place with
  | testActive =>
    dsimp only
    split
    · exact h.turn_keep hp rfl rfl rfl nofun
    · exact h.turn_keep hp rfl rfl rfl nofun
  | testPeriod =>
    dsimp only
    split
    · exact h.turn_keep hp rfl rfl rfl nofun
    · exact h.turn_keep hp rfl rfl rfl nofun
  | testRunning =>
    dsimp only
    split
    · exact h.turn_keep hp rfl rfl rfl nofun
    · exact h.turn_keep hp rfl rfl rfl nofun
  | semWait =>
    dsimp only
    split
    · exact h
    · exact h.turn_keep hp rfl rfl rfl nofun
  | enter =>
    dsimp only
    split
    · exact h.turn_keep hp rfl rfl rfl nofun
    · exact h.turn_keep hp rfl rfl rfl nofun
  | lock =>
    dsimp only
    split
    · rename_i hb
      cases hc : c.periodic with
      | true => exact h.turn_take hp rfl rfl hb rfl nofun
      | false => exact h.turn_take hp rfl rfl hb rfl fun _ => ha.2 hp hb hc
    · exact h
  | cycle =>
    dsimp only
    split
    · rename_i hr
      exact h.turn_keep hp rfl rfl rfl fun _ => h.quiet_running hr
    · exact h.turn_keep hp rfl rfl rfl nofun
  | step =>
    dsimp only
    split
    · exact h.turn_keep hp rfl rfl rfl nofun
    · exact h.turn_keep hp rfl rfl rfl nofun
  | waitPeriod =>
    dsimp only
    split
    · split
      · exact h.turn_keep hp rfl rfl rfl nofun
      · exact h.turn_keep hp rfl rfl rfl nofun
    · exact h.turn_keep hp rfl rfl rfl nofun
  | leave =>
    dsimp only
    split
    · exact h.turn_leave hp rfl rfl rfl rfl
    · exact h.turn_leave hp rfl rfl rfl rfl
  | setInloop =>
    have hl : s.place.loops = true := by rw [hp]; rfl
    exact h.turn_keep hp rfl rfl rfl fun _ =>
      ⟨h.loops hl, h.idle (.inr (.inr (.inr hl))), by rw [hp]; rfl⟩
  | loop =>
    dsimp only
    split
    · exact h.turn_keep hp rfl rfl rfl nofun
    · exact h.turn_keep hp rfl rfl rfl nofun
  | clearInloop => exact h.turn_keep hp rfl rfl rfl nofun
  | unlock => exact h.turn_leave hp rfl rfl rfl rfl
  | unwind =>
    dsimp only
    split
    · exact h.turn_leave hp rfl rfl rfl rfl
    · exact h.turn_leave hp rfl rfl rfl rfl
  | caughtInloop => exact h.turn_keep hp rfl rfl rfl nofun
  | stopRunning =>
    have hq := ha.1 hp
    have hopen := h.quiet hq.calls hq.thread
    rw [hq.active] at hopen
    exact h.turn_emergency hp hq.calls rfl rfl hopen hq.active h.alternating h.stopped
  | stopInloop =>
    obtain ⟨hopen, hactive⟩ := h.emergency (by rw [hp]; rfl)
    rw [hp] at hopen hactive
    exact h.turn_within hp rfl rfl rfl hopen hactive h.alternating h.stopped
  | stopActive =>
    obtain ⟨hopen, -⟩ := h.emergency (by rw [hp]; rfl)
    rw [hp] at hopen
    exact h.turn_within hp rfl rfl rfl hopen rfl h.alternating fun _ => rfl
  | stopFinalize =>
    obtain ⟨hopen, hactive⟩ := h.emergency (by rw [hp]; rfl)
    rw [hp] at hopen hactive
    exact h.turn_within hp rfl rfl rfl rfl hactive ⟨hopen, h.alternating⟩ h.stopped
  | finalizing => exact h.turn_done hp

/-! ### The calls -/

/-- A call that is not busy goes on and stays so. -/
theorem Inv.pass {s : State τ} (h : Inv s) {t : τ} {k₀ k : Call} {n : ℕ} {r : Bool}
    (hk₀ : s.calls t = k₀) (hb₀ : k₀.busy = false) (hb : k.busy = false)
    (hr : r = true → Quiet s) : Inv ({ s with sem := n, running := r }.call t k) := by
  have hbusy : ∀ u, (({ s with sem := n, running := r }.call t k).calls u).busy = true →
      (({ s with sem := n, running := r }.call t k).calls u) = s.calls u ∧
        (s.calls u).busy = true := by
    intro u hu
    have hne : u ≠ t := by
      rintro rfl
      rw [State.call_self, hb] at hu
      cases hu
    rw [State.call_other _ k hne] at hu ⊢
    exact ⟨rfl, hu⟩
  exact
    { single := fun u v hu hv => h.single u v (hbusy u hu).2 (hbusy v hv).2
      busy := by
        intro u hu
        obtain ⟨heq, hold⟩ := hbusy u hu
        have ha := h.busy u hold
        rw [heq]
        refine ⟨ha.active, ?_, ha.thread, ha.loops, ha.opened⟩
        by_contra ht
        have hfree := (hr (Bool.of_not_eq_false ht)).calls u
        exact Bool.false_ne_true (hfree.symm.trans hold)
      running := fun ht => ⟨(hr ht).active, (hr ht).thread⟩
      loops := h.loops
      emergency := h.emergency
      quiet := by
        intro hcalls he
        refine h.quiet (fun u => ?_) he
        by_cases hut : u = t
        · rw [hut, hk₀]
          exact hb₀
        · rw [← hcalls u, State.call_other _ k hut]
      stopped := h.stopped
      alternating := h.alternating
      holds := h.holds
      locked := by
        intro u hu
        have hu' := (hbusy u (by rw [hu]; rfl)).1
        exact h.locked u (hu'.symm.trans hu) }

/-- The call of `t` is the only one that may be busy. -/
theorem inv_solo {s : State τ} {t : τ} {k : Call}
    (hother : ∀ u, u ≠ t → (s.calls u).busy = false) (he : s.place.emergency = false)
    (hl : s.place.loops = false) (hself : k.busy = true → Alone s k)
    (hquiet : k.busy = false → opened s.log = s.active) (hr : s.running = true → s.active = true)
    (hstop : s.stopped = true → s.active = false) (hlog : Alternating s.log)
    (hholds : s.place.holds = true ↔ s.breaker = .thread)
    (hlocked : k = .stopUnlock → s.breaker = .caller t) : Inv (s.call t k) := by
  have hone : ∀ u, ((s.call t k).calls u).busy = true → u = t := by
    intro u hu
    by_contra hne
    rw [State.call_other s k hne, hother u hne] at hu
    cases hu
  exact
    { single := fun u v hu hv => (hone u hu).trans (hone v hv).symm
      busy := by
        intro u hu
        have hut := hone u hu
        subst hut
        rw [State.call_self] at hu ⊢
        have ha := hself hu
        exact ⟨ha.active, ha.running, ha.thread, ha.loops, ha.opened⟩
      running := fun ht => ⟨hr ht, he⟩
      loops := fun ht => absurd (hl.symm.trans ht) Bool.false_ne_true
      emergency := fun ht => absurd (he.symm.trans ht) Bool.false_ne_true
      quiet := by
        intro hcalls _
        have hk := hcalls t
        rw [State.call_self] at hk
        exact hquiet hk
      stopped := hstop
      alternating := hlog
      holds := hholds
      locked := by
        intro u hu
        have hut := hone u (by rw [hu]; rfl)
        subst hut
        rw [State.call_self] at hu
        exact hlocked hu }

omit [DecidableEq τ] in
theorem Inv.alone {s : State τ} (h : Inv s) {t : τ} {k : Call} (hk : s.calls t = k)
    (hb : k.busy = true) : Alone s k ∧ ∀ u, u ≠ t → (s.calls u).busy = false := by
  have ht : (s.calls t).busy = true := by rw [hk]; exact hb
  have ha := h.busy t ht
  rw [hk] at ha
  refine ⟨ha, fun u hu => ?_⟩
  by_contra hub
  exact hu (h.single u t (by simpa using hub) ht)

/-- A busy call goes on and stays so. -/
theorem Inv.busy_next {s : State τ} (h : Inv s) {t : τ} {k₀ k : Call} (hk₀ : s.calls t = k₀)
    (hb₀ : k₀.busy = true) {b : Holder τ} {l : List Event} (hopen : opened l = k.opened)
    (hlog : Alternating l) (hk : k.busy = true) (hholds : s.place.holds = true ↔ b = .thread)
    (hlocked : k = .stopUnlock → b = .caller t) :
    Inv ({ s with breaker := b, log := l }.call t k) := by
  obtain ⟨ha, hother⟩ := h.alone hk₀ hb₀
  refine inv_solo hother ha.thread ha.loops ?_ ?_ (fun _ => ha.active) h.stopped hlog hholds hlocked
  · exact fun _ => ⟨ha.active, ha.running, ha.thread, ha.loops, hopen⟩
  · exact fun hf => absurd (hk.symm.trans hf) Bool.noConfusion

/-- A busy call is done, and leaves the thread active if and only if it leaves an `initialize`
without its `finalize`. -/
theorem Inv.busy_done {s : State τ} (h : Inv s) {t : τ} {k₀ k : Call} (hk₀ : s.calls t = k₀)
    (hb₀ : k₀.busy = true) {a r st : Bool} (hk : k.busy = false) (hopen : k₀.opened = a)
    (hr : r = true → a = true) (hst : st = true → a = false) :
    Inv ({ s with active := a, running := r, stopped := st }.call t k) := by
  obtain ⟨ha, hother⟩ := h.alone hk₀ hb₀
  refine inv_solo hother ha.thread ha.loops ?_ ?_ hr hst h.alternating h.holds ?_
  · exact fun ht => absurd (hk.symm.trans ht) Bool.noConfusion
  · exact fun _ => ha.opened.trans hopen
  · exact fun hu => absurd hu (not_busy hk)

theorem callMove_inv {c : Config} {s : State τ} {t : τ} {o : Outcome} (h : Inv s)
    (ha : Apart c s (.call t o)) : Inv (callMove c s t o) := by
  have hstay : s.running = true → Quiet s := h.quiet_running
  unfold callMove
  cases hk : s.calls t with
  | idle => exact h
  | startTest =>
    dsimp only
    split
    · split
      · exact h.pass hk rfl rfl hstay
      · exact h.pass hk rfl rfl hstay
    · exact h.pass hk rfl rfl hstay
  | startSem =>
    dsimp only
    split
    · exact h.pass hk rfl rfl hstay
    · exact h.pass hk rfl rfl hstay
  | startTrigger => exact h.pass hk rfl rfl hstay
  | startActive =>
    obtain ⟨hactive, he⟩ := ha.1 hk
    have hidle := h.idle (.inl hactive)
    have hloops : s.place.loops = false := by
      by_contra hl
      exact Bool.false_ne_true (hactive.symm.trans (h.loops (by simpa using hl)))
    have hrunning : s.running = false := by
      by_contra hr
      exact Bool.false_ne_true (hactive.symm.trans (h.running (by simpa using hr)).1)
    have hopen : opened s.log = false := by rw [h.quiet hidle he, hactive]
    exact inv_solo (fun u _ => hidle u) he hloops
      (fun _ => ⟨rfl, hrunning, he, hloops, hopen⟩) nofun (fun _ => rfl) nofun h.alternating
      h.holds nofun
  | initializing =>
    have hopen := (h.alone hk rfl).1.opened
    cases o with
    | ok => exact h.busy_next hk rfl rfl ⟨hopen, h.alternating⟩ rfl h.holds nofun
    | fails => exact h.busy_next hk rfl hopen h.alternating rfl h.holds nofun
    | throws => exact absurd rfl (ha.2.2.2 hk)
  | startCheck =>
    obtain ⟨hactive, -, -, -, hopen⟩ := (h.alone hk rfl).1
    dsimp only
    rw [if_pos hactive]
    exact h.busy_next hk rfl hopen h.alternating rfl h.holds nofun
  | startFail =>
    have hrunning := (h.alone hk rfl).1.running
    exact h.busy_done hk rfl rfl rfl
      (fun hr => absurd (hrunning.symm.trans hr) Bool.false_ne_true) (fun _ => rfl)
  | startRunning =>
    have hactive := (h.alone hk rfl).1.active
    exact h.busy_done hk rfl rfl hactive.symm (fun _ => hactive) h.stopped
  | startSignal => exact h.pass hk rfl rfl hstay
  | stopTest =>
    dsimp only
    split
    · exact h.pass hk rfl rfl hstay
    · exact h.pass hk rfl rfl hstay
  | stopClear =>
    dsimp only
    split
    · exact h.pass hk rfl rfl nofun
    · exact h.pass hk rfl rfl nofun
  | stopInloop =>
    dsimp only
    split
    · exact h.pass hk rfl rfl hstay
    · exact h.pass hk rfl rfl hstay
  | breakLoop =>
    cases o with
    | ok => exact h.pass hk rfl rfl hstay
    | fails => exact h.pass hk rfl rfl hstay
    | throws => exact h.pass hk rfl rfl hstay
  | stopLock =>
    dsimp only
    split
    · exact h.pass hk rfl rfl hstay
    · rename_i ho
      split
      · rename_i hfree
        obtain ⟨hq, hrunning⟩ := ha.2.1 hk ho hfree
        -- the thread function does not hold the mutex, so it is not about to call `loop`
        have hholds : s.place.holds = false := h.free (by rw [hfree]; nofun)
        have hl := loops_holds hholds
        have hopen := h.quiet hq.calls hq.thread
        rw [hq.active] at hopen
        exact inv_solo (fun u _ => hq.calls u) hq.thread hl
          (fun _ => ⟨hq.active, hrunning, hq.thread, hl, hopen⟩) nofun (fun _ => hq.active)
          h.stopped h.alternating (by simp [hholds]) fun _ => rfl
      · exact h
  | stopUnlock =>
    have hopen := (h.alone hk rfl).1.opened
    have hholds : s.place.holds = false := h.free (by rw [h.locked t hk]; nofun)
    exact h.busy_next hk rfl hopen h.alternating rfl (by simp [hholds]) nofun
  | stopFinalize =>
    have hopen := (h.alone hk rfl).1.opened
    exact h.busy_next hk rfl rfl ⟨hopen, h.alternating⟩ rfl h.holds nofun
  | finalizing =>
    have hopen := (h.alone hk rfl).1.opened
    exact h.busy_next hk rfl hopen h.alternating rfl h.holds nofun
  | stopActive =>
    have hrunning := (h.alone hk rfl).1.running
    exact h.busy_done hk rfl rfl rfl
      (fun hr => absurd (hrunning.symm.trans hr) Bool.false_ne_true) (fun _ => rfl)
  | stopRestore => exact h.pass hk rfl rfl fun _ => ha.2.2.1 hk

theorem step_inv {c : Config} {s : State τ} {a : Act τ} (h : Inv s) (ha : Apart c s a) :
    Inv (step c s a) := by
  have hstay : s.running = true → Quiet s := h.quiet_running
  cases a with
  | thread o => exact threadMove_inv h ha
  | call t o => exact callMove_inv h ha
  | start t =>
    dsimp only [step]
    split
    · rename_i hk
      exact h.pass hk rfl rfl hstay
    · exact h
  | stop t =>
    dsimp only [step]
    split
    · rename_i hk
      exact h.pass hk rfl rfl hstay
    · exact h

omit [DecidableEq τ] in
theorem Inv.lifeCycle {s : State τ} (h : Inv s) : LifeCycle s := by
  have hloops : ∀ p : Place, p.loops = false → p.executing = false := by
    intro p hp
    cases p <;> first | rfl | cases hp
  have hbusy : ∀ t, s.calls t = .finalizing → (s.calls t).busy = true := by
    intro t ht
    rw [ht]
    rfl
  exact
    { stopped := by
        intro hs
        refine hloops _ ?_
        by_contra hl
        have hactive := h.loops (by simpa using hl)
        exact Bool.false_ne_true ((h.stopped hs).symm.trans hactive)
      alternating := h.alternating
      single := fun t u ht hu => h.single t u (hbusy t ht) (hbusy u hu)
      emergency := by
        intro hp t ht
        have he := (h.busy t (hbusy t ht)).thread
        rw [hp] at he
        cases he
      apart := fun t ht => hloops _ (h.busy t (hbusy t ht)).loops }

/-- In a run whose steps fall apart, the calls keep to the life-cycle. -/
theorem life_cycle (c : Config) (acts : List (Act τ))
    (h : Library.Run.Along (step c) (Apart c) create acts) : LifeCycle (after c acts) :=
  (Library.Run.run_invariant (fun _ _ => step_inv) create_inv h).lifeCycle

/-- A whole `start`, as long as nobody is in its way. -/
def startRun (t : τ) : List (Act τ) := .start t :: List.replicate 6 (.call t .ok)

theorem life_cycle_loop :
    let acts : List (Act Unit) := startRun () ++ List.replicate 9 (.thread .ok) ++
      .stop () :: List.replicate 8 (.call () .ok)
    LifeCycle (after ⟨false, 5⟩ acts) ∧ (after ⟨false, 5⟩ acts).stopped = true :=
  ⟨life_cycle ⟨false, 5⟩ _ (by decide), rfl⟩

/-- The thread function has tested `running` when `stop` comes and goes, and then calls `loop`. -/
theorem loop_after_stop :
    let acts : List (Act Unit) := startRun () ++ List.replicate 4 (.thread .ok) ++
      .stop () :: List.replicate 8 (.call () .ok) ++ List.replicate 2 (.thread .ok)
    ¬ LifeCycle (after ⟨false, 5⟩ acts) :=
  fun h => Bool.noConfusion (h.stopped rfl)

end OrocosRtt.Os.Thread
