import OrocosRtt.StateMachine.CurrentState
import OrocosRtt.StateMachine.Preconditions

/-! Which event handlers are connected: those of the state a machine is in or on the way to,
and the global ones, until it is deactivated. -/
set_option linter.unusedSectionVars false

namespace OrocosRtt.StateMachine

open Library.Log

variable {σ π γ ω : Type} [DecidableEq σ] [DecidableEq π]
variable {G : StateGraph σ π γ} {W : Surroundings π γ ω}

/-- The handler at `i` in the list of `k` is registered for the state, or is a global one. -/
def Handled (G : StateGraph σ π γ) (state : Option σ) (k : Option σ) (i : ℕ) : Prop :=
  ∃ s, state = some s ∧ (k = none ∨ k = some s) ∧ i < (G.eventMap k).length

theorem handled_some {s : σ} {k : Option σ} {i : ℕ} :
    Handled G (some s) k i ↔ (k = none ∨ k = some s) ∧ i < (G.eventMap k).length := by
  simp [Handled]

theorem not_handled_none {k : Option σ} {i : ℕ} : ¬ Handled G none k i := by
  simp [Handled]

section Handles

variable {k₀ k : Option σ} {i : ℕ} {c : Option σ → ℕ → Bool}

theorem setHandles_true : Machine.setHandles G k₀ true c k i = true ↔
    k = k₀ ∧ i < (G.eventMap k).length ∨ c k i = true := by
  simp only [Machine.setHandles]
  split
  · next h =>
    obtain ⟨rfl, hi⟩ := h
    simp [hi]
  · next h =>
    refine ⟨.inr, fun ho => ho.resolve_left ?_⟩
    rintro ⟨rfl, hi⟩
    exact h ⟨rfl, hi⟩

theorem setHandles_false : Machine.setHandles G k₀ false c k i = true ↔
    c k i = true ∧ ¬ (k = k₀ ∧ i < (G.eventMap k).length) := by
  simp only [Machine.setHandles]
  split
  · next h =>
    obtain ⟨rfl, hi⟩ := h
    simp [hi]
  · next h =>
    refine ⟨fun hc => ⟨hc, ?_⟩, fun hc => hc.1⟩
    rintro ⟨rfl, hi⟩
    exact h ⟨rfl, hi⟩

end Handles

/-- A change to another state is decided in a state that is not being left already. A transition
of a state to itself is taken only while it is not being left for good. -/
def Event.changesOnce (e : Event σ π γ) (_ : List (Event σ π γ)) : Prop :=
  match e with
  | .changeState c => if c.source = some c.target then c.pending ≠ none else c.pending = c.source
  | _ => True

instance (e : Event σ π γ) (l : List (Event σ π γ)) : Decidable (e.changesOnce l) :=
  match e with
  | .changeState c => inferInstanceAs (Decidable (if c.source = some c.target then _ else _))
  | .guard .. | .precondition .. | .check _ | .resume _ | .advance | .fallback _
  | .leaveState _ | .handleState _ | .runState .. | .requestNextState _ | .start _
  | .execute .. | .current _ | .activate | .deactivate => .isTrue trivial

theorem Event.changesOnce.staysEntered {e : Event σ π γ} {l : List (Event σ π γ)}
    (h : e.changesOnce l) : e.staysEntered l := by
  cases e with
  | changeState c =>
    intro hs
    simpa only [changesOnce, if_pos hs] using h
  | _ => trivial

namespace Machine

/-- The calls that keep `keepsLeaving` go on, and a machine is deactivated only in a state, not
between two of them. -/
def keepsHandlers (m : Machine σ π γ ω) (op : Operation σ) : Prop :=
  m.keepsLeaving op ∧ (op = .deactivate → m.next = none ∨ m.next = m.current)

instance (m : Machine σ π γ ω) (op : Operation σ) : Decidable (m.keepsHandlers op) :=
  inferInstanceAs (Decidable (_ ∧ (_ → _)))

/-! ### Inactive machines -/

/-- A machine on its way to inactive has no state to be in, and an inactive one has none. -/
structure Resigned (G : StateGraph σ π γ) (m : Machine σ π γ ω) : Prop where
  wf : m.WellFormed G
  inactive : m.smStatus = .inactive → m.current = none ∧ m.next = none
  deactivating : m.smStatus = .deactivating → m.next = none

theorem Resigned.of_status {m : Machine σ π γ ω} (hw : m.WellFormed G)
    (hin : m.smStatus ≠ .inactive) (hd : m.smStatus ≠ .deactivating) : m.Resigned G :=
  ⟨hw, fun h => absurd h hin, fun h => absurd h hd⟩

/-- An exit program belongs to a current state. -/
theorem Resigned.idle {m : Machine σ π γ ω} (h : m.Resigned G) (hst : m.smStatus = .inactive) :
    m.next = none ∧ m.currentExit = none := by
  obtain ⟨hc, hn⟩ := h.inactive hst
  refine ⟨hn, Option.eq_none_iff_forall_ne_some.mpr fun p hp => ?_⟩
  obtain ⟨s, hs, -⟩ := h.wf.fits.exit p hp
  exact absurd (hc.symm.trans hs) nofun

theorem Resigned.executePending {m : Machine σ π γ ω} (h : m.Resigned G)
    (hin : m.smStatus ≠ .inactive) (stepping : Bool) :
    (m.executePending G W stepping).2.Resigned G := by
  have hw := h.wf.executePending (W := W) stepping
  have hn := executePending_next (G := G) (W := W) stepping m
  rcases executePending_smStatus (G := G) (W := W) stepping m with hst | hst
  · refine ⟨hw, fun hi => absurd (hst.symm.trans hi) hin, fun hd => ?_⟩
    exact hn.trans (h.deactivating (hst.symm.trans hd))
  · exact .of_status hw (by simp [hst]) (by simp [hst])

theorem Resigned.searches {m m' : Machine σ π γ ω} (h : m.Resigned G) (hs : Searches G m m') :
    m'.Resigned G := by
  have hw := hs.wellFormed h.wf
  obtain ⟨it, he⟩ := hs
  have hst : m'.smStatus = m.smStatus := congrArg Core.smStatus he.core
  have hc : m'.current = m.current := congrArg Core.current he.core
  have hn : m'.next = m.next := congrArg Core.next he.core
  constructor
  · exact hw
  · rw [hst, hc, hn]
    exact h.inactive
  · rw [hst, hn]
    exact h.deactivating

/-- Nothing is changed once the state is being left for good. -/
theorem Resigned.changeState {m : Machine σ π γ ω} {s n : σ} {T : Option π} (h : m.Resigned G)
    (hs : m.current = some s) (hT : ∀ p, T = some p → G.role p = .transition) {stepping : Bool}
    (hl : Throughout Event.changesOnce (m.changeState G W n T stepping).log) :
    (m.changeState G W n T stepping).Resigned G := by
  have hok : (Event.changeState (m.change G n T)).changesOnce m.log :=
    ((hl.of_suffix (changeState_log n T stepping m)).of_suffix (planState_log n T m)).1
  have hn : m.next ≠ none := by
    simp only [Event.changesOnce] at hok
    split at hok
    · exact hok
    · exact fun hn => absurd (hok.symm.trans hn) (by simp [change, hs])
  have hin : m.smStatus ≠ .inactive := fun hst => hn (h.inactive hst).2
  have hd : m.smStatus ≠ .deactivating := fun hst => hn (h.deactivating hst)
  have hw := h.wf.changeState (W := W) (n := n) hs hT stepping
  rcases changeState_smStatus (W := W) (n := n) h.wf hs hT stepping with hst | hst
  · exact .of_status hw (hst.trans_ne hin) (hst.trans_ne hd)
  · exact .of_status hw (by simp [hst]) (by simp [hst])

theorem Resigned.withStatus {m : Machine σ π γ ω} (h : m.Resigned G) {st : Status}
    (sp : PrivateStatus) (b : Bool)
    (hst : st = m.smStatus ∨ st ≠ .inactive ∧ st ≠ .deactivating ∧ st ≠ .error ∧ st ≠ .unloaded) :
    Resigned G { m with smStatus := st, smpStatus := sp, mstep := b } := by
  have hw := h.wf.withStatus st sp b
  rcases hst with rfl | ⟨hin, hd, -⟩
  · exact ⟨hw, h.inactive, h.deactivating⟩
  · exact .of_status hw hin hd

/-- Nothing pending and no state to be in: the machine is out of every state. -/
theorem Resigned.settle {m m' : Machine σ π γ ω} (hw : m.WellFormed G) (hn : m.next = none)
    (he : m.executePending G W false = (true, m')) :
    Resigned G { m' with smStatus := .inactive } := by
  have hw' := hw.executePending (W := W) false
  have hn' := executePending_next (G := G) (W := W) false m
  rw [he] at hw' hn'
  have hnone : m'.next = none := hn'.trans hn
  refine ⟨hw'.withStatus .inactive m'.smpStatus m'.mstep, fun _ => ⟨?_, hnone⟩, nofun⟩
  rcases executePending_true he with hc | ⟨-, hc, -⟩
  · exact hc
  · exact hc.trans hnone

theorem Resigned.enterInitialState {m : Machine σ π γ ω} (h : m.Resigned G)
    (hst : m.smStatus = .inactive) : (m.enterInitialState G W).Resigned G := by
  have hw := h.wf.planActivate (W := W)
  have hst' : (m.planActivate G W).smStatus = .inactive :=
    (congrArg Core.smStatus (planActivate_plans (G := G) (W := W) h.wf.loaded).core).trans hst
  have hne : (m.planActivate G W).inError = false := by simp [inError, hst']
  have hwp := hw.executePending (W := W) false
  simp only [Machine.enterInitialState, hne, Bool.false_eq_true, if_false]
  split
  · next m₁ he =>
    rw [he] at hwp
    exact .of_status (hwp.withStatus .active m₁.smpStatus m₁.mstep) (by simp) (by simp)
  · next m₁ he =>
    rw [he] at hwp
    split
    · next herr =>
      have herr : m₁.smStatus = .error := by simpa [inError] using herr
      exact .of_status hwp (by simp [herr]) (by simp [herr])
    · exact .of_status (hwp.withStatus .activating m₁.smpStatus m₁.mstep) (by simp) (by simp)

theorem resigned_logRule (ok : Machine σ π γ ω → Operation σ → Prop) :
    LogRule G W ok Event.changesOnce (fun m => m.Resigned G) where
  pending m stepping h hin _ _ := h.executePending hin stepping
  searches m m' h hs _ _ := h.searches hs
  advances m m' h hs _ :=
    ⟨(h.searches hs).wf.record _, (h.searches hs).inactive, (h.searches hs).deactivating⟩
  changes m m' s n T h _ hc hT _ hs hl := (h.searches hs).changeState (hs.current.trans hc) hT hl
  steps m m' s n T h _ _ hc hT _ hs hl := (h.searches hs).changeState (hs.current.trans hc) hT hl
  status m st sp ms h hst := h.withStatus sp ms hst.1
  automatics m h _ _ _ _ _ := by
    have hs := h.withStatus m.smpStatus m.mstep (.inr (by decide) : .running = m.smStatus ∨ _)
    have hst := runState_smStatus (W := W) m.current hs.wf
    exact .of_status (hs.wf.runState _) (hst.trans_ne (by simp)) (hst.trans_ne (by simp))
  pauses m h _ hst _ := by
    have hw := h.wf.pause (W := W)
    simp only [Machine.pause] at hw ⊢
    split
    · split
      · next p _ =>
        have hc := (pauseProgram_executed (W := W) p m).core
        have hm : ((m.pauseProgram p).execProgram W p).Resigned G := by
          refine ⟨(pauseProgram_executed p m).wellFormed h.wf, ?_, ?_⟩
          · exact fun hi => absurd ((congrArg Core.smStatus hc).symm.trans hi) hst
          · exact fun hd => (congrArg Core.next hc).trans
              (h.deactivating ((congrArg Core.smStatus hc).symm.trans hd))
        exact hm.withStatus .pausing _ (.inl rfl)
      · exact h.withStatus .pausing _ (.inl rfl)
    · exact h
  activates m m' w h hst he _ _ := by
    have hs := (h.searches he.searches).searches (Evaluates.world (G := G) m' w).searches
    exact hs.enterInitialState ((congrArg Core.smStatus he.core).trans hst)
  deactivates m h _ hst _ := by
    have hn := CoreRule.planDeactivate_next (G := G) (W := W) m
    have hw := h.wf.planDeactivate (W := W)
    have hwp := hw.executePending (W := W) false
    have hnp := (executePending_next (G := G) (W := W) false (m.planDeactivate G W)).trans hn
    simp only [Machine.deactivate, if_neg hst]
    split
    · next m₁ he => exact .settle hw hn he
    · next m₁ he =>
      rw [he] at hwp hnp
      exact ⟨hwp.withStatus .deactivating m₁.smpStatus m₁.mstep, by simp, fun _ => hnp⟩
  settles m h hst _ := by
    have hp := h.executePending (W := W) (by simp [hst]) false
    simp only [Machine.pendingThen]
    split
    · next m₁ he => exact .settle h.wf (h.deactivating hst) he
    · next m₁ he => rw [he] at hp; exact hp

theorem loading_resigned (unloadOnStop : π → Bool) (w : ω) :
    (loading unloadOnStop w : Machine σ π γ ω).Resigned G :=
  ⟨loading_wellFormed unloadOnStop w, fun _ => ⟨rfl, rfl⟩, nofun⟩

/-! ### Connected handlers -/

/-- The handlers that are connected are those of the next state. A state is being left as long
as its exit program is there. -/
structure Attached (G : StateGraph σ π γ) (c : Core σ π) (l : List (Event σ π γ)) : Prop where
  selected : ∀ n, c.next = some n → selected G l = some n
  connected : ∀ k i, c.connected k i = true ↔ Handled G c.next k i
  exit : c.currentExit ≠ none → c.current ≠ c.next

theorem Attached.congr {c c' : Core σ π} {l : List (Event σ π γ)} (h : Attached G c l)
    (hn : c'.next = c.next) (hc : c'.connected = c.connected)
    (hx : c'.currentExit ≠ none → c'.current ≠ c.next) : Attached G c' l := by
  constructor
  · rw [hn]
    exact h.selected
  · rw [hn, hc]
    exact h.connected
  · rw [hn]
    exact hx

theorem Attached.log {c : Core σ π} {l : List (Event σ π γ)} (h : Attached G c l)
    (e : Event σ π γ) (hs : StateMachine.selected G (e :: l) = StateMachine.selected G l) :
    Attached G c (e :: l) :=
  ⟨fun n hn => hs.trans (h.selected n hn), h.connected, h.exit⟩

theorem Attached.connected_some {c : Core σ π} {l : List (Event σ π γ)} {s : σ}
    (h : Attached G c l) (hs : c.next = some s) (k : Option σ) (i : ℕ) :
    c.connected k i = true ↔ (k = none ∨ k = some s) ∧ i < (G.eventMap k).length := by
  rw [h.connected, hs, handled_some]

theorem Attached.not_connected {c : Core σ π} {l : List (Event σ π γ)} (h : Attached G c l)
    (hn : c.next = none) (k : Option σ) (i : ℕ) : ¬ c.connected k i = true := by
  rw [h.connected, hn]
  exact not_handled_none

theorem attached_coreRule :
    CoreRule (ω := ω) G keepsHandlers Event.changesOnce
      (fun c => c.next = none ∧ c.currentExit = none) (Attached G) where
  evaluates h he := h.log _ (selected_evaluation he _)
  works h he := h.log _ (selected_work he _)
  advances _ h := (h.log .advance rfl).congr rfl rfl h.exit
  progs _ h := h.congr rfl rfl h.exit
  fails h := h.congr rfl rfl h.exit
  clears k h := by
    cases k with
    | exit => exact h.congr rfl rfl fun hx => absurd rfl hx
    | trans | entry | handle | run => exact h.congr rfl rfl h.exit
  leaves h hx _ := (h.log (.current none) rfl).congr rfl rfl fun hx' => absurd hx hx'
  becomes h hx _ := (h.log (.current (some _)) rfl).congr rfl rfl fun hx' => absurd hx hx'
  runs _ h := h.congr rfl rfl h.exit
  handles _ h _ _ := h.congr rfl rfl h.exit
  selfs := by
    intro c l s T ch it h hs hof _
    have hch : ch.source = some ch.target := by rw [hof.source, hof.target, hs]
    exact (h.log (.changeState ch) (if_pos hch)).congr rfl rfl h.exit
  changes := by
    intro c l s n T ch skip it h hskip hs hne hof _ hl
    have hch : ch.source ≠ some ch.target := by
      rw [hof.source, hof.target, hs]
      exact fun he => hne (Option.some.inj he)
    have hok : ch.pending = ch.source := by simpa only [Event.changesOnce, if_neg hch] using hl.1
    have hnext : c.next = some s := by
      rw [hof.pending, hof.source] at hok
      exact hok.trans hs
    -- in a state that is not being left there is no exit program to skip
    have hx : skip = false := by
      refine Bool.eq_false_iff.mpr fun he => ?_
      exact h.exit (hskip he) (hs.trans hnext.symm)
    constructor
    · intro n' hn'
      rw [Core.change_next] at hn'
      rw [← hn', ← hof.target]
      exact if_neg hch
    · intro k i
      have hc := h.connected_some hnext k i
      rw [Core.change_connected, Core.change_next, hx, handled_some, setHandles_true,
        if_neg Bool.false_ne_true, setHandles_false, hc]
      constructor
      · rintro (⟨rfl, hi⟩ | ⟨⟨hk, hi⟩, hno⟩)
        · exact ⟨.inr rfl, hi⟩
        · exact ⟨.inl (hk.resolve_right fun he => hno ⟨he, hi⟩), hi⟩
      · rintro ⟨rfl | rfl, hi⟩
        · exact .inr ⟨⟨.inl rfl, hi⟩, by simp⟩
        · exact .inl ⟨rfl, hi⟩
    · intro _
      rw [Core.change_current, Core.change_next]
      exact fun he => hne (Option.some.inj (hs.symm.trans he))
  statuses _ _ _ h _ := h.congr rfl rfl h.exit
  activates := by
    intro c l h _ hidle _ _
    have hno := h.not_connected hidle.1
    refine ⟨fun _ hn => hn, fun k i => ?_, fun hx => absurd hidle.2 hx⟩
    have hnext : (c.activate G).next = some G.initstate := rfl
    have hc : (c.activate G).connected =
      setHandles G none true (setHandles G (some G.initstate) true c.connected) := rfl
    rw [hc, hnext, handled_some, setHandles_true, setHandles_true, or_iff_left (hno k i),
      ← or_and_right]
  vacates := by
    intro m s T h hok hn hs _
    have hnext : m.next = some s := ((hok.2 rfl).resolve_left hn).trans hs
    refine ⟨nofun, fun k i => ?_, fun _ hc => absurd (hs.symm.trans hc) nofun⟩
    have hc := h.connected_some hnext k i
    refine iff_of_false (fun hk => ?_) not_handled_none
    obtain ⟨hk, hs⟩ := setHandles_false.mp hk
    obtain ⟨hk, hg⟩ := setHandles_false.mp hk
    obtain ⟨hor, hi⟩ := hc.mp hk
    rcases hor with he | he
    · exact hg ⟨he, hi⟩
    · exact hs ⟨he, hi⟩
  stalls := by
    intro m h hok hno
    have hnext : m.next = none := by
      rcases hno with hn | hc
      · exact hn
      · exact (hok.2 rfl).elim id fun hn => hn.trans hc
    refine ⟨nofun, fun k i => ?_, fun hx => absurd rfl hx⟩
    refine iff_of_false (fun hk => ?_) not_handled_none
    exact h.not_connected hnext k i (setHandles_false.mp hk).1
  deactivates h _ := h.congr rfl rfl h.exit
  settles h _ _ := h.congr rfl rfl h.exit

theorem loading_attached (unloadOnStop : π → Bool) (w : ω) :
    CoreRule.Keeps G (Attached G) (loading unloadOnStop w : Machine σ π γ ω) := by
  refine ⟨loading_wellFormed unloadOnStop w, .of_new rfl, nofun, fun k i => ?_, fun hx => ?_⟩
  · exact iff_of_false nofun not_handled_none
  · exact absurd rfl hx

/-- In every run in which a machine is not deactivated between two states, no change is decided
while another one goes on, and nothing but `stop` interferes with a state that is left for good:
the connected handlers are the global ones and those of the next state, which is the one that was
selected last; there is none in an inactive machine, and there is one in an active machine. -/
theorem connected_iff_handled {unloadOnStop : π → Bool} {w : ω} {ops : List (Operation σ)}
    (hops : (loading unloadOnStop w : Machine σ π γ ω).Calls G W keepsHandlers ops)
    (hlog : Throughout Event.changesOnce
      ((loading unloadOnStop w : Machine σ π γ ω).runOps G W ops).log) :
    let m := (loading unloadOnStop w : Machine σ π γ ω).runOps G W ops
    (∀ k i, m.connected k i = true ↔ Handled G m.next k i) ∧
      (∀ n, m.next = some n → selected G m.log = some n) ∧
      (m.smStatus = .inactive → m.next = none) ∧ (m.smStatus.vacant = false → m.next ≠ none) := by
  intro m
  have hrule := attached_coreRule.logRule (W := W) (resigned_logRule (G := G) keepsHandlers)
    fun _ hr hst => hr.idle hst
  obtain ⟨hk, hr⟩ := hrule.runOps
    ⟨loading_attached unloadOnStop w, loading_resigned unloadOnStop w⟩ hops hlog
  have hleaving : (loading unloadOnStop w : Machine σ π γ ω).Calls G W keepsLeaving ops :=
    Library.Run.Along.imp_of_invariant (I := fun _ => True) (fun _ _ _ _ => trivial)
      (fun _ _ _ h => h.1) trivial hops
  have hm : m.Residing G := (loading_residing unloadOnStop w).runOps hleaving
    (hlog.imp fun _ _ => Event.changesOnce.staysEntered)
  exact ⟨hk.core.connected, hk.core.selected, fun hst => (hr.inactive hst).2,
    hm.occupied.next_ne⟩

/-! A state `A` with an exit program, a state `B`, and a handler of each and of all states. -/

def handledGraph : StateGraph Bool Unit Unit where
  states := [false, true]
  getName s := if s then "B" else "A"
  getEntryProgram _ := none
  getRunProgram _ := none
  getHandleProgram _ := none
  getExitProgram s := if s then none else some ()
  stateMap _ := []
  globalMap := []
  precondMap _ := []
  eventMap _ := [⟨(), none, none⟩]
  initstate := false
  finistate := true
  role _ := .exit false
  entry_role := exitGraph.entry_role
  run_role := exitGraph.run_role
  handle_role := exitGraph.handle_role
  exit_role := exitGraph.exit_role
  local_role := exitGraph.local_role
  global_role := exitGraph.global_role
  event_role := by simp
  local_sorted := exitGraph.local_sorted
  global_sorted := exitGraph.global_sorted

theorem connected_iff_handled_change :
    let m := (loading (fun _ => true) 1 : Machine Bool Unit Unit ℕ).runOps handledGraph
      countedPrograms [.activate, .requestState "B", .execute, .deactivate, .activate]
    (∀ k i, m.connected k i = true ↔ Handled handledGraph m.next k i) ∧
      (∀ n, m.next = some n → selected handledGraph m.log = some n) ∧
      (m.smStatus = .inactive → m.next = none) ∧ (m.smStatus.vacant = false → m.next ≠ none) :=
  connected_iff_handled (by decide) (by decide)

/-- Deactivated during the exit program of `A`, the handler of `B` stays connected. -/
theorem connected_between_states :
    let m := (loading (fun _ => true) 1 : Machine Bool Unit Unit ℕ).runOps handledGraph
      countedPrograms [.activate, .requestState "B", .deactivate]
    m.smStatus = .inactive ∧ m.connected (some true) 0 = true := by
  decide

end Machine
end OrocosRtt.StateMachine
