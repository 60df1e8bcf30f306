import OrocosRtt.Scripting.Loading
import Mathlib.Algebra.GroupWithZero.Nat

/-! Over whole runs: the maps of the scripting service and the engine agree after each operation,
and loads fail when they have to, exactly as long as each operation meets a condition. -/
namespace OrocosRtt.Scripting
open Engine Library.Queue Library.Index

variable {P S N : Type} [DecidableEq P] [DecidableEq S] [DecidableEq N] {capacity : ℕ}

namespace ScriptingService

variable (names : Names P S N)

def Registered (s : ScriptingService P S N capacity) : P ⊕ S → Prop
  | .inl pi => s.programs (names.program pi) = some pi
  | .inr sc => ∃ e, s.states (names.machine sc) = some e ∧ e.machine.sc = sc

/-- Each entry is for an object of its name that is loaded, and each loaded object has an entry. -/
structure Agrees (s : ScriptingService P S N capacity) : Prop where
  states : ∀ n e, s.states n = some e →
    names.machine e.machine.sc = n ∧ s.engine.isLoaded (.inr e.machine.sc) = true
  programs : ∀ n pi, s.programs n = some pi →
    names.program pi = n ∧ s.engine.isLoaded (.inl pi) = true
  loaded : ∀ f, s.engine.isLoaded f = true → s.Registered names f
  queued : ∀ f, f ∈ s.engine.queue.items ↔ s.engine.isLoaded f = true
  once : s.engine.queue.items.Nodup

/-- The registry and the engine are as they were. -/
structure Same (s s' : ScriptingService P S N capacity) : Prop where
  states : s'.states = s.states
  programs : s'.programs = s.programs
  queue : s'.engine.queue = s.engine.queue
  isLoaded : s'.engine.isLoaded = s.engine.isLoaded

/-- A name of the tree is in use, or is there twice. -/
def Clash (s : ScriptingService P S N capacity) (t : StateMachine S) : Prop :=
  (∃ e ∈ t.entries false, s.states (key names e) ≠ none) ∨
    ¬ ((t.entries false).map (key names)).Nodup

/-- What the maps and the result of an operation have to be. -/
def Meets (s s' : ScriptingService P S N capacity) (result : Bool) : Action P S N → Prop
  | .loadStateMachine t _ =>
    s.Clash names t ∨ ¬ Takes s.engine (t.entries false).length → result = false ∧ Same s s'
  | .loadProgram pi =>
    s.programs (names.program pi) ≠ none ∨ ¬ Takes s.engine 1 → result = false ∧ Same s s'
  | .unloadStateMachine n => ∀ t, s.states n = some ⟨t, false⟩ → result = true ∧
      s'.programs = s.programs ∧ ∀ n', s'.states n' =
        if n' ∈ (t.entries false).map (key names) then none else s.states n'
  | .unloadProgram n => ∀ pi, s.programs n = some pi → result = true ∧
      s'.programs = Function.update s.programs n none ∧ s'.states = s.states
  | .surround _ => True

/-- The operation returns, does what it has to do, and leaves maps and engine in agreement. -/
def Obeys (fuel : ℕ) (s : ScriptingService P S N capacity) (a : Action P S N) : Prop :=
  ∃ s' result, s.perform names fuel a = some (s', result) ∧ Agrees names s' ∧
    s.Meets names s' result a

/-- When the name of its root is free, the other names of the tree are free too, and the engine
takes the whole tree; the engine has room for a program, if it takes any; and it does not refuse
to remove what is unloaded. -/
def Sound (s : ScriptingService P S N capacity) : Action P S N → Prop
  | .loadStateMachine t parent => parent = false → s.states (names.machine t.sc) = none →
      ¬ s.Clash names t ∧ Takes s.engine (t.entries false).length
  | .loadProgram pi => s.programs (names.program pi) = none → s.engine.around.hasActivity = true →
      s.engine.around.fatalError = false → s.engine.queue.isFull = false
  | .unloadStateMachine n => ∀ t, s.states n = some ⟨t, false⟩ → s.engine.removable = true
  | .unloadProgram n => ∀ pi, s.programs n = some pi → s.engine.removable = true
  | .surround _ => True

/-- Each operation of the run meets `ok` in the state it is performed in. -/
def Along (fuel : ℕ) (ok : ScriptingService P S N capacity → Action P S N → Prop) :
    ScriptingService P S N capacity → List (Action P S N) → Prop
  | _, [] => True
  | s, a :: as => ok s a ∧ ∀ s' result, s.perform names fuel a = some (s', result) →
      Along fuel ok s' as

variable {names} {s : ScriptingService P S N capacity}

/-- The roots of the trees that are registered, and the programs. -/
def Stands (names : Names P S N) (s : ScriptingService P S N capacity)
    (roots : List (StateMachine S)) (progs : List P) : Prop :=
  Represents names s (roots.flatMap fun t => t.entries false) progs

variable {es : List (Entry S)} {roots : List (StateMachine S)} {progs : List P}

omit [DecidableEq P] [DecidableEq S] [DecidableEq N] in
theorem Represents.agrees (h : Represents names s es progs) : Agrees names s where
  states := by
    intro n e he
    obtain ⟨hmem, hkey⟩ := (h.states.mem n e).mp he
    refine ⟨hkey, (h.engine.marked _).mpr (List.mem_append_left _ ?_)⟩
    exact List.mem_map.mpr ⟨e, hmem, rfl⟩
  programs := by
    intro n pi hpi
    obtain ⟨hmem, hkey⟩ := (h.programs.mem n pi).mp hpi
    refine ⟨hkey, (h.engine.marked _).mpr (List.mem_append_right _ ?_)⟩
    exact List.mem_map.mpr ⟨pi, hmem, rfl⟩
  loaded := by
    intro f hf
    rcases List.mem_append.mp ((h.engine.marked f).mp hf) with hmem | hmem
    · obtain ⟨e, he, rfl⟩ := List.mem_map.mp hmem
      exact ⟨e, (h.states.mem _ _).mpr ⟨he, rfl⟩, rfl⟩
    · obtain ⟨pi, hpi, rfl⟩ := List.mem_map.mp hmem
      exact (h.programs.mem _ _).mpr ⟨hpi, rfl⟩
  queued := by
    intro f
    rw [h.engine.marked f, h.engine.queued.mem_iff]
  once := h.engine.queued.nodup_iff.mpr h.engine.nodup

/-- What an operation does in a run: it keeps the maps and the engine as they have to be, if it
meets the condition, and breaks what it has to do otherwise. -/
def Settles (names : Names P S N) (fuel : ℕ) (s : ScriptingService P S N capacity)
    (n : ℕ) (a : Action P S N) : Prop :=
  (s.Obeys names fuel a ↔ s.Sound names a) ∧
    (s.Sound names a → ∃ s' result roots progs, s.perform names fuel a = some (s', result) ∧
      Stands names s' roots progs ∧ (roots.flatMap fun t => t.entries false).length ≤ n)

omit [DecidableEq P] [DecidableEq S] [DecidableEq N] in
theorem Same.refl (s : ScriptingService P S N capacity) : Same s s := ⟨rfl, rfl, rfl, rfl⟩

/-- An operation that changes nothing and has nothing to do. -/
theorem settles_idle (h : Stands names s roots progs) {fuel n : ℕ} {a : Action P S N}
    (ha : s.perform names fuel a = some (s, false)) (hm : s.Meets names s false a)
    (hs : s.Sound names a) (hn : (roots.flatMap fun t => t.entries false).length ≤ n) :
    Settles names fuel s n a :=
  ⟨⟨fun _ => hs, fun _ => ⟨s, false, ha, h.agrees, hm⟩⟩,
    fun _ => ⟨s, false, roots, progs, ha, h, hn⟩⟩

theorem loadStateMachine_settles (h : Stands names s roots progs) (fuel : ℕ)
    (t : StateMachine S) (parent : Bool) :
    Settles names fuel s ((roots.flatMap fun t => t.entries false).length +
      (t.entries false).length) (.loadStateMachine t parent) := by
  have hsame : ∀ result, result = false →
      Meets names s s result (.loadStateMachine t parent) :=
    fun _ hr _ => ⟨hr, .refl s⟩
  cases parent with
  | true =>
    refine settles_idle h rfl (hsame _ rfl) (fun hc => by cases hc) (Nat.le_add_right _ _)
  | false =>
    cases hroot : s.states (names.machine t.sc) with
    | some e =>
      refine settles_idle h ?_ (hsame _ rfl) (fun _ hc => ?_) (Nat.le_add_right _ _)
      · simp [perform, loadStateMachine, recursiveCheckLoadStateMachine, hroot]
      · rw [hroot] at hc
        cases hc
    | none =>
      have hload : s.perform names fuel (.loadStateMachine t false) =
          some (s.loadEntries names (t.entries false), true) := by
        simp [perform, loadStateMachine, recursiveCheckLoadStateMachine, hroot,
          recursiveLoadStateMachine_eq]
      have hnew : ¬ s.Clash names t → Takes s.engine (t.entries false).length →
          Stands names (s.loadEntries names (t.entries false)) (roots ++ [t]) progs := by
        intro hclash ht
        unfold Clash at hclash
        rw [not_or, not_not] at hclash
        have hnodup : (((roots.flatMap fun t => t.entries false) ++ t.entries false).map
            (key names)).Nodup := by
          rw [List.map_append]
          refine List.Nodup.append h.states.nodup hclash.2 ?_
          intro n hn hn'
          obtain ⟨e, he, rfl⟩ := List.mem_map.mp hn'
          exact hclash.1 ⟨e, he, fun hnone => (h.states.none_iff _).mp hnone hn⟩
        unfold Stands
        rw [List.flatMap_append, List.flatMap_singleton]
        exact Represents.loadEntries _ h hnodup ht
      constructor
      · constructor
        · rintro ⟨s', result, hp, -, hm⟩ - -
          rw [hload] at hp
          obtain ⟨rfl, rfl⟩ := Prod.mk.inj (Option.some.inj hp)
          by_contra hc
          have hbad : s.Clash names t ∨ ¬ Takes s.engine (t.entries false).length := by
            by_cases hclash : s.Clash names t
            · exact .inl hclash
            · exact .inr fun ht => hc ⟨hclash, ht⟩
          exact absurd (hm hbad).1 (by decide)
        · intro hs
          obtain ⟨hclash, ht⟩ := hs rfl hroot
          refine ⟨_, true, hload, (hnew hclash ht).agrees, fun hbad => ?_⟩
          rcases hbad with hbad | hbad
          · exact absurd hbad hclash
          · exact absurd ht hbad
      · intro hs
        obtain ⟨hclash, ht⟩ := hs rfl hroot
        have hlen : ((roots ++ [t]).flatMap fun t => t.entries false).length =
            (roots.flatMap fun t => t.entries false).length + (t.entries false).length := by
          rw [List.flatMap_append, List.flatMap_singleton, List.length_append]
        exact ⟨_, true, _, progs, hload, hnew hclash ht, Nat.le_of_eq hlen⟩

theorem Represents.runProgram (h : Represents names s es progs) {pi : P}
    (hfree : s.programs (names.program pi) = none) (ht : Takes s.engine 1) :
    Represents names { s with
      programs := Function.update s.programs (names.program pi) (some pi)
      engine := s.engine.runFunction (.inl pi) } es (progs ++ [pi]) := by
  obtain ⟨hact, hfatal, hroom⟩ := ht
  have hfull : s.engine.queue.isFull = false := by
    rw [BoundedQueue.not_full_iff]
    omega
  have hnot : (.inl pi : P ⊕ S) ∉ es.map function ++ progs.map .inl := by
    intro hmem
    rcases List.mem_append.mp hmem with hm | hm
    · obtain ⟨e, -, he⟩ := List.mem_map.mp hm
      cases he
    · obtain ⟨q, hq, hqe⟩ := List.mem_map.mp hm
      obtain rfl := Sum.inl.inj hqe
      exact (h.programs.none_iff _).mp hfree (List.mem_map_of_mem hq)
  refine ⟨h.states, h.programs.insert hfree, ?_⟩
  have hheld := h.engine.run hnot hact hfatal hfull
  rwa [List.append_assoc, ← List.map_singleton (f := Sum.inl), ← List.map_append] at hheld

omit [DecidableEq P] [DecidableEq S] in
theorem takes_one_iff (e : ExecutionEngine (P ⊕ S) capacity) :
    Takes e 1 ↔ accepts e = true := by
  have hroom : e.queue.items.length + 1 ≤ capacity ↔ e.queue.isFull = false := by
    rw [BoundedQueue.not_full_iff]
    omega
  simp [Takes, accepts, hroom, and_assoc]

theorem loadProgram_settles (h : Stands names s roots progs) (fuel : ℕ) (pi : P) :
    Settles names fuel s (roots.flatMap fun t => t.entries false).length (.loadProgram pi) := by
  cases hname : s.programs (names.program pi) with
  | some q =>
    refine settles_idle h ?_ (fun _ => ⟨rfl, .refl s⟩) (fun hc => ?_) (Nat.le_refl _)
    · simp [perform, loadProgram, hname]
    · rw [hname] at hc
      cases hc
  | none =>
    cases hacc : accepts s.engine with
    | true =>
      have ht := (takes_one_iff _).mpr hacc
      have hnew := Represents.runProgram h hname ht
      have hload : s.perform names fuel (.loadProgram pi) = some ({ s with
          programs := Function.update s.programs (names.program pi) (some pi)
          engine := s.engine.runFunction (.inl pi) }, true) := by
        simp [perform, loadProgram, hname, hacc]
      have hs : s.Sound names (.loadProgram pi) := by
        intro _ _ _
        rw [BoundedQueue.not_full_iff]
        have := ht.2.2
        omega
      refine ⟨⟨fun _ => hs, fun _ => ⟨_, true, hload, hnew.agrees, fun hbad => ?_⟩⟩,
        fun _ => ⟨_, true, roots, _, hload, hnew, Nat.le_refl _⟩⟩
      rcases hbad with hbad | hbad
      · exact absurd hname hbad
      · exact absurd ht hbad
    | false =>
      have hback : Function.update (Function.update s.programs (names.program pi) (some pi))
          (names.program pi) none = s.programs := by
        rw [Function.update_idem, ← hname, Function.update_eq_self]
      have hload : s.perform names fuel (.loadProgram pi) =
          some ({ s with engine := s.engine.runFunction (.inl pi) }, false) := by
        simp [perform, loadProgram, hname, hacc, hback]
      by_cases hrun : s.engine.around.hasActivity = true ∧ s.engine.around.fatalError = false
      · -- the queue is full, and the program is marked as loaded all the same
        have hfull : s.engine.queue.isFull = true := by
          simpa [accepts, hrun.1, hrun.2] using hacc
        have hns : ¬ s.Sound names (.loadProgram pi) := by
          intro hs
          have hroom := hs hname hrun.1 hrun.2
          rw [hfull] at hroom
          cases hroom
        refine ⟨⟨?_, fun hs => absurd hs hns⟩, fun hs => absurd hs hns⟩
        rintro ⟨s', result, hp, hag, -⟩
        rw [hload] at hp
        obtain ⟨rfl, rfl⟩ := Prod.mk.inj (Option.some.inj hp)
        have hmark : (s.engine.runFunction (.inl pi)).isLoaded (.inl pi) = true := by
          simp [ExecutionEngine.runFunction, hrun.1, hrun.2, ExecutionEngine.note,
            ExecutionEngine.setQueue, ExecutionEngine.setLoaded]
        have hreg : s.programs (names.program pi) = some pi := hag.loaded _ hmark
        rw [hname] at hreg
        cases hreg
      · have hsame : s.engine.runFunction (.inl pi) = s.engine.note (.ran (.inl pi) false) := by
          unfold ExecutionEngine.runFunction
          rw [if_pos]
          cases ha : s.engine.around.hasActivity with
          | false => exact .inl rfl
          | true =>
            cases hf : s.engine.around.fatalError with
            | false => exact absurd ⟨ha, hf⟩ hrun
            | true => exact .inr rfl
        have hnew : Stands names { s with engine := s.engine.runFunction (.inl pi) } roots progs := by
          rw [hsame]
          exact ⟨h.states, h.programs, h.engine.queued, h.engine.nodup, h.engine.marked⟩
        have hs : s.Sound names (.loadProgram pi) := fun _ ha hf => absurd ⟨ha, hf⟩ hrun
        refine ⟨⟨fun _ => hs, fun _ => ⟨_, false, hload, hnew.agrees, fun _ => ⟨rfl, ?_⟩⟩⟩,
          fun _ => ⟨_, false, roots, progs, hload, hnew, Nat.le_refl _⟩⟩
        rw [hsame]
        exact ⟨rfl, rfl, rfl, rfl⟩

omit [DecidableEq P] [DecidableEq S] [DecidableEq N] in
/-- A root is the machine of one of the trees. -/
theorem Stands.root (h : Stands names s roots progs) {n : N} {t : StateMachine S}
    (ht : s.states n = some ⟨t, false⟩) : names.machine t.sc = n ∧ t ∈ roots := by
  obtain ⟨hmem, hkey⟩ := (h.states.mem n _).mp ht
  refine ⟨hkey, ?_⟩
  obtain ⟨t₀, ht₀, he⟩ := List.mem_flatMap.mp hmem
  rw [StateMachine.entries_eq] at he
  rcases List.mem_cons.mp he with he | he
  · rwa [(Entry.mk.inj he).1]
  · have hparent := StateMachine.entriesAll_parent _ _ he
    cases hparent

/-- Unloading a root takes its tree out of the map, and asks the engine to remove it. -/
theorem unload_root (h : Stands names s roots progs) {fuel : ℕ}
    (hfuel : (roots.flatMap fun t => t.entries false).length ≤ fuel) {n : N} {t : StateMachine S}
    (ht : s.states n = some ⟨t, false⟩) : ∃ s' roots', s.perform names fuel
        (.unloadStateMachine n) = some (s', true) ∧
      s'.programs = s.programs ∧
      (∀ n', s'.states n' =
        if n' ∈ (t.entries false).map (key names) then none else s.states n') ∧
      (s.engine.removable = true → Stands names s' roots' progs) ∧
      (s.engine.removable = false → s'.engine.isLoaded = s.engine.isLoaded) ∧
      (roots'.flatMap fun t => t.entries false).length ≤
        (roots.flatMap fun t => t.entries false).length := by
  obtain ⟨-, hroot⟩ := h.root ht
  obtain ⟨r₁, r₂, rfl⟩ := List.append_of_mem hroot
  have hperm : ((r₁ ++ t :: r₂).flatMap fun t => t.entries false).Perm
      (t.leaving false ++ (r₁ ++ r₂).flatMap fun t => t.entries false) := by
    rw [List.flatMap_append, List.flatMap_cons, List.flatMap_append]
    refine (List.perm_append_comm_assoc _ _ _).trans ?_
    exact (t.leaving_perm false).symm.append_right _
  have h' := Represents.perm h hperm
  obtain ⟨s', hs', hi, hstates, hprogs, heng⟩ := unloadEntries_spec (t.leaving false) h'.states
  have hcheck : s.recursiveCheckUnloadStateMachine names fuel t = some true := by
    refine check_spec h.states fuel t false (fun e he => ?_) ?_
    · exact List.mem_flatMap.mpr ⟨t, hroot, he⟩
    · rw [← (t.leaving_perm false).length_eq]
      have hlen := hperm.length_eq
      rw [List.length_append] at hlen
      omega
  have hkeys : ∀ n', n' ∈ (t.leaving false).map (key names) ↔
      n' ∈ (t.entries false).map (key names) :=
    fun n' => ((t.leaving_perm false).map _).mem_iff
  refine ⟨s', r₁ ++ r₂, ?_, hprogs, fun n' => ?_, fun hr => ⟨hi, ?_, ?_⟩, fun hr => ?_, ?_⟩
  · simp [perform, unloadStateMachine, ht, hcheck, recursiveUnloadStateMachine_eq names false, hs']
  · rw [hstates n']
    simp only [hkeys]
  · rw [hprogs]
    exact h.programs
  · rw [heng]
    apply Holds.removeAll _ _ hr
    have hheld := h'.engine
    rwa [List.map_append, List.append_assoc] at hheld
  · rw [heng, removeAll_refused _ hr]
  · rw [hperm.length_eq, List.length_append]
    omega

theorem unloadStateMachine_settles (h : Stands names s roots progs) {fuel : ℕ}
    (hfuel : (roots.flatMap fun t => t.entries false).length ≤ fuel) (n : N) :
    Settles names fuel s (roots.flatMap fun t => t.entries false).length
      (.unloadStateMachine n) := by
  have hidle : s.perform names fuel (.unloadStateMachine n) = some (s, false) →
      (∀ t, s.states n ≠ some ⟨t, false⟩) → Settles names fuel s
        (roots.flatMap fun t => t.entries false).length (.unloadStateMachine n) :=
    fun hp hno => settles_idle h hp (fun t ht => absurd ht (hno t)) (fun t ht => absurd ht (hno t))
      (Nat.le_refl _)
  cases hn : s.states n with
  | none => exact hidle (by simp [perform, unloadStateMachine, hn]) (fun t => by simp [hn])
  | some e =>
    obtain ⟨t, parent⟩ := e
    cases parent with
    | true => exact hidle (by simp [perform, unloadStateMachine, hn]) (fun t => by simp [hn])
    | false =>
      obtain ⟨s', roots', hp, hprogs, hstates, hyes, hno, hlen⟩ := unload_root h hfuel hn
      have hmeets : s.Meets names s' true (.unloadStateMachine n) := by
        intro t' ht'
        rw [hn] at ht'
        obtain ⟨rfl, -⟩ := Entry.mk.inj (Option.some.inj ht')
        exact ⟨rfl, hprogs, hstates⟩
      cases hr : s.engine.removable with
      | true =>
        have hnew := hyes hr
        exact ⟨⟨fun _ _ _ => hr, fun _ => ⟨s', true, hp, hnew.agrees, hmeets⟩⟩,
          fun _ => ⟨s', true, roots', progs, hp, hnew, hlen⟩⟩
      | false =>
        have hns : ¬ s.Sound names (.unloadStateMachine n) := by
          intro hs
          have hr' := hs t hn
          rw [hr] at hr'
          cases hr'
        refine ⟨⟨?_, fun hs => absurd hs hns⟩, fun hs => absurd hs hns⟩
        rintro ⟨s'', result, hp', hag, -⟩
        rw [hp] at hp'
        obtain ⟨rfl, -⟩ := Prod.mk.inj (Option.some.inj hp')
        -- the machine is still in the engine, and no longer registered
        obtain ⟨hkey, hload⟩ := (Represents.agrees h).states n _ hn
        rw [← hno hr] at hload
        obtain ⟨e, he, -⟩ := hag.loaded _ hload
        rw [hstates, if_pos] at he
        · cases he
        · refine List.mem_map.mpr ⟨⟨t, false⟩, ?_, rfl⟩
          rw [StateMachine.entries_eq]
          exact List.mem_cons_self

theorem unloadProgram_settles (h : Stands names s roots progs) (fuel : ℕ) (n : N) :
    Settles names fuel s (roots.flatMap fun t => t.entries false).length (.unloadProgram n) := by
  cases hn : s.programs n with
  | none =>
    have hno : ∀ pi, s.programs n ≠ some pi := fun pi => by simp [hn]
    refine settles_idle h (by simp [perform, unloadProgram, hn]) (fun pi hpi => absurd hpi (hno pi))
      (fun pi hpi => absurd hpi (hno pi)) (Nat.le_refl _)
  | some pi =>
    obtain ⟨hmem, hkey⟩ := (h.programs.mem n pi).mp hn
    obtain ⟨l₁, l₂, rfl⟩ := List.append_of_mem hmem
    have hp : s.perform names fuel (.unloadProgram n) = some ({ s with
        programs := Function.update s.programs n none
        engine := s.engine.removeFunction (.inl pi) }, true) := by
      simp [perform, unloadProgram, hn]
    have hmeets : s.Meets names { s with
        programs := Function.update s.programs n none
        engine := s.engine.removeFunction (.inl pi) } true (.unloadProgram n) :=
      fun _ _ => ⟨rfl, rfl, rfl⟩
    cases hr : s.engine.removable with
    | true =>
      have hnew : Stands names { s with
          programs := Function.update s.programs n none
          engine := s.engine.removeFunction (.inl pi) } roots (l₁ ++ l₂) := by
        refine ⟨h.states, ?_, ?_⟩
        · rw [← hkey]
          exact (h.programs.perm List.perm_middle).erase
        · refine Holds.remove (h.engine.perm ?_) hr
          rw [List.map_append, List.map_cons, List.map_append, ← List.append_assoc,
            ← List.append_assoc]
          exact List.perm_middle
      exact ⟨⟨fun _ _ _ => hr, fun _ => ⟨_, true, hp, hnew.agrees, hmeets⟩⟩,
        fun _ => ⟨_, true, roots, _, hp, hnew, Nat.le_refl _⟩⟩
    | false =>
      have hns : ¬ s.Sound names (.unloadProgram n) := by
        intro hs
        have hr' := hs pi hn
        rw [hr] at hr'
        cases hr'
      refine ⟨⟨?_, fun hs => absurd hs hns⟩, fun hs => absurd hs hns⟩
      rintro ⟨s'', result, hp', hag, -⟩
      rw [hp] at hp'
      obtain ⟨rfl, -⟩ := Prod.mk.inj (Option.some.inj hp')
      have hload : (s.engine.removeFunction (.inl pi)).isLoaded (.inl pi) = true := by
        rw [removeFunction_refused hr]
        exact ((Represents.agrees h).programs n pi hn).2
      have hreg : Function.update s.programs n none (names.program pi) = some pi :=
        hag.loaded _ hload
      rw [hkey, Function.update_self] at hreg
      cases hreg

/-- How many machines an action adds at most. -/
def weight : Action P S N → ℕ
  | .loadStateMachine t _ => (t.entries false).length
  | _ => 0

theorem settles (h : Stands names s roots progs) {fuel : ℕ}
    (hfuel : (roots.flatMap fun t => t.entries false).length ≤ fuel) (a : Action P S N) :
    Settles names fuel s ((roots.flatMap fun t => t.entries false).length + weight a) a := by
  cases a with
  | loadStateMachine t parent => exact loadStateMachine_settles h fuel t parent
  | unloadStateMachine n => exact unloadStateMachine_settles h hfuel n
  | loadProgram pi => exact loadProgram_settles h fuel pi
  | unloadProgram n => exact unloadProgram_settles h fuel n
  | surround around =>
    have hnew : Stands names { s with engine := { s.engine with around := around } } roots progs :=
      ⟨h.states, h.programs, h.engine.queued, h.engine.nodup, h.engine.marked⟩
    exact ⟨⟨fun _ => trivial, fun _ => ⟨_, true, rfl, hnew.agrees, trivial⟩⟩,
      fun _ => ⟨_, true, roots, progs, rfl, hnew, Nat.le_refl _⟩⟩

omit [DecidableEq P] [DecidableEq S] [DecidableEq N] in
theorem create_stands (names : Names P S N) (around : Surroundings) :
    Stands names (create around : ScriptingService P S N capacity) [] [] :=
  ⟨indexes_nil, indexes_nil, List.Perm.refl _, List.nodup_nil, fun f => by
    simp [create, ExecutionEngine.create]⟩

theorem along_iff (names : Names P S N) (fuel : ℕ) (as : List (Action P S N)) :
    ∀ {s : ScriptingService P S N capacity} {roots : List (StateMachine S)} {progs : List P},
      Stands names s roots progs →
        (roots.flatMap fun t => t.entries false).length + (as.map weight).sum ≤ fuel →
          (s.Along names fuel (Obeys names fuel) as ↔ s.Along names fuel (Sound names) as) := by
  induction as with
  | nil => intro s roots progs _ _; exact Iff.rfl
  | cons a as ih =>
    intro s roots progs h hfuel
    rw [List.map_cons, List.sum_cons] at hfuel
    obtain ⟨hiff, hnext⟩ := @settles _ _ _ _ _ _ _ names s roots progs h fuel (by omega) a
    have hrest : s.Sound names a → ∀ s' result, s.perform names fuel a = some (s', result) →
        (s'.Along names fuel (Obeys names fuel) as ↔ s'.Along names fuel (Sound names) as) := by
      intro hs s' result hp
      obtain ⟨s₁, r₁, roots', progs', hp', hst, hlen⟩ := hnext hs
      rw [hp] at hp'
      obtain ⟨rfl, -⟩ := Prod.mk.inj (Option.some.inj hp')
      exact ih hst (by omega)
    constructor
    · rintro ⟨ho, ha⟩
      have hs := hiff.mp ho
      exact ⟨hs, fun s' result hp => (hrest hs s' result hp).mp (ha s' result hp)⟩
    · rintro ⟨hs, ha⟩
      exact ⟨hiff.mpr hs, fun s' result hp => (hrest hs s' result hp).mpr (ha s' result hp)⟩

/-- In a run, each operation does what it has to do, and leaves the maps and the engine in
agreement, exactly when each of them meets its condition. -/
theorem registry_agrees_iff (names : Names P S N) (around : Surroundings)
    (as : List (Action P S N)) : ∃ bound, ∀ fuel, bound ≤ fuel →
      ((create around : ScriptingService P S N capacity).Along names fuel (Obeys names fuel) as ↔
        (create around : ScriptingService P S N capacity).Along names fuel (Sound names) as) := by
  refine ⟨(as.map weight).sum, fun fuel hfuel => along_iff names fuel as (create_stands _ _) ?_⟩
  simpa using hfuel

/-- The root `a`, and two machines of the name `a.b`. -/
def sameNames : Names Unit ℕ String where
  program := fun _ => "p"
  machine := fun sc => if sc = 0 then "a" else "a.b"

/-- The child of a tree takes the place of the machine that was registered under its name. -/
theorem child_replaces : ¬ ∀ as : List (Action Unit ℕ String), ∃ bound, ∀ fuel, bound ≤ fuel →
    (create ⟨true, true, false, true⟩ : ScriptingService Unit ℕ String 8).Along sameNames fuel
      (Obeys sameNames fuel) as := by
  intro h
  obtain ⟨bound, hb⟩ := h [.loadStateMachine (.node 1 []) false,
    .loadStateMachine (.node 0 [.node 2 []]) false]
  obtain ⟨-, hrest⟩ := hb bound (Nat.le_refl _)
  obtain ⟨⟨s', result, hp, -, hmeets⟩, -⟩ := hrest _ _ rfl
  have hresult : result = true := by
    cases hp
    rfl
  have hfails := hmeets (.inl (.inl ⟨⟨.node 2 [], true⟩, ?_, ?_⟩))
  · rw [hresult] at hfails
    exact absurd hfails.1 (by decide)
  · simp [StateMachine.entries, StateMachine.entriesAll]
  · simp [key, sameNames, StateMachine.sc, create, recursiveLoadStateMachine, recursiveLoadAll,
      loadEntry]

end ScriptingService
end OrocosRtt.Scripting
