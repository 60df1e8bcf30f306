import OrocosRtt.Scripting.Consistency

/-! `ScriptingService::clear`: which registries of programs and state machines it empties. -/
namespace OrocosRtt.Scripting
open Engine Library.Queue Library.Index

/-- What `ProgramExceptions.hpp` declares. -/
inductive Exception where
  | program_load_exception
  | program_unload_exception
deriving DecidableEq, Repr

variable {P S N : Type} [DecidableEq P] [DecidableEq S] [DecidableEq N] {capacity : ℕ}

namespace ScriptingService

variable (names : Names P S N)

/-- `unloadStateMachine` with what it throws. -/
def unloadOrThrow (s : ScriptingService P S N capacity) (fuel : ℕ) (name : N) :
    Option (ScriptingService P S N capacity × (Exception ⊕ Bool)) :=
  match s.states name with
  | none => some (s, .inr false)
  | some e =>
    if e.parent then some (s, .inl .program_unload_exception)
    else (s.recursiveCheckUnloadStateMachine names fuel e.machine).bind fun b =>
      if b then (s.recursiveUnloadStateMachine names e.machine).map fun s => (s, .inr true)
      else some (s, .inl .program_unload_exception)

/-- `unloadProgram` with what it throws. -/
def unloadProgramOrThrow (s : ScriptingService P S N capacity) (name : N) :
    ScriptingService P S N capacity × (Exception ⊕ Bool) :=
  match s.programs name with
  | none => (s, .inl .program_unload_exception)
  | some _ => ((s.unloadProgram name).1, .inr true)

/-- How a call ends. -/
inductive Cleared (P S N : Type) (capacity : ℕ) where
  | unfinished
  | threw (e : Exception) (s : ScriptingService P S N capacity)
  | returned (s : ScriptingService P S N capacity)

variable (order : List N)

/-- The loop over `states`, whose begin is the first name in the order of the map. -/
def clearStates (fuel : ℕ) : ℕ → ScriptingService P S N capacity → Cleared P S N capacity
  | 0, _ => .unfinished
  | turns + 1, s =>
    match order.find? fun n => (s.states n).isSome with
    | none => .returned s
    | some n =>
      match s.unloadOrThrow names fuel n with
      | none => .unfinished
      | some (s', .inr _) => clearStates fuel turns s'
      | some (s', .inl .program_load_exception) =>
        -- plainly remove it to avoid endless loop
        clearStates fuel turns { s' with states := Function.update s'.states n none }
      | some (s', .inl .program_unload_exception) => .threw .program_unload_exception s'

/-- The loop over `programs`. -/
def clearPrograms : ℕ → ScriptingService P S N capacity → Cleared P S N capacity
  | 0, _ => .unfinished
  | turns + 1, s =>
    match order.find? fun n => (s.programs n).isSome with
    | none => .returned s
    | some n =>
      match s.unloadProgramOrThrow n with
      | (s', .inr _) => clearPrograms turns s'
      | (s', .inl .program_load_exception) =>
        clearPrograms turns { s' with programs := Function.update s'.programs n none }
      | (s', .inl .program_unload_exception) => .threw .program_unload_exception s'

def clear (fuel : ℕ) (s : ScriptingService P S N capacity) : Cleared P S N capacity :=
  match clearStates names order fuel fuel s with
  | .returned s' => clearPrograms order fuel s'
  | r => r

/-- Nothing is registered, and nothing is loaded in the engine. -/
structure Bare (s : ScriptingService P S N capacity) : Prop where
  states : ∀ n, s.states n = none
  programs : ∀ n, s.programs n = none
  marks : ∀ f, s.engine.isLoaded f = false
  queue : s.engine.queue.items = []

/-- `clear` returns, and leaves nothing. -/
def Clears (s : ScriptingService P S N capacity) : Prop :=
  ∃ s' bound, (∀ fuel, bound ≤ fuel → s.clear names order fuel = .returned s') ∧ s'.Bare

/-- The order of the map has all names that are in use. -/
def Ranges (s : ScriptingService P S N capacity) : Prop :=
  ∀ n, s.states n ≠ none ∨ s.programs n ≠ none → n ∈ order

/-- Each root comes before all that is below it. -/
def RootsFirst (s : ScriptingService P S N capacity) : Prop :=
  ∀ n t, s.states n = some ⟨t, false⟩ → ∀ e ∈ StateMachine.entriesAll t.children,
    order.idxOf n < order.idxOf (key names e)

/-- What the engine is asked to remove it removes. -/
def Releases (s : ScriptingService P S N capacity) : Prop :=
  s.engine.removable = true ∨ ∀ f, s.engine.isLoaded f = false

/-- The engine has room for so many functions more, if it takes any. -/
def Room (e : ExecutionEngine (P ⊕ S) capacity) (n : ℕ) : Prop :=
  e.around.hasActivity = true → e.around.fatalError = false →
    e.queue.items.length + n ≤ capacity

/-- The names of a tree that is loaded are free and distinct and the engine has room for it, and
what is unloaded the engine removes, if it is loaded there. -/
def Fits (s : ScriptingService P S N capacity) : Action P S N → Prop
  | .loadStateMachine t parent => parent = false → s.states (names.machine t.sc) = none →
      ¬ s.Clash names t ∧ Room s.engine (t.entries false).length
  | .loadProgram pi => s.programs (names.program pi) = none → Room s.engine 1
  | .unloadStateMachine n => ∀ t, s.states n = some ⟨t, false⟩ → s.engine.removable = true ∨
      ∀ e ∈ t.entries false, s.engine.isLoaded (.inr e.machine.sc) = false
  | .unloadProgram n => ∀ pi, s.programs n = some pi → s.engine.removable = true ∨
      s.engine.isLoaded (.inl pi) = false
  | .surround _ => True

/-- The operations, one after the other. -/
def run (fuel : ℕ) : ScriptingService P S N capacity → List (Action P S N) →
    Option (ScriptingService P S N capacity)
  | s, [] => some s
  | s, a :: as => (s.perform names fuel a).bind fun r => run fuel r.1 as

variable {names} {order} {s : ScriptingService P S N capacity} {roots : List (StateMachine S)}
  {progs : List P} {fs : List (P ⊕ S)}

theorem unloadStateMachine_eq (fuel : ℕ) (n : N) : s.unloadStateMachine names fuel n =
    (s.unloadOrThrow names fuel n).map fun r => (r.1, decide (r.2 = .inr true)) := by
  unfold unloadStateMachine unloadOrThrow
  cases s.states n with
  | none => rfl
  | some e =>
    dsimp only
    cases e.parent with
    | true => rfl
    | false =>
      cases s.recursiveCheckUnloadStateMachine names fuel e.machine with
      | none => rfl
      | some b =>
        cases b with
        | false => rfl
        | true =>
          simp only [Bool.false_eq_true, if_false, if_true, Option.bind_some, Option.map_map]
          rfl

end ScriptingService

/-! ### The engine -/

section Engine

variable {F : Type} [DecidableEq F] {capacity : ℕ} {e : ExecutionEngine F capacity}
  {f : F} {fs gs : List F}

/-- A function that is not loaded there is removed without further ado. -/
theorem Holds.removeAny (h : Holds e fs) (hr : e.removable = true ∨ f ∉ fs) :
    ∃ fs', Holds (e.removeFunction f) fs' ∧ ∀ g ∈ fs', g ≠ f ∧ g ∈ fs := by
  by_cases hf : f ∈ fs
  · have hrem : e.removable = true := hr.resolve_right (not_not.mpr hf)
    exact ⟨fs.erase f, (h.perm (List.perm_cons_erase hf)).remove hrem,
      fun g hg => h.nodup.mem_erase_iff.mp hg⟩
  · have hnot : e.isLoaded f = false := by
      rw [← Bool.not_eq_true, h.marked]
      exact hf
    have hsame : e.removeFunction f = e.note (.removed f true) := by
      rw [ExecutionEngine.removeFunction, if_pos hnot]
    rw [hsame]
    exact ⟨fs, ⟨h.queued, h.nodup, h.marked⟩, fun g hg => ⟨fun he => hf (he ▸ hg), hg⟩⟩

theorem Holds.removeMany (gs : List F) {e : ExecutionEngine F capacity} {fs : List F}
    (h : Holds e fs) (hr : e.removable = true ∨ ∀ g ∈ gs, g ∉ fs) :
    ∃ fs', Holds (Scripting.removeAll e gs) fs' ∧ ∀ f ∈ fs', f ∈ fs ∧ f ∉ gs := by
  induction gs generalizing e fs with
  | nil => exact ⟨fs, h, fun f hf => ⟨hf, List.not_mem_nil⟩⟩
  | cons g gs ih =>
    obtain ⟨fs₁, hone, hsub₁⟩ :=
      h.removeAny (hr.imp id fun hall => hall g List.mem_cons_self)
    have hr' : (e.removeFunction g).removable = true ∨ ∀ x ∈ gs, x ∉ fs₁ := by
      rw [removeFunction_removable]
      exact hr.imp id fun hall x hx hmem => hall x (List.mem_cons_of_mem g hx) (hsub₁ x hmem).2
    obtain ⟨fs', hall, hsub⟩ := ih hone hr'
    refine ⟨fs', hall, fun f hf => ?_⟩
    obtain ⟨hmem, hnot⟩ := hsub f hf
    exact ⟨(hsub₁ f hmem).2, by simp [(hsub₁ f hmem).1, hnot]⟩

theorem removeAll_removable (gs : List F) (e : ExecutionEngine F capacity) :
    (Scripting.removeAll e gs).removable = e.removable := by
  induction gs generalizing e with
  | nil => rfl
  | cons g gs ih => exact (ih (e.removeFunction g)).trans (removeFunction_removable g)

theorem runFunction_refused (f : F)
    (h : ¬ (e.around.hasActivity = true ∧ e.around.fatalError = false)) :
    e.runFunction f = e.note (.ran f false) := by
  rw [ExecutionEngine.runFunction, if_pos]
  by_cases hact : e.around.hasActivity = false
  · exact .inl hact
  · have hact' : e.around.hasActivity = true := by simpa using hact
    exact .inr (by simpa using fun hfatal => h ⟨hact', hfatal⟩)

/-- The engine takes the function, if it takes any. -/
theorem Holds.runAny (h : Holds e fs) (hf : f ∉ fs) {n : ℕ}
    (hroom : e.around.hasActivity = true → e.around.fatalError = false →
      e.queue.items.length + (n + 1) ≤ capacity) :
    ∃ fs', Holds (e.runFunction f) fs' ∧ (∀ g ∈ fs', g = f ∨ g ∈ fs) ∧
      ((e.runFunction f).around.hasActivity = true → (e.runFunction f).around.fatalError = false →
        (e.runFunction f).queue.items.length + n ≤ capacity) := by
  by_cases htakes : e.around.hasActivity = true ∧ e.around.fatalError = false
  · obtain ⟨hact, hfatal⟩ := htakes
    have hlen := hroom hact hfatal
    have hfull : e.queue.isFull = false := by
      rw [BoundedQueue.not_full_iff]
      omega
    have hrun := h.run hf hact hfatal hfull
    refine ⟨fs ++ [f], hrun, fun g hg => ?_, fun _ _ => ?_⟩
    · rcases List.mem_append.mp hg with hg | hg
      · exact .inr hg
      · exact .inl (List.mem_singleton.mp hg)
    · have hafter := hrun.queued.length_eq
      have hbefore := h.queued.length_eq
      rw [List.length_append, List.length_singleton] at hafter
      omega
  · rw [runFunction_refused f htakes]
    exact ⟨fs, ⟨h.queued, h.nodup, h.marked⟩, fun g hg => .inr hg,
      fun hact hfatal => absurd ⟨hact, hfatal⟩ htakes⟩

end Engine

variable {P S N : Type} [DecidableEq P] [DecidableEq S] [DecidableEq N] {capacity : ℕ}

namespace ScriptingService

variable {names : Names P S N} {order : List N} {s : ScriptingService P S N capacity}
  {roots : List (StateMachine S)} {es es' : List (Entry S)} {progs : List P} {fs : List (P ⊕ S)}

/-! ### What a run leaves registered -/

omit [DecidableEq P] [DecidableEq S] [DecidableEq N] in
theorem function_fresh (h : Indexes (key names) s.states es)
    (hknown : ∀ f ∈ fs, f ∈ es.map function ++ progs.map .inl) {e : Entry S}
    (hfree : s.states (key names e) = none) : (.inr e.machine.sc : P ⊕ S) ∉ fs := by
  intro hmem
  rcases List.mem_append.mp (hknown _ hmem) with hm | hm
  · obtain ⟨e', he', heq⟩ := List.mem_map.mp hm
    refine (h.none_iff _).mp hfree (List.mem_map.mpr ⟨e', he', ?_⟩)
    exact congrArg names.machine (Sum.inr.inj heq)
  · obtain ⟨p, -, hp⟩ := List.mem_map.mp hm
    cases hp

/-- What is registered, and what of it is loaded in the engine. -/
structure Kept (names : Names P S N) (s : ScriptingService P S N capacity)
    (es : List (Entry S)) (progs : List P) (fs : List (P ⊕ S)) : Prop where
  states : Indexes (key names) s.states es
  programs : Indexes names.program s.programs progs
  engine : Holds s.engine fs
  known : ∀ f ∈ fs, f ∈ es.map function ++ progs.map .inl

theorem Kept.loadEntry (h : Kept names s es progs fs) {e : Entry S} {n : ℕ}
    (hfree : s.states (key names e) = none) (hroom : Room s.engine (n + 1)) :
    ∃ fs', Kept names (s.loadEntry names e) (es ++ [e]) progs fs' ∧
      Room (s.loadEntry names e).engine n := by
  obtain ⟨fs', hheld, hsub, hroom'⟩ :=
    h.engine.runAny (function_fresh h.states h.known hfree) hroom
  refine ⟨fs', ⟨h.states.insert hfree, h.programs, hheld, fun f hf => ?_⟩, hroom'⟩
  rw [List.map_append, List.append_assoc, List.mem_append, List.mem_append]
  rcases hsub f hf with rfl | hf
  · exact .inr (.inl List.mem_cons_self)
  · rcases List.mem_append.mp (h.known f hf) with hm | hm
    · exact .inl hm
    · exact .inr (.inr hm)

theorem Kept.loadEntries (h : Kept names s es progs fs)
    (hnodup : ((es ++ es').map (key names)).Nodup) (hroom : Room s.engine es'.length) :
    ∃ fs', Kept names (s.loadEntries names es') (es ++ es') progs fs' := by
  induction es' generalizing s es fs with
  | nil =>
    rw [List.append_nil]
    exact ⟨fs, h⟩
  | cons e es' ih =>
    have hfree : s.states (key names e) = none := by
      rw [h.states.none_iff]
      intro hmem
      rw [List.map_append, List.map_cons] at hnodup
      exact List.disjoint_of_nodup_append hnodup hmem List.mem_cons_self
    obtain ⟨fs', h', hroom'⟩ := h.loadEntry hfree hroom
    have hsplit : es ++ e :: es' = es ++ [e] ++ es' := by simp
    rw [hsplit] at hnodup ⊢
    exact ih h' hnodup hroom'

omit [DecidableEq P] [DecidableEq S] [DecidableEq N] in
theorem Kept.perm (h : Kept names s es progs fs) (hp : es.Perm es') :
    Kept names s es' progs fs :=
  ⟨h.states.perm hp, h.programs, h.engine, fun f hf =>
    ((hp.map function).append_right _).mem_iff.mp (h.known f hf)⟩

/-! ### Unloading a root -/

omit [DecidableEq S] in
/-- The entries of a root go in front. -/
theorem entries_split (r₁ r₂ : List (StateMachine S)) (t : StateMachine S) :
    ((r₁ ++ t :: r₂).flatMap fun t => t.entries false).Perm
      (t.leaving false ++ (r₁ ++ r₂).flatMap fun t => t.entries false) := by
  rw [List.flatMap_append, List.flatMap_cons, List.flatMap_append]
  refine (List.perm_append_comm_assoc _ _ _).trans ?_
  exact (t.leaving_perm false).symm.append_right _

omit [DecidableEq P] [DecidableEq S] [DecidableEq N] in
/-- What is registered without a parent is a root, under its name. -/
theorem root_mem (h : Indexes (key names) s.states (roots.flatMap fun t => t.entries false))
    {n : N} {t : StateMachine S} (hn : s.states n = some ⟨t, false⟩) :
    names.machine t.sc = n ∧ t ∈ roots := by
  obtain ⟨hmem, hkey⟩ := (h.mem n _).mp hn
  refine ⟨hkey, ?_⟩
  obtain ⟨t₀, ht₀, he⟩ := List.mem_flatMap.mp hmem
  rw [StateMachine.entries_eq] at he
  rcases List.mem_cons.mp he with he | he
  · rwa [(Entry.mk.inj he).1]
  · have hparent := StateMachine.entriesAll_parent _ _ he
    cases hparent

omit [DecidableEq S] in
/-- What is registered with a parent is below a root. -/
theorem child_mem {e : Entry S} (he : e ∈ roots.flatMap fun t => t.entries false)
    (hparent : e.parent = true) :
    ∃ t ∈ roots, e ∈ StateMachine.entriesAll t.children := by
  obtain ⟨t, ht, he⟩ := List.mem_flatMap.mp he
  rw [StateMachine.entries_eq] at he
  rcases List.mem_cons.mp he with rfl | he
  · cases hparent
  · exact ⟨t, ht, he⟩

omit [DecidableEq P] [DecidableEq S] [DecidableEq N] in
theorem root_registered
    (h : Indexes (key names) s.states (roots.flatMap fun t => t.entries false))
    {t : StateMachine S} (ht : t ∈ roots) :
    s.states (names.machine t.sc) = some ⟨t, false⟩ := by
  refine (h.mem _ _).mpr ⟨List.mem_flatMap.mpr ⟨t, ht, ?_⟩, rfl⟩
  rw [StateMachine.entries_eq]
  exact List.mem_cons_self

omit [DecidableEq P] [DecidableEq S] [DecidableEq N] in
theorem below_registered
    (h : Indexes (key names) s.states (roots.flatMap fun t => t.entries false))
    {t : StateMachine S} (ht : t ∈ roots) {e : Entry S}
    (he : e ∈ StateMachine.entriesAll t.children) : s.states (key names e) = some e := by
  refine (h.mem _ _).mpr ⟨List.mem_flatMap.mpr ⟨t, ht, ?_⟩, rfl⟩
  rw [StateMachine.entries_eq]
  exact List.mem_cons_of_mem _ he

/-- Unloading a root takes its tree out of the map, and asks the engine to remove it. -/
theorem unload_indexed
    (h : Indexes (key names) s.states (roots.flatMap fun t => t.entries false)) {n : N}
    {t : StateMachine S} (hn : s.states n = some ⟨t, false⟩) :
    ∃ s' r₁ r₂, roots = r₁ ++ t :: r₂ ∧
      (∀ fuel, (roots.flatMap fun t => t.entries false).length ≤ fuel →
        s.unloadOrThrow names fuel n = some (s', .inr true)) ∧
      Indexes (key names) s'.states ((r₁ ++ r₂).flatMap fun t => t.entries false) ∧
      s'.programs = s.programs ∧
      s'.engine = removeAll s.engine ((t.leaving false).map function) := by
  obtain ⟨-, hroot⟩ := root_mem h hn
  obtain ⟨r₁, r₂, rfl⟩ := List.append_of_mem hroot
  have hperm := entries_split r₁ r₂ t
  obtain ⟨s', hs', hi, -, hprogs, heng⟩ := unloadEntries_spec (t.leaving false) (h.perm hperm)
  refine ⟨s', r₁, r₂, rfl, fun fuel hfuel => ?_, hi, hprogs, heng⟩
  have hcheck : s.recursiveCheckUnloadStateMachine names fuel t = some true := by
    refine check_spec h fuel t false (fun e he => ?_) ?_
    · exact List.mem_flatMap.mpr ⟨t, hroot, he⟩
    · have hlen := hperm.length_eq
      rw [List.length_append, (t.leaving_perm false).length_eq] at hlen
      omega
  simp [unloadOrThrow, hn, hcheck, recursiveUnloadStateMachine_eq names false, hs']

omit [DecidableEq N] in
/-- What is left registered, and of it loaded. -/
theorem Kept.unload (h : Kept names s (roots.flatMap fun t => t.entries false) progs fs)
    {s' : ScriptingService P S N capacity} {r₁ r₂ : List (StateMachine S)} {t : StateMachine S}
    (hroots : roots = r₁ ++ t :: r₂)
    (hstates : Indexes (key names) s'.states ((r₁ ++ r₂).flatMap fun t => t.entries false))
    (hprogs : s'.programs = s.programs)
    (hengine : s'.engine = removeAll s.engine ((t.leaving false).map function))
    (hr : s.engine.removable = true ∨ ∀ e ∈ t.entries false, .inr e.machine.sc ∉ fs) :
    ∃ fs', Kept names s' ((r₁ ++ r₂).flatMap fun t => t.entries false) progs fs' ∧
      ∀ f ∈ fs', f ∈ fs := by
  subst hroots
  have h' := h.perm (entries_split r₁ r₂ t)
  have hr' : s.engine.removable = true ∨
      ∀ g ∈ (t.leaving false).map (function (P := P)), g ∉ fs := by
    refine hr.imp id fun hall g hg => ?_
    obtain ⟨e, he, rfl⟩ := List.mem_map.mp hg
    exact hall e ((t.leaving_perm false).mem_iff.mp he)
  obtain ⟨fs', hheld, hsub⟩ := h.engine.removeMany _ hr'
  refine ⟨fs', ⟨hstates, hprogs ▸ h.programs, hengine ▸ hheld, fun f hf => ?_⟩,
    fun f hf => (hsub f hf).1⟩
  obtain ⟨hmem, hnot⟩ := hsub f hf
  have hold := h'.known f hmem
  rw [List.map_append, List.append_assoc, List.mem_append] at hold
  exact hold.resolve_left hnot

/-! ### A run keeps the registry -/

omit [DecidableEq P] [DecidableEq S] [DecidableEq N] in
theorem program_fresh (h : Kept names s es progs fs) {pi : P}
    (hfree : s.programs (names.program pi) = none) : (.inl pi : P ⊕ S) ∉ fs := by
  intro hmem
  rcases List.mem_append.mp (h.known _ hmem) with hm | hm
  · obtain ⟨e, -, he⟩ := List.mem_map.mp hm
    cases he
  · obtain ⟨q, hq, heq⟩ := List.mem_map.mp hm
    obtain rfl : q = pi := Sum.inl.inj heq
    exact (h.programs.none_iff _).mp hfree (List.mem_map_of_mem hq)

theorem loadProgram_kept (h : Kept names s (roots.flatMap fun t => t.entries false) progs fs)
    {fuel : ℕ} {pi : P} (hfree : s.programs (names.program pi) = none)
    (hroom : Room s.engine 1) : ∃ s' result, ∃ roots' : List (StateMachine S), ∃ progs' fs',
      s.perform names fuel (.loadProgram pi) = some (s', result) ∧
      Kept names s' (roots'.flatMap fun t => t.entries false) progs' fs' ∧
      (roots'.flatMap fun t => t.entries false).length ≤
        (roots.flatMap fun t => t.entries false).length +
          weight (.loadProgram pi : Action P S N) := by
  by_cases htakes : s.engine.around.hasActivity = true ∧ s.engine.around.fatalError = false
  · have hlen := hroom htakes.1 htakes.2
    have hacc : accepts s.engine = true := (takes_one_iff _).mp ⟨htakes.1, htakes.2, hlen⟩
    obtain ⟨fs', hheld, hsub, -⟩ := h.engine.runAny (program_fresh h hfree) hroom
    refine ⟨{ s with
      programs := Function.update s.programs (names.program pi) (some pi)
      engine := s.engine.runFunction (.inl pi) }, true, roots, progs ++ [pi], fs', ?_,
      ⟨h.states, h.programs.insert hfree, hheld, fun f hf => ?_⟩, Nat.le_add_right _ _⟩
    · simp [perform, loadProgram, hfree, hacc]
    · rw [List.map_append, ← List.append_assoc, List.mem_append]
      rcases hsub f hf with rfl | hf
      · exact .inr List.mem_cons_self
      · exact .inl (h.known f hf)
  · have hacc : accepts s.engine = false := by
      rw [← Bool.not_eq_true, ← takes_one_iff]
      exact fun ht => htakes ⟨ht.1, ht.2.1⟩
    have hback : Function.update (Function.update s.programs (names.program pi) (some pi))
        (names.program pi) none = s.programs := by
      rw [Function.update_idem, ← hfree, Function.update_eq_self]
    refine ⟨{ s with engine := s.engine.runFunction (.inl pi) }, false, roots, progs, fs, ?_,
      ⟨h.states, h.programs, ?_, h.known⟩, Nat.le_add_right _ _⟩
    · simp [perform, loadProgram, hfree, hacc, hback]
    · rw [runFunction_refused _ htakes]
      exact ⟨h.engine.queued, h.engine.nodup, h.engine.marked⟩

/-- A program leaves the map, and what is loaded of it the engine. -/
theorem Kept.removeProgram (h : Kept names s es progs fs) {n : N} {pi : P}
    (hn : s.programs n = some pi)
    (hr : s.engine.removable = true ∨ s.engine.isLoaded (.inl pi) = false) :
    ∃ progs' fs', progs.length = progs'.length + 1 ∧ (∀ f ∈ fs', f ∈ fs) ∧ Kept names { s with
      programs := Function.update s.programs n none
      engine := s.engine.removeFunction (.inl pi) } es progs' fs' := by
  obtain ⟨hmem, hkey⟩ := (h.programs.mem n pi).mp hn
  obtain ⟨l₁, l₂, rfl⟩ := List.append_of_mem hmem
  have hr' : s.engine.removable = true ∨ (.inl pi : P ⊕ S) ∉ fs :=
    hr.imp id fun hnot hin => by
      rw [(h.engine.marked _).mpr hin] at hnot
      cases hnot
  obtain ⟨fs', hheld, hsub⟩ := h.engine.removeAny hr'
  refine ⟨l₁ ++ l₂, fs', by simp [Nat.add_assoc], fun f hf => (hsub f hf).2,
    ⟨h.states, ?_, hheld, fun f hf => ?_⟩⟩
  · rw [← hkey]
    exact (h.programs.perm List.perm_middle).erase
  · obtain ⟨hne, hin⟩ := hsub f hf
    have hold := h.known f hin
    simp only [List.map_append, List.map_cons, List.mem_append, List.mem_cons] at hold ⊢
    tauto

theorem unloadProgram_kept (h : Kept names s (roots.flatMap fun t => t.entries false) progs fs)
    {fuel : ℕ} {n : N} {pi : P} (hn : s.programs n = some pi)
    (hr : s.engine.removable = true ∨ s.engine.isLoaded (.inl pi) = false) :
    ∃ s' result, ∃ roots' : List (StateMachine S), ∃ progs' fs',
      s.perform names fuel (.unloadProgram n) = some (s', result) ∧
      Kept names s' (roots'.flatMap fun t => t.entries false) progs' fs' ∧
      (roots'.flatMap fun t => t.entries false).length ≤
        (roots.flatMap fun t => t.entries false).length +
          weight (.unloadProgram n : Action P S N) := by
  obtain ⟨progs', fs', -, -, h'⟩ := h.removeProgram hn hr
  exact ⟨_, true, roots, progs', fs', by simp [perform, unloadProgram, hn], h',
    Nat.le_add_right _ _⟩

/-- After an operation that fits, with how many machines it may have added. -/
theorem perform_kept (h : Kept names s (roots.flatMap fun t => t.entries false) progs fs)
    {fuel : ℕ} (hfuel : (roots.flatMap fun t => t.entries false).length ≤ fuel) (a : Action P S N)
    (hfits : s.Fits names a) : ∃ s' result, ∃ roots' : List (StateMachine S),
      ∃ progs' fs',
      s.perform names fuel a = some (s', result) ∧
      Kept names s' (roots'.flatMap fun t => t.entries false) progs' fs' ∧
      (roots'.flatMap fun t => t.entries false).length ≤
        (roots.flatMap fun t => t.entries false).length + weight a := by
  have hidle {a : Action P S N} (hp : s.perform names fuel a = some (s, false)) :
      ∃ s' result, ∃ roots' : List (StateMachine S), ∃ progs' fs', s.perform names fuel a = some (s', result) ∧
        Kept names s' (roots'.flatMap fun t => t.entries false) progs' fs' ∧
        (roots'.flatMap fun t => t.entries false).length ≤
          (roots.flatMap fun t => t.entries false).length + weight a :=
    ⟨s, false, roots, progs, fs, hp, h, Nat.le_add_right _ _⟩
  cases a with
  | loadStateMachine t parent =>
    cases parent with
    | true => exact hidle rfl
    | false =>
      cases hroot : s.states (names.machine t.sc) with
      | some e =>
        exact hidle (by simp [perform, loadStateMachine, recursiveCheckLoadStateMachine, hroot])
      | none =>
        obtain ⟨hclash, hroom⟩ := hfits rfl hroot
        unfold Clash at hclash
        rw [not_or, not_not] at hclash
        have hnodup : (((roots.flatMap fun t => t.entries false) ++ t.entries false).map
            (key names)).Nodup := by
          rw [List.map_append]
          refine List.Nodup.append h.states.nodup hclash.2 ?_
          intro n hn hn'
          obtain ⟨e, he, rfl⟩ := List.mem_map.mp hn'
          exact hclash.1 ⟨e, he, fun hnone => (h.states.none_iff _).mp hnone hn⟩
        obtain ⟨fs', h'⟩ := h.loadEntries hnodup hroom
        refine ⟨s.loadEntries names (t.entries false), true, roots ++ [t], progs, fs', ?_, ?_, ?_⟩
        · simp [perform, loadStateMachine, recursiveCheckLoadStateMachine, hroot,
            recursiveLoadStateMachine_eq]
        · rw [List.flatMap_append, List.flatMap_singleton]
          exact h'
        · rw [List.flatMap_append, List.flatMap_singleton, List.length_append]
          exact Nat.le_refl _
  | unloadStateMachine n =>
    cases hn : s.states n with
    | none => exact hidle (by simp [perform, unloadStateMachine, hn])
    | some e =>
      obtain ⟨t, parent⟩ := e
      cases parent with
      | true => exact hidle (by simp [perform, unloadStateMachine, hn])
      | false =>
        obtain ⟨s', r₁, r₂, hroots, hunload, hi, hprogs, hengine⟩ := unload_indexed h.states hn
        have hr : s.engine.removable = true ∨ ∀ e ∈ t.entries false, .inr e.machine.sc ∉ fs :=
          (hfits t hn).imp id fun hall e he hmem => by
            have hmark := (h.engine.marked _).mpr hmem
            rw [hall e he] at hmark
            cases hmark
        obtain ⟨fs', h', -⟩ := h.unload hroots hi hprogs hengine hr
        refine ⟨s', true, r₁ ++ r₂, progs, fs', ?_, h', ?_⟩
        · rw [perform, unloadStateMachine_eq, hunload fuel hfuel]
          rfl
        · have hlen := (entries_split r₁ r₂ t).length_eq
          rw [← hroots, List.length_append] at hlen
          omega
  | loadProgram pi =>
    cases hname : s.programs (names.program pi) with
    | some q => exact hidle (by simp [perform, loadProgram, hname])
    | none => exact loadProgram_kept h hname (hfits hname)
  | unloadProgram n =>
    cases hn : s.programs n with
    | none => exact hidle (by simp [perform, unloadProgram, hn])
    | some pi => exact unloadProgram_kept h hn (hfits pi hn)
  | surround around =>
    exact ⟨{ s with engine := { s.engine with around := around } }, true, roots, progs, fs, rfl,
      ⟨h.states, h.programs, ⟨h.engine.queued, h.engine.nodup, h.engine.marked⟩, h.known⟩,
      Nat.le_add_right _ _⟩

/-! ### The loops of `clear` -/

omit [DecidableEq P] [DecidableEq S] in
/-- The begin of a map is the first of the names in it. -/
theorem begin_first {m : N → Bool} {n : N} (h : order.find? m = some n) :
    m n = true ∧ ∀ k, m k = true → order.idxOf n ≤ order.idxOf k := by
  obtain ⟨hn, as, bs, rfl, has⟩ := List.find?_eq_some_iff_append.mp h
  have hout : ∀ k, m k = true → k ∉ as := by
    intro k hk hmem
    have hnot := has k hmem
    rw [hk] at hnot
    cases hnot
  refine ⟨hn, fun k hk => ?_⟩
  rw [List.idxOf_append_of_notMem (hout n hn), List.idxOf_append_of_notMem (hout k hk),
    List.idxOf_cons_self]
  omega

omit [DecidableEq N] in
theorem begin_none {m : N → Bool} (h : order.find? m = none)
    (hall : ∀ k, m k = true → k ∈ order) (k : N) : m k = false := by
  by_contra hk
  have hk' : m k = true := by simpa using hk
  exact List.find?_eq_none.mp h k (hall k hk') hk'

omit [DecidableEq P] [DecidableEq S] [DecidableEq N] in
/-- What is left in the map was there before. -/
theorem states_of_left {s' : ScriptingService P S N capacity} {r₁ r₂ : List (StateMachine S)}
    {t : StateMachine S}
    (h : Indexes (key names) s.states ((r₁ ++ t :: r₂).flatMap fun t => t.entries false))
    (h' : Indexes (key names) s'.states ((r₁ ++ r₂).flatMap fun t => t.entries false)) {n : N}
    {e : Entry S} (he : s'.states n = some e) : s.states n = some e := by
  obtain ⟨hmem, hkey⟩ := (h'.mem n e).mp he
  refine (h.mem n e).mpr ⟨?_, hkey⟩
  rw [List.flatMap_append, List.flatMap_cons]
  rw [List.flatMap_append] at hmem
  rcases List.mem_append.mp hmem with hm | hm
  · exact List.mem_append_left _ hm
  · exact List.mem_append_right _ (List.mem_append_right _ hm)

omit [DecidableEq P] [DecidableEq S] in
/-- The begin of the map is a root, where each root comes before what is below it. -/
theorem begin_root (h : Indexes (key names) s.states (roots.flatMap fun t => t.entries false))
    (hfirst : s.RootsFirst names order) {n : N}
    (hn : order.find? (fun n => (s.states n).isSome) = some n) :
    ∃ t, s.states n = some ⟨t, false⟩ := by
  obtain ⟨hsome, hle⟩ := begin_first hn
  obtain ⟨⟨t, parent⟩, he⟩ := Option.isSome_iff_exists.mp hsome
  cases parent with
  | false => exact ⟨t, he⟩
  | true =>
    obtain ⟨hmem, hkey⟩ := (h.mem n _).mp he
    obtain ⟨root, hroot, hbelow⟩ := child_mem hmem rfl
    have hreg := root_registered h hroot
    have hlt := hfirst _ root hreg _ hbelow
    have hge := hle (names.machine root.sc) (by rw [hreg]; rfl)
    rw [hkey] at hlt
    omega

omit [DecidableEq P] [DecidableEq S] in
theorem rootsFirst_left {s' : ScriptingService P S N capacity} {r₁ r₂ : List (StateMachine S)}
    {t : StateMachine S}
    (h : Indexes (key names) s.states ((r₁ ++ t :: r₂).flatMap fun t => t.entries false))
    (h' : Indexes (key names) s'.states ((r₁ ++ r₂).flatMap fun t => t.entries false))
    (hfirst : s.RootsFirst names order) : s'.RootsFirst names order :=
  fun n root hn => hfirst n root (states_of_left h h' hn)

omit [DecidableEq P] [DecidableEq S] [DecidableEq N] in
theorem ranges_left {s' : ScriptingService P S N capacity} {r₁ r₂ : List (StateMachine S)}
    {t : StateMachine S}
    (h : Indexes (key names) s.states ((r₁ ++ t :: r₂).flatMap fun t => t.entries false))
    (h' : Indexes (key names) s'.states ((r₁ ++ r₂).flatMap fun t => t.entries false))
    (hprogs : s'.programs = s.programs) (hrange : s.Ranges order) : s'.Ranges order := by
  intro n hn
  refine hrange n (hn.imp (fun hs => ?_) fun hp => hprogs ▸ hp)
  obtain ⟨e, he⟩ := Option.ne_none_iff_exists'.mp hs
  rw [states_of_left h h' he]
  exact Option.some_ne_none e

/-- The first name is that of a root, which is unloaded with its tree, until nothing is left. -/
theorem clearStates_returns (h : Kept names s (roots.flatMap fun t => t.entries false) progs fs)
    (hfirst : s.RootsFirst names order) (hrange : s.Ranges order)
    (hr : s.engine.removable = true ∨ fs = []) : ∃ s' fs',
      (∀ fuel turns, (roots.flatMap fun t => t.entries false).length ≤ fuel →
        roots.length < turns → s.clearStates names order fuel turns = .returned s') ∧
      Kept names s' [] progs fs' ∧ s'.programs = s.programs ∧
      (s'.engine.removable = true ∨ fs' = []) := by
  generalize hk : roots.length = k
  induction k generalizing s roots fs with
  | zero =>
    obtain rfl := List.length_eq_zero_iff.mp hk
    refine ⟨s, fs, fun fuel turns _ hturns => ?_, h, rfl, hr⟩
    obtain ⟨turns, rfl⟩ := Nat.exists_eq_add_of_lt hturns
    have hnone : order.find? (fun n => (s.states n).isSome) = none := by
      refine List.find?_eq_none.mpr fun n _ => ?_
      rw [(h.states.none_iff n).mpr (by simp)]
      exact Bool.false_ne_true
    rw [clearStates, hnone]
  | succ k ih =>
    have hsome : ∃ n, order.find? (fun n => (s.states n).isSome) = some n := by
      cases roots with
      | nil => cases hk
      | cons t rest =>
        have hreg := root_registered h.states List.mem_cons_self
        refine Option.isSome_iff_exists.mp (List.find?_isSome.mpr ⟨names.machine t.sc, ?_, ?_⟩)
        · exact hrange _ (.inl (by rw [hreg]; exact Option.some_ne_none _))
        · rw [hreg]
          rfl
    obtain ⟨n, hn⟩ := hsome
    obtain ⟨t, ht⟩ := begin_root h.states hfirst hn
    obtain ⟨s₁, r₁, r₂, rfl, hunload, hi, hprogs, hengine⟩ := unload_indexed h.states ht
    have hr' : s.engine.removable = true ∨ ∀ e ∈ t.entries false, .inr e.machine.sc ∉ fs :=
      hr.imp id fun hnil e _ hmem => by
        rw [hnil] at hmem
        cases hmem
    obtain ⟨fs₁, h₁, hsub⟩ := h.unload rfl hi hprogs hengine hr'
    have hr₁ : s₁.engine.removable = true ∨ fs₁ = [] := by
      rw [hengine, removeAll_removable]
      refine hr.imp id fun hnil => List.eq_nil_iff_forall_not_mem.mpr fun f hf => ?_
      have hmem := hsub f hf
      rw [hnil] at hmem
      cases hmem
    have hlen := (entries_split r₁ r₂ t).length_eq
    rw [List.length_append] at hlen
    have hcount : (r₁ ++ r₂).length = k := by
      rw [List.length_append, List.length_cons] at hk
      rw [List.length_append]
      omega
    obtain ⟨s', fs', hreturns, hkept, hprogs', hrem⟩ := ih h₁ (rootsFirst_left h.states hi hfirst)
      (ranges_left h.states hi hprogs hrange) hr₁ hcount
    refine ⟨s', fs', fun fuel turns hfuel hturns => ?_, hkept, hprogs'.trans hprogs, hrem⟩
    obtain ⟨turns, rfl⟩ := Nat.exists_eq_add_of_lt hturns
    rw [clearStates, hn]
    dsimp only
    rw [hunload fuel hfuel]
    exact hreturns fuel _ (by omega) (by omega)

/-- Each program is unloaded. -/
theorem clearPrograms_returns (h : Kept names s es progs fs) (hrange : s.Ranges order)
    (hr : s.engine.removable = true ∨ fs = []) : ∃ s' fs',
      (∀ turns, progs.length < turns → s.clearPrograms order turns = .returned s') ∧
      Kept names s' es [] fs' := by
  generalize hk : progs.length = k
  induction k generalizing s progs fs with
  | zero =>
    obtain rfl := List.length_eq_zero_iff.mp hk
    refine ⟨s, fs, fun turns hturns => ?_, h⟩
    obtain ⟨turns, rfl⟩ := Nat.exists_eq_add_of_lt hturns
    have hnone : order.find? (fun n => (s.programs n).isSome) = none := by
      refine List.find?_eq_none.mpr fun n _ => ?_
      rw [(h.programs.none_iff n).mpr (by simp)]
      exact Bool.false_ne_true
    rw [clearPrograms, hnone]
  | succ k ih =>
    have hsome : ∃ n, order.find? (fun n => (s.programs n).isSome) = some n := by
      cases progs with
      | nil => cases hk
      | cons pi rest =>
        have hreg : s.programs (names.program pi) = some pi :=
          (h.programs.mem _ _).mpr ⟨List.mem_cons_self, rfl⟩
        refine Option.isSome_iff_exists.mp (List.find?_isSome.mpr ⟨names.program pi, ?_, ?_⟩)
        · exact hrange _ (.inr (by rw [hreg]; exact Option.some_ne_none _))
        · rw [hreg]
          rfl
    obtain ⟨n, hn⟩ := hsome
    obtain ⟨pi, hpi⟩ := Option.isSome_iff_exists.mp (begin_first hn).1
    have hr' : s.engine.removable = true ∨ s.engine.isLoaded (.inl pi) = false := by
      refine hr.imp id fun hnil => ?_
      rw [← Bool.not_eq_true, h.engine.marked, hnil]
      exact List.not_mem_nil
    obtain ⟨progs₁, fs₁, hlen, hsub, h₁⟩ := h.removeProgram hpi hr'
    have hr₁ : (s.engine.removeFunction (.inl pi)).removable = true ∨ fs₁ = [] := by
      rw [removeFunction_removable]
      refine hr.imp id fun hnil => List.eq_nil_iff_forall_not_mem.mpr fun f hf => ?_
      have hmem := hsub f hf
      rw [hnil] at hmem
      cases hmem
    have hrange₁ : Ranges order { s with
        programs := Function.update s.programs n none
        engine := s.engine.removeFunction (.inl pi) } := by
      intro m hm
      refine hrange m (hm.imp id fun hp hnone => hp ?_)
      by_cases hmn : m = n
      · subst hmn
        exact Function.update_self ..
      · exact (Function.update_of_ne hmn _ _).trans hnone
    obtain ⟨s', fs', hreturns, hkept⟩ := ih h₁ hrange₁ hr₁ (by omega)
    refine ⟨s', fs', fun turns hturns => ?_, hkept⟩
    obtain ⟨turns, rfl⟩ := Nat.exists_eq_add_of_lt hturns
    have hunload : s.unloadProgramOrThrow n = ({ s with
        programs := Function.update s.programs n none
        engine := s.engine.removeFunction (.inl pi) }, .inr true) := by
      simp [unloadProgramOrThrow, unloadProgram, hpi]
    rw [clearPrograms, hn]
    dsimp only
    rw [hunload]
    exact hreturns _ (by omega)

/-- `clear` empties a registry in which each root comes before what is below it. -/
theorem clears_of_rootsFirst
    (h : Kept names s (roots.flatMap fun t => t.entries false) progs fs)
    (hrange : s.Ranges order) (hfirst : s.RootsFirst names order) (hr : s.Releases) :
    s.Clears names order := by
  have hr' : s.engine.removable = true ∨ fs = [] := by
    refine hr.imp id fun hall => List.eq_nil_iff_forall_not_mem.mpr fun f hf => ?_
    have hmark := (h.engine.marked f).mpr hf
    rw [hall f] at hmark
    cases hmark
  obtain ⟨s₁, fs₁, hstates, h₁, hprogs, hr₁⟩ := clearStates_returns h hfirst hrange hr'
  have hrange₁ : s₁.Ranges order := by
    intro n hn
    refine hrange n (.inr ?_)
    rw [← hprogs]
    exact hn.resolve_left fun hne => hne ((h₁.states.none_iff n).mpr (by simp))
  obtain ⟨s₂, fs₂, hprograms, h₂⟩ := clearPrograms_returns h₁ hrange₁ hr₁
  refine ⟨s₂, (roots.flatMap fun t => t.entries false).length + roots.length + progs.length + 1,
    fun fuel hfuel => ?_, ?_⟩
  · rw [clear, hstates fuel fuel (by omega) (by omega)]
    exact hprograms fuel (by omega)
  · have hnil : fs₂ = [] := by
      refine List.eq_nil_iff_forall_not_mem.mpr fun f hf => ?_
      simpa using h₂.known f hf
    subst hnil
    refine ⟨fun n => (h₂.states.none_iff n).mpr (by simp),
      fun n => (h₂.programs.none_iff n).mpr (by simp), fun f => ?_, h₂.engine.queued.eq_nil⟩
    rw [← Bool.not_eq_true, h₂.engine.marked]
    exact List.not_mem_nil

/-! ### Where it does not -/

/-- While a machine below a root has a name before it, the loop does not return. -/
theorem clearStates_stuck {fuel turns : ℕ} {s s' : ScriptingService P S N capacity}
    {roots : List (StateMachine S)} {t : StateMachine S} {e : Entry S}
    (h : Indexes (key names) s.states (roots.flatMap fun t => t.entries false)) (ht : t ∈ roots)
    (he : e ∈ StateMachine.entriesAll t.children)
    (hlt : order.idxOf (key names e) < order.idxOf (names.machine t.sc))
    (hrange : s.Ranges order)
    (hfuel : (roots.flatMap fun t => t.entries false).length ≤ fuel) :
    s.clearStates names order fuel turns ≠ .returned s' := by
  induction turns generalizing s roots with
  | zero => simp [clearStates]
  | succ turns ih =>
    have hroot := root_registered h ht
    have hbelow := below_registered h ht he
    rw [clearStates]
    cases hn : order.find? fun n => (s.states n).isSome with
    | none =>
      have hnone := begin_none hn (fun k hk => hrange k (.inl (by simpa [Option.isSome_iff_ne_none]
        using hk))) (names.machine t.sc)
      rw [hroot] at hnone
      cases hnone
    | some n =>
      obtain ⟨hsome, hle⟩ := begin_first hn
      obtain ⟨⟨u, parent⟩, hu⟩ := Option.isSome_iff_exists.mp hsome
      cases parent with
      | true =>
        have hthrow : s.unloadOrThrow names fuel n =
            some (s, .inl .program_unload_exception) := by
          simp [unloadOrThrow, hu]
        dsimp only
        rw [hthrow]
        simp
      | false =>
        obtain ⟨s₁, r₁, r₂, rfl, hunload, hi, hprogs, -⟩ := unload_indexed h hu
        have hut : t ≠ u := by
          rintro rfl
          have hge := hle (key names e) (by rw [hbelow]; rfl)
          rw [← (root_mem h hu).1] at hge
          omega
        have hleft : t ∈ r₁ ++ r₂ := by
          simp only [List.mem_append, List.mem_cons] at ht ⊢
          rcases ht with hm | hm | hm
          · exact .inl hm
          · exact absurd hm hut
          · exact .inr hm
        have hlen := (entries_split r₁ r₂ u).length_eq
        rw [List.length_append] at hlen
        dsimp only
        rw [hunload fuel hfuel]
        exact ih hi hleft (ranges_left h hi hprogs hrange) (by omega)

theorem unloadEntries_refused {es : List (Entry S)} {s s' : ScriptingService P S N capacity}
    (h : s.unloadEntries names es = some s') (hr : s.engine.removable = false) :
    s'.engine.isLoaded = s.engine.isLoaded ∧ s'.engine.removable = false := by
  induction es generalizing s with
  | nil =>
    obtain rfl : s = s' := Option.some.inj h
    exact ⟨rfl, hr⟩
  | cons e es ih =>
    rw [unloadEntries, List.foldlM_cons, Option.bind_eq_bind, Option.bind_eq_some_iff] at h
    obtain ⟨s₁, hone, hrest⟩ := h
    unfold unloadEntry at hone
    cases hstate : s.states (names.machine e.machine.sc) with
    | none => simp [hstate] at hone
    | some e' =>
      rw [hstate] at hone
      obtain rfl := Option.some.inj hone
      obtain ⟨hmarks, hrem⟩ := ih hrest (by rw [removeFunction_removable, hr])
      exact ⟨hmarks.trans (removeFunction_refused hr _), hrem⟩

theorem unloadOrThrow_refused {fuel : ℕ} {n : N} {s s' : ScriptingService P S N capacity}
    {r : Exception ⊕ Bool} (h : s.unloadOrThrow names fuel n = some (s', r))
    (hr : s.engine.removable = false) :
    s'.engine.isLoaded = s.engine.isLoaded ∧ s'.engine.removable = false := by
  unfold unloadOrThrow at h
  cases hn : s.states n with
  | none =>
    rw [hn] at h
    obtain ⟨rfl, -⟩ := Prod.mk.inj (Option.some.inj h)
    exact ⟨rfl, hr⟩
  | some e =>
    rw [hn] at h
    dsimp only at h
    by_cases hparent : e.parent = true
    · rw [if_pos hparent] at h
      obtain ⟨rfl, -⟩ := Prod.mk.inj (Option.some.inj h)
      exact ⟨rfl, hr⟩
    · rw [if_neg hparent, Option.bind_eq_some_iff] at h
      obtain ⟨b, -, h⟩ := h
      cases b with
      | false =>
        obtain ⟨rfl, -⟩ := Prod.mk.inj (Option.some.inj h)
        exact ⟨rfl, hr⟩
      | true =>
        rw [if_pos rfl, Option.map_eq_some_iff, recursiveUnloadStateMachine_eq names false] at h
        obtain ⟨s₁, hall, heq⟩ := h
        obtain ⟨rfl, -⟩ := Prod.mk.inj heq
        exact unloadEntries_refused hall hr

theorem clearStates_refused {fuel turns : ℕ} {s s' : ScriptingService P S N capacity}
    (h : s.clearStates names order fuel turns = .returned s')
    (hr : s.engine.removable = false) :
    s'.engine.isLoaded = s.engine.isLoaded ∧ s'.engine.removable = false := by
  induction turns generalizing s with
  | zero => simp [clearStates] at h
  | succ turns ih =>
    rw [clearStates] at h
    cases hn : order.find? fun n => (s.states n).isSome with
    | none =>
      rw [hn] at h
      obtain rfl : s = s' := Cleared.returned.inj h
      exact ⟨rfl, hr⟩
    | some n =>
      rw [hn] at h
      dsimp only at h
      cases hu : s.unloadOrThrow names fuel n with
      | none => simp [hu] at h
      | some r =>
        obtain ⟨s₁, e | b⟩ := r
        · obtain ⟨hmarks, hrem⟩ := unloadOrThrow_refused hu hr
          rw [hu] at h
          cases e with
          | program_load_exception =>
            obtain ⟨hmarks', hrem'⟩ := ih h hrem
            exact ⟨hmarks'.trans hmarks, hrem'⟩
          | program_unload_exception => cases h
        · obtain ⟨hmarks, hrem⟩ := unloadOrThrow_refused hu hr
          rw [hu] at h
          obtain ⟨hmarks', hrem'⟩ := ih h hrem
          exact ⟨hmarks'.trans hmarks, hrem'⟩

theorem clearPrograms_refused {turns : ℕ} {s s' : ScriptingService P S N capacity}
    (h : s.clearPrograms order turns = .returned s') (hr : s.engine.removable = false) :
    s'.engine.isLoaded = s.engine.isLoaded := by
  induction turns generalizing s with
  | zero => simp [clearPrograms] at h
  | succ turns ih =>
    rw [clearPrograms] at h
    cases hn : order.find? fun n => (s.programs n).isSome with
    | none =>
      rw [hn] at h
      obtain rfl : s = s' := Cleared.returned.inj h
      rfl
    | some n =>
      rw [hn] at h
      dsimp only at h
      cases hpi : s.programs n with
      | none => simp [unloadProgramOrThrow, hpi] at h
      | some pi =>
        rw [unloadProgramOrThrow, unloadProgram, hpi] at h
        exact (ih h (by rw [removeFunction_removable, hr])).trans (removeFunction_refused hr _)

/-- What the engine refuses to remove is still loaded afterwards. -/
theorem releases_of_clears (h : s.Clears names order) : s.Releases := by
  obtain ⟨s', bound, hreturns, hbare⟩ := h
  cases hr : s.engine.removable with
  | true => exact .inl hr
  | false =>
    refine .inr fun f => ?_
    have hclear := hreturns bound (Nat.le_refl _)
    rw [clear] at hclear
    cases hs : s.clearStates names order bound bound with
    | unfinished => simp [hs] at hclear
    | threw => simp [hs] at hclear
    | returned s₁ =>
      rw [hs] at hclear
      obtain ⟨hmarks, hrem⟩ := clearStates_refused hs hr
      rw [← hmarks, ← clearPrograms_refused hclear hrem]
      exact hbare.marks f

theorem rootsFirst_of_clears
    (h : Indexes (key names) s.states (roots.flatMap fun t => t.entries false))
    (hrange : s.Ranges order) (hclears : s.Clears names order) : s.RootsFirst names order := by
  intro n t hn e he
  obtain ⟨rfl, ht⟩ := root_mem h hn
  by_contra hlt
  have hbelow := below_registered h ht he
  -- a machine and its root have different names
  have hne : key names e ≠ names.machine t.sc := by
    intro heq
    rw [heq, hn] at hbelow
    have hparent := StateMachine.entriesAll_parent _ e he
    rw [← Option.some.inj hbelow] at hparent
    cases hparent
  have hmem : key names e ∈ order := hrange _ (.inl (by rw [hbelow]; exact Option.some_ne_none e))
  have hlt' : order.idxOf (key names e) < order.idxOf (names.machine t.sc) :=
    Nat.lt_of_le_of_ne (Nat.le_of_not_lt hlt) fun heq => hne ((List.idxOf_inj hmem).mp heq)
  obtain ⟨s', bound, hreturns, -⟩ := hclears
  have hclear := hreturns (max bound (roots.flatMap fun t => t.entries false).length)
    (Nat.le_max_left _ _)
  rw [clear] at hclear
  cases hs : s.clearStates names order (max bound (roots.flatMap fun t => t.entries false).length)
      (max bound (roots.flatMap fun t => t.entries false).length) with
  | unfinished =>
    rw [hs] at hclear
    cases hclear
  | threw =>
    rw [hs] at hclear
    cases hclear
  | returned s₁ => exact clearStates_stuck h ht he hlt' hrange (Nat.le_max_right _ _) hs

omit [DecidableEq P] [DecidableEq S] [DecidableEq N] in
theorem create_kept (names : Names P S N) (around : Surroundings) :
    Kept names (create around : ScriptingService P S N capacity)
      (([] : List (StateMachine S)).flatMap fun t => t.entries false) [] [] :=
  ⟨indexes_nil, indexes_nil, ⟨.refl _, List.nodup_nil, fun f => by
    simp [create, ExecutionEngine.create]⟩, fun _ hf => absurd hf List.not_mem_nil⟩

/-- A run of operations that fit ends, with trees and programs registered. -/
theorem run_kept {fuel : ℕ} (as : List (Action P S N))
    (h : Kept names s (roots.flatMap fun t => t.entries false) progs fs)
    (hfuel : (roots.flatMap fun t => t.entries false).length + (as.map weight).sum ≤ fuel)
    (hfits : s.Along names fuel (Fits names) as) :
    ∃ s', ∃ roots' : List (StateMachine S), ∃ progs' fs', s.run names fuel as = some s' ∧
      Kept names s' (roots'.flatMap fun t => t.entries false) progs' fs' := by
  induction as generalizing s roots progs fs with
  | nil => exact ⟨s, roots, progs, fs, rfl, h⟩
  | cons a as ih =>
    rw [List.map_cons, List.sum_cons] at hfuel
    have hnow : (roots.flatMap fun t => t.entries false).length ≤ fuel := by omega
    obtain ⟨s₁, result, roots₁, progs₁, fs₁, hp, h₁, hlen⟩ := perform_kept h hnow a hfits.1
    obtain ⟨s', roots', progs', fs', hrun, h'⟩ := ih h₁ (by omega) (hfits.2 s₁ result hp)
    refine ⟨s', roots', progs', fs', ?_, h'⟩
    rw [run, hp]
    exact hrun

/-- After a run of operations that fit, `clear` returns and leaves nothing registered or loaded
exactly when in the order of the map each root comes before all that is below it, and the engine
removes what is loaded. -/
theorem clears_iff (names : Names P S N) (around : Surroundings) (as : List (Action P S N))
    (fuel : ℕ) (hfuel : (as.map weight).sum ≤ fuel)
    (hfits : (create around : ScriptingService P S N capacity).Along names fuel (Fits names) as) :
    ∃ s : ScriptingService P S N capacity, (create around).run names fuel as = some s ∧
      ∀ order : List N, s.Ranges order →
        (s.Clears names order ↔ s.RootsFirst names order ∧ s.Releases) := by
  obtain ⟨s, roots, progs, fs, hrun, h⟩ :=
    run_kept as (create_kept names around) (by simpa using hfuel) hfits
  exact ⟨s, hrun, fun order hrange =>
    ⟨fun hclears => ⟨rootsFirst_of_clears h.states hrange hclears, releases_of_clears hclears⟩,
      fun hboth => clears_of_rootsFirst h hrange hboth.1 hboth.2⟩⟩

/-- A root and its child. -/
def tree : StateMachine ℕ := .node 0 [.node 1 []]

/-- The child has the name of its root and a dot in front of its own. -/
theorem clears_tree : ∃ s : ScriptingService Unit ℕ String 8,
    (create ⟨true, true, false, true⟩).run sameNames 2 [.loadStateMachine tree false] = some s ∧
    s.Clears sameNames ["a", "a.b"] := by
  have hfits : (create ⟨true, true, false, true⟩ : ScriptingService Unit ℕ String 8).Along
      sameNames 2 (Fits sameNames) [.loadStateMachine tree false] := by
    refine ⟨fun _ _ => ⟨?_, fun _ _ => by decide⟩, fun _ _ _ => trivial⟩
    rintro (⟨e, -, hin⟩ | hdouble)
    · exact hin rfl
    · exact hdouble (by decide)
  obtain ⟨s, hrun, hiff⟩ := clears_iff sameNames ⟨true, true, false, true⟩
    [.loadStateMachine tree false] 2 (by decide) hfits
  refine ⟨s, hrun, ?_⟩
  obtain rfl := Option.some.inj hrun
  refine (hiff _ fun n hn => ?_).mpr ⟨fun n t hn e he => ?_, .inl rfl⟩
  · rcases hn with hn | hn
    · simp only [loadStateMachine, recursiveCheckLoadStateMachine, tree, recursiveLoadStateMachine,
        recursiveLoadAll, loadEntry, create, sameNames, StateMachine.sc] at hn
      by_contra hout
      simp only [List.mem_cons, List.not_mem_nil, or_false, not_or] at hout
      exact hn (by simp [hout.1, hout.2])
    · exact absurd rfl hn
  · simp only [loadStateMachine, recursiveCheckLoadStateMachine, tree, recursiveLoadStateMachine,
      recursiveLoadAll, loadEntry, create, sameNames, StateMachine.sc] at hn
    by_cases hchild : n = "a.b"
    · subst hchild
      simp at hn
    · by_cases hroot : n = "a"
      · subst hroot
        obtain rfl : StateMachine.node 0 [.node 1 []] = t := by simpa using hn
        obtain rfl : e = ⟨.node 1 [], true⟩ := by
          simpa [StateMachine.children, StateMachine.entriesAll, StateMachine.entries] using he
        decide
      · simp [hchild, hroot] at hn

def otherNames : Names Unit ℕ String where
  program := fun _ => "p"
  machine := fun sc => if sc = 0 then "m" else "a"

/-- The child `a` comes before its root `m`, and what its unloading throws is not caught. -/
theorem child_in_front : ∃ s : ScriptingService Unit ℕ String 8,
    (create ⟨true, true, false, true⟩).run otherNames 2 [.loadStateMachine tree false] = some s ∧
    (∀ fuel, 0 < fuel →
      ∃ s', s.clear otherNames ["a", "m"] fuel = .threw .program_unload_exception s') ∧
    ¬ s.Clears otherNames ["a", "m"] := by
  refine ⟨_, rfl, ?_⟩
  have hthrows : ∀ fuel, 0 < fuel → ∃ s', clear otherNames ["a", "m"] fuel
      ((create ⟨true, true, false, true⟩ : ScriptingService Unit ℕ String 8).loadStateMachine
        otherNames tree false).1 = .threw .program_unload_exception s' := by
    intro fuel hfuel
    obtain ⟨fuel, rfl⟩ := Nat.exists_eq_add_of_lt hfuel
    exact ⟨_, rfl⟩
  refine ⟨hthrows, fun h => ?_⟩
  obtain ⟨s', bound, hreturns, -⟩ := h
  obtain ⟨s'', hthrew⟩ := hthrows (bound + 1) (Nat.succ_pos bound)
  have hreturned := hreturns (bound + 1) (Nat.le_succ bound)
  have heq := hthrew.symm.trans hreturned
  cases heq

end ScriptingService
end OrocosRtt.Scripting
