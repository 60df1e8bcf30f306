import OrocosRtt.Scripting.Registry

/-! What is registered is loaded in the engine, and what is loaded is registered, as long as no
name of a tree is in use and the engine refuses nothing that is asked of it. -/
namespace OrocosRtt.Scripting
open Engine Library.Queue Library.Index

/-! ### The functions in the engine -/

section Engine

variable {F : Type} [DecidableEq F] {capacity : ℕ} {e : ExecutionEngine F capacity}
  {f : F} {fs gs : List F}

/-- The engine has these functions, each of them once. -/
structure Holds (e : ExecutionEngine F capacity) (fs : List F) : Prop where
  queued : e.queue.items.Perm fs
  nodup : fs.Nodup
  marked : ∀ f, e.isLoaded f = true ↔ f ∈ fs

omit [DecidableEq F] in
theorem Holds.perm (h : Holds e fs) (hp : fs.Perm gs) : Holds e gs :=
  ⟨h.queued.trans hp, hp.nodup_iff.mp h.nodup, fun f => by rw [h.marked, hp.mem_iff]⟩

theorem Holds.run (h : Holds e fs) (hf : f ∉ fs) (hact : e.around.hasActivity = true)
    (hfatal : e.around.fatalError = false) (hroom : e.queue.isFull = false) :
    Holds (e.runFunction f) (fs ++ [f]) := by
  have hrun : e.runFunction f =
      ((e.setLoaded f true).setQueue (e.queue.push f)).note (.ran f (!e.queue.isFull)) := by
    simp [ExecutionEngine.runFunction, hact, hfatal]
  rw [hrun]
  refine ⟨?_, ?_, fun g => ?_⟩
  · show (e.queue.push f).items.Perm (fs ++ [f])
    rw [BoundedQueue.push_items hroom]
    exact h.queued.append_right _
  · exact List.Nodup.append h.nodup (List.nodup_singleton f) (by simpa using hf)
  · show Function.update e.isLoaded f true g = true ↔ g ∈ fs ++ [f]
    by_cases hg : g = f
    · simp [hg]
    · simp [hg, h.marked]

theorem Holds.remove (h : Holds e (f :: fs)) (hr : e.removable = true) :
    Holds (e.removeFunction f) fs := by
  obtain ⟨hdone, hperm⟩ := e.queue.rotateOut_perm f
  have hloaded : e.isLoaded f = true := (h.marked f).mpr List.mem_cons_self
  have hremove : e.removeFunction f = ((e.setQueue (ExecutionEngine.removeSelf f e.queue).2).setLoaded
      f false).note (.removed f true) := by
    simp [ExecutionEngine.removeFunction, ExecutionEngine.removeSelf, hloaded, hr, hdone]
  rw [hremove]
  obtain ⟨hnot, hnodup⟩ := List.nodup_cons.mp h.nodup
  refine ⟨?_, hnodup, fun g => ?_⟩
  · show (e.queue.rotateOut f e.queue.items.length).2.items.Perm fs
    have herase := h.queued.erase f
    rw [List.erase_cons_head] at herase
    exact hperm.trans herase
  · show Function.update e.isLoaded f false g = true ↔ g ∈ fs
    by_cases hg : g = f
    · simp [hg, hnot]
    · simp [hg, h.marked]

theorem runFunction_around (f : F) : (e.runFunction f).around = e.around := by
  unfold ExecutionEngine.runFunction
  split
  · rfl
  · rfl

theorem removeFunction_around (f : F) : (e.removeFunction f).around = e.around := by
  unfold ExecutionEngine.removeFunction
  split
  · rfl
  · split
    · dsimp only
      split
      · rfl
      · rfl
    · rfl

theorem removeFunction_removable (f : F) : (e.removeFunction f).removable = e.removable := by
  unfold ExecutionEngine.removable
  rw [removeFunction_around]

theorem removeFunction_refused (hr : e.removable = false) (f : F) :
    (e.removeFunction f).isLoaded = e.isLoaded := by
  unfold ExecutionEngine.removeFunction
  split
  · rfl
  · rw [if_neg (by simp [hr])]
    rfl

/-- The functions are removed one after the other. -/
def removeAll (e : ExecutionEngine F capacity) (fs : List F) : ExecutionEngine F capacity :=
  fs.foldl (fun e f => e.removeFunction f) e

theorem Holds.removeAll (gs : List F) : ∀ {e : ExecutionEngine F capacity},
    Holds e (gs ++ fs) → e.removable = true → Holds (Scripting.removeAll e gs) fs := by
  induction gs with
  | nil => intro e h _; exact h
  | cons g gs ih =>
    intro e h hr
    exact ih (h.remove hr) (by rw [removeFunction_removable, hr])

theorem removeAll_refused (gs : List F) : ∀ {e : ExecutionEngine F capacity},
    e.removable = false → (removeAll e gs).isLoaded = e.isLoaded := by
  induction gs with
  | nil => intro e _; rfl
  | cons g gs ih =>
    intro e hr
    exact (ih (by rw [removeFunction_removable, hr])).trans (removeFunction_refused hr g)

end Engine

variable {P S N : Type} [DecidableEq P] [DecidableEq S] [DecidableEq N] {capacity : ℕ}

namespace ScriptingService

variable (names : Names P S N)

/-- The name under which an entry is registered. -/
def key (e : Entry S) : N := names.machine e.machine.sc

/-- The function of an entry in the engine. -/
def function (e : Entry S) : P ⊕ S := .inr e.machine.sc

/-- The entries and the programs are registered, and they are what the engine has. -/
structure Represents (s : ScriptingService P S N capacity) (entries : List (Entry S))
    (progs : List P) : Prop where
  states : Indexes (key names) s.states entries
  programs : Indexes names.program s.programs progs
  engine : Holds s.engine (entries.map function ++ progs.map .inl)

variable {names} {s : ScriptingService P S N capacity} {es es' : List (Entry S)} {progs : List P}

omit [DecidableEq P] [DecidableEq S] [DecidableEq N] in
theorem Represents.perm (h : Represents names s es progs) (hp : es.Perm es') :
    Represents names s es' progs :=
  ⟨h.states.perm hp, h.programs, h.engine.perm ((hp.map _).append_right _)⟩

omit [DecidableEq P] [DecidableEq S] [DecidableEq N] in
theorem Represents.function_mem (h : Represents names s es progs) {e : Entry S} :
    (.inr e.machine.sc : P ⊕ S) ∈ es.map function ++ progs.map .inl →
      s.states (key names e) ≠ none := by
  intro hmem hnone
  have hmem' : (.inr e.machine.sc : P ⊕ S) ∈ es.map function := by
    rcases List.mem_append.mp hmem with hm | hm
    · exact hm
    · obtain ⟨p, -, hp⟩ := List.mem_map.mp hm
      cases hp
  obtain ⟨e', he', heq⟩ := List.mem_map.mp hmem'
  refine (h.states.none_iff _).mp hnone (List.mem_map.mpr ⟨e', he', ?_⟩)
  have hsc : e'.machine.sc = e.machine.sc := Sum.inr.inj heq
  show names.machine e'.machine.sc = names.machine e.machine.sc
  rw [hsc]

/-- The engine takes so many functions more. -/
def Takes (e : ExecutionEngine (P ⊕ S) capacity) (n : ℕ) : Prop :=
  e.around.hasActivity = true ∧ e.around.fatalError = false ∧
    e.queue.items.length + n ≤ capacity

theorem Represents.loadEntry (h : Represents names s es progs) {e : Entry S} {n : ℕ}
    (hfree : s.states (key names e) = none) (ht : Takes s.engine (n + 1)) :
    Represents names (s.loadEntry names e) (es ++ [e]) progs ∧
      Takes (s.loadEntry names e).engine n := by
  obtain ⟨hact, hfatal, hroom⟩ := ht
  have hfull : s.engine.queue.isFull = false := by
    rw [BoundedQueue.not_full_iff]
    omega
  have hnot : (.inr e.machine.sc : P ⊕ S) ∉ es.map function ++ progs.map .inl :=
    fun hmem => h.function_mem hmem hfree
  have hheld := h.engine.run hnot hact hfatal hfull
  constructor
  · refine ⟨h.states.insert hfree, h.programs, hheld.perm ?_⟩
    rw [List.map_append, List.append_assoc, List.append_assoc]
    exact List.perm_append_comm.append_left _
  · have hlen := hheld.queued.length_eq
    have hlen' := h.engine.queued.length_eq
    rw [List.length_append, List.length_singleton, ← hlen'] at hlen
    refine ⟨?_, ?_, ?_⟩
    · show (s.engine.runFunction _).around.hasActivity = true
      rw [runFunction_around, hact]
    · show (s.engine.runFunction _).around.fatalError = false
      rw [runFunction_around, hfatal]
    · show (s.engine.runFunction (.inr e.machine.sc)).queue.items.length + n ≤ capacity
      omega

def loadEntries (names : Names P S N) (s : ScriptingService P S N capacity) (es : List (Entry S)) :
    ScriptingService P S N capacity :=
  es.foldl (fun s e => s.loadEntry names e) s

mutual

theorem recursiveLoadStateMachine_eq (names : Names P S N) (parent : Bool) :
    ∀ (t : StateMachine S) (s : ScriptingService P S N capacity),
      s.recursiveLoadStateMachine names parent t = s.loadEntries names (t.entries parent)
  | .node sc cs, s => by
    unfold recursiveLoadStateMachine StateMachine.entries
    exact recursiveLoadAll_eq names cs _

theorem recursiveLoadAll_eq (names : Names P S N) :
    ∀ (cs : List (StateMachine S)) (s : ScriptingService P S N capacity),
      s.recursiveLoadAll names cs = s.loadEntries names (StateMachine.entriesAll cs)
  | [], s => by
    unfold recursiveLoadAll StateMachine.entriesAll
    rfl
  | c :: cs, s => by
    unfold recursiveLoadAll StateMachine.entriesAll
    rw [recursiveLoadStateMachine_eq names true c, recursiveLoadAll_eq names cs, loadEntries,
      loadEntries, loadEntries, List.foldl_append]

end

theorem Represents.loadEntries (es' : List (Entry S)) :
    ∀ {s : ScriptingService P S N capacity} {es : List (Entry S)}, Represents names s es progs →
      ((es ++ es').map (key names)).Nodup → Takes s.engine es'.length →
        Represents names (s.loadEntries names es') (es ++ es') progs := by
  induction es' with
  | nil =>
    intro s es h _ _
    rw [List.append_nil]
    exact h
  | cons e es' ih =>
    intro s es h hnodup ht
    have hfree : s.states (key names e) = none := by
      rw [h.states.none_iff]
      intro hmem
      rw [List.map_append, List.map_cons] at hnodup
      exact List.disjoint_of_nodup_append hnodup hmem List.mem_cons_self
    obtain ⟨h', ht'⟩ := h.loadEntry hfree ht
    have hsplit : es ++ e :: es' = es ++ [e] ++ es' := by simp
    rw [hsplit] at hnodup ⊢
    exact ih h' hnodup ht'

/-! ### Unloading -/

def unloadEntries (names : Names P S N) (s : ScriptingService P S N capacity) (es : List (Entry S)) :
    Option (ScriptingService P S N capacity) :=
  es.foldlM (fun s e => s.unloadEntry names e.machine.sc) s

mutual

theorem recursiveUnloadStateMachine_eq (names : Names P S N) (parent : Bool) :
    ∀ (t : StateMachine S) (s : ScriptingService P S N capacity),
      s.recursiveUnloadStateMachine names t = s.unloadEntries names (t.leaving parent)
  | .node sc cs, s => by
    unfold recursiveUnloadStateMachine StateMachine.leaving
    rw [recursiveUnloadAll_eq names cs, unloadEntries, unloadEntries, List.foldlM_append]
    simp [StateMachine.sc]

theorem recursiveUnloadAll_eq (names : Names P S N) :
    ∀ (cs : List (StateMachine S)) (s : ScriptingService P S N capacity),
      s.recursiveUnloadAll names cs = s.unloadEntries names (StateMachine.leavingAll cs)
  | [], s => by
    unfold recursiveUnloadAll StateMachine.leavingAll
    rfl
  | c :: cs, s => by
    unfold recursiveUnloadAll StateMachine.leavingAll
    rw [recursiveUnloadStateMachine_eq names true c, unloadEntries, unloadEntries,
      List.foldlM_append]
    apply congrArg
    funext s'
    exact recursiveUnloadAll_eq names cs s'

end

/-- The entries leave the map, and the engine is asked to remove their functions. -/
theorem unloadEntries_spec (es' : List (Entry S)) :
    ∀ {s : ScriptingService P S N capacity} {es : List (Entry S)},
      Indexes (key names) s.states (es' ++ es) →
        ∃ s', s.unloadEntries names es' = some s' ∧ Indexes (key names) s'.states es ∧
          (∀ n, s'.states n = if n ∈ es'.map (key names) then none else s.states n) ∧
          s'.programs = s.programs ∧ s'.engine = removeAll s.engine (es'.map function) := by
  induction es' with
  | nil => intro s es h; exact ⟨s, rfl, h, fun n => by simp, rfl, rfl⟩
  | cons e es' ih =>
    intro s es h
    have hsome : s.states (key names e) = some e := (h.mem _ _).mpr ⟨List.mem_cons_self, rfl⟩
    have hone : s.unloadEntry names e.machine.sc = some
        { s with
          states := Function.update s.states (key names e) none
          engine := s.engine.removeFunction (.inr e.machine.sc) } := by
      unfold unloadEntry
      unfold key at hsome
      rw [hsome]
      rfl
    have herase : Indexes (key names) (Function.update s.states (key names e) none) (es' ++ es) :=
      h.erase
    obtain ⟨s', hs', hi, hstates, hprogs, heng⟩ := @ih
      { s with
        states := Function.update s.states (key names e) none
        engine := s.engine.removeFunction (.inr e.machine.sc) } es herase
    refine ⟨s', ?_, hi, fun n => ?_, hprogs, heng⟩
    · rw [unloadEntries, List.foldlM_cons, hone]
      exact hs'
    · have hmem : n ∈ (e :: es').map (key names) ↔ n = key names e ∨ n ∈ es'.map (key names) := by
        rw [List.map_cons, List.mem_cons]
      rw [hstates n]
      by_cases hn : n = key names e
      · rw [if_pos (hmem.mpr (.inl hn)), hn]
        simp
      · simp [hn]

omit [DecidableEq P] [DecidableEq S] [DecidableEq N] in
/-- The check meets each machine of the tree as it is registered. -/
theorem check_spec (h : Indexes (key names) s.states es) : ∀ (fuel : ℕ) (t : StateMachine S)
    (parent : Bool), (∀ e ∈ t.entries parent, e ∈ es) → (t.entries parent).length ≤ fuel →
      s.recursiveCheckUnloadStateMachine names fuel t = some true := by
  intro fuel
  induction fuel with
  | zero =>
    intro t parent _ hlen
    rw [StateMachine.entries_eq, List.length_cons] at hlen
    omega
  | succ fuel ih =>
    intro t parent hmem hlen
    rw [StateMachine.entries_eq, List.length_cons] at hlen
    rw [StateMachine.entries_eq] at hmem
    have hall : ∀ cs : List (StateMachine S), (∀ e ∈ StateMachine.entriesAll cs, e ∈ es) →
        (StateMachine.entriesAll cs).length ≤ fuel →
          recursiveCheckUnloadStateMachine.check names s fuel cs = some true := by
      intro cs
      induction cs with
      | nil =>
        intro _ _
        unfold recursiveCheckUnloadStateMachine.check
        rfl
      | cons c cs ihc =>
        intro hcs hl
        unfold StateMachine.entriesAll at hcs hl
        rw [List.length_append] at hl
        have hc : ∀ e ∈ c.entries true, e ∈ es :=
          fun e he => hcs e (List.mem_append_left _ he)
        have hreg : s.states (names.machine c.sc) = some ⟨c, true⟩ := by
          refine (h.mem _ _).mpr ⟨hc _ ?_, rfl⟩
          rw [StateMachine.entries_eq]
          exact List.mem_cons_self
        rw [recursiveCheckUnloadStateMachine.check, hreg]
        dsimp only
        rw [ih c true hc (by omega)]
        exact ihc (fun e he => hcs e (List.mem_append_right _ he)) (by omega)
    unfold recursiveCheckUnloadStateMachine
    exact hall t.children (fun e he => hmem e (List.mem_cons_of_mem _ he)) (by omega)

end ScriptingService
end OrocosRtt.Scripting
