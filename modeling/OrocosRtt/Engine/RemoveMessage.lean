import OrocosRtt.Engine.RemoveFunction
import Mathlib.Data.List.Nodup

/-! The message of a call of `removeFunction` over all runs of callers, engine and user code: what
the caller waits for is about the function as well as about the message. -/
namespace OrocosRtt.Engine.Removal
open Library.Queue

variable {F : Type} {capacity : ℕ}

def Message.call : Message → Option ℕ
  | .remove id => some id
  | .other => none

/-- The call whose message is being executed. -/
def Frame.call : Frame F → Option ℕ
  | .removeSelf id _ => some id
  | .setFound id => some id
  | _ => none

/-- The calls whose messages are in the queue or being executed. -/
def State.messages (s : State F capacity) : List ℕ :=
  s.mqueue.items.filterMap Message.call ++ s.frames.filterMap Frame.call

section
variable [DecidableEq F]

/-- A caller that tests what it waits for finds the function loaded or the message executed. -/
def Heard (s : State F capacity) : Act F → Prop
  | .call id => ∀ c, s.calls id = some c → c.place = .wait → s.goesOn id c = true →
      s.isLoaded c.f = true ∨ c.found = true
  | _ => True

instance decidableHeard (s : State F capacity) : ∀ a, Decidable (Heard s a)
  | .call id =>
    match hc : s.calls id with
    | none => .isTrue fun c hc' => by rw [hc] at hc'; cases hc'
    | some c =>
      decidable_of_iff
        (c.place = .wait → s.goesOn id c = true → s.isLoaded c.f = true ∨ c.found = true)
        ⟨fun h c' hc' => by
          rw [hc] at hc'
          cases hc'
          exact h,
        fun h => h c hc⟩
  | .remove .. | .step | .engine _ | .processMessages | .processFunctions | .post | .run _
  | .unload _ | .surround .. => .isTrue trivial

end

/-! ### The invariant -/

/-- The call has not posted its message yet. -/
def Place.unsent : Place → Bool
  | .testLoaded | .testActive | .post => true
  | _ => false

structure Inv (s : State F capacity) : Prop where
  nodup : s.messages.Nodup
  waiting : ∀ id ∈ s.messages, ∃ c, s.calls id = some c ∧ c.place = .wait ∧ c.found = false
  unsent : ∀ id c, s.calls id = some c → c.place.unsent = true → c.found = false
  sent : ∀ id c, s.calls id = some c → c.place = .wait → c.found = false → id ∈ s.messages

theorem create_inv : Inv (create : State F capacity) where
  nodup := List.nodup_nil
  waiting _ h := by cases h
  unsent _ _ h := by cases h
  sent _ _ h := by cases h

theorem Inv.not_mem {s : State F capacity} (h : Inv s) {id : ℕ} {c : Call F}
    (hc : s.calls id = some c) (hp : c.place ≠ .wait ∨ c.found = true) : id ∉ s.messages := by
  intro hmem
  obtain ⟨c', hc', hplace, hfound⟩ := h.waiting id hmem
  rw [hc] at hc'
  cases hc'
  rcases hp with hp | hp
  · exact hp hplace
  · exact Bool.noConfusion (hfound.symm.trans hp)

/-- Only a call moves that has no message on its way. -/
theorem Inv.elsewhere {s s' : State F capacity} (h : Inv s) {id : ℕ} (hid : id ∉ s.messages)
    (hm : s'.messages = s.messages) (hother : ∀ i, i ≠ id → s'.calls i = s.calls i)
    (hself : ∀ c, s'.calls id = some c →
      c.place ≠ .wait ∧ (c.place.unsent = true → c.found = false)) : Inv s' where
  nodup := by
    rw [hm]
    exact h.nodup
  waiting i hi := by
    rw [hm] at hi
    rw [hother i fun heq => hid (heq ▸ hi)]
    exact h.waiting i hi
  unsent i c hc hu := by
    by_cases hi : i = id
    · rw [hi] at hc
      exact (hself c hc).2 hu
    · rw [hother i hi] at hc
      exact h.unsent i c hc hu
  sent i c hc hp hf := by
    by_cases hi : i = id
    · rw [hi] at hc
      exact absurd hp (hself c hc).1
    · rw [hother i hi] at hc
      rw [hm]
      exact h.sent i c hc hp hf

theorem Inv.same {s s' : State F capacity} (h : Inv s) (hm : s'.messages.Perm s.messages)
    (hc : s'.calls = s.calls) : Inv s' where
  nodup := hm.nodup_iff.mpr h.nodup
  waiting i hi := by
    rw [hc]
    exact h.waiting i (hm.mem_iff.mp hi)
  unsent i c hi := by
    rw [hc] at hi
    exact h.unsent i c hi
  sent i c hi hp hf := by
    rw [hc] at hi
    exact hm.mem_iff.mpr (h.sent i c hi hp hf)

theorem Inv.goto {s : State F capacity} (h : Inv s) {id : ℕ} {c : Call F} {p : Place}
    (hid : id ∉ s.messages) {q : BoundedQueue F capacity} {l : F → Bool} (hw : p ≠ .wait)
    (hp : p.unsent = true → c.found = false) :
    Inv ({ s with fqueue := q, isLoaded := l }.goto id c p) := by
  refine h.elsewhere hid rfl (fun i hi => State.goto_other _ c p hi) fun c' hc' => ?_
  rw [State.goto_self] at hc'
  cases hc'
  exact ⟨hw, hp⟩

theorem process_refused {s : State F capacity} {m : Message}
    (h : (s.accepts && !s.mqueue.isFull) = false) : s.process m = s := by
  unfold State.process
  split
  · rename_i ha
    rw [ha, Bool.true_and] at h
    rw [s.mqueue.push_full (by simpa using h)]
  · rfl

theorem process_accepted {s : State F capacity} {m : Message}
    (h : (s.accepts && !s.mqueue.isFull) = true) :
    (s.process m).mqueue.items = s.mqueue.items ++ [m] := by
  rw [Bool.and_eq_true] at h
  have hroom : s.mqueue.isFull = false := by simpa using h.2
  unfold State.process
  rw [if_pos h.1]
  exact BoundedQueue.push_items hroom m

theorem process_rest (s : State F capacity) (m : Message) :
    (s.process m).calls = s.calls ∧ (s.process m).frames = s.frames := by
  unfold State.process
  split <;> exact ⟨rfl, rfl⟩

theorem process_other (s : State F capacity) : (s.process .other).messages = s.messages := by
  cases ha : s.accepts && !s.mqueue.isFull with
  | false => rw [process_refused ha]
  | true =>
    rw [State.messages, process_accepted ha, (process_rest s .other).2, List.filterMap_append]
    simp [State.messages, Message.call]

section
variable [DecidableEq F] {s : State F capacity}

theorem Inv.post (h : Inv s) {id : ℕ} {c : Call F} (hc : s.calls id = some c)
    (hp : c.place = .post) : Inv (callMove s id c) := by
  have hid := h.not_mem hc (.inl (by rw [hp]; nofun))
  have hfound := h.unsent id c hc (by rw [hp]; rfl)
  unfold callMove
  rw [hp]
  dsimp only
  obtain ⟨hcalls, hframes⟩ := process_rest s (.remove id)
  cases ha : s.accepts && !s.mqueue.isFull with
  | false =>
    rw [process_refused ha]
    exact h.goto hid nofun nofun
  | true =>
    have hm : ((s.process (.remove id)).goto id c .wait).messages =
        s.mqueue.items.filterMap Message.call ++ id :: s.frames.filterMap Frame.call := by
      show (s.process (.remove id)).mqueue.items.filterMap Message.call ++
        (s.process (.remove id)).frames.filterMap Frame.call = _
      rw [process_accepted ha, hframes, List.filterMap_append, List.append_assoc]
      rfl
    have hother : ∀ i, i ≠ id →
        ((s.process (.remove id)).goto id c .wait).calls i = s.calls i := by
      intro i hi
      rw [State.goto_other _ c _ hi, hcalls]
    refine ⟨?_, fun i hi => ?_, fun i c' hc' hu => ?_, fun i c' hc' hp' hf' => ?_⟩
    · rw [if_pos rfl, hm, List.nodup_middle, List.nodup_cons]
      exact ⟨hid, h.nodup⟩
    · rw [if_pos rfl] at hi ⊢
      rw [hm, List.mem_append, List.mem_cons] at hi
      by_cases hne : i = id
      · rw [hne]
        exact ⟨_, State.goto_self _ id c _, rfl, hfound⟩
      · rw [hother i hne]
        have hmem : i ∈ s.messages := by
          rw [State.messages, List.mem_append]
          tauto
        exact h.waiting i hmem
    · rw [if_pos rfl] at hc'
      by_cases hne : i = id
      · rw [hne, State.goto_self] at hc'
        cases hc'
        cases hu
      · rw [hother i hne] at hc'
        exact h.unsent i c' hc' hu
    · rw [if_pos rfl] at hc' ⊢
      rw [hm, List.mem_append, List.mem_cons]
      by_cases hne : i = id
      · exact .inr (.inl hne)
      · rw [hother i hne] at hc'
        have hmem := h.sent i c' hc' hp' hf'
        rw [State.messages, List.mem_append] at hmem
        tauto

theorem callMove_inv (h : Inv s) {id : ℕ} {c : Call F} (hc : s.calls id = some c)
    (hg : s.goesOn id c = true)
    (ha : c.place = .wait → s.isLoaded c.f = true ∨ c.found = true) : Inv (callMove s id c) := by
  have hout : c.place ≠ .wait → id ∉ s.messages := fun hp => h.not_mem hc (.inl hp)
  cases hp : c.place with
  | post => exact h.post hc hp
  | testLoaded =>
    have hfound := h.unsent id c hc (by rw [hp]; rfl)
    simp only [callMove, hp]
    exact h.goto (hout (by rw [hp]; nofun)) (by split <;> nofun) fun _ => hfound
  | testActive =>
    have hfound := h.unsent id c hc (by rw [hp]; rfl)
    simp only [callMove, hp]
    exact h.goto (hout (by rw [hp]; nofun)) (by split <;> nofun) fun _ => hfound
  | removeSelf nbr =>
    have hid := hout (by rw [hp]; nofun)
    simp only [callMove, hp]
    rcases removeSelf c.f nbr s.fqueue with ⟨result | nbr, q⟩
    · cases result
      · exact h.goto hid nofun nofun
      · exact h.goto hid nofun nofun
    · exact h.goto hid nofun nofun
  | wait =>
    simp only [callMove, hp]
    split
    · rename_i hpred
      -- the caller goes on because of the message and not because of the function
      have hfound : c.found = true := by
        rcases ha hp with hl | hf
        · simpa [State.pred, hl] using hpred
        · exact hf
      exact h.goto (h.not_mem hc (.inr hfound)) nofun nofun
    · split
      · exact h.same (List.Perm.refl _) rfl
      · exact h
  | testFound =>
    have hid := hout (by rw [hp]; nofun)
    simp only [callMove, hp]
    split
    · exact h.goto hid nofun nofun
    · exact h.goto hid nofun nofun
  | unload =>
    simp only [callMove, hp]
    exact h.goto (hout (by rw [hp]; nofun)) nofun nofun
  | done r =>
    simp only [callMove, hp]
    split
    · rename_i hself
      have hhead : s.frames.head? = some (.removeFunction id) := by
        simpa [State.goesOn, hself] using hg
      obtain ⟨fs, hfs⟩ := List.head?_eq_some_iff.mp hhead
      have hm : s.messages = ({ s with frames := s.frames.tail } : State F capacity).messages := by
        rw [State.messages, State.messages, hfs]
        rfl
      exact h.same (by rw [← hm]) rfl
    · exact h

theorem runFunction_rest (s : State F capacity) (f : F) :
    (runFunction s f).messages = s.messages ∧ (runFunction s f).calls = s.calls := by
  unfold runFunction
  split <;> exact ⟨rfl, rfl⟩

theorem engineMove_inv (h : Inv s) (o : Bool) : Inv (engineMove s o) := by
  unfold engineMove
  cases hfs : s.frames with
  | nil => exact h
  | cons frame fs =>
    have hm : s.messages =
        s.mqueue.items.filterMap Message.call ++ (frame :: fs).filterMap Frame.call := by
      rw [State.messages, hfs]
    cases frame with
    | processMessages =>
      dsimp only
      cases hq : s.mqueue.items with
      | nil =>
        rw [BoundedQueue.pop_nil hq]
        refine h.same ?_ rfl
        rw [hm]
        exact List.Perm.refl _
      | cons m ms =>
        obtain ⟨q, hpop, hitems⟩ := BoundedQueue.pop_cons hq
        rw [hpop]
        cases m with
        | remove id =>
          refine h.same ?_ rfl
          rw [hm, hq]
          show (q.items.filterMap Message.call ++ id :: fs.filterMap Frame.call).Perm
            (id :: (ms.filterMap Message.call ++ fs.filterMap Frame.call))
          rw [hitems]
          exact List.perm_middle
        | other =>
          refine h.same ?_ rfl
          rw [hm, hq]
          show (q.items.filterMap Message.call ++ fs.filterMap Frame.call).Perm
            (ms.filterMap Message.call ++ fs.filterMap Frame.call)
          rw [hitems]
    | processFunctions => exact h.same (by rw [hm]; exact List.Perm.refl _) rfl
    | functions nbr executing =>
      cases executing with
      | none =>
        dsimp only
        cases s.fqueue.pop with
        | none => exact h.same (by rw [hm]; exact List.Perm.refl _) rfl
        | some p => exact h.same (by rw [hm]; exact List.Perm.refl _) rfl
      | some foo =>
        dsimp only
        split <;> split <;> exact h.same (by rw [hm]; exact List.Perm.refl _) rfl
    | user => exact h.same (by rw [hm]; exact List.Perm.refl _) rfl
    | removeSelf id nbr =>
      dsimp only
      cases s.calls id with
      | none => exact h
      | some c =>
        dsimp only
        rcases removeSelf c.f nbr s.fqueue with ⟨result | nbr', q⟩
        · exact h.same (by rw [hm]; exact List.Perm.refl _) rfl
        · exact h.same (by rw [hm]; exact List.Perm.refl _) rfl
    | setFound id =>
      dsimp only
      have hm' : s.messages =
          s.mqueue.items.filterMap Message.call ++ id :: fs.filterMap Frame.call := hm
      have hid : id ∈ s.messages := by
        rw [hm']
        exact List.mem_append_right _ List.mem_cons_self
      obtain ⟨c, hc, hplace, -⟩ := h.waiting id hid
      have hnodup := h.nodup
      rw [hm', List.nodup_middle, List.nodup_cons] at hnodup
      rw [hc]
      exact
        { nodup := hnodup.2
          waiting := by
            intro i hi
            have hne : i ≠ id := fun heq => hnodup.1 (heq ▸ hi)
            have hmem : i ∈ s.messages := by
              rw [hm', List.mem_append, List.mem_cons]
              rcases List.mem_append.mp hi with hi | hi
              · exact .inl hi
              · exact .inr (.inr hi)
            dsimp only
            rw [Function.update_of_ne hne]
            exact h.waiting i hmem
          unsent := by
            intro i c' hc' hu
            dsimp only at hc'
            by_cases hi : i = id
            · rw [hi, Function.update_self] at hc'
              cases hc'
              dsimp only at hu
              rw [hplace] at hu
              cases hu
            · rw [Function.update_of_ne hi] at hc'
              exact h.unsent i c' hc' hu
          sent := by
            intro i c' hc' hp' hf'
            dsimp only at hc'
            by_cases hi : i = id
            · rw [hi, Function.update_self] at hc'
              cases hc'
              cases hf'
            · rw [Function.update_of_ne hi] at hc'
              have hmem := h.sent i c' hc' hp' hf'
              rw [hm', List.mem_append, List.mem_cons] at hmem
              rcases hmem with hmem | hmem | hmem
              · exact List.mem_append_left _ hmem
              · exact absurd hmem hi
              · exact List.mem_append_right _ hmem }
    | removeFunction id => exact h

theorem step_inv {a : Act F} (h : Inv s) (ha : Heard s a) : Inv (step s a) := by
  cases a with
  | remove id f isSelf =>
    dsimp only [step]
    split
    · rename_i hnew
      have hnone : s.calls id = none := by simp_all
      have hid : id ∉ s.messages := by
        intro hmem
        obtain ⟨c, hc, -⟩ := h.waiting id hmem
        rw [hnone] at hc
        cases hc
      refine h.elsewhere hid ?_ (fun i hi => Function.update_of_ne hi ..) ?_
      · cases isSelf <;> rfl
      · intro c hc
        dsimp only at hc
        rw [Function.update_self] at hc
        cases hc
        exact ⟨nofun, fun _ => rfl⟩
    · exact h
  | call id =>
    dsimp only [step]
    cases hc : s.calls id with
    | none => exact h
    | some c =>
      dsimp only
      split
      · rename_i hg
        exact callMove_inv h hc hg fun hp => ha c hc hp hg
      · exact h
  | step =>
    dsimp only [step]
    split
    · rename_i hidle
      have hfs : s.frames = [] := by simp_all
      exact h.same (by rw [State.messages, State.messages, hfs]; exact List.Perm.refl _) rfl
    · exact h
  | engine o => exact engineMove_inv h o
  | processMessages =>
    dsimp only [step]
    split
    · exact h.same (List.Perm.refl _) rfl
    · exact h
  | processFunctions =>
    dsimp only [step]
    split
    · exact h.same (List.Perm.refl _) rfl
    · exact h
  | post => exact h.same (by rw [step, process_other]) (process_rest s .other).1
  | run f => exact h.same (by rw [step, (runFunction_rest s f).1]) (runFunction_rest s f).2
  | unload f => exact h.same (List.Perm.refl _) rfl
  | surround a b c => exact h.same (List.Perm.refl _) rfl

/-! ### Whole runs -/

def Place.returned : Place → Bool
  | .done _ => true
  | _ => false

theorem callMove_other (s : State F capacity) {id i : ℕ} (c : Call F) (hi : i ≠ id) :
    (callMove s id c).calls i = s.calls i := by
  cases hp : c.place with
  | removeSelf nbr =>
    simp only [callMove, hp]
    rcases removeSelf c.f nbr s.fqueue with ⟨result | nbr', q⟩
    · exact State.goto_other _ c _ hi
    · exact State.goto_other _ c _ hi
  | post =>
    simp only [callMove, hp]
    rw [State.goto_other _ c _ hi, (process_rest s (.remove id)).1]
  | wait =>
    simp only [callMove, hp]
    split
    · exact State.goto_other _ c _ hi
    · split <;> rfl
  | done r =>
    simp only [callMove, hp]
    split <;> rfl
  | testLoaded | testActive | testFound | unload =>
    simp only [callMove, hp]
    exact State.goto_other _ c _ hi

/-- The engine moves no call from its place. -/
theorem engineMove_place {id : ℕ} {c : Call F} (hc : s.calls id = some c) (o : Bool) :
    ∃ c', (engineMove s o).calls id = some c' ∧ c'.place = c.place := by
  have hsame : ∀ s' : State F capacity, s'.calls = s.calls →
      ∃ c', s'.calls id = some c' ∧ c'.place = c.place := by
    intro s' hs'
    exact ⟨c, by rw [hs', hc], rfl⟩
  unfold engineMove
  split
  · exact hsame _ rfl
  · split <;> exact hsame _ rfl
  · exact hsame _ rfl
  · split <;> exact hsame _ rfl
  · dsimp only
    split <;> exact hsame _ rfl
  · exact hsame _ rfl
  · split
    · exact hsame _ rfl
    · split <;> exact hsame _ rfl
  · rename_i j fs _
    cases hj : s.calls j with
    | none => exact hsame _ rfl
    | some cj =>
      dsimp only
      by_cases hij : id = j
      · subst hij
        rw [hc] at hj
        cases hj
        exact ⟨_, Function.update_self .., rfl⟩
      · exact ⟨c, (Function.update_of_ne hij ..).trans hc, rfl⟩
  · exact hsame _ rfl

/-- A call that has returned stays so. -/
theorem step_returned {id : ℕ} {c : Call F} (hc : s.calls id = some c)
    (hr : c.place.returned = true) (a : Act F) :
    ∃ c', (step s a).calls id = some c' ∧ c'.place.returned = true := by
  have hsame : ∀ s' : State F capacity, s'.calls = s.calls →
      ∃ c', s'.calls id = some c' ∧ c'.place.returned = true := by
    intro s' hs'
    exact ⟨c, by rw [hs', hc], hr⟩
  cases a with
  | remove j f isSelf =>
    dsimp only [step]
    split
    · rename_i hnew
      have hne : id ≠ j := by
        rintro rfl
        simp [hc] at hnew
      exact ⟨c, (Function.update_of_ne hne ..).trans hc, hr⟩
    · exact hsame _ rfl
  | call j =>
    dsimp only [step]
    split
    · exact hsame _ rfl
    · rename_i cj hcj
      split
      · by_cases hij : id = j
        · subst hij
          rw [hc] at hcj
          cases hcj
          cases hp : c.place with
          | done r =>
            simp only [callMove, hp]
            split <;> exact hsame _ rfl
          | _ => simp [hp, Place.returned] at hr
        · exact ⟨c, (callMove_other s cj hij).trans hc, hr⟩
      · exact hsame _ rfl
  | engine o =>
    obtain ⟨c', hc', hp⟩ := engineMove_place hc o
    exact ⟨c', hc', by rw [hp]; exact hr⟩
  | step | processMessages | processFunctions =>
    dsimp only [step]
    split <;> exact hsame _ rfl
  | post => exact hsame _ (process_rest s .other).1
  | run f => exact hsame _ (runFunction_rest s f).2
  | unload f | surround a b e => exact hsame _ rfl

theorem run_returned {id : ℕ} {c : Call F} (hc : s.calls id = some c)
    (hr : c.place.returned = true) (acts : List (Act F)) :
    ∃ c', (Library.Run.run step s acts).calls id = some c' ∧ c'.place.returned = true := by
  induction acts generalizing s c with
  | nil => exact ⟨c, hc, hr⟩
  | cons a acts ih =>
    obtain ⟨c', hc', hr'⟩ := step_returned hc hr a
    exact ih hc' hr'

/-- The message of the call `id` is not in the queue, and the engine does not execute it. -/
def State.forgets (s : State F capacity) (id : ℕ) : Prop :=
  .remove id ∉ s.mqueue.items ∧ ∀ frame ∈ s.frames, frame.call ≠ some id

omit [DecidableEq F] in
theorem forgets_iff {id : ℕ} : s.forgets id ↔ id ∉ s.messages := by
  have hqueue : id ∈ s.mqueue.items.filterMap Message.call ↔ .remove id ∈ s.mqueue.items := by
    rw [List.mem_filterMap]
    constructor
    · rintro ⟨m, hm, hid⟩
      cases m with
      | remove j => cases hid; exact hm
      | other => cases hid
    · exact fun hm => ⟨_, hm, rfl⟩
  rw [State.messages, List.mem_append, not_or, hqueue, List.mem_filterMap]
  exact and_congr_right fun _ => ⟨fun h ⟨frame, hf, hid⟩ => h frame hf hid,
    fun h frame hf hid => h ⟨frame, hf, hid⟩⟩

/-- As long as no caller finds its function unloaded before its message was executed, a call that
has returned leaves no message behind, nor will there be one. -/
theorem message_forgotten (acts more : List (Act F))
    (h : Library.Run.Along step Heard (create : State F capacity) (acts ++ more)) (id : ℕ)
    (c : Call F) (hc : (after acts : State F capacity).calls id = some c)
    (hr : c.place.returned = true) :
    (after (acts ++ more) : State F capacity).forgets id := by
  have hinv : Inv (after (acts ++ more) : State F capacity) :=
    Library.Run.run_invariant (fun _ _ => step_inv) create_inv h
  obtain ⟨c', hc', hr'⟩ := run_returned hc hr more
  rw [← Library.Run.run_append] at hc'
  rw [forgets_iff]
  refine hinv.not_mem hc' (.inl fun hp => ?_)
  rw [hp] at hr'
  cases hr'

/-- A caller that finds its function unloaded before its message was executed goes, and leaves
the message behind. -/
theorem message_left (h : Inv s) {id : ℕ} (ha : ¬ Heard s (.call id)) :
    ∃ c, (Library.Run.run step s [.call id, .call id]).calls id = some c ∧
      c.place = .done false ∧ ¬ (Library.Run.run step s [.call id, .call id]).forgets id := by
  simp only [Heard, not_forall, not_or, Bool.not_eq_true] at ha
  obtain ⟨c, hc, hp, hg, hloaded, hfound⟩ := ha
  have hmem := h.sent id c hc hp hfound
  have hfirst : step s (.call id) = s.goto id c .testFound := by
    simp [step, hc, hg, callMove, hp, State.pred, hloaded]
  have hg' : (s.goto id c .testFound).goesOn id { c with place := .testFound } = true := hg
  have hsecond : step (s.goto id c .testFound) (.call id) =
      (s.goto id c .testFound).goto id { c with place := .testFound } (.done false) := by
    rw [step, State.goto_self]
    dsimp only
    rw [if_pos hg']
    simp [callMove, hfound]
  rw [Library.Run.run_cons, Library.Run.run_cons, Library.Run.run_nil, hfirst, hsecond]
  exact ⟨_, State.goto_self _ id _ _, rfl, fun hf => forgets_iff.mp hf hmem⟩

end

/-- A function ends after the message for its removal was posted and before it is executed. -/
def ends : List (Act Unit) :=
  [.surround true true false, .run (), .step, .engine false, .engine false, .engine false] ++
    .remove 0 () false :: List.replicate 3 (.call 0) ++ [.engine false]

theorem message_forgotten_executed :
    let acts : List (Act Unit) :=
      [.surround true true false, .run (), .step, .remove 0 () false] ++
        List.replicate 3 (.call 0) ++ List.replicate 4 (.engine true) ++ List.replicate 3 (.call 0)
    (after (acts ++ List.replicate 4 (.engine true)) : State Unit 2).forgets 0 :=
  message_forgotten _ _ (by decide) 0 _ rfl rfl

theorem function_ends_first :
    ¬ ∀ c, (after (ends ++ List.replicate 2 (.call 0)) : State Unit 2).calls 0 = some c →
      c.place.returned = true →
        (after (ends ++ List.replicate 2 (.call 0)) : State Unit 2).forgets 0 :=
  fun h => (h _ rfl rfl).1 (by decide)

end OrocosRtt.Engine.Removal
