import OrocosRtt.Operation.Ownership
import Mathlib.Algebra.GroupWithZero.Nat

/-! The protocol of `send` and `collect` over all runs of senders, engines and owners of handles. -/
namespace OrocosRtt.Operation

open LocalOperationCaller

variable {ρ ε : Type}

/-- An engine that disposes of an object finds that the object refers to itself: its sender, who
sets that reference after it has posted the message, has done so. -/
def SetBefore (s : State ρ ε) : Act ρ ε → Prop
  | .engine e _ _ => ∀ id fs c, s.frames e = (id, .dispose) :: fs → s.calls id = some c →
      c.self = true
  | _ => True

instance decidableSetBefore (s : State ρ ε) : ∀ a, Decidable (SetBefore s a)
  | .engine e _ _ =>
    match hf : s.frames e with
    | (id, .dispose) :: fs =>
      match hc : s.calls id with
      | some c =>
        decidable_of_iff (c.self = true)
          ⟨fun h j gs c' hf' hc' => by
            rw [hf] at hf'
            cases hf'
            rw [hc] at hc'
            cases hc'
            exact h,
          fun h => h id fs c hf hc⟩
      | none => .isTrue fun j gs c' hf' hc' => by
        rw [hf] at hf'
        cases hf'
        rw [hc] at hc'
        cases hc'
    | [] => .isTrue fun _ _ _ hf' => by rw [hf] at hf'; cases hf'
    | (_, .test) :: _ => .isTrue fun _ _ _ hf' => by rw [hf] at hf'; cases hf'
    | (_, .execute) :: _ => .isTrue fun _ _ _ hf' => by rw [hf] at hf'; cases hf'
    | (_, .handBack) :: _ => .isTrue fun _ _ _ hf' => by rw [hf] at hf'; cases hf'
  | .send .. | .sender .. | .dequeue _ | .copy _ | .drop _ => .isTrue trivial

/-- A queue, an engine, a handle or the sender can reach the object. -/
def State.reaches (s : State ρ ε) (id : ℕ) (c : LocalOperationCaller ρ ε) : Prop :=
  c.sender ≠ .done ∨ 0 < c.handles ∨
    ∃ e, id ∈ s.queues e ∨ id ∈ (s.frames e).map Prod.fst

/-- A step of the engine `e`. -/
def Act.ofEngine (e : ε) : Act ρ ε → Prop
  | .dequeue e' => e' = e
  | .engine e' _ _ => e' = e
  | _ => False

structure Protocol [DecidableEq ε] (s : State ρ ε) (id : ℕ) (c : LocalOperationCaller ρ ε) :
    Prop where
  once : c.runs.length ≤ 1
  /-- An accepted send that has not been executed waits in its engine, or is being executed. -/
  accepted : c.accepted = true → c.runs = [] →
    id ∈ s.queues c.myengine ∨ id ∈ (s.frames c.myengine).map Prod.fst
  /-- Its engine by itself comes to execute it, whatever the operation returns. -/
  executes : c.accepted = true → c.runs = [] → ∀ r, ∃ acts : List (Act ρ ε),
    (∀ a ∈ acts, a.ofEngine c.myengine) ∧
      ∃ c', (Library.Run.run step s acts).calls id = some c' ∧ c'.runs = [r]
  refused : c.accepted = false → c.runs = []
  collected : ∀ v, c.retv.collectIfDone = .success v → c.runs = [some v]
  alive : s.reaches id c → c.released = 0
  released : ¬ s.reaches id c → c.released = 1
  unused : c.misused = false

/-! ### Every step -/

@[simp] theorem touch_retv (c : LocalOperationCaller ρ ε) : c.touch.retv = c.retv := rfl

@[simp] theorem touch_token (c : LocalOperationCaller ρ ε) : c.touch.token = c.token := rfl

theorem settle_rest (c : LocalOperationCaller ρ ε) :
    c.settle.token = c.token ∧ c.settle.retv = c.retv := by
  unfold settle
  split
  · exact ⟨rfl, rfl⟩
  · exact ⟨rfl, rfl⟩

theorem resetSelf_rest (c : LocalOperationCaller ρ ε) :
    c.resetSelf.token = c.token ∧ c.resetSelf.retv = c.retv := by
  unfold resetSelf
  split
  · exact settle_rest { c with self := false }
  · exact ⟨rfl, rfl⟩

/-- What a step of `executeAndDispose` makes of the object. -/
def LocalOperationCaller.processed (c : LocalOperationCaller ρ ε) (r : Option ρ) (o : Bool) :
    Stage → LocalOperationCaller ρ ε
  | .test => c.touch
  | .execute => { c.touch with retv := c.retv.exec r, runs := r :: c.runs }
  | .handBack =>
    match c.caller with
    | none => c.touch
    | some e' => if o then { c.touch with token := .queued e' } else c.touch
  | .dispose => { c.touch with token := .disposed }.resetSelf

theorem Whole.processed {c : LocalOperationCaller ρ ε} (h : Whole c) {e : ε} {stage : Stage}
    (ht : c.token = .held e) (hfits : stage.fits c) (hself : stage = .dispose → c.self = true)
    (r : Option ρ) (o : Bool) : Whole (c.processed r o stage) := by
  have htouch := h.touch (.inr (.inr ⟨e, .inr ht⟩))
  unfold LocalOperationCaller.processed
  cases stage with
  | test => rw [htouch]; exact h
  | execute =>
    dsimp only
    rw [htouch]
    exact h.executes ht hfits r
  | handBack =>
    dsimp only
    rw [htouch]
    split
    · exact h
    · split
      · exact h.moves (.inr ht) ⟨by simp, by simp⟩ fun hx =>
          absurd (hfits.symm.trans hx) Bool.noConfusion
      · exact h
  | dispose =>
    dsimp only
    rw [htouch]
    exact h.disposes ht hfits (hself rfl)

section
variable [DecidableEq ε]

theorem processMove_calls (s : State ρ ε) (e : ε) (id : ℕ) (stage : Stage)
    (fs : List (ℕ × Stage)) (c : LocalOperationCaller ρ ε) (r : Option ρ) (o : Bool) :
    (processMove s e id stage fs c r o).calls =
      Function.update s.calls id (some (c.processed r o stage)) := by
  unfold processMove LocalOperationCaller.processed
  cases stage with
  | test => rfl
  | execute => rfl
  | dispose => rfl
  | handBack =>
    cases c.caller with
    | none => rfl
    | some e' => cases o <;> rfl

theorem processMove_consistent {s : State ρ ε} (h : Consistent s) {e : ε} {id : ℕ} {stage : Stage}
    {fs : List (ℕ × Stage)} {c : LocalOperationCaller ρ ε} (hfs : s.frames e = (id, stage) :: fs)
    (hc : s.calls id = some c) (r : Option ρ) (o : Bool) :
    Consistent (processMove s e id stage fs c r o) := by
  have ht : c.token = .held e :=
    (h.held_iff hc e).mp (by rw [hfs]; exact List.mem_cons_self)
  have hfits := h.stages e id stage c (by rw [hfs]; exact List.mem_cons_self) hc
  have hout := h.not_queued hc (by rw [ht]; nofun)
  have hsame : ∀ c' : LocalOperationCaller ρ ε, (∀ e', c'.token ≠ .queued e') → ∀ e' i,
      i ∈ s.queues e' ↔ if i = id then c'.token = .queued e' else i ∈ s.queues e' := by
    intro c' hc' e' i
    by_cases hi : i = id
    · rw [if_pos hi, hi]
      exact ⟨fun hmem => absurd hmem (hout e'), fun heq => absurd heq (hc' e')⟩
    · rw [if_neg hi]
  have hheld : ∀ e', c.token ≠ .queued e' := by
    rw [ht]
    nofun
  unfold processMove
  cases stage with
  | test =>
    refine h.reframe hc hfs (hsame c.touch hheld) h.queues (.inr ⟨_, rfl, ?_, ht⟩)
    cases hx : c.retv.executed with
    | true => exact hx
    | false => exact hx
  | execute =>
    refine h.reframe hc hfs (hsame _ hheld) h.queues (.inr ⟨.handBack, rfl, ?_, ht⟩)
    cases r <;> rfl
  | handBack =>
    dsimp only
    cases c.caller with
    | none => exact h.reframe hc hfs (hsame c.touch hheld) h.queues (.inr ⟨.dispose, rfl, hfits, ht⟩)
    | some e' =>
      cases o with
      | false =>
        exact h.reframe hc hfs (hsame c.touch hheld) h.queues (.inr ⟨.dispose, rfl, hfits, ht⟩)
      | true =>
        refine h.reframe hc hfs ?_ (nodup_enqueue h.queues hout e') (.inl ⟨rfl, nofun⟩)
        · intro e₁ i
          rw [Token.queued.injEq]
          exact mem_enqueue hout e' e₁ i
  | dispose =>
    have htok : ({ c.touch with token := .disposed } : LocalOperationCaller ρ ε).resetSelf.token =
        .disposed := (resetSelf_rest _).1
    refine h.reframe hc hfs (hsame _ fun e' => ?_) h.queues (.inl ⟨rfl, fun e' => ?_⟩)
    · rw [htok]
      nofun
    · rw [htok]
      nofun

theorem dequeue_consistent {s : State ρ ε} (h : Consistent s) (e : ε) :
    Consistent (dequeue s e) := by
  unfold dequeue
  cases hq : s.queues e with
  | nil => exact h
  | cons id q =>
    dsimp only
    split
    · cases hc : s.calls id with
      | none => exact h
      | some c => exact h.dequeue hc hq rfl rfl
    · exact h

theorem dequeue_inv {s : State ρ ε} (h : Inv s) (e : ε) : Inv (dequeue s e) := by
  have hcons := dequeue_consistent h.consistent e
  unfold dequeue at hcons ⊢
  cases hq : s.queues e with
  | nil => exact h
  | cons id q =>
    rw [hq] at hcons
    dsimp only at hcons ⊢
    split at hcons
    · rename_i hhead
      rw [if_pos hhead]
      cases hc : s.calls id with
      | none => exact h
      | some c =>
        rw [hc] at hcons
        have hw := h.whole id c hc
        have ht : c.token = .queued e :=
          (h.consistent.queued_iff hc e).mp (by rw [hq]; exact List.mem_cons_self)
        have hmoved : Whole { c with token := .held e } := by
          refine hw.moves (.inl ht) ⟨nofun, nofun⟩ fun hx e' he' => ?_
          rcases he' with he' | he'
          · cases he'
          · cases he'
            exact hw.home hx e (.inl ht)
        exact h.update hcons hmoved rfl
    · rename_i hhead
      rw [if_neg hhead]
      exact h

theorem senderMove_inv {s : State ρ ε} (h : Inv s) (id : ℕ) (o : Bool) :
    Inv (senderMove s id o) := by
  unfold senderMove
  cases hc : s.calls id with
  | none => exact h
  | some c =>
    have hw := h.whole id c hc
    dsimp only
    cases hs : c.sender with
    | post =>
      cases o with
      | true =>
        exact h.update (h.consistent.enqueue hc (hw.token.mpr (hw.post hs).1) rfl) (hw.accept hs) rfl
      | false =>
        have hrest := settle_rest { c with sender := .done }
        exact h.update (h.consistent.set hc hrest.1 (by rw [hrest.2])) (hw.refuse hs) rfl
    | setSelf => exact h.update (h.consistent.set hc rfl rfl) (hw.setsSelf hs) rfl
    | handle => exact h.update (h.consistent.set hc rfl rfl) (hw.handsOver hs) rfl
    | done => exact h

theorem step_inv {s : State ρ ε} {a : Act ρ ε} (h : Inv s) (ha : SetBefore s a) :
    Inv (step s a) := by
  cases a with
  | send id myengine caller arg =>
    dsimp only [step]
    split
    · rename_i hnone
      exact h.update (h.consistent.send (Option.isNone_iff_eq_none.mp hnone) rfl)
        (clone_whole myengine caller arg) rfl
    · exact h
  | sender id o => exact senderMove_inv h id o
  | dequeue e => exact dequeue_inv h e
  | engine e r o =>
    dsimp only [step, engineMove]
    split
    · exact h
    · rename_i id stage fs hfs
      split
      · rename_i c hc
        have hmem : (id, stage) ∈ s.frames e := by rw [hfs]; exact List.mem_cons_self
        have ht : c.token = .held e :=
          (h.consistent.held_iff hc e).mp (List.mem_map_of_mem (f := Prod.fst) hmem)
        exact h.update (processMove_consistent h.consistent hfs hc r o)
          ((h.whole id c hc).processed ht (h.consistent.stages e id stage c hmem hc)
            (fun hst => ha id fs c (by rw [hfs, hst]) hc) r o)
          (processMove_calls s e id stage fs c r o)
      · exact h
  | copy id =>
    dsimp only [step]
    split
    · rename_i c hc
      split
      · rename_i hh
        exact h.update (h.consistent.set hc rfl rfl) ((h.whole id c hc).copy hh) rfl
      · exact h
    · exact h
  | drop id =>
    dsimp only [step]
    split
    · rename_i c hc
      split
      · rename_i hh
        have hrest := settle_rest { c with handles := c.handles - 1 }
        exact h.update (h.consistent.set hc hrest.1 (by rw [hrest.2])) ((h.whole id c hc).drop hh)
          rfl
      · exact h
    · exact h

/-! ### An engine comes to every message -/

def Stage.weight : Stage → ℕ
  | .test => 4
  | .execute => 3
  | .handBack => 2
  | .dispose => 1

/-- The steps that the engine `e` has before it at most when it comes to the message `id`. -/
def State.ahead (s : State ρ ε) (e : ε) (id : ℕ) : ℕ :=
  ((s.frames e).map fun f => f.2.weight).sum +
    if id ∈ s.queues e then 5 * ((s.queues e).idxOf id + 1) else 0

/-- A call object that waits for its execution in the engine `e`. -/
structure Waits (s : State ρ ε) (e : ε) (id : ℕ) (c : LocalOperationCaller ρ ε) : Prop where
  call : s.calls id = some c
  fresh : c.retv.executed = false
  runs : c.runs = []
  token : c.token = .queued e ∨ c.token = .held e

/-- An engine that is not busy takes the first message of its queue. -/
theorem Waits.dequeue {s : State ρ ε} {e : ε} {id : ℕ} {c : LocalOperationCaller ρ ε}
    (h : Waits s e id c) (hs : Consistent s) (hfs : s.frames e = []) :
    (∃ c', Waits (dequeue s e) e id c') ∧ (dequeue s e).ahead e id < s.ahead e id := by
  have hmem : id ∈ s.queues e := by
    rcases h.token with ht | ht
    · exact (hs.queued_iff h.call e).mpr ht
    · have hheld := (hs.held_iff h.call e).mpr ht
      rw [hfs] at hheld
      cases hheld
  cases hq : s.queues e with
  | nil => rw [hq] at hmem; cases hmem
  | cons j q =>
    obtain ⟨cj, hcj, htj⟩ := (hs.queued e j).mp (by rw [hq]; exact List.mem_cons_self)
    have hmove : Operation.dequeue s e =
        ({ s with queues := Function.update s.queues e q }.set j { cj with token := .held e }).frame
          e [(j, .test)] := by
      simp [Operation.dequeue, hq, hfs, hcj]
    have hnodup := hs.queues e
    rw [hq, List.nodup_cons] at hnodup
    have hahead : s.ahead e id = 5 * ((s.queues e).idxOf id + 1) := by
      simp [State.ahead, hfs, hmem]
    rw [hq] at hmem
    by_cases hj : j = id
    · subst hj
      rw [h.call] at hcj
      cases hcj
      refine ⟨⟨{ c with token := .held e }, ?_, h.fresh, h.runs, .inr rfl⟩, ?_⟩
      · rw [hmove]
        exact Function.update_self ..
      · have hout : j ∉ (Operation.dequeue s e).queues e := by
          rw [hmove]
          show j ∉ Function.update s.queues e q e
          rw [Function.update_self]
          exact hnodup.1
        have hframes : (Operation.dequeue s e).frames e = [(j, .test)] := by
          rw [hmove]
          exact Function.update_self ..
        rw [hahead, State.ahead, hframes, if_neg hout]
        simp [Stage.weight]
        omega
    · have hin : id ∈ q := by
        rcases List.mem_cons.mp hmem with heq | hin
        · exact absurd heq.symm hj
        · exact hin
      refine ⟨⟨c, ?_, h.fresh, h.runs, h.token⟩, ?_⟩
      · rw [hmove]
        exact (Function.update_of_ne (fun heq => hj heq.symm) ..).trans h.call
      · have hqueue : (Operation.dequeue s e).queues e = q := by
          rw [hmove]
          exact Function.update_self ..
        have hframes : (Operation.dequeue s e).frames e = [(j, .test)] := by
          rw [hmove]
          exact Function.update_self ..
        have hidx : (j :: q).idxOf id = q.idxOf id + 1 := List.idxOf_cons_ne q hj
        rw [hahead, State.ahead, hframes, hqueue, if_pos hin, hq, hidx]
        simp [Stage.weight]
        omega

theorem processMove_refused (s : State ρ ε) (e : ε) (j : ℕ) (stage : Stage)
    (fs : List (ℕ × Stage)) (c : LocalOperationCaller ρ ε) (r : Option ρ) :
    (processMove s e j stage fs c r false).queues = s.queues ∧
      (((processMove s e j stage fs c r false).frames e).map fun f => f.2.weight).sum <
        stage.weight + (fs.map fun f => f.2.weight).sum := by
  unfold processMove
  cases stage with
  | test =>
    refine ⟨rfl, ?_⟩
    simp only [State.frame, State.set, Function.update_self, List.map_cons, List.sum_cons]
    split <;> simp [Stage.weight]
  | execute =>
    refine ⟨rfl, ?_⟩
    simp [State.frame, State.set, Stage.weight]
  | handBack =>
    dsimp only
    split <;> exact ⟨rfl, by simp [State.frame, State.set, Stage.weight]⟩
  | dispose =>
    refine ⟨rfl, ?_⟩
    simp [State.frame, State.set, Stage.weight]

/-- An engine that is busy goes on with the message it processes. -/
theorem Waits.process {s : State ρ ε} {e : ε} {id j : ℕ} {c : LocalOperationCaller ρ ε}
    {stage : Stage} {fs : List (ℕ × Stage)} (h : Waits s e id c) (hs : Consistent s)
    (hfs : s.frames e = (j, stage) :: fs) (r : Option ρ) :
    (∃ c', (engineMove s e r false).calls id = some c' ∧ c'.runs = [r]) ∨
      (∃ c', Waits (engineMove s e r false) e id c') ∧
        (engineMove s e r false).ahead e id < s.ahead e id := by
  have hmem : (j, stage) ∈ s.frames e := by rw [hfs]; exact List.mem_cons_self
  obtain ⟨cj, hcj, htj⟩ := (hs.held e j).mp (List.mem_map_of_mem (f := Prod.fst) hmem)
  have hmove : engineMove s e r false = processMove s e j stage fs cj r false := by
    simp [engineMove, hfs, hcj]
  have hcalls := processMove_calls s e j stage fs cj r false
  obtain ⟨hqueues, hweight⟩ := processMove_refused s e j stage fs cj r
  have hahead : (processMove s e j stage fs cj r false).ahead e id < s.ahead e id := by
    unfold State.ahead
    rw [hqueues, hfs, List.map_cons, List.sum_cons]
    dsimp only
    omega
  rw [hmove]
  by_cases hj : j = id
  · subst hj
    rw [h.call] at hcj
    cases hcj
    have hfits := hs.stages e j stage c hmem h.call
    have hfresh := h.fresh
    cases stage with
    | test =>
      refine .inr ⟨⟨c.touch, ?_, h.fresh, h.runs, h.token⟩, hahead⟩
      rw [hcalls]
      exact Function.update_self ..
    | execute =>
      refine .inl ⟨c.processed r false .execute, ?_, ?_⟩
      · rw [hcalls]
        exact Function.update_self ..
      · show r :: c.runs = [r]
        rw [h.runs]
    | handBack => exact absurd (hfresh.symm.trans hfits) Bool.noConfusion
    | dispose => exact absurd (hfresh.symm.trans hfits) Bool.noConfusion
  · refine .inr ⟨⟨c, ?_, h.fresh, h.runs, h.token⟩, hahead⟩
    rw [hcalls]
    exact (Function.update_of_ne (fun heq => hj heq.symm) ..).trans h.call

/-- The engine by itself comes to execute the operation. -/
theorem Waits.executes {e : ε} {id : ℕ} (r : Option ρ) {s : State ρ ε}
    {c : LocalOperationCaller ρ ε} (h : Waits s e id c) (hs : Consistent s) :
    ∃ acts : List (Act ρ ε), (∀ a ∈ acts, a.ofEngine e) ∧
      ∃ c', (Library.Run.run step s acts).calls id = some c' ∧ c'.runs = [r] := by
  generalize hn : s.ahead e id = n
  induction n using Nat.strongRecOn generalizing s c with
  | ind n ih =>
    have hnext : ∀ (a : Act ρ ε) (s' : State ρ ε), a.ofEngine e → step s a = s' → Consistent s' →
        (∃ c', Waits s' e id c') → s'.ahead e id < s.ahead e id →
          ∃ acts : List (Act ρ ε), (∀ a ∈ acts, a.ofEngine e) ∧
            ∃ c', (Library.Run.run step s acts).calls id = some c' ∧ c'.runs = [r] := by
      rintro a s' ha rfl hcons ⟨c', hc'⟩ hlt
      obtain ⟨acts, hacts, hdone⟩ := ih _ (hn ▸ hlt) hc' hcons rfl
      refine ⟨a :: acts, ?_, hdone⟩
      intro b hb
      rcases List.mem_cons.mp hb with rfl | hb
      · exact ha
      · exact hacts b hb
    cases hfs : s.frames e with
    | nil =>
      obtain ⟨hw, hlt⟩ := h.dequeue hs hfs
      exact hnext (.dequeue e) _ rfl rfl (dequeue_consistent hs e) hw hlt
    | cons f fs =>
      obtain ⟨j, stage⟩ := f
      rcases h.process hs hfs r with ⟨c', hc', hruns⟩ | ⟨hw, hlt⟩
      · exact ⟨[.engine e r false], by rintro a ha; rw [List.mem_singleton.mp ha]; rfl, c', hc',
          hruns⟩
      · refine hnext (.engine e r false) _ rfl rfl ?_ hw hlt
        have hmem : (j, stage) ∈ s.frames e := by rw [hfs]; exact List.mem_cons_self
        obtain ⟨cj, hcj, -⟩ := (hs.held e j).mp (List.mem_map_of_mem (f := Prod.fst) hmem)
        have hmove : step s (.engine e r false) = processMove s e j stage fs cj r false := by
          simp [step, engineMove, hfs, hcj]
        rw [hmove]
        exact processMove_consistent hs hfs hcj r false

end

theorem Inv.waits {s : State ρ ε} (h : Inv s) {id : ℕ} {c : LocalOperationCaller ρ ε}
    (hc : s.calls id = some c) (hacc : c.accepted = true) (hruns : c.runs = []) :
    Waits s c.myengine id c := by
  have hw := h.whole id c hc
  have hx : c.retv.executed = false := by
    by_contra hx
    obtain ⟨r, hr, -⟩ := hw.ran (by simpa using hx)
    rw [hr] at hruns
    cases hruns
  have hhome := hw.home hx
  refine ⟨hc, hx, hruns, ?_⟩
  cases ht : c.token with
  | none => exact absurd (hacc.symm.trans (hw.token.mp ht)) Bool.noConfusion
  | queued e => exact .inl (by rw [hhome e (.inl ht)])
  | held e => exact .inr (by rw [hhome e (.inr ht)])
  | disposed => exact absurd (hx.symm.trans (hw.gone ht).2) Bool.noConfusion

theorem Inv.protocol [DecidableEq ε] {s : State ρ ε} (h : Inv s) {id : ℕ} {c : LocalOperationCaller ρ ε}
    (hc : s.calls id = some c) : Protocol s id c := by
  have hw := h.whole id c hc
  have hreach : s.reaches id c ↔
      c.sender ≠ .done ∨ 0 < c.handles ∨ ∃ e, c.token = .queued e ∨ c.token = .held e := by
    unfold State.reaches
    simp only [h.consistent.queued_iff hc, h.consistent.held_iff hc]
  refine ⟨?_, ?_, ?_, fun ha => hw.idle (hw.waiting ha), ?_, fun hr => hw.alive (hreach.mp hr), ?_,
    hw.unused⟩
  · cases hx : c.retv.executed with
    | false => rw [hw.idle hx]; exact Nat.zero_le 1
    | true =>
      obtain ⟨r, hr, -⟩ := hw.ran hx
      rw [hr]
      exact Nat.le_refl 1
  · intro hacc hruns
    rw [h.consistent.queued_iff hc, h.consistent.held_iff hc]
    exact (h.waits hc hacc hruns).token
  · exact fun hacc hruns r => (h.waits hc hacc hruns).executes r h.consistent
  · intro v hv
    unfold RStore.collectIfDone at hv
    cases hx : c.retv.executed with
    | false => simp [hx] at hv
    | true =>
      obtain ⟨r, hr, herror, harg⟩ := hw.ran hx
      cases r with
      | none => simp [hx, herror] at hv
      | some v' =>
        rw [hx, herror, harg v' rfl] at hv
        cases hv
        exact hr
  · intro hr
    rw [hreach, not_or, not_or, not_not] at hr
    obtain ⟨hdone, hh, hlost⟩ := hr
    have hself : c.self = false := by
      by_contra hself
      have hacc : c.accepted = true := by
        by_contra hacc
        exact hself (hw.refused hdone (by simpa using hacc)).1
      have htoken := (hw.kept (.inr hdone) hacc).mp (by simpa using hself)
      cases ht : c.token with
      | none => exact absurd (hacc.symm.trans (hw.token.mp ht)) Bool.noConfusion
      | queued e => exact hlost ⟨e, .inl ht⟩
      | held e => exact hlost ⟨e, .inr ht⟩
      | disposed => exact htoken ht
    rw [hw.released, references, hself, hdone]
    simp [Nat.eq_zero_of_not_pos hh]

/-- In a run in which the sender sets the reference of the object to itself before an engine resets
it, the protocol is kept for every call object. -/
theorem send_collect [DecidableEq ε] (acts : List (Act ρ ε))
    (h : Library.Run.Along step SetBefore create acts) (id : ℕ) (c : LocalOperationCaller ρ ε)
    (hc : (after acts).calls id = some c) : Protocol (after acts) id c :=
  (Library.Run.run_invariant (fun _ _ => step_inv) create_inv h).protocol hc

/-- The engine `true` processes a message of an operation that returns 7. -/
def processed : List (Act ℕ Bool) := .dequeue true :: List.replicate 4 (.engine true (some 7) false)

theorem send_collect_seven :
    let acts : List (Act ℕ Bool) :=
      [.send 0 true (some false) 0, .sender 0 true, .sender 0 true] ++ processed ++
        [.sender 0 true]
    ∃ c, (after acts).calls 0 = some c ∧ c.retv.collectIfDone = .success 7 ∧
      Protocol (after acts) 0 c :=
  ⟨_, rfl, rfl, send_collect _ (by decide) 0 _ rfl⟩

/-- The engine has executed and disposed of the message before the sender goes on, who then makes
the object refer to itself for good. -/
theorem self_set_late :
    let acts : List (Act ℕ Bool) :=
      [.send 0 true none 0, .sender 0 true] ++ processed ++
        [.sender 0 true, .sender 0 true, .drop 0]
    ¬ ∀ c, (after acts).calls 0 = some c → Protocol (after acts) 0 c := by
  intro acts h
  refine absurd ((h _ rfl).released ?_) (by decide)
  rintro (hs | hh | ⟨e, hq | hf⟩)
  · exact hs rfl
  · exact absurd hh (by decide)
  · cases e <;> cases hq
  · cases e <;> cases hf

end OrocosRtt.Operation
