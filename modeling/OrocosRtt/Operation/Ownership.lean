import OrocosRtt.Operation.LocalOperationCaller
import Mathlib.Data.List.Nodup

/-! Who keeps a call object alive: its message in the queues and engines, the reference to itself
that the sender sets after it has posted the message, and the handles. -/
namespace OrocosRtt.Operation

open LocalOperationCaller

variable {ρ ε : Type}

/-- What holds of a call object by itself, as long as no engine resets the reference of the object
to itself before the sender has set it. -/
structure Whole (c : LocalOperationCaller ρ ε) : Prop where
  idle : c.retv.executed = false → c.runs = []
  ran : c.retv.executed = true →
    ∃ r, c.runs = [r] ∧ c.retv.error = r.isNone ∧ ∀ v, r = some v → c.retv.arg = v
  post : c.sender = .post → c.accepted = false ∧ c.self = false ∧ c.handles = 0
  refused : c.sender = .done → c.accepted = false → c.self = false ∧ c.handles = 0
  setSelf : c.sender = .setSelf → c.accepted = true ∧ c.self = false ∧ c.handles = 0
  handle : c.sender = .handle → c.accepted = true ∧ c.handles = 0
  kept : c.sender = .handle ∨ c.sender = .done → c.accepted = true →
    (c.self = true ↔ c.token ≠ .disposed)
  token : c.token = .none ↔ c.accepted = false
  waiting : c.accepted = false → c.retv.executed = false
  home : c.retv.executed = false → ∀ e, c.token = .queued e ∨ c.token = .held e → e = c.myengine
  gone : c.token = .disposed → c.sender ≠ .setSelf ∧ c.retv.executed = true
  released : c.released = if c.references = 0 then 1 else 0
  unused : c.misused = false

theorem clone_whole (myengine : ε) (caller : Option ε) (arg : ρ) :
    Whole (clone myengine caller arg) where
  idle _ := rfl
  ran h := by cases h
  post _ := ⟨rfl, rfl, rfl⟩
  refused h := by cases h
  setSelf h := by cases h
  handle h := by cases h
  kept h := by rcases h with h | h <;> cases h
  token := ⟨fun _ => rfl, fun _ => rfl⟩
  waiting _ := rfl
  home _ e h := by rcases h with h | h <;> cases h
  gone h := by cases h
  released := rfl
  unused := rfl

/-- An object whose message is on its way, or whose sender is not done, is alive. -/
theorem Whole.alive {c : LocalOperationCaller ρ ε} (h : Whole c)
    (ha : c.sender ≠ .done ∨ 0 < c.handles ∨ ∃ e, c.token = .queued e ∨ c.token = .held e) :
    c.released = 0 := by
  have hrefs : c.references ≠ 0 := by
    unfold references
    rcases ha with hs | hh | ⟨e, ht⟩
    · rw [if_neg hs]
      omega
    · omega
    · by_cases hs : c.sender = .done
      · have hlive : c.token ≠ .none ∧ c.token ≠ .disposed := by
          rcases ht with ht | ht <;> rw [ht] <;> exact ⟨nofun, nofun⟩
        have hacc : c.accepted = true := by
          by_contra hacc
          exact hlive.1 (h.token.mpr (by simpa using hacc))
        rw [if_pos ((h.kept (.inr hs) hacc).mpr hlive.2)]
        omega
      · rw [if_neg hs]
        omega
  rw [h.released, if_neg hrefs]

theorem Whole.touch {c : LocalOperationCaller ρ ε} (h : Whole c)
    (ha : c.sender ≠ .done ∨ 0 < c.handles ∨ ∃ e, c.token = .queued e ∨ c.token = .held e) :
    c.touch = c := by
  have hlive : (c.misused || decide (c.released ≠ 0)) = c.misused := by
    rw [h.alive ha]
    exact Bool.or_false _
  show { c with misused := c.misused || decide (c.released ≠ 0) } = c
  rw [hlive]

theorem Whole.accept {c : LocalOperationCaller ρ ε} (h : Whole c) (hs : c.sender = .post) :
    Whole { c with sender := .setSelf, accepted := true, token := .queued c.myengine } := by
  obtain ⟨hacc, hself, hh⟩ := h.post hs
  have hexec := h.waiting hacc
  have hreleased := h.alive (.inl (by rw [hs]; nofun))
  constructor
  all_goals simp_all [references, h.idle, h.unused]

theorem Whole.refuse {c : LocalOperationCaller ρ ε} (h : Whole c) (hs : c.sender = .post) :
    Whole { c with sender := .done }.settle := by
  obtain ⟨hacc, hself, hh⟩ := h.post hs
  have hexec := h.waiting hacc
  have hreleased := h.alive (.inl (by rw [hs]; nofun))
  have htoken := h.token.mpr hacc
  have hrefs : ({ c with sender := .done } : LocalOperationCaller ρ ε).references = 0 := by
    simp [references, hself, hh]
  rw [settle, if_pos hrefs]
  constructor
  all_goals simp_all [references, h.idle, h.unused]

theorem Whole.setsSelf {c : LocalOperationCaller ρ ε} (h : Whole c) (hs : c.sender = .setSelf) :
    Whole { c.touch with self := true, sender := .handle } := by
  rw [h.touch (.inl (by rw [hs]; nofun))]
  obtain ⟨hacc, hself, hh⟩ := h.setSelf hs
  have hreleased := h.alive (.inl (by rw [hs]; nofun))
  have hgone : c.token ≠ .disposed := fun ht => (h.gone ht).1 hs
  have htoken := h.token
  exact
    { h with
      post := nofun
      refused := nofun
      setSelf := nofun
      handle := fun _ => ⟨hacc, hh⟩
      kept := fun _ _ => by simp [hgone]
      gone := fun ht => absurd ht hgone
      released := by simp [references, hreleased] }

theorem Whole.handsOver {c : LocalOperationCaller ρ ε} (h : Whole c) (hs : c.sender = .handle) :
    Whole { c with sender := .done, handles := c.handles + 1 } := by
  obtain ⟨hacc, hh⟩ := h.handle hs
  have hreleased := h.alive (.inl (by rw [hs]; nofun))
  have hkept := h.kept (.inl hs)
  exact
    { h with
      post := nofun
      refused := fun _ hne => absurd (hacc.symm.trans hne) Bool.noConfusion
      setSelf := nofun
      handle := nofun
      kept := fun _ => hkept
      gone := fun ht => ⟨nofun, (h.gone ht).2⟩
      released := by simp [references, hreleased] }

/-- The message goes from one place to the next. -/
theorem Whole.moves {c : LocalOperationCaller ρ ε} (h : Whole c) {t : Token ε} {e : ε}
    (ht : c.token = .queued e ∨ c.token = .held e) (ht' : t ≠ .none ∧ t ≠ .disposed)
    (hhome : c.retv.executed = false → ∀ e', t = .queued e' ∨ t = .held e' → e' = c.myengine) :
    Whole { c with token := t } := by
  have hlive : c.token ≠ .none ∧ c.token ≠ .disposed := by
    rcases ht with ht | ht <;> rw [ht] <;> exact ⟨nofun, nofun⟩
  have hacc : c.accepted ≠ false := fun hacc => hlive.1 (h.token.mpr hacc)
  exact
    { h with
      kept := fun hs ha => by simpa [ht'.2, hlive.2] using h.kept hs ha
      token := ⟨fun hn => absurd hn ht'.1, fun hn => absurd hn hacc⟩
      home := hhome
      gone := fun hn => absurd hn ht'.2 }

theorem Whole.executes {c : LocalOperationCaller ρ ε} (h : Whole c) {e : ε}
    (ht : c.token = .held e) (hx : c.retv.executed = false) (r : Option ρ) :
    Whole { c with retv := c.retv.exec r, runs := r :: c.runs } := by
  have hexec : (c.retv.exec r).executed = true := by cases r <;> rfl
  have hacc : c.accepted ≠ false := by
    intro hacc
    have hnone := h.token.mpr hacc
    rw [ht] at hnone
    cases hnone
  exact
    { h with
      idle := fun hn => absurd (hexec.symm.trans hn) Bool.noConfusion
      ran := fun _ => ⟨r, by rw [h.idle hx], by cases r <;> rfl, by rintro v rfl; rfl⟩
      waiting := fun hn => absurd hn hacc
      home := fun hn => absurd (hexec.symm.trans hn) Bool.noConfusion
      gone := fun hn => by rw [ht] at hn; cases hn }

/-- What is left after a reference was dropped from a live object. -/
theorem settle_eq {c : LocalOperationCaller ρ ε} (h : c.released = 0) :
    c.settle = { c with released := if c.references = 0 then 1 else 0 } := by
  unfold settle
  split
  · rw [h]
  · rw [← h]

/-- The engine resets the reference that the sender has set. -/
theorem Whole.disposes {c : LocalOperationCaller ρ ε} (h : Whole c) {e : ε}
    (ht : c.token = .held e) (hx : c.retv.executed = true) (hself : c.self = true) :
    Whole { c with token := .disposed }.resetSelf := by
  have hreleased := h.alive (.inr (.inr ⟨e, .inr ht⟩))
  have hacc : c.accepted ≠ false := by
    intro hacc
    have hnone := h.token.mpr hacc
    rw [ht] at hnone
    cases hnone
  have hpost : c.sender ≠ .post := fun hs => Bool.false_ne_true ((h.post hs).2.1.symm.trans hself)
  have hset : c.sender ≠ .setSelf := fun hs =>
    Bool.false_ne_true ((h.setSelf hs).2.1.symm.trans hself)
  rw [resetSelf, if_pos hself, settle_eq (by exact hreleased)]
  exact
    { h with
      post := fun hs => absurd hs hpost
      refused := fun _ ha => absurd ha hacc
      setSelf := fun hs => absurd hs hset
      kept := fun _ _ => by simp
      token := ⟨nofun, fun ha => absurd ha hacc⟩
      home := fun hn => absurd (hx.symm.trans hn) Bool.noConfusion
      gone := fun _ => ⟨hset, hx⟩
      released := rfl }

theorem Whole.done_of_handles {c : LocalOperationCaller ρ ε} (h : Whole c) (hh : 0 < c.handles) :
    c.sender = .done := by
  cases hs : c.sender with
  | post => have hz := (h.post hs).2.2; omega
  | setSelf => have hz := (h.setSelf hs).2.2; omega
  | handle => have hz := (h.handle hs).2; omega
  | done => rfl

theorem Whole.copy {c : LocalOperationCaller ρ ε} (h : Whole c) (hh : 0 < c.handles) :
    Whole { c with handles := c.handles + 1 } := by
  have hdone := h.done_of_handles hh
  have hreleased := h.alive (.inr (.inl hh))
  exact
    { h with
      post := fun hs => nomatch hdone.symm.trans hs
      refused := fun hs ha => absurd (h.refused hs ha).2 (Nat.ne_of_gt hh)
      setSelf := fun hs => nomatch hdone.symm.trans hs
      handle := fun hs => nomatch hdone.symm.trans hs
      released := by simp [references, hreleased] }

theorem Whole.drop {c : LocalOperationCaller ρ ε} (h : Whole c) (hh : 0 < c.handles) :
    Whole { c with handles := c.handles - 1 }.settle := by
  have hdone := h.done_of_handles hh
  have hreleased := h.alive (.inr (.inl hh))
  rw [settle_eq (by exact hreleased)]
  exact
    { h with
      post := fun hs => nomatch hdone.symm.trans hs
      refused := fun hs ha => absurd (h.refused hs ha).2 (Nat.ne_of_gt hh)
      setSelf := fun hs => nomatch hdone.symm.trans hs
      handle := fun hs => nomatch hdone.symm.trans hs
      released := rfl }

/-! ### The messages -/

/-- What an engine knows of the object whose message it processes. -/
def Stage.fits (c : LocalOperationCaller ρ ε) : Stage → Prop
  | .test => True
  | .execute => c.retv.executed = false
  | .handBack | .dispose => c.retv.executed = true

/-- Every message is in one place. -/
structure Consistent (s : State ρ ε) : Prop where
  queued : ∀ e id, id ∈ s.queues e ↔ ∃ c, s.calls id = some c ∧ c.token = .queued e
  queues : ∀ e, (s.queues e).Nodup
  held : ∀ e id, id ∈ (s.frames e).map Prod.fst ↔ ∃ c, s.calls id = some c ∧ c.token = .held e
  frames : ∀ e, ((s.frames e).map Prod.fst).Nodup
  stages : ∀ e id stage c, (id, stage) ∈ s.frames e → s.calls id = some c → stage.fits c

/-- The object `id` becomes `c`, and its message goes where `c` tells. -/
theorem Consistent.move {s : State ρ ε} (h : Consistent s) {id : ℕ}
    {c : LocalOperationCaller ρ ε} {q : ε → List ℕ} {f : ε → List (ℕ × Stage)}
    (hq : ∀ e i, i ∈ q e ↔ if i = id then c.token = .queued e else i ∈ s.queues e)
    (hqn : ∀ e, (q e).Nodup)
    (hf : ∀ e i, i ∈ (f e).map Prod.fst ↔
      if i = id then c.token = .held e else i ∈ (s.frames e).map Prod.fst)
    (hfn : ∀ e, ((f e).map Prod.fst).Nodup)
    (hst : ∀ e i stage, (i, stage) ∈ f e →
      if i = id then stage.fits c else (i, stage) ∈ s.frames e) :
    Consistent { calls := Function.update s.calls id (some c), queues := q, frames := f } where
  queued e i := by
    rw [hq e i]
    by_cases hi : i = id
    · subst hi
      simp
    · rw [if_neg hi, h.queued e i]
      simp [Function.update_of_ne hi]
  queues := hqn
  held e i := by
    rw [hf e i]
    by_cases hi : i = id
    · subst hi
      simp
    · rw [if_neg hi, h.held e i]
      simp [Function.update_of_ne hi]
  frames := hfn
  stages e i stage c' hmem hc' := by
    have hstage := hst e i stage hmem
    dsimp only at hc'
    by_cases hi : i = id
    · subst hi
      rw [if_pos rfl] at hstage
      rw [Function.update_self] at hc'
      rwa [← Option.some.inj hc']
    · rw [if_neg hi] at hstage
      rw [Function.update_of_ne hi] at hc'
      exact h.stages e i stage c' hstage hc'

theorem Consistent.queued_iff {s : State ρ ε} (h : Consistent s) {id : ℕ}
    {c : LocalOperationCaller ρ ε} (hc : s.calls id = some c) (e : ε) :
    id ∈ s.queues e ↔ c.token = .queued e := by
  rw [h.queued e id]
  constructor
  · rintro ⟨c', hc', ht⟩
    rw [hc] at hc'
    rwa [Option.some.inj hc']
  · exact fun ht => ⟨c, hc, ht⟩

theorem Consistent.held_iff {s : State ρ ε} (h : Consistent s) {id : ℕ}
    {c : LocalOperationCaller ρ ε} (hc : s.calls id = some c) (e : ε) :
    id ∈ (s.frames e).map Prod.fst ↔ c.token = .held e := by
  rw [h.held e id]
  constructor
  · rintro ⟨c', hc', ht⟩
    rw [hc] at hc'
    rwa [Option.some.inj hc']
  · exact fun ht => ⟨c, hc, ht⟩

theorem Consistent.not_queued {s : State ρ ε} (h : Consistent s) {id : ℕ}
    {c : LocalOperationCaller ρ ε} (hc : s.calls id = some c) (ht : ∀ e, c.token ≠ .queued e)
    (e : ε) : id ∉ s.queues e :=
  fun hmem => ht e ((h.queued_iff hc e).mp hmem)

theorem Consistent.not_held {s : State ρ ε} (h : Consistent s) {id : ℕ}
    {c : LocalOperationCaller ρ ε} (hc : s.calls id = some c) (ht : ∀ e, c.token ≠ .held e)
    (e : ε) : id ∉ (s.frames e).map Prod.fst :=
  fun hmem => ht e ((h.held_iff hc e).mp hmem)

/-- The object changes and its message stays where it is. -/
theorem Consistent.set {s : State ρ ε} (h : Consistent s) {id : ℕ} {c c' : LocalOperationCaller ρ ε}
    (hc : s.calls id = some c) (ht : c'.token = c.token)
    (hx : c'.retv.executed = c.retv.executed) : Consistent (s.set id c') := by
  refine h.move ?_ h.queues ?_ h.frames ?_
  · intro e i
    by_cases hi : i = id
    · rw [if_pos hi, hi, ht]
      exact h.queued_iff hc e
    · rw [if_neg hi]
  · intro e i
    by_cases hi : i = id
    · rw [if_pos hi, hi, ht]
      exact h.held_iff hc e
    · rw [if_neg hi]
  · intro e i stage hmem
    by_cases hi : i = id
    · subst hi
      have hfits := h.stages e i stage c hmem hc
      rw [if_pos rfl]
      cases stage with
      | test => trivial
      | execute => exact hx.trans hfits
      | handBack => exact hx.trans hfits
      | dispose => exact hx.trans hfits
    · rw [if_neg hi]
      exact hmem

theorem Consistent.send {s : State ρ ε} (h : Consistent s) {id : ℕ} {c : LocalOperationCaller ρ ε}
    (hnew : s.calls id = none) (ht : c.token = .none) : Consistent (s.set id c) := by
  have hq : ∀ e, id ∉ s.queues e := by
    intro e hmem
    obtain ⟨c', hc', -⟩ := (h.queued e id).mp hmem
    rw [hnew] at hc'
    cases hc'
  have hf : ∀ e, id ∉ (s.frames e).map Prod.fst := by
    intro e hmem
    obtain ⟨c', hc', -⟩ := (h.held e id).mp hmem
    rw [hnew] at hc'
    cases hc'
  refine h.move ?_ h.queues ?_ h.frames ?_
  · intro e i
    by_cases hi : i = id
    · simp [hi, hq e, ht]
    · rw [if_neg hi]
  · intro e i
    by_cases hi : i = id
    · rw [if_pos hi, hi, ht]
      exact ⟨fun hmem => absurd hmem (hf e), nofun⟩
    · rw [if_neg hi]
  · intro e i stage hmem
    by_cases hi : i = id
    · subst hi
      exact absurd (List.mem_map_of_mem (f := Prod.fst) hmem) (hf e)
    · rw [if_neg hi]
      exact hmem

section
variable [DecidableEq ε]

/-- A message that is in no queue is put at the end of the queue of `e`. -/
theorem mem_enqueue {q : ε → List ℕ} {id : ℕ} (hq : ∀ e, id ∉ q e) (e e' : ε) (i : ℕ) :
    i ∈ Function.update q e (q e ++ [id]) e' ↔ if i = id then e = e' else i ∈ q e' := by
  by_cases he : e' = e
  · subst he
    by_cases hi : i = id
    · simp [hi]
    · simp [hi]
  · rw [Function.update_of_ne he]
    by_cases hi : i = id
    · rw [if_pos hi, hi]
      exact ⟨fun hmem => absurd hmem (hq e'), fun heq => absurd heq.symm he⟩
    · rw [if_neg hi]

theorem nodup_enqueue {q : ε → List ℕ} {id : ℕ} (hqn : ∀ e, (q e).Nodup) (hq : ∀ e, id ∉ q e)
    (e e' : ε) : (Function.update q e (q e ++ [id]) e').Nodup := by
  by_cases he : e' = e
  · subst he
    rw [Function.update_self, List.nodup_append]
    refine ⟨hqn e', List.nodup_singleton id, ?_⟩
    rintro i hi j hj rfl
    rw [List.mem_singleton] at hj
    exact hq e' (hj ▸ hi)
  · rw [Function.update_of_ne he]
    exact hqn e'

/-- The message is put into the queue of the engine `e` by its sender. -/
theorem Consistent.enqueue {s : State ρ ε} (h : Consistent s) {id : ℕ}
    {c c' : LocalOperationCaller ρ ε} {e : ε}
    (hc : s.calls id = some c) (ht : c.token = .none) (ht' : c'.token = .queued e) :
    Consistent ((s.set id c').enqueue e id) := by
  have hq := h.not_queued hc (by rw [ht]; nofun)
  have hf := h.not_held hc (by rw [ht]; nofun)
  refine h.move ?_ (nodup_enqueue h.queues hq e) ?_ h.frames ?_
  · intro e' i
    rw [ht', Token.queued.injEq]
    exact mem_enqueue hq e e' i
  · intro e' i
    by_cases hi : i = id
    · rw [if_pos hi, hi, ht']
      exact ⟨fun hmem => absurd hmem (hf e'), nofun⟩
    · rw [if_neg hi]
      rfl
  · intro e' i stage hmem
    by_cases hi : i = id
    · subst hi
      exact absurd (List.mem_map_of_mem (f := Prod.fst) hmem) (hf e')
    · rw [if_neg hi]
      exact hmem

theorem Consistent.dequeue {s : State ρ ε} (h : Consistent s) {id : ℕ}
    {c c' : LocalOperationCaller ρ ε} {e : ε}
    {q : List ℕ} {fs : List (ℕ × Stage)} (hc : s.calls id = some c) (hqs : s.queues e = id :: q)
    (hfs : s.frames e = fs) (ht' : c'.token = .held e) :
    Consistent (({ s with queues := Function.update s.queues e q }.set id c').frame e
      ((id, .test) :: fs)) := by
  have hnodup := h.queues e
  rw [hqs, List.nodup_cons] at hnodup
  have ht : c.token = .queued e :=
    (h.queued_iff hc e).mp (by rw [hqs]; exact List.mem_cons_self)
  have hf := h.not_held hc (by rw [ht]; nofun)
  refine h.move ?_ ?_ ?_ ?_ ?_
  · intro e' i
    show i ∈ Function.update s.queues e q e' ↔ _
    by_cases he : e' = e
    · subst he
      rw [Function.update_self, hqs]
      by_cases hi : i = id
      · simp [hi, ht', hnodup.1]
      · simp [hi]
    · rw [Function.update_of_ne he]
      by_cases hi : i = id
      · have hout : id ∉ s.queues e' := by
          intro hmem
          have htok := (h.queued_iff hc e').mp hmem
          rw [ht] at htok
          exact he (Token.queued.inj htok).symm
        simp [hi, ht', hout]
      · rw [if_neg hi]
  · intro e'
    show (Function.update s.queues e q e').Nodup
    by_cases he : e' = e
    · subst he
      rw [Function.update_self]
      exact hnodup.2
    · rw [Function.update_of_ne he]
      exact h.queues e'
  · intro e' i
    show i ∈ (Function.update s.frames e ((id, .test) :: fs) e').map Prod.fst ↔ _
    by_cases he : e' = e
    · subst he
      rw [Function.update_self, ← hfs]
      by_cases hi : i = id
      · simp [hi, ht']
      · simp [hi]
    · rw [Function.update_of_ne he]
      by_cases hi : i = id
      · rw [if_pos hi, hi, ht']
        exact ⟨fun hmem => absurd hmem (hf e'), fun heq => absurd (Token.held.inj heq).symm he⟩
      · rw [if_neg hi]
  · intro e'
    show ((Function.update s.frames e ((id, .test) :: fs) e').map Prod.fst).Nodup
    by_cases he : e' = e
    · subst he
      rw [Function.update_self, ← hfs, List.map_cons, List.nodup_cons]
      exact ⟨hf e', h.frames e'⟩
    · rw [Function.update_of_ne he]
      exact h.frames e'
  · intro e' i stage hmem
    have hmem' : (i, stage) ∈ Function.update s.frames e ((id, .test) :: fs) e' := hmem
    by_cases hi : i = id
    · subst hi
      rw [if_pos rfl]
      by_cases he : e' = e
      · subst he
        rw [Function.update_self, ← hfs] at hmem'
        rcases List.mem_cons.mp hmem' with heq | hin
        · cases heq
          trivial
        · exact absurd (List.mem_map_of_mem (f := Prod.fst) hin) (hf e')
      · rw [Function.update_of_ne he] at hmem'
        exact absurd (List.mem_map_of_mem (f := Prod.fst) hmem') (hf e')
    · rw [if_neg hi]
      by_cases he : e' = e
      · subst he
        rw [Function.update_self] at hmem'
        rcases List.mem_cons.mp hmem' with heq | hin
        · cases heq
          exact absurd rfl hi
        · rw [hfs]
          exact hin
      · rwa [Function.update_of_ne he] at hmem'

/-- The engine goes on with the message it processes, or is done with it. -/
theorem Consistent.reframe {s : State ρ ε} (h : Consistent s) {id : ℕ}
    {c c' : LocalOperationCaller ρ ε} {e : ε} {stage : Stage} {fs gs : List (ℕ × Stage)}
    {q : ε → List ℕ} (hc : s.calls id = some c) (hfs : s.frames e = (id, stage) :: fs)
    (hq : ∀ e' i, i ∈ q e' ↔ if i = id then c'.token = .queued e' else i ∈ s.queues e')
    (hqn : ∀ e', (q e').Nodup)
    (hgs : gs = fs ∧ (∀ e', c'.token ≠ .held e') ∨
      ∃ stage', gs = (id, stage') :: fs ∧ stage'.fits c' ∧ c'.token = .held e) :
    Consistent
      { calls := Function.update s.calls id (some c')
        queues := q
        frames := Function.update s.frames e gs } := by
  have hnodup := h.frames e
  rw [hfs, List.map_cons, List.nodup_cons] at hnodup
  have ht : c.token = .held e :=
    (h.held_iff hc e).mp (by rw [hfs]; exact List.mem_cons_self)
  have hout : ∀ e', e' ≠ e → id ∉ (s.frames e').map Prod.fst := by
    intro e' he hmem
    have htok := (h.held_iff hc e').mp hmem
    rw [ht] at htok
    exact he (Token.held.inj htok).symm
  refine h.move hq hqn ?_ ?_ ?_
  · intro e' i
    by_cases he : e' = e
    · subst he
      rw [Function.update_self, hfs]
      by_cases hi : i = id
      · rw [if_pos hi, hi]
        rcases hgs with ⟨rfl, hno⟩ | ⟨stage', rfl, -, hyes⟩
        · exact ⟨fun hmem => absurd hmem hnodup.1, fun heq => absurd heq (hno e')⟩
        · exact ⟨fun _ => hyes, fun _ => List.mem_cons_self⟩
      · rcases hgs with ⟨rfl, -⟩ | ⟨stage', rfl, -, -⟩
        · simp [hi]
        · simp [hi]
    · rw [Function.update_of_ne he]
      by_cases hi : i = id
      · rw [if_pos hi, hi]
        refine ⟨fun hmem => absurd hmem (hout e' he), fun heq => ?_⟩
        rcases hgs with ⟨-, hno⟩ | ⟨stage', -, -, hyes⟩
        · exact absurd heq (hno e')
        · rw [hyes] at heq
          exact absurd (Token.held.inj heq).symm he
      · rw [if_neg hi]
  · intro e'
    by_cases he : e' = e
    · subst he
      rw [Function.update_self]
      rcases hgs with ⟨rfl, -⟩ | ⟨stage', rfl, -, -⟩
      · exact hnodup.2
      · rw [List.map_cons, List.nodup_cons]
        exact hnodup
    · rw [Function.update_of_ne he]
      exact h.frames e'
  · intro e' i stage' hmem
    by_cases he : e' = e
    · subst he
      rw [Function.update_self] at hmem
      by_cases hi : i = id
      · subst hi
        rw [if_pos rfl]
        rcases hgs with ⟨rfl, -⟩ | ⟨stage'', rfl, hfits, -⟩
        · exact absurd (List.mem_map_of_mem (f := Prod.fst) hmem) hnodup.1
        · rcases List.mem_cons.mp hmem with heq | hin
          · cases heq
            exact hfits
          · exact absurd (List.mem_map_of_mem (f := Prod.fst) hin) hnodup.1
      · rw [if_neg hi, hfs]
        rcases hgs with ⟨rfl, -⟩ | ⟨stage'', rfl, -, -⟩
        · exact List.mem_cons_of_mem _ hmem
        · rcases List.mem_cons.mp hmem with heq | hin
          · cases heq
            exact absurd rfl hi
          · exact List.mem_cons_of_mem _ hin
    · rw [Function.update_of_ne he] at hmem
      by_cases hi : i = id
      · subst hi
        exact absurd (List.mem_map_of_mem (f := Prod.fst) hmem) (hout e' he)
      · rwa [if_neg hi]

end

/-! ### The invariant -/

structure Inv (s : State ρ ε) : Prop where
  consistent : Consistent s
  whole : ∀ id c, s.calls id = some c → Whole c

theorem create_inv : Inv (create (ρ := ρ) (ε := ε)) where
  consistent :=
    { queued := fun _ _ => ⟨fun h => (by cases h), fun ⟨_, h, _⟩ => (by cases h)⟩
      queues := fun _ => List.nodup_nil
      held := fun _ _ => ⟨fun h => (by cases h), fun ⟨_, h, _⟩ => (by cases h)⟩
      frames := fun _ => List.nodup_nil
      stages := fun _ _ _ _ h => by cases h }
  whole _ _ h := by cases h

theorem Inv.update {s s' : State ρ ε} (h : Inv s) {id : ℕ} {c : LocalOperationCaller ρ ε}
    (hs : Consistent s') (hc : Whole c) (hcalls : s'.calls = Function.update s.calls id (some c)) :
    Inv s' where
  consistent := hs
  whole i c' hc' := by
    rw [hcalls] at hc'
    by_cases hi : i = id
    · subst hi
      rw [Function.update_self] at hc'
      rwa [← Option.some.inj hc']
    · rw [Function.update_of_ne hi] at hc'
      exact h.whole i c' hc'

end OrocosRtt.Operation
