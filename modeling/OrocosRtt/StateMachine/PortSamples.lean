import OrocosRtt.StateMachine.PortEvents

/-! The samples that are read in one evaluation pass, and the guards that see them. -/
set_option linter.unusedSectionVars false

namespace OrocosRtt.StateMachine.PortEvents

open Library.Log Library.Scan
open OrocosRtt.Buffer (FlowStatus)

variable {σ ι ν δ V π : Type} [DecidableEq σ] [DecidableEq ι] [DecidableEq ν] [DecidableEq π]
variable {φ : δ → (ν → V) → Bool}

/-! ### What a pass keeps -/

/-- The record so far is in order, the variables hold what was read into them last, and the ports
`ps` have not been read. -/
structure Orderly (ps : List ι) (w : World σ ι ν δ V) : Prop where
  consistent : Throughout Access.consistent w.log
  held : ∀ x p v, sampleIn x w.log = some (p, v) → v = some (w.vars x)
  unread : ∀ p ∈ ps, ∀ a ∈ w.log, a.reads p = false

namespace Orderly

variable {ps : List ι} {w : World σ ι ν δ V}

theorem mono {qs : List ι} (h : Orderly ps w) (hq : ∀ p ∈ qs, p ∈ ps) : Orderly qs w :=
  ⟨h.consistent, h.held, fun p hp => h.unread p (hq p hp)⟩

/-- Only the variables and the record matter. -/
theorem congr {w' : World σ ι ν δ V} (h : Orderly ps w) (hv : w'.vars = w.vars)
    (hl : w'.log = w.log) : Orderly ps w' :=
  ⟨hl ▸ h.consistent, by rw [hl, hv]; exact h.held, hl ▸ h.unread⟩

theorem guard (h : Orderly ps w) {event : Option (PortEvent ι ν)} {sample : Option V} {e : δ}
    {b : Bool} (hc : Access.consistent (.guard event sample e b) w.log) :
    Orderly ps (w.record (.guard event sample e b)) where
  consistent := ⟨hc, h.consistent⟩
  held := h.held
  unread p hp a ha := by
    rcases List.mem_cons.mp ha with rfl | ha
    · rfl
    · exact h.unread p hp a ha

/-- A guard of a port event, when its variable holds a sample of the port. -/
theorem guarded (h : Orderly ps w) {event : PortEvent ι ν} {v : Option V} {guard : Option δ}
    {neg : Bool} (hs : guard.isSome → sampleIn event.evarg w.log = some (event.evname, v)) :
    Orderly ps (guarded φ event guard neg w).2 := by
  cases guard with
  | none => exact h
  | some e =>
    have hv := h.held _ _ _ (hs rfl)
    exact h.guard (hv ▸ hs rfl)

theorem guards (h : Orderly ps w) {l : List (Access ι ν δ V)}
    (hl : ∀ a ∈ l, ∃ e b, a = .guard none none e b) :
    Orderly ps { w with log := l ++ w.log } := by
  induction l with
  | nil => exact h
  | cons a l ih =>
    obtain ⟨e, b, rfl⟩ := hl a List.mem_cons_self
    have ih := ih fun a ha => hl a (List.mem_cons_of_mem _ ha)
    exact guard (w := { w with log := l ++ w.log }) ih trivial

/-- A port that has not been read is read. -/
theorem read (h : Orderly ps w) {event : PortEvent ι ν}
    (hp : ∀ a ∈ w.log, a.reads event.evname = false) :
    Orderly (ps.filter fun p => p ≠ event.evname) (w.read event).2 ∧
      ((w.read event).1 = .newData →
        ∃ v, sampleIn event.evarg (w.read event).2.log = some (event.evname, v)) := by
  have hun (st : FlowStatus) (v : Option V) (p) (hm : p ∈ ps.filter fun p => p ≠ event.evname) (a)
      (ha : a ∈ Access.read event st v :: w.log) : a.reads p = false := by
    obtain ⟨hm, hne⟩ := List.mem_filter.mp hm
    have hne : event.evname ≠ p := fun he => of_decide_eq_true hne he.symm
    rcases List.mem_cons.mp ha with rfl | ha
    · exact decide_eq_false hne
    · exact h.unread p hm a ha
  unfold World.read
  dsimp only
  split
  · next _ v _ _ =>
    refine ⟨⟨⟨hp, h.consistent⟩, fun x p u hs => ?_, hun _ _⟩, fun _ => ⟨some v, ?_⟩⟩
    · by_cases hx : event.evarg = x
      · subst hx
        have hs : event.evname = p ∧ some v = u := by simpa [World.record, sampleIn] using hs
        simp [World.record, ← hs.2]
      · simp only [World.record, sampleIn, hx, false_and, if_false] at hs
        simpa [World.record, Function.update_of_ne (Ne.symm hx)] using h.held x p u hs
    · simp [World.record, sampleIn]
  · refine ⟨⟨⟨hp, h.consistent⟩, fun x p u hs => ?_, hun _ _⟩, fun hn => by cases hn⟩
    by_cases hx : event.evarg = x
    · simp [World.record, sampleIn, hx] at hs
    · simp only [World.record, sampleIn, hx, false_and, if_false] at hs
      simpa [World.record, Function.update_of_ne (Ne.symm hx)] using h.held x p u hs
  · refine ⟨⟨⟨hp, h.consistent⟩, fun x p u hs => ?_, hun _ _⟩, fun hn => by cases hn⟩
    simp only [World.record, sampleIn, ne_eq, not_true, and_false, if_false] at hs
    exact h.held x p u hs

end Orderly

/-! ### One transition -/

/-- The conditions for which a pass goes wrong when a port has new data: one that would read the
port again, and a guard whose variable does not hold the sample. -/
def Careful (cnd : Condition σ ι ν δ) (w : World σ ι ν δ V) : Prop :=
  match cnd with
  | .and (.boolDataSource c) rest => w.results c = true → rest.reads = false ∧
      ∀ event e, (some event, e) ∈ rest.guards →
        ∃ v, sampleIn event.evarg w.log = some (event.evname, v)
  | _ => True

/-- If the condition is that of an else branch on a port, the guard was evaluated and false. -/
def ElseRefused (cnd : Condition σ ι ν δ) (l : List (Access ι ν δ V)) : Prop :=
  cnd.isElse = true → ∀ p, cnd.port = some p → ∃ event sample e, event.evname = p ∧
    (some event, e) ∈ cnd.guards ∧ .guard (some event) sample e false ∈ l

theorem OnPort.guard_isSome {c : Result σ ι} {event : PortEvent ι ν} {guard : Option δ}
    {neg : Bool} {cnd : Condition σ ι ν δ} {reads : Bool} (h : OnPort c event guard reads neg cnd)
    (hn : neg = true) : guard.isSome := by
  induction h with
  | first => cases hn
  | target _ ih => exact ih hn
  | elseTarget _ hg _ => exact hg

/-- A condition that asks for a shared result, or for the one of its own port again. -/
theorem Orderly.onResult {ps : List ι} {w : World σ ι ν δ V} (h : Orderly ps w) {c : Result σ ι}
    {event : PortEvent ι ν} {guard : Option δ} {reads neg : Bool} {cnd : Condition σ ι ν δ}
    (ho : OnPort c event guard reads neg cnd) (hport : c.port = event.evname)
    (hfirst : cnd = firstCondition c event guard reads → reads = false)
    (hcare : Careful cnd w) : Orderly ps (cnd.evaluate φ w).2 ∧
      ((cnd.evaluate φ w).1 = true → ElseRefused cnd (cnd.evaluate φ w).2.log) := by
  cases hc : w.results c with
  | false =>
    have he : cnd.evaluate φ w = (false, w) := by
      cases ho with
      | first =>
        obtain rfl := hfirst rfl
        exact OnPort.first.evaluate_off hc
      | target _ => simp [Condition.evaluate, hc]
      | elseTarget _ _ => simp [Condition.evaluate, hc]
    rw [he]
    exact ⟨h, fun hf => by cases hf⟩
  | true =>
    have hreads : reads = false := by
      cases ho with
      | first => exact hfirst rfl
      | target ho => exact ho.reads.symm.trans (hcare hc).1
      | elseTarget ho _ => exact ho.reads.symm.trans (hcare hc).1
    subst hreads
    have hsample : guard.isSome → ∃ v, sampleIn event.evarg w.log = some (event.evname, v) := by
      intro hg
      obtain ⟨e, rfl⟩ := Option.isSome_iff_exists.mp hg
      cases ho with
      | first => exact (hcare hc).2 event e (by simp [Condition.guards])
      | target ho => exact (hcare hc).2 event e (by simp [ho.guards])
      | elseTarget ho _ => exact (hcare hc).2 event e (by simp [Condition.guards, ho.guards])
    rw [ho.evaluate_on hc]
    cases guard with
    | none =>
      refine ⟨h, fun _ hneg => ?_⟩
      cases ho.guard_isSome (ho.isElse.symm.trans hneg)
    | some e =>
      obtain ⟨v, hv⟩ := hsample rfl
      refine ⟨h.guarded fun _ => hv, fun hb hneg p hp => ?_⟩
      rw [ho.isElse] at hneg
      subst hneg
      obtain rfl := Option.some.inj (ho.port.symm.trans hp)
      have hfalse : φ e w.vars = false := by simpa [PortEvents.guarded] using hb
      refine ⟨event, some (w.vars event.evarg), e, hport.symm, by simp [ho.guards], ?_⟩
      simp [PortEvents.guarded, World.record, hfalse]

/-- The condition that reads its port. -/
theorem Orderly.first {ps : List ι} {w : World σ ι ν δ V} {event : PortEvent ι ν}
    (h : Orderly (event.evname :: ps) w) (hn : event.evname ∉ ps) (c : Result σ ι)
    (guard : Option δ) : Orderly ps ((firstCondition c event guard true).evaluate φ w).2 := by
  obtain ⟨hread, hnew⟩ := h.read (h.unread event.evname List.mem_cons_self)
  have hread : Orderly ps (w.read event).2 := by
    apply hread.mono
    intro p hp
    simp only [List.mem_filter, List.mem_cons, hp, or_true, true_and, decide_eq_true_eq]
    exact fun he => hn (he ▸ hp)
  have hcache (b : Bool) : Orderly ps ((w.read event).2.setResult c b) := hread.congr rfl rfl
  cases guard with
  | none => exact hcache _
  | some e =>
    simp only [firstCondition, combine, Option.map_some, if_true, Condition.evaluate]
    cases hs : decide ((w.read event).1 = .newData) with
    | false => exact hcache false
    | true =>
      obtain ⟨v, hv⟩ := hnew (of_decide_eq_true hs)
      have hg := (hcache true).held _ _ _ hv
      exact (hcache true).guard (hg ▸ hv)

theorem Plain.evaluate {cnd : Condition σ ι ν δ} (h : Plain cnd) {ps : List ι}
    {w : World σ ι ν δ V} (hw : Orderly ps w) : Orderly ps (cnd.evaluate φ w).2 := by
  induction h with
  | always => exact hw
  | expression e => exact hw.guard trivial
  | invert _ ih => exact ih

variable {G : StateGraph σ π (Condition σ ι ν δ)}
variable {W : Surroundings π (Condition σ ι ν δ) (World σ ι ν δ V)}

theorem Orderly.evaluate {curstate : Option σ} {gp ps : List ι} {cnd : Condition σ ι ν δ}
    {w : World σ ι ν δ V} (hs : Shape curstate gp cnd)
    (h : Orderly ((firstRead cnd).toList ++ ps) w) (hn : ((firstRead cnd).toList ++ ps).Nodup)
    (hcare : Careful cnd w) : Orderly ps (cnd.evaluate φ w).2 ∧
      ((cnd.evaluate φ w).1 = true → ElseRefused cnd (cnd.evaluate φ w).2.log) := by
  have hmono := h.mono fun p hp => List.mem_append_right (firstRead cnd).toList hp
  cases hs with
  | plain hp =>
    refine ⟨hp.evaluate hmono, fun _ _ p hport => ?_⟩
    rw [hp.port] at hport
    cases hport
  | shared _ ho => exact hmono.onResult ho rfl (fun _ => rfl) hcare
  | @own event guard reads neg _ _ ho =>
    by_cases hfirst : cnd = firstCondition ⟨curstate, event.evname⟩ event guard true
    · subst hfirst
      have hf : firstRead (firstCondition (⟨curstate, event.evname⟩ : Result σ ι) event guard true) =
          some event.evname := by cases guard <;> rfl
      rw [hf] at h hn
      refine ⟨h.first (List.nodup_cons.mp hn).1 _ guard, fun _ hneg => ?_⟩
      cases guard <;> cases hneg
    · refine hmono.onResult ho rfl (fun he => ?_) hcare
      cases reads with
      | false => rfl
      | true => exact absurd he hfirst

theorem Orderly.attempt {τ : Type} {f : τ → Option σ} {curstate : Option σ} {gp ps : List ι}
    {t : Transition τ π (Condition σ ι ν δ)} {w : World σ ι ν δ V}
    (hpre : ∀ s, ∀ c ∈ G.precondMap s, ∃ e, c.1 = .expression none e)
    (hs : Shape curstate gp t.cnd) (h : Orderly ((firstRead t.cnd).toList ++ ps) w)
    (hn : ((firstRead t.cnd).toList ++ ps).Nodup) (hcare : Careful t.cnd w) :
    Orderly ps (attempt G (surroundings φ W) f t w).2 ∧
      ((attempt G (surroundings φ W) f t w).1 = true →
        ElseRefused t.cnd (attempt G (surroundings φ W) f t w).2.log) := by
  obtain ⟨he, helse⟩ := h.evaluate (φ := φ) hs hn hcare
  simp only [OrocosRtt.StateMachine.attempt]
  rw [show (surroundings φ W).evaluate t.cnd w = t.cnd.evaluate φ w from rfl]
  generalize t.cnd.evaluate φ w = r at he helse
  obtain ⟨b, w₁⟩ := r
  cases b with
  | false => exact ⟨he, fun hf => by cases hf⟩
  | true =>
    obtain ⟨-, l, hl, hw⟩ := allHold_preconditions (φ := φ) (W := W)
      (hpre (f t.target)) w₁
    simp only [hw]
    refine ⟨he.guards hl, fun _ hneg p hp => ?_⟩
    obtain ⟨event, sample, e, hev, hg, hm⟩ := helse rfl hneg p hp
    exact ⟨event, sample, e, hev, hg, List.mem_append_right l hm⟩

/-! ### A pass -/

theorem Orderly.scan {τ : Type} {f : τ → Option σ} {curstate : Option σ} {gp ps : List ι}
    {ts : List (Transition τ π (Condition σ ι ν δ))} {w : World σ ι ν δ V}
    (hpre : ∀ s, ∀ c ∈ G.precondMap s, ∃ e, c.1 = .expression none e)
    (hs : ∀ t ∈ ts, Shape curstate gp t.cnd) (hn : (reading ts ++ ps).Nodup)
    (h : Orderly (reading ts ++ ps) w)
    (hcare : ∀ pre t post w₁, ts = pre ++ t :: post →
      Refused (OrocosRtt.StateMachine.attempt G (surroundings φ W) f) pre w w₁ →
      Careful t.cnd w₁) :
    Orderly ps (scan (OrocosRtt.StateMachine.attempt G (surroundings φ W) f) ts w).2 ∧
      ∀ t, (scan (OrocosRtt.StateMachine.attempt G (surroundings φ W) f) ts w).1 = some t →
        ElseRefused t.cnd
          (scan (OrocosRtt.StateMachine.attempt G (surroundings φ W) f) ts w).2.log := by
  induction ts generalizing w with
  | nil => exact ⟨h, fun t ht => by cases ht⟩
  | cons t ts ih =>
    have hsplit : reading (t :: ts) = (firstRead t.cnd).toList ++ reading ts := by
      cases hf : firstRead t.cnd <;> simp [reading, hf]
    rw [hsplit, List.append_assoc] at hn h
    obtain ⟨hnext, helse⟩ := h.attempt (G := G) (W := W) (φ := φ) (f := f) hpre
      (hs t List.mem_cons_self) hn (hcare [] t ts w rfl (.nil w))
    have hcare' (w₁ : World σ ι ν δ V)
        (ha : OrocosRtt.StateMachine.attempt G (surroundings φ W) f t w = (false, w₁))
        (pre) (u : Transition τ π (Condition σ ι ν δ)) (post w₂) (he : ts = pre ++ u :: post)
        (hr : Refused (OrocosRtt.StateMachine.attempt G (surroundings φ W) f) pre w₁ w₂) :
        Careful u.cnd w₂ := hcare (t :: pre) u post w₂ (by rw [he]; rfl) (.cons ha hr)
    simp only [Library.Scan.scan]
    cases ha : OrocosRtt.StateMachine.attempt G (surroundings φ W) f t w with
    | mk b w₁ =>
      rw [ha] at hnext helse
      cases b with
      | true =>
        refine ⟨hnext.mono fun p hp => List.mem_append_right _ hp, fun u hu => ?_⟩
        cases hu
        exact helse rfl
      | false =>
        exact ih (fun u hu => hs u (List.mem_cons_of_mem t hu)) (List.nodup_append.mp hn).2.1 hnext
          (hcare' w₁ ha)

/-! ### What a pass records -/

theorem Condition.evaluate_log (cnd : Condition σ ι ν δ) (w : World σ ι ν δ V) :
    w.log <:+ (cnd.evaluate φ w).2.log := by
  induction cnd generalizing w with
  | always | boolDataSource _ => exact List.suffix_rfl
  | expression _ _ => exact List.suffix_cons _ _
  | newData event =>
    simp only [evaluate, World.read]
    split <;> exact List.suffix_cons _ _
  | cache _ mc ih => exact ih w
  | and lhs rhs ihl ihr =>
    have hleft := ihl w
    simp only [evaluate]
    generalize lhs.evaluate φ w = r at hleft
    obtain ⟨b, w₁⟩ := r
    cases b with
    | true => exact hleft.trans (ihr w₁)
    | false => exact hleft
  | invert _ ih => exact ih w

/-- Trying a transition records what evaluating its condition does, and more. -/
theorem attempt_log {τ : Type} {f : τ → Option σ}
    (hpre : ∀ s, ∀ c ∈ G.precondMap s, ∃ e, c.1 = .expression none e)
    (t : Transition τ π (Condition σ ι ν δ)) (w : World σ ι ν δ V) :
    (t.cnd.evaluate φ w).2.log <:+ (attempt G (surroundings φ W) f t w).2.log := by
  simp only [attempt]
  rw [show (surroundings φ W).evaluate t.cnd w = t.cnd.evaluate φ w from rfl]
  rcases t.cnd.evaluate φ w with ⟨b, w₁⟩
  cases b with
  | false => exact List.suffix_rfl
  | true =>
    obtain ⟨-, l, -, hw⟩ := allHold_preconditions (φ := φ) (W := W)
      (hpre (f t.target)) w₁
    simp only [hw]
    exact List.suffix_append l w₁.log

theorem scan_log {τ : Type} {f : τ → Option σ}
    (hpre : ∀ s, ∀ c ∈ G.precondMap s, ∃ e, c.1 = .expression none e)
    (ts : List (Transition τ π (Condition σ ι ν δ))) (w : World σ ι ν δ V) :
    w.log <:+ (scan (attempt G (surroundings φ W) f) ts w).2.log :=
  scan_keeps (R := fun w' => w.log <:+ w'.log)
    (fun t w' h => h.trans ((t.cnd.evaluate_log w').trans (attempt_log hpre t w')))
    ts List.suffix_rfl

/-- With a result that is true the port is read by all the conditions of the statement that reads
it. -/
theorem OnPort.read {c : Result σ ι} {event : PortEvent ι ν} {guard : Option δ} {reads neg : Bool}
    {cnd : Condition σ ι ν δ} (h : OnPort c event guard reads neg cnd) (hr : reads = true)
    {w : World σ ι ν δ V} (hc : w.results c = true ∨ cnd = firstCondition c event guard true) :
    ∃ st v, .read event st v :: w.log <:+ (cnd.evaluate φ w).2.log := by
  subst hr
  have hfirst : ∃ st v, .read event st v :: w.log <:+
      ((firstCondition c event guard true).evaluate φ w).2.log := by
    have hread : ∃ st v, (w.read event).2.log = .read event st v :: w.log := by
      unfold World.read
      dsimp only
      split
      · exact ⟨_, _, rfl⟩
      · exact ⟨_, _, rfl⟩
      · exact ⟨_, _, rfl⟩
    obtain ⟨st, v, hl⟩ := hread
    refine ⟨st, v, ?_⟩
    rw [← hl]
    cases guard with
    | none => exact List.suffix_rfl
    | some e =>
      simp only [firstCondition, combine, Option.map_some, if_true, Condition.evaluate]
      cases decide ((w.read event).1 = .newData) with
      | true => exact List.suffix_cons _ _
      | false => exact List.suffix_rfl
  rcases hc with hc | rfl
  · induction h with
    | first => exact hfirst
    | target _ ih => simpa [Condition.evaluate, hc] using ih
    | elseTarget _ _ ih => simpa [Condition.evaluate, hc] using ih
  · exact hfirst

theorem Shape.read {curstate : Option σ} {gp : List ι} {cnd : Condition σ ι ν δ}
    (h : Shape curstate gp cnd) {p : ι} (hp : firstRead cnd = some p) (w : World σ ι ν δ V) :
    ∃ a ∈ (cnd.evaluate φ w).2.log, a.reads p = true := by
  obtain ⟨event, guard, rfl, rfl⟩ := h.first hp
  have ho : OnPort (⟨curstate, event.evname⟩ : Result σ ι) event guard true false
      (firstCondition ⟨curstate, event.evname⟩ event guard true) := .first
  obtain ⟨st, v, hs⟩ := ho.read (φ := φ) rfl (w := w) (.inr rfl)
  exact ⟨_, hs.subset List.mem_cons_self, by simp [Access.reads]⟩

/-- A condition that recorded what it should, of a port that was read before if it reads again. -/
theorem Shape.careful {curstate : Option σ} {gp : List ι} {cnd : Condition σ ι ν δ}
    (hs : Shape curstate gp cnd) {w : World σ ι ν δ V}
    (hok : Throughout Access.consistent (cnd.evaluate φ w).2.log)
    (hread : ∀ p, rereads cnd = some p → ∃ a ∈ w.log, a.reads p = true) : Careful cnd w := by
  have honPort {c : Result σ ι} {event : PortEvent ι ν} {guard : Option δ} {reads neg : Bool}
      (hport : c.port = event.evname) (ho : OnPort c event guard reads neg cnd)
      {rest : Condition σ ι ν δ} (he : cnd = .and (.boolDataSource c) rest)
      (hrest : reads = true → rereads cnd = some c.port) (hc : w.results c = true) :
      reads = false ∧ ∀ event' e, (some event', e) ∈ rest.guards →
        ∃ v, sampleIn event'.evarg w.log = some (event'.evname, v) := by
    have hreads : reads = false := by
      by_contra hr
      have hr : reads = true := by simpa using hr
      obtain ⟨st, v, hsuff⟩ := ho.read (φ := φ) hr (.inl hc)
      obtain ⟨a, ha, hap⟩ := hread c.port (hrest hr)
      have := (hok.of_suffix hsuff).1 a ha
      rw [hport] at hap
      rw [hap] at this
      cases this
    subst hreads
    refine ⟨rfl, fun event' e hm => ?_⟩
    have hm' : (some event', e) ∈ cnd.guards := by
      rw [he]
      exact List.mem_append_right _ hm
    rw [ho.guards] at hm'
    cases guard with
    | none => simp at hm'
    | some e' =>
      obtain ⟨rfl, rfl⟩ : event' = event ∧ e = e' := by simpa using hm'
      rw [ho.evaluate_on hc] at hok
      exact ⟨_, hok.1⟩
  have hcases {c : Result σ ι} {event : PortEvent ι ν} {guard : Option δ} {reads neg : Bool}
      (hport : c.port = event.evname) (ho : OnPort c event guard reads neg cnd) :
      Careful cnd w := by
    cases ho with
    | first =>
      cases guard with
      | none => cases reads <;> trivial
      | some e =>
        cases reads with
        | true => trivial
        | false => exact fun hc => ⟨rfl, (honPort hport .first rfl (fun h => by cases h) hc).2⟩
    | @target _ rest ho =>
      intro hc
      obtain ⟨hr, hg⟩ := honPort hport ho.target rfl (fun hr => by simp [rereads, ho.reads, hr]) hc
      exact ⟨ho.reads.trans hr, hg⟩
    | @elseTarget rest ho hsome =>
      intro hc
      have hrest : rest.invert.reads = reads := by simpa [Condition.reads] using ho.reads
      obtain ⟨hr, hg⟩ := honPort hport (ho.elseTarget hsome) rfl
        (fun hr => by simp [rereads, hrest, hr]) hc
      exact ⟨hrest.trans hr, hg⟩
  cases hs with
  | plain hp => cases hp <;> trivial
  | shared _ ho => exact hcases rfl ho
  | own _ ho => exact hcases rfl ho

/-! ### Passes of a script -/

/-- Everything that is recorded from here on. -/
def World.watched (w : World σ ι ν δ V) : World σ ι ν δ V := { w with log := [] }

/-- No condition is tried for which the pass goes wrong. -/
structure CarefulPass (G : StateGraph σ π (Condition σ ι ν δ))
    (W : Surroundings π (Condition σ ι ν δ) (World σ ι ν δ V)) (ts : List (Transition σ π _))
    (w : World σ ι ν δ V) : Prop where
  own : ∀ pre t post w₁, ts = pre ++ t :: post → Refused (attempt G W some) pre w w₁ →
    Careful t.cnd w₁
  global : ∀ w₁, Refused (attempt G W some) ts w w₁ → ∀ pre t post w₂,
    G.globalMap = pre ++ t :: post → Refused (attempt G W id) pre w₁ w₂ → Careful t.cnd w₂

/-- The condition of the transition that was chosen. -/
def chosenCnd : Choice σ π (Condition σ ι ν δ) → Option (Condition σ ι ν δ)
  | .own t => some t.cnd
  | .global t => some t.cnd
  | .handle => none

/-- What a pass leaves: ports read once, guards that saw the sample, and an else branch taken only
after its guard was false. -/
structure SampledOnce (r : Choice σ π (Condition σ ι ν δ) × World σ ι ν δ V) : Prop where
  consistent : Throughout Access.consistent r.2.log
  elseRefused : ∀ cnd, chosenCnd r.1 = some cnd → ElseRefused cnd r.2.log

variable {script : Script σ ι ν δ π}

theorem Orderly.reset {τ : Type} {ps : List ι} (l : List (Transition τ π (Condition σ ι ν δ)))
    {w : World σ ι ν δ V} (h : Orderly ps w) :
    Orderly ps (Machine.resetConditions (surroundings φ W) l w) := by
  have hcnd (cnd : Condition σ ι ν δ) (w : World σ ι ν δ V) (h : Orderly ps w) :
      Orderly ps (cnd.reset w) := by
    induction cnd generalizing w with
    | cache c mc _ => exact h.congr rfl rfl
    | and lhs rhs ihl ihr => exact ihr _ (ihl w h)
    | always | expression _ _ | newData _ | boolDataSource _ | invert _ _ => exact h
  induction l generalizing w with
  | nil => exact h
  | cons t l ih => exact ih (hcnd t.cnd w h)

theorem Orderly.watched (ps : List ι) (w : World σ ι ν δ V) : Orderly ps w.watched where
  consistent := trivial
  held _ _ _ h := by cases h
  unread _ _ _ ha := by cases ha

/-- A careful pass reads each port once. -/
theorem Script.Loads.sampledOnce (hL : script.Loads G) {s : σ} {k : ℕ} {w : World σ ι ν δ V}
    (hw : Orderly (reading ((G.stateMap s).drop k) ++ reading G.globalMap) w)
    (hcare : CarefulPass G (surroundings φ W) ((G.stateMap s).drop k) w) :
    SampledOnce (choose G (surroundings φ W) ((G.stateMap s).drop k) w) := by
  have hps := script.parseState_parsed s
  have hpg := script.parseGlobals_parsed
  have hshape (t) (ht : t ∈ (G.stateMap s).drop k) :
      Shape (some s) script.parseGlobals.globalPorts t.cnd := by
    rw [← script.parseState_globalPorts s]
    exact hps.shapes t (hL.locals s ▸ List.mem_of_mem_drop ht)
  have hgshape (t) (ht : t ∈ G.globalMap) :
      Shape none script.parseGlobals.globalPorts t.cnd := hpg.shapes t (hL.globals ▸ ht)
  have hsub : (reading ((G.stateMap s).drop k)).Sublist (reading (G.stateMap s)) :=
    (List.drop_sublist k _).filterMap _
  have hnodup : (reading ((G.stateMap s).drop k) ++ reading G.globalMap).Nodup := by
    refine List.nodup_append.mpr ⟨?_, hL.globals ▸ hpg.nodup, fun p hp q hq he => ?_⟩
    · exact (hL.locals s ▸ hps.nodup).sublist hsub
    · subst he
      have hcur := (hps.kept p).mp (hL.locals s ▸ hsub.subset hp)
      have hglob := (hpg.kept p).mp (hL.globals ▸ hq)
      have := hps.apart rfl p hcur
      rw [script.parseState_globalPorts] at this
      exact this hglob
  obtain ⟨hlocal, helse⟩ := hw.scan (G := G) (W := W) (φ := φ) (f := some)
    hL.preconditions hshape hnodup hcare.own
  simp only [choose]
  cases hs : scan (attempt G (surroundings φ W) some) ((G.stateMap s).drop k) w with
  | mk o w₁ =>
    rw [hs] at hlocal helse
    cases o with
    | some t =>
      refine ⟨hlocal.consistent, fun cnd hc => ?_⟩
      cases hc
      exact helse t rfl
    | none =>
      have hlocal' : Orderly (reading G.globalMap ++ []) w₁ := by rwa [List.append_nil]
      obtain ⟨hglobal, helse'⟩ := hlocal'.scan (G := G) (W := W) (φ := φ) (f := id)
        hL.preconditions hgshape (by simpa using (List.nodup_append.mp hnodup).2.1)
        (hcare.global w₁ (refused_of_scan hs))
      simp only
      cases hg : scan (attempt G (surroundings φ W) id) G.globalMap w₁ with
      | mk o w₂ =>
        rw [hg] at hglobal helse'
        cases o with
        | some t =>
          refine ⟨hglobal.consistent, fun cnd hc => ?_⟩
          cases hc
          exact helse' t rfl
        | none => exact ⟨hglobal.consistent, fun cnd hc => by cases hc⟩

/-- The port that a condition reads again was read before, in a pass from the first transition. -/
theorem read_before {τ : Type} {f : τ → Option σ} {curstate : Option σ} {gp : List ι}
    (hpre : ∀ s, ∀ c ∈ G.precondMap s, ∃ e, c.1 = .expression none e)
    {ts : List (Transition τ π (Condition σ ι ν δ))} (hs : ∀ t ∈ ts, Shape curstate gp t.cnd)
    (hb : ReadBefore ts) {pre post : List (Transition τ π (Condition σ ι ν δ))}
    {t : Transition τ π (Condition σ ι ν δ)} (hts : ts = pre ++ t :: post)
    {w w₁ : World σ ι ν δ V} (hr : Refused (attempt G (surroundings φ W) f) pre w w₁)
    {p : ι} (hp : rereads t.cnd = some p) : ∃ a ∈ w₁.log, a.reads p = true := by
  obtain ⟨u, hu, hread⟩ := hb pre t post hts p hp
  obtain ⟨pre₁, pre₂, rfl⟩ := List.append_of_mem hu
  obtain ⟨w₀, hr₁, hr₂⟩ := hr.split
  obtain ⟨a, ha, hap⟩ := (hs u (by simp [hts])).read (φ := φ) hread w₀
  refine ⟨a, ?_, hap⟩
  have h₁ := (attempt_log (φ := φ) (W := W) (f := f) hpre u w₀).subset ha
  exact hr₂.head.keeps (R := fun w' => a ∈ w'.log)
    (fun t w' h => (attempt_log hpre t w').subset ((t.cnd.evaluate_log w').subset h)) h₁

/-- A pass from the first transition that reads each port once is careful. -/
theorem Script.Loads.carefulPass (hL : script.Loads G) {s : σ} {w : World σ ι ν δ V}
    (h : SampledOnce (choose G (surroundings φ W) (G.stateMap s) w)) :
    CarefulPass G (surroundings φ W) (G.stateMap s) w := by
  have hps := script.parseState_parsed s
  have hpg := script.parseGlobals_parsed
  have hshape (t) (ht : t ∈ G.stateMap s) := hps.shapes t (hL.locals s ▸ ht)
  have hgshape (t) (ht : t ∈ G.globalMap) := hpg.shapes t (hL.globals ▸ ht)
  have hlog {τ : Type} {f : τ → Option σ} {pre post : List (Transition τ π _)} {t}
      {w w₁ : World σ ι ν δ V} (hr : Refused (attempt G (surroundings φ W) f) pre w w₁) :
      (t.cnd.evaluate φ w₁).2.log <:+
        (scan (attempt G (surroundings φ W) f) (pre ++ t :: post) w).2.log := by
    rw [scan_append hr]
    have ha := attempt_log (φ := φ) (W := W) (f := f) hL.preconditions t w₁
    simp only [Library.Scan.scan]
    cases hat : attempt G (surroundings φ W) f t w₁ with
    | mk b w₂ =>
      rw [hat] at ha
      cases b with
      | true => exact ha
      | false => exact ha.trans (scan_log hL.preconditions post w₂)
  have hall : (scan (attempt G (surroundings φ W) some) (G.stateMap s) w).2.log <:+
      (choose G (surroundings φ W) (G.stateMap s) w).2.log := by
    simp only [choose]
    cases hs : scan (attempt G (surroundings φ W) some) (G.stateMap s) w with
    | mk o w₁ =>
      cases o with
      | some t => exact List.suffix_rfl
      | none =>
        have hg := scan_log (φ := φ) (W := W) (f := id) hL.preconditions G.globalMap w₁
        simp only
        cases hgs : scan (attempt G (surroundings φ W) id) G.globalMap w₁ with
        | mk o w₂ =>
          rw [hgs] at hg
          cases o <;> exact hg
  constructor
  · intro pre t post w₁ hts hr
    refine (hshape t (by simp [hts])).careful (φ := φ) ?_ fun p hp =>
      read_before hL.preconditions hshape (hL.locals s ▸ hps.readBefore) hts hr hp
    refine h.consistent.of_suffix (List.IsSuffix.trans ?_ hall)
    rw [hts]
    exact hlog hr
  · intro w₁ hr pre t post w₂ hts hr'
    refine (hgshape t (by simp [hts])).careful (φ := φ) ?_ fun p hp =>
      read_before hL.preconditions hgshape (hL.globals ▸ hpg.readBefore) hts hr' hp
    refine h.consistent.of_suffix ?_
    have hg := @hlog _ _ _ post t _ _ hr'
    rw [← hts] at hg
    simp only [choose, scan_of_refused hr]
    cases hgs : scan (attempt G (surroundings φ W) id) G.globalMap w₁ with
    | mk o w₃ =>
      rw [hgs] at hg
      cases o <;> exact hg

/-- The world in which the pass begins, with a new record. -/
def startWorld (G : StateGraph σ π (Condition σ ι ν δ)) (φ : δ → (ν → V) → Bool)
    (W : Surroundings π (Condition σ ι ν δ) (World σ ι ν δ V)) (k : ℕ) (w : World σ ι ν δ V) :
    World σ ι ν δ V :=
  Machine.passWorld G (surroundings φ W) k w.watched

/-- In a pass that is careful each port is read once, every guard on it sees that sample, and an
else branch is taken only if its guard is false; and only such a pass does this, if it begins with
the first transition. -/
theorem sampledOnce_iff (hL : script.Loads G)
    {m : Machine σ π (Condition σ ι ν δ) (World σ ι ν δ V)} {s : σ} {k : ℕ}
    (hm : m.Stands G s k) :
    { m with world := m.world.watched }.Takes G (surroundings φ W) s k
        (choose G (surroundings φ W) ((G.stateMap s).drop k)
          (startWorld G φ W k m.world)).1 ∧
      (CarefulPass G (surroundings φ W) ((G.stateMap s).drop k)
          (startWorld G φ W k m.world) →
        SampledOnce (choose G (surroundings φ W) ((G.stateMap s).drop k)
          (startWorld G φ W k m.world))) ∧
      (k = 0 →
        SampledOnce (choose G (surroundings φ W) ((G.stateMap s).drop k)
          (startWorld G φ W k m.world)) →
        CarefulPass G (surroundings φ W) ((G.stateMap s).drop k)
          (startWorld G φ W k m.world)) := by
  have hm' : { m with world := m.world.watched }.Stands G s k :=
    ⟨hm.current, hm.interruptible, hm.currentTrans, hm.reqstep, hm.le, hm.reqend⟩
  refine ⟨hm'.takes_iff.mpr rfl, fun hc => ?_, ?_⟩
  · refine hL.sampledOnce ?_ hc
    unfold startWorld Machine.passWorld
    split
    · exact (Orderly.watched _ m.world).reset G.globalMap
    · exact Orderly.watched _ m.world
  · rintro rfl h
    exact hL.carefulPass h

theorem sampledOnce_iff_waiting :
    SampledOnce (choose overriddenGraph (surroundings (fun e _ => e.elim) noPrograms)
      ((overriddenGraph.stateMap 0).drop 0)
      (startWorld overriddenGraph (fun e _ => e.elim) noPrograms 0 waiting.world)) := by
  refine (sampledOnce_iff (overriddenScript.graph_loads _ _ _ _ _) waiting_stands).2.1 ⟨?_, ?_⟩
  · intro pre t post w₁ ht _
    have hmem : t ∈ [localTransition] :=
      (show (overriddenGraph.stateMap 0).drop 0 = [localTransition] from rfl) ▸ ht ▸ by simp
    rw [List.mem_singleton.mp hmem]
    trivial
  · intro w₁ _ pre t post w₂ ht _
    have hmem : t ∈ [globalTransition] :=
      (show overriddenGraph.globalMap = [globalTransition] from rfl) ▸ ht ▸ by simp
    rw [List.mem_singleton.mp hmem]
    trivial

/-! The else branch of `elseScript`. The sample that waits is one for which the guard holds. -/

/-- The guard is the variable itself, the precondition is false. -/
def elseHolds (e : Bool) (vars : Unit → Bool) : Bool := e && vars ()

def oneTrue : World (Fin 3) Unit Unit Bool Bool where
  ports _ := ⟨[true], none⟩
  vars _ := false
  results _ := false
  traffic _ ports := ports
  clock := 0
  log := []

def undecided : Machine (Fin 3) Empty (Condition (Fin 3) Unit Unit Bool)
    (World (Fin 3) Unit Unit Bool Bool) :=
  (Machine.loading (fun _ => true) oneTrue).runOps elseGraph
    (surroundings elseHolds noPrograms) [.activate]

/-- The guard holds for the sample, but the target has to be refused for its precondition: the
port is read again, and the else branch is taken. -/
theorem else_after_guard :
    ¬ SampledOnce (choose elseGraph (surroundings elseHolds noPrograms)
      ((elseGraph.stateMap 0).drop 0) (startWorld elseGraph elseHolds noPrograms 0 undecided.world)) ∧
      (undecided.runOps elseGraph (surroundings elseHolds noPrograms)
        [.automatic, .execute]).current = some 2 := by
  refine ⟨fun h => ?_, by decide⟩
  have hlog : (choose elseGraph (surroundings elseHolds noPrograms)
      ((elseGraph.stateMap 0).drop 0)
      (startWorld elseGraph elseHolds noPrograms 0 undecided.world)).2.log =
      [.read ⟨(), ()⟩ .oldData (some true), .guard none none false false,
        .guard (some ⟨(), ()⟩) (some true) true true, .read ⟨(), ()⟩ .newData (some true)] := rfl
  have hread := h.consistent
  rw [hlog] at hread
  have := hread.1 (.read ⟨(), ()⟩ .newData (some true)) (by simp)
  cases this

end OrocosRtt.StateMachine.PortEvents
