import OrocosRtt.StateMachine.PortParser

/-! Evaluation passes over transitions on port events. -/
set_option linter.unusedSectionVars false

namespace OrocosRtt.StateMachine.PortEvents

open Library.Log Library.Scan
open OrocosRtt.Buffer (FlowStatus)

variable {σ ι ν δ V π : Type} [DecidableEq σ] [DecidableEq ι] [DecidableEq ν] [DecidableEq π]
variable {φ : δ → (ν → V) → Bool}

/-! ### Evaluating the conditions -/

namespace Condition

/-- The results that evaluating the condition can set. -/
def caches : Condition σ ι ν δ → List (Result σ ι)
  | cache c mc => c :: mc.caches
  | and lhs rhs => lhs.caches ++ rhs.caches
  | invert mc => mc.caches
  | always | expression .. | newData _ | boolDataSource _ => []

theorem read_results (event : PortEvent ι ν) (w : World σ ι ν δ V) :
    (w.read event).2.results = w.results := by
  unfold World.read
  dsimp only
  split <;> rfl

theorem evaluate_results {c : Result σ ι} {cnd : Condition σ ι ν δ} (h : c ∉ cnd.caches)
    (w : World σ ι ν δ V) : (cnd.evaluate φ w).2.results c = w.results c := by
  induction cnd generalizing w with
  | always | boolDataSource _ | expression _ _ => rfl
  | newData event => exact congrFun (read_results event w) c
  | cache c' mc ih =>
    obtain ⟨hne, h⟩ := not_or.mp (mt List.mem_cons.mpr h)
    have := ih h w
    simpa [evaluate, World.setResult, Function.update_of_ne hne] using this
  | and lhs rhs ihl ihr =>
    obtain ⟨hl, hr⟩ := not_or.mp (mt List.mem_append.mpr h)
    have hleft := ihl hl w
    simp only [evaluate]
    generalize lhs.evaluate φ w = r at hleft
    obtain ⟨b, w₁⟩ := r
    cases b with
    | true => exact (ihr hr w₁).trans hleft
    | false => exact hleft
  | invert mc ih => exact ih h w

end Condition

/-- What a statement on a port event does once its port has new data: the guard is evaluated. -/
def guarded (φ : δ → (ν → V) → Bool) (event : PortEvent ι ν) (guard : Option δ) (neg : Bool)
    (w : World σ ι ν δ V) : Bool × World σ ι ν δ V :=
  match guard with
  | none => (true, w)
  | some e => (φ e w.vars != neg,
      w.record (.guard (some event) (some (w.vars event.evarg)) e (φ e w.vars)))

namespace OnPort

variable {c : Result σ ι} {event : PortEvent ι ν} {guard : Option δ} {reads neg : Bool}
  {cnd : Condition σ ι ν δ}

theorem isElse (h : OnPort c event guard reads neg cnd) : cnd.isElse = neg := by
  induction h with
  | first => cases guard <;> cases reads <;> rfl
  | target _ ih => exact ih
  | elseTarget _ _ _ => rfl

theorem guards (h : OnPort c event guard reads neg cnd) :
    cnd.guards = guard.toList.map fun e => (some event, e) := by
  induction h with
  | first => cases guard <;> cases reads <;> rfl
  | target _ ih => simpa [Condition.guards] using ih
  | elseTarget _ _ ih => simpa [Condition.guards] using ih

theorem caches (h : OnPort c event guard reads neg cnd) :
    cnd.caches = if reads then [c] else [] := by
  induction h with
  | first => cases guard <;> cases reads <;> rfl
  | target _ ih => exact ih
  | elseTarget _ _ ih => exact ih

/-- Without a new sample nothing more is evaluated. -/
theorem evaluate_off (h : OnPort c event guard false neg cnd) {w : World σ ι ν δ V}
    (hc : w.results c = false) : cnd.evaluate φ w = (false, w) := by
  cases h with
  | first => cases guard <;> simp [firstCondition, combine, Condition.evaluate, hc]
  | target _ => simp [Condition.evaluate, hc]
  | elseTarget _ _ => simp [Condition.evaluate, hc]

/-- With a new sample the guard decides. -/
theorem evaluate_on (h : OnPort c event guard false neg cnd) {w : World σ ι ν δ V}
    (hc : w.results c = true) : cnd.evaluate φ w = guarded φ event guard neg w := by
  induction h with
  | first => cases guard <;> simp [firstCondition, combine, Condition.evaluate, guarded, hc]
  | target _ ih => simpa [Condition.evaluate, hc] using ih
  | elseTarget _ hg ih =>
    obtain ⟨e, rfl⟩ := Option.isSome_iff_exists.mp hg
    simp only [guarded, Bool.bne_false] at ih
    simp [Condition.evaluate, hc, guarded, ih]

end OnPort

theorem Plain.port {cnd : Condition σ ι ν δ} (h : Plain cnd) : cnd.port = none := by
  cases h <;> rfl

theorem Plain.caches {cnd : Condition σ ι ν δ} (h : Plain cnd) : cnd.caches = [] := by
  induction h with
  | always => rfl
  | expression _ => rfl
  | invert _ ih => exact ih

/-- A transition of a state sets no global result. -/
theorem Shape.caches {curstate : Option σ} {gp : List ι} {cnd : Condition σ ι ν δ}
    (h : Shape curstate gp cnd) : ∀ c ∈ cnd.caches, c.curstate = curstate := by
  cases h with
  | plain h => simp [h.caches]
  | shared _ h => simp [h.caches]
  | own _ h =>
    rw [h.caches]
    split <;> simp

/-! ### Resetting the conditions -/

theorem Condition.reset_results {c : Result σ ι} (cnd : Condition σ ι ν δ) (w : World σ ι ν δ V)
    (h : w.results c = false) : (cnd.reset w).results c = false := by
  induction cnd generalizing w with
  | cache c' mc _ =>
    by_cases hc : c = c'
    · subst hc
      simp [reset, World.setResult]
    · simpa [reset, World.setResult, Function.update_of_ne hc] using h
  | and lhs rhs ihl ihr => exact ihr _ (ihl w h)
  | always | expression _ _ | newData _ | boolDataSource _ | invert _ _ => exact h

theorem resetConditions_results {τ : Type} (W : Surroundings π (Condition σ ι ν δ) (World σ ι ν δ V))
    {l : List (Transition τ π (Condition σ ι ν δ))} {c : Result σ ι} {u} (hu : u ∈ l)
    {event : PortEvent ι ν} {guard : Option δ} (hc : u.cnd = firstCondition c event guard true)
    (w : World σ ι ν δ V) : (Machine.resetConditions (surroundings φ W) l w).results c = false := by
  obtain ⟨pre, post, rfl⟩ := List.append_of_mem hu
  have hkeep (l : List (Transition τ π (Condition σ ι ν δ))) (w : World σ ι ν δ V)
      (h : w.results c = false) :
      (Machine.resetConditions (surroundings φ W) l w).results c = false := by
    induction l generalizing w with
    | nil => exact h
    | cons t l ih => exact ih _ (t.cnd.reset_results w h)
  simp only [Machine.resetConditions, List.foldl_append, List.foldl_cons]
  apply hkeep post
  rw [hc]
  cases guard <;> simp [surroundings, firstCondition, combine, Condition.reset, World.setResult]

theorem Shape.first {curstate : Option σ} {gp : List ι} {cnd : Condition σ ι ν δ}
    (h : Shape curstate gp cnd) {p : ι} (hp : firstRead cnd = some p) :
    ∃ event guard, event.evname = p ∧ cnd = firstCondition ⟨curstate, p⟩ event guard true := by
  cases h with
  | plain h => cases h <;> cases hp
  | @shared event guard _ _ _ h => cases h <;> cases guard <;> cases hp
  | @own event guard reads _ _ _ h =>
    cases h with
    | first => cases guard <;> cases reads <;> cases hp <;> exact ⟨event, _, rfl, rfl⟩
    | target _ => cases hp
    | elseTarget _ _ => cases hp

namespace Script

variable {script : Script σ ι ν δ π} {G : StateGraph σ π (Condition σ ι ν δ)}

/-- A port that a global transition is on is read by one of the global transitions. -/
theorem Loads.global_first (h : script.Loads G) {u} (hu : u ∈ G.globalMap) {p : ι}
    (hp : u.cnd.port = some p) : p ∈ script.parseGlobals.globalPorts ∧
      ∃ u' ∈ G.globalMap, ∃ event guard, u'.cnd = firstCondition ⟨none, p⟩ event guard true := by
  have hg := script.parseGlobals_parsed
  rw [h.globals] at hu ⊢
  have hk : p ∈ script.parseGlobals.globalPorts := by
    rcases hg.known u hu p hp with hk | hk
    · exact hk
    · rw [hg.outside rfl] at hk
      cases hk
  refine ⟨hk, ?_⟩
  obtain ⟨u', hu', hread⟩ := List.mem_filterMap.mp ((hg.kept p).mpr hk)
  obtain ⟨event, guard, -, he⟩ := (hg.shapes u' hu').first hread
  exact ⟨u', hu', event, guard, he⟩

/-- A transition of a state on a port of a global one asks for the result of that. -/
theorem Loads.shared (h : script.Loads G) {s : σ} {t} (ht : t ∈ G.stateMap s) {u}
    (hu : u ∈ G.globalMap) {p : ι} (htp : t.cnd.port = some p) (hup : u.cnd.port = some p) :
    ∃ event guard, event.evname = p ∧ OnPort ⟨none, p⟩ event guard false t.cnd.isElse t.cnd := by
  have hgp := (h.global_first hu hup).1
  have hs := script.parseState_parsed s
  rw [h.locals] at ht
  cases hs.shapes t ht with
  | plain hp =>
    rw [hp.port] at htp
    cases htp
  | @shared event guard neg _ hg ho =>
    obtain rfl : event.evname = p := Option.some.inj (ho.port.symm.trans htp)
    exact ⟨event, guard, rfl, ho.isElse.symm ▸ ho⟩
  | @own event guard reads neg _ hg ho =>
    obtain rfl : event.evname = p := Option.some.inj (ho.port.symm.trans htp)
    rw [script.parseState_globalPorts] at hg
    exact absurd hgp (hg rfl)

end Script

/-! ### Trying a transition -/

variable {script : Script σ ι ν δ π} {G : StateGraph σ π (Condition σ ι ν δ)}
variable {W : Surroundings π (Condition σ ι ν δ) (World σ ι ν δ V)}

theorem evaluate_expression {e : δ} (w : World σ ι ν δ V) :
    (Condition.expression none e : Condition σ ι ν δ).evaluate φ w =
      (φ e w.vars, w.record (.guard none none e (φ e w.vars))) := rfl

/-- Preconditions look at the variables and leave everything as it is. -/
theorem allHold_preconditions {cs : List (Condition σ ι ν δ × ℕ)}
    (hcs : ∀ c ∈ cs, ∃ e, c.1 = .expression none e) (w : World σ ι ν δ V) :
    (((surroundings φ W).allHold cs w).1 = true ↔
        ∀ c ∈ cs, (c.1.evaluate φ w).1 = true) ∧
      ∃ l, (∀ a ∈ l, ∃ e b, a = .guard none none e b) ∧
        ((surroundings φ W).allHold cs w).2 = { w with log := l ++ w.log } := by
  induction cs generalizing w with
  | nil => exact ⟨by simp [Surroundings.allHold], [], by simp, rfl⟩
  | cons c cs ih =>
    obtain ⟨cnd, line⟩ := c
    obtain ⟨e, rfl⟩ : ∃ e, cnd = .expression none e := hcs (cnd, line) List.mem_cons_self
    have hc : (surroundings φ W).evaluate (.expression none e) w =
        (φ e w.vars, w.record (.guard none none e (φ e w.vars))) := rfl
    obtain ⟨hv, l, hl, hw⟩ := ih (fun c hm => hcs c (List.mem_cons_of_mem _ hm))
      (w.record (.guard none none e (φ e w.vars)))
    simp only [Surroundings.allHold, hc, List.mem_cons, forall_eq_or_imp, evaluate_expression]
    cases hb : φ e w.vars with
    | false =>
      refine ⟨by simp, [.guard none none e false], by simp, ?_⟩
      simp [World.record]
    | true =>
      rw [hb] at hv hw
      refine ⟨?_, l ++ [.guard none none e true], ?_, ?_⟩
      · refine hv.trans ⟨fun h => ⟨rfl, fun c hm => ?_⟩, fun h c hm => ?_⟩
        · obtain ⟨e', he'⟩ := hcs c (List.mem_cons_of_mem _ hm)
          simpa [he', evaluate_expression, World.record] using h c hm
        · obtain ⟨e', he'⟩ := hcs c (List.mem_cons_of_mem _ hm)
          simpa [he', evaluate_expression, World.record] using h.2 c hm
      · intro a ha
        rcases List.mem_append.mp ha with ha | ha
        · exact hl a ha
        · exact ⟨e, true, List.mem_singleton.mp ha⟩
      · simpa [World.record] using hw

/-- The transitions of a state leave the global results as they are. -/
theorem attempt_results (hL : script.Loads G) {s : σ} {t} (ht : t ∈ G.stateMap s) (p : ι)
    (w : World σ ι ν δ V) :
    (attempt G (surroundings φ W) some t w).2.results ⟨none, p⟩ = w.results ⟨none, p⟩ := by
  have hc : (⟨none, p⟩ : Result σ ι) ∉ t.cnd.caches := by
    intro hm
    rw [hL.locals] at ht
    cases ((script.parseState_parsed s).shapes t ht).caches _ hm
  have he := Condition.evaluate_results (φ := φ) hc w
  simp only [attempt]
  rw [show (surroundings φ W).evaluate t.cnd w = t.cnd.evaluate φ w from rfl]
  generalize t.cnd.evaluate φ w = r at he
  obtain ⟨b, w₁⟩ := r
  cases b with
  | false => exact he
  | true =>
    obtain ⟨-, l, -, hl⟩ := allHold_preconditions (φ := φ) (W := W)
      (hL.preconditions (some t.target)) w₁
    simp only [hl]
    exact he

/-! ### A local transition on the port of a global one -/

/-- A new sample waits at the port, and the guard of the transition holds for it. -/
def Offered (φ : δ → (ν → V) → Bool) (w : World σ ι ν δ V) (p : ι)
    (cnd : Condition σ ι ν δ) : Prop :=
  ∃ v rest, (w.found p).samples = v :: rest ∧ ∀ event e, (some event, e) ∈ cnd.guards →
    φ e (Function.update w.vars event.evarg v) = true

/-- The pass resumes an earlier one, with the global result that this one left true, and comes to
`t`; the guard holds of the variables as they are, and so do the preconditions. -/
def Resumed (G : StateGraph σ π (Condition σ ι ν δ))
    (W : Surroundings π (Condition σ ι ν δ) (World σ ι ν δ V)) (φ : δ → (ν → V) → Bool)
    (w : World σ ι ν δ V) (s : σ) (k : ℕ) (p : ι)
    (t : Transition σ π (Condition σ ι ν δ)) : Prop :=
  k ≠ 0 ∧ w.results ⟨none, p⟩ = true ∧
    ∃ pre post w₁, (G.stateMap s).drop k = pre ++ t :: post ∧
      Refused (attempt G (surroundings φ W) some) pre w w₁ ∧
      (∀ g ∈ t.cnd.guards, φ g.2 w₁.vars = true) ∧
      ∀ c ∈ G.precondMap (some t.target), (c.1.evaluate φ w₁).1 = true

/-- A transition on a shared result, tried by itself. -/
theorem attempt_shared (hL : script.Loads G) {t : Transition σ π (Condition σ ι ν δ)}
    {c : Result σ ι} {event : PortEvent ι ν} {guard : Option δ}
    (ho : OnPort c event guard false false t.cnd) (w : World σ ι ν δ V) :
    (attempt G (surroundings φ W) some t w).1 = true ↔ w.results c = true ∧
      (∀ g ∈ t.cnd.guards, φ g.2 w.vars = true) ∧
      ∀ c ∈ G.precondMap (some t.target), (c.1.evaluate φ w).1 = true := by
  have he : (surroundings φ W).evaluate t.cnd w = t.cnd.evaluate φ w := rfl
  cases hc : w.results c with
  | false => simp [attempt, he, ho.evaluate_off hc]
  | true =>
    have hpre (w₁ : World σ ι ν δ V) (hv : w₁.vars = w.vars) :
        ((surroundings φ W).allHold (G.precondMap (some t.target)) w₁).1 = true ↔
          ∀ c ∈ G.precondMap (some t.target), (c.1.evaluate φ w).1 = true := by
      refine (allHold_preconditions (hL.preconditions (some t.target)) w₁).1.trans ?_
      refine forall₂_congr fun c hm => ?_
      obtain ⟨e, hce⟩ := hL.preconditions (some t.target) c hm
      rw [hce, evaluate_expression, evaluate_expression, hv]
    rw [ho.guards]
    cases guard with
    | none => simpa [attempt, he, ho.evaluate_on hc, guarded] using hpre w rfl
    | some e =>
      cases hb : φ e w.vars with
      | false => simp [attempt, he, ho.evaluate_on hc, guarded, hb]
      | true =>
        simpa [attempt, he, ho.evaluate_on hc, guarded, hb] using
          hpre (w.record (.guard (some event) (some (w.vars event.evarg)) e true)) rfl

/-- The pass takes the local transition exactly in the resumed case. -/
theorem takes_shared_iff (hL : script.Loads G) {m : Machine σ π (Condition σ ι ν δ) (World σ ι ν δ V)}
    {s : σ} {k : ℕ} (hm : m.Stands G s k) {t} (ht : t ∈ G.stateMap s) {u} (hu : u ∈ G.globalMap)
    {p : ι} (htp : t.cnd.port = some p) (hup : u.cnd.port = some p) (helse : t.cnd.isElse = false) :
    m.Takes G (surroundings φ W) s k (.own t) ↔ Resumed G W φ m.world s k p t := by
  obtain ⟨event, guard, -, ho⟩ := hL.shared ht hu htp hup
  rw [helse] at ho
  obtain ⟨-, u', hu', event', guard', hcnd⟩ := hL.global_first hu hup
  rw [hm.takes_iff, choose_own_iff]
  have hkeep {pre : List (Transition σ π (Condition σ ι ν δ))} {w w₁ : World σ ι ν δ V}
      (hpre : ∀ a ∈ pre, a ∈ G.stateMap s)
      (hr : Refused (attempt G (surroundings φ W) some) pre w w₁) :
      w₁.results ⟨none, p⟩ = w.results ⟨none, p⟩ :=
    hr.keeps_of_mem (R := fun w' => w'.results ⟨none, p⟩ = w.results ⟨none, p⟩)
      (fun a ha w' h => (attempt_results hL (hpre a ha) p w').trans h) rfl
  have hmem {pre post : List (Transition σ π (Condition σ ι ν δ))}
      (he : (G.stateMap s).drop k = pre ++ t :: post) (a) (ha : a ∈ pre) : a ∈ G.stateMap s :=
    List.mem_of_mem_drop (he ▸ List.mem_append_left _ ha)
  constructor
  · rintro ⟨w', pre, post, w₁, he, hr, ha⟩
    obtain ⟨hc, hg, hp⟩ := (attempt_shared hL ho w₁).mp (by rw [ha])
    rw [hkeep (hmem he) hr] at hc
    by_cases hk : k = 0
    · -- a pass from the beginning resets the global results first
      rw [Machine.passWorld, if_pos hk, resetConditions_results W hu' hcnd] at hc
      cases hc
    · rw [Machine.passWorld, if_neg hk] at hc hr
      exact ⟨hk, hc, pre, post, w₁, he, hr, hg, hp⟩
  · rintro ⟨hk, hc, pre, post, w₁, he, hr, hg, hp⟩
    have hc₁ : w₁.results ⟨none, p⟩ = true := (hkeep (hmem he) hr).trans hc
    have ha := (attempt_shared (W := W) hL ho w₁).mpr ⟨hc₁, hg, hp⟩
    refine ⟨(attempt G (surroundings φ W) some t w₁).2, pre, post, w₁, he, ?_, ?_⟩
    · rwa [Machine.passWorld, if_neg hk]
    · rw [← ha]

/-- A local transition overrides a global one on its port in no pass but a resumed one. -/
theorem overrides_iff (hL : script.Loads G) {m : Machine σ π (Condition σ ι ν δ) (World σ ι ν δ V)}
    {s : σ} {k : ℕ} (hm : m.Stands G s k) {t} (ht : t ∈ G.stateMap s) {u} (hu : u ∈ G.globalMap)
    {p : ι} (htp : t.cnd.port = some p) (hup : u.cnd.port = some p) (helse : t.cnd.isElse = false) :
    (Offered φ m.world p t.cnd → m.Takes G (surroundings φ W) s k (.own t)) ↔
      (Offered φ m.world p t.cnd → Resumed G W φ m.world s k p t) := by
  rw [takes_shared_iff hL hm ht hu htp hup helse]

/-! Two states and one port. A sample waits in the beginning. -/

/-- A global transition on the port and, in the state `0`, a local one. -/
def overriddenScript : Script (Fin 3) Unit Unit Empty Empty where
  globals := [⟨some ⟨(), ()⟩, 1, .progselect (.selector 1 [])⟩]
  locals s := if s = 0 then [⟨some ⟨(), ()⟩, 2, .progselect (.selector 2 [])⟩] else []
  rank _ := -1

def overriddenGraph : StateGraph (Fin 3) Empty (Condition (Fin 3) Unit Unit Empty) :=
  overriddenScript.graph [0, 1, 2] (fun s => toString s.val) 0 2 fun _ => []

/-- A state with a guarded transition on the port to `1`, whose precondition is false, and an else
branch to `2`. -/
def elseScript : Script (Fin 3) Unit Unit Bool Empty where
  globals := []
  locals s := if s = 0 then
    [⟨some ⟨(), ()⟩, 1, .ifbranch true (.selector 1 []) (some (.selector 2 []))⟩] else []
  rank _ := 0

def elseGraph : StateGraph (Fin 3) Empty (Condition (Fin 3) Unit Unit Bool) :=
  elseScript.graph [0, 1, 2] (fun s => toString s.val) 0 2 fun s => if s = 1 then [(false, 2)] else []

def oneSample : World (Fin 3) Unit Unit Empty Unit where
  ports _ := ⟨[()], none⟩
  vars _ := ()
  results _ := false
  traffic _ ports := ports
  clock := 0
  log := []

def noPrograms {γ ω : Type} : Surroundings Empty γ ω where
  evaluate _ w := (true, w)
  resetCondition _ w := w
  resetProgram p := p.elim
  executeUntil p := p.elim
  executeStep p := p.elim
  initCommand := none

def waiting : Machine (Fin 3) Empty (Condition (Fin 3) Unit Unit Empty)
    (World (Fin 3) Unit Unit Empty Unit) :=
  (Machine.loading (fun _ => true) oneSample).runOps overriddenGraph
    (surroundings (fun e _ => e.elim) noPrograms) [.activate]

def localTransition : Transition (Fin 3) Empty (Condition (Fin 3) Unit Unit Empty) :=
  ⟨.boolDataSource ⟨none, ()⟩, 2, -1, 2, none⟩

def globalTransition : Transition (Option (Fin 3)) Empty (Condition (Fin 3) Unit Unit Empty) :=
  ⟨.cache ⟨none, ()⟩ (.newData ⟨(), ()⟩), some 1, 0, 1, none⟩

theorem waiting_stands : waiting.Stands overriddenGraph 0 0 := by
  constructor <;> first | rfl | decide

theorem overrides_iff_waiting :
    (Offered (fun e _ => e.elim) waiting.world () localTransition.cnd →
      waiting.Takes overriddenGraph (surroundings (fun e _ => e.elim) noPrograms) 0 0
        (.own localTransition)) ↔
      (Offered (fun e _ => e.elim) waiting.world () localTransition.cnd →
        Resumed overriddenGraph noPrograms (fun e _ => e.elim) waiting.world 0 0 ()
          localTransition) :=
  overrides_iff (overriddenScript.graph_loads _ _ _ _ _) waiting_stands
    (show localTransition ∈ overriddenGraph.stateMap 0 from List.mem_singleton.mpr rfl)
    (show globalTransition ∈ overriddenGraph.globalMap from List.mem_singleton.mpr rfl) rfl rfl rfl

/-- A sample waits and there is no guard, but the global transition is taken. -/
theorem local_overridden :
    ¬ (Offered (fun e _ => e.elim) waiting.world () localTransition.cnd →
      waiting.Takes overriddenGraph (surroundings (fun e _ => e.elim) noPrograms) 0 0
        (.own localTransition)) ∧
      (waiting.runOps overriddenGraph (surroundings (fun e _ => e.elim) noPrograms)
        [.automatic, .execute]).current = some 1 := by
  refine ⟨fun h => ?_, by decide⟩
  have hoff : Offered (fun e _ => e.elim) waiting.world () localTransition.cnd :=
    ⟨(), [], rfl, fun _ e => e.elim⟩
  have hglobal : (choose overriddenGraph (surroundings (fun e _ => e.elim) noPrograms)
      ((overriddenGraph.stateMap 0).drop 0) (Machine.passWorld overriddenGraph
        (surroundings (fun e _ => e.elim) noPrograms) 0 waiting.world)).1 =
      .global globalTransition := rfl
  cases hglobal.symm.trans (h hoff).1

end OrocosRtt.StateMachine.PortEvents
