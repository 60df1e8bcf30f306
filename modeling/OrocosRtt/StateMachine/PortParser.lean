import OrocosRtt.StateMachine.PortConditions

/-! How the transitions of a state machine script are parsed: the conditions of the transitions on
one port share the result of the one that reads it. -/
set_option linter.unusedSectionVars false

namespace OrocosRtt.StateMachine.PortEvents

variable {σ ι ν δ π : Type} [DecidableEq σ] [DecidableEq ι] [DecidableEq ν] [DecidableEq π]

/-! ### The grammar -/

/-- `progselect`: a `selector` names a state and the others after `or`. -/
inductive ProgSelect (σ π : Type) where
  | selector (first : σ) (others : List σ)
  | program (p : π) (selector : Option (σ × List σ))

inductive Transline (σ δ π : Type) where
  | progselect (ps : ProgSelect σ π)
  | ifbranch (c : δ) (ps : ProgSelect σ π) (elsebranch : Option (ProgSelect σ π))

/-- `transition` with a `transline`, or with an `eventline` on a port. -/
structure Statement (σ ι ν δ π : Type) where
  event : Option (PortEvent ι ν)
  line : ℕ
  transline : Transline σ δ π

/-- The global transitions come before the states. `rank` is where the priorities in a state
begin, after all that was parsed before it. -/
structure Script (σ ι ν δ π : Type) where
  globals : List (Statement σ ι ν δ π)
  locals : σ → List (Statement σ ι ν δ π)
  rank : σ → ℤ

namespace ProgSelect

def prog : ProgSelect σ π → Option π
  | selector .. => none
  | program p _ => some p

/-- What `doselect` is called with; `noselect` is for the current state, `self`. -/
def targets {τ : Type} (toTarget : σ → τ) (self : τ) : ProgSelect σ π → List τ
  | selector first others | program _ (some (first, others)) => (first :: others).map toTarget
  | program _ none => [self]

end ProgSelect

/-! ### The parser -/

/-- The members of the parser, with the list of transitions of the state it is in. -/
structure Parser (σ ι ν δ π τ : Type) where
  curcondition : Option (Condition σ ι ν δ)
  transProgram : Option π
  rank : ℤ
  /-- `global_port_events` -/
  globalPorts : List ι
  /-- `cur_port_events` -/
  curPorts : List ι
  transitions : List (Transition τ π (Condition σ ι ν δ))

/-- The condition of an event and the guard, if any. -/
def combine (ev : Condition σ ι ν δ) : Option (Condition σ ι ν δ) → Condition σ ι ν δ
  | none => ev
  | some c => .and ev c

namespace Parser

variable {τ : Type}

/-- The result of the port is kept for the other transitions of the state, or of all states. -/
def learn (curstate : Option σ) (p : ι) (st : Parser σ ι ν δ π τ) : Parser σ ι ν δ π τ :=
  match curstate with
  | some _ => { st with curPorts := p :: st.curPorts }
  | none => { st with globalPorts := p :: st.globalPorts }

/-- The condition of the event: the first one on a port reads it and keeps the result. -/
def evcondition (curstate : Option σ) (event : PortEvent ι ν) (st : Parser σ ι ν δ π τ) :
    Condition σ ι ν δ × Parser σ ι ν δ π τ :=
  if event.evname ∈ st.globalPorts then (.boolDataSource ⟨none, event.evname⟩, st)
  else if event.evname ∈ st.curPorts then (.boolDataSource ⟨curstate, event.evname⟩, st)
  else (.cache ⟨curstate, event.evname⟩ (.newData event), st.learn curstate event.evname)

/-- `curtemplate->transitionSet` with the current condition and program. -/
def install (line : ℕ) (target : τ) (cnd : Condition σ ι ν δ) (st : Parser σ ι ν δ π τ) :
    Parser σ ι ν δ π τ :=
  { st with
    curcondition := some cnd
    rank := st.rank - 1
    transitions := transitionSet ⟨cnd, target, st.rank, line, st.transProgram⟩ st.transitions }

def doselect (curstate : Option σ) (event : Option (PortEvent ι ν)) (line : ℕ)
    (st : Parser σ ι ν δ π τ) (target : τ) : Parser σ ι ν δ π τ :=
  match event with
  | none => st.install line target (st.curcondition.getD .always)
  | some event =>
    let (ev, st) := st.evcondition curstate event
    st.install line target (combine ev st.curcondition)

def progselect (curstate : Option σ) (toTarget : σ → τ) (self : τ)
    (event : Option (PortEvent ι ν)) (line : ℕ) (ps : ProgSelect σ π)
    (st : Parser σ ι ν δ π τ) : Parser σ ι ν δ π τ :=
  let st := match ps.prog with
    | some p => { st with transProgram := some p }
    | none => st
  (ps.targets toTarget self).foldl (doselect curstate event line) st

/-- `seencondition` -/
def seencondition (event : Option (PortEvent ι ν)) (c : δ) (st : Parser σ ι ν δ π τ) :
    Parser σ ι ν δ π τ :=
  { st with curcondition := some (.expression event c) }

def seenelse (st : Parser σ ι ν δ π τ) : Parser σ ι ν δ π τ :=
  { st with curcondition := st.curcondition.map .invert }

def seenendcondition (st : Parser σ ι ν δ π τ) : Parser σ ι ν δ π τ :=
  { st with curcondition := none, transProgram := none }

def statement (curstate : Option σ) (toTarget : σ → τ) (self : τ) (st : Parser σ ι ν δ π τ)
    (t : Statement σ ι ν δ π) : Parser σ ι ν δ π τ :=
  (match t.transline with
  | .progselect ps => st.progselect curstate toTarget self t.event t.line ps
  | .ifbranch c ps none =>
    (st.seencondition t.event c).progselect curstate toTarget self t.event t.line ps
  | .ifbranch c ps (some ps') =>
    let st := (st.seencondition t.event c).progselect curstate toTarget self t.event t.line ps
    st.seenelse.progselect curstate toTarget self t.event t.line ps').seenendcondition

end Parser

namespace Script

variable (script : Script σ ι ν δ π)

def parseGlobals : Parser σ ι ν δ π (Option σ) :=
  script.globals.foldl (Parser.statement none some none)
    { curcondition := none, transProgram := none, rank := 0, globalPorts := [], curPorts := []
      transitions := [] }

/-- The global ports are known by then, the ports of the state are not. -/
def parseState (s : σ) : Parser σ ι ν δ π σ :=
  (script.locals s).foldl (Parser.statement (some s) id s)
    { curcondition := none, transProgram := none, rank := script.rank s
      globalPorts := script.parseGlobals.globalPorts, curPorts := [], transitions := [] }

/-- The graph has the transitions of the script; a precondition is a condition from the text. -/
structure Loads (G : StateGraph σ π (Condition σ ι ν δ)) : Prop where
  locals : ∀ s, G.stateMap s = (script.parseState s).transitions
  globals : G.globalMap = script.parseGlobals.transitions
  preconditions : ∀ s, ∀ c ∈ G.precondMap s, ∃ e, c.1 = .expression none e

end Script

/-! ### The conditions of one statement -/

/-- The condition of the first target of a statement: `reads` if it is the one that reads the port,
otherwise it asks for the result of that. -/
def firstCondition (c : Result σ ι) (event : PortEvent ι ν) (guard : Option δ) (reads : Bool) :
    Condition σ ι ν δ :=
  combine (if reads then .cache c (.newData event) else .boolDataSource c)
    (guard.map (.expression (some event)))

/-- The conditions of a statement on a port event, one target after the other; `neg` is in the
else branch. -/
inductive OnPort (c : Result σ ι) (event : PortEvent ι ν) (guard : Option δ) (reads : Bool) :
    Bool → Condition σ ι ν δ → Prop where
  | first : OnPort c event guard reads false (firstCondition c event guard reads)
  | target {neg : Bool} {cnd : Condition σ ι ν δ} : OnPort c event guard reads neg cnd →
      OnPort c event guard reads neg (.and (.boolDataSource c) cnd)
  | elseTarget {cnd : Condition σ ι ν δ} : OnPort c event guard reads false cnd →
      guard.isSome → OnPort c event guard reads true (.and (.boolDataSource c) (.invert cnd))

/-- The conditions of a statement without an event. -/
inductive Plain : Condition σ ι ν δ → Prop where
  | always : Plain .always
  | expression (e : δ) : Plain (.expression none e)
  | invert {cnd : Condition σ ι ν δ} : Plain cnd → Plain (.invert cnd)

/-- What the condition of a transition of `curstate` looks like. -/
inductive Shape (curstate : Option σ) (globalPorts : List ι) : Condition σ ι ν δ → Prop where
  | plain {cnd : Condition σ ι ν δ} : Plain cnd → Shape curstate globalPorts cnd
  | shared {event : PortEvent ι ν} {guard : Option δ} {neg : Bool} {cnd : Condition σ ι ν δ} :
      event.evname ∈ globalPorts → OnPort ⟨none, event.evname⟩ event guard false neg cnd →
      Shape curstate globalPorts cnd
  | own {event : PortEvent ι ν} {guard : Option δ} {reads neg : Bool}
      {cnd : Condition σ ι ν δ} : (curstate.isSome → event.evname ∉ globalPorts) →
      OnPort ⟨curstate, event.evname⟩ event guard reads neg cnd → Shape curstate globalPorts cnd

theorem OnPort.port {c : Result σ ι} {event : PortEvent ι ν} {guard : Option δ} {reads neg : Bool}
    {cnd : Condition σ ι ν δ} (h : OnPort c event guard reads neg cnd) : cnd.port = some c.port := by
  cases h with
  | first => cases guard <;> cases reads <;> rfl
  | target _ => rfl
  | elseTarget _ _ => rfl

/-- The port that a condition always reads. -/
def firstRead : Condition σ ι ν δ → Option ι
  | .cache c _ | .and (.cache c _) _ => some c.port
  | _ => none

/-- The port that a condition reads again, when the result of the first read is true. -/
def rereads : Condition σ ι ν δ → Option ι
  | .and (.boolDataSource c) rest => if rest.reads then some c.port else none
  | _ => none

theorem OnPort.reads {c : Result σ ι} {event : PortEvent ι ν} {guard : Option δ} {neg : Bool}
    {cnd : Condition σ ι ν δ} {reads : Bool} (h : OnPort c event guard reads neg cnd) :
    cnd.reads = reads := by
  induction h with
  | first => cases guard <;> cases reads <;> rfl
  | target _ ih => simpa [Condition.reads] using ih
  | elseTarget _ _ ih => simpa [Condition.reads] using ih

theorem OnPort.rereads {c : Result σ ι} {event : PortEvent ι ν} {guard : Option δ}
    {reads neg : Bool} {cnd : Condition σ ι ν δ} (h : OnPort c event guard reads neg cnd) {p : ι}
    (hp : PortEvents.rereads cnd = some p) : reads = true ∧ p = c.port := by
  have hr {rest : Condition σ ι ν δ} (hrest : rest.reads = reads)
      (hp : PortEvents.rereads (.and (.boolDataSource c) rest) = some p) :
      reads = true ∧ p = c.port := by
    cases reads with
    | false => simp [PortEvents.rereads, hrest] at hp
    | true => simpa [PortEvents.rereads, hrest, eq_comm] using hp
  cases h with
  | first => cases guard <;> cases reads <;> cases hp
  | target ho => exact hr ho.reads hp
  | elseTarget ho _ => exact hr (by simpa [Condition.reads] using ho.reads) hp

/-! ### What is parsed -/

/-- The ports that the transitions of a list read, each once. -/
def reading {τ : Type} (l : List (Transition τ π (Condition σ ι ν δ))) : List ι :=
  l.filterMap fun t => firstRead t.cnd

theorem mem_transitionSet {τ γ : Type} {t u : Transition τ π γ} {l : List (Transition τ π γ)} :
    u ∈ transitionSet t l ↔ u = t ∨ u ∈ l := by
  simp [transitionSet, List.mem_orderedInsert]

theorem reading_transitionSet {τ : Type} (t : Transition τ π (Condition σ ι ν δ))
    (l : List (Transition τ π (Condition σ ι ν δ))) :
    (reading (transitionSet t l)).Perm ((firstRead t.cnd).toList ++ reading l) := by
  have h := (List.perm_orderedInsert (fun a b => b.priority < a.priority) t l).filterMap
    fun t => firstRead t.cnd
  refine h.trans ?_
  cases hf : firstRead t.cnd <;> simp [reading, hf]

/-- A port is read again only by transitions that come after the one that reads it first. -/
def ReadBefore {τ : Type} (l : List (Transition τ π (Condition σ ι ν δ))) : Prop :=
  ∀ pre t post, l = pre ++ t :: post → ∀ p, rereads t.cnd = some p →
    ∃ u ∈ pre, firstRead u.cnd = some p

theorem readBefore_nil {τ : Type} : ReadBefore ([] : List (Transition τ π (Condition σ ι ν δ))) := by
  intro pre t post he
  simp at he

theorem ReadBefore.concat {τ : Type} {l : List (Transition τ π (Condition σ ι ν δ))}
    {t : Transition τ π (Condition σ ι ν δ)} (h : ReadBefore l)
    (ht : ∀ p, rereads t.cnd = some p → p ∈ reading l) : ReadBefore (l ++ [t]) := by
  intro pre u post he p hp
  rcases List.append_eq_append_iff.mp he with ⟨l', rfl, hl'⟩ | ⟨l', rfl, hl'⟩
  · cases l' with
    | nil =>
      obtain ⟨rfl, -⟩ : t = u ∧ [] = post := by simpa using hl'
      obtain ⟨v, hv, hread⟩ := List.mem_filterMap.mp (ht p hp)
      exact ⟨v, by simpa using hv, hread⟩
    | cons a l' => simp at hl'
  · cases l' with
    | nil =>
      obtain ⟨rfl, -⟩ : u = t ∧ post = [] := by simpa using hl'
      obtain ⟨v, hv, hread⟩ := List.mem_filterMap.mp (ht p hp)
      exact ⟨v, by simpa using hv, hread⟩
    | cons a l' =>
      obtain ⟨rfl, -⟩ : u = a ∧ post = l' ++ [t] := by simpa using hl'
      exact h pre u l' rfl p hp

namespace Parser

variable {τ : Type} {curstate : Option σ} {st : Parser σ ι ν δ π τ}

/-- The ports whose result is kept in the scope that is parsed. -/
def scopePorts (curstate : Option σ) (st : Parser σ ι ν δ π τ) : List ι :=
  if curstate.isSome then st.curPorts else st.globalPorts

/-- The result that the conditions on a port share. -/
def resultOf (curstate : Option σ) (p : ι) (st : Parser σ ι ν δ π τ) : Result σ ι :=
  ⟨if p ∈ st.globalPorts then none else curstate, p⟩

/-- The result of the port is kept in this scope or for all states. -/
def Known (p : ι) (st : Parser σ ι ν δ π τ) : Prop := p ∈ st.globalPorts ∨ p ∈ st.curPorts

/-- The transitions so far: they have conditions of the shapes above, and each of the ports of the
scope is read by one of them. -/
structure Parsed (curstate : Option σ) (st : Parser σ ι ν δ π τ) : Prop where
  shapes : ∀ t ∈ st.transitions, Shape curstate st.globalPorts t.cnd
  nodup : (reading st.transitions).Nodup
  kept : ∀ p, p ∈ reading st.transitions ↔ p ∈ st.scopePorts curstate
  known : ∀ t ∈ st.transitions, ∀ p, t.cnd.port = some p → st.Known p
  apart : curstate.isSome → ∀ p ∈ st.curPorts, p ∉ st.globalPorts
  outside : curstate = none → st.curPorts = []
  sorted : ByPriority st.transitions
  rank : ∀ t ∈ st.transitions, st.rank < t.priority
  readBefore : ReadBefore st.transitions

theorem shape_of_onPort {event : PortEvent ι ν} {guard : Option δ} {reads neg : Bool}
    {cnd : Condition σ ι ν δ}
    (h : OnPort (st.resultOf curstate event.evname) event guard reads neg cnd)
    (hr : reads = true → curstate.isSome → event.evname ∉ st.globalPorts) :
    Shape curstate st.globalPorts cnd := by
  by_cases hg : event.evname ∈ st.globalPorts
  · rw [resultOf, if_pos hg] at h
    cases curstate with
    | none => exact .own (fun hs => by cases hs) h
    | some s =>
      cases reads with
      | false => exact .shared hg h
      | true => exact absurd hg (hr rfl rfl)
  · rw [resultOf, if_neg hg] at h
    exact .own (fun _ => hg) h

/-- A transition that reads no port first. -/
theorem Parsed.install (h : Parsed curstate st) {line : ℕ} {target : τ}
    {cnd : Condition σ ι ν δ} (hs : Shape curstate st.globalPorts cnd)
    (hp : ∀ p, cnd.port = some p → st.Known p) (hf : firstRead cnd = none)
    (hr : ∀ p, rereads cnd = some p → p ∈ reading st.transitions) :
    Parsed curstate (st.install line target cnd) where
  shapes t ht := by
    rcases mem_transitionSet.mp ht with rfl | ht
    · exact hs
    · exact h.shapes t ht
  nodup := by
    rw [Parser.install, (reading_transitionSet _ _).nodup_iff]
    simpa [hf] using h.nodup
  kept p := by
    rw [show (st.install line target cnd).scopePorts curstate = st.scopePorts curstate from rfl,
      ← h.kept p, Parser.install, (reading_transitionSet _ _).mem_iff]
    simp [hf]
  known t ht := by
    rcases mem_transitionSet.mp ht with rfl | ht
    · exact hp
    · exact h.known t ht
  apart := h.apart
  outside := h.outside
  sorted := transitionSet_byPriority _ h.sorted
  rank t ht := by
    have hlt : st.rank - 1 < st.rank := by omega
    rcases mem_transitionSet.mp ht with rfl | ht
    · exact hlt
    · exact hlt.trans (h.rank t ht)
  readBefore := by
    rw [Parser.install, transitionSet_last fun t ht => (h.rank t ht).le]
    exact h.readBefore.concat hr

theorem learn_transitions (p : ι) : (st.learn curstate p).transitions = st.transitions := by
  cases curstate <;> rfl

theorem learn_rank (p : ι) : (st.learn curstate p).rank = st.rank := by
  cases curstate <;> rfl

theorem learn_curcondition (p : ι) : (st.learn curstate p).curcondition = st.curcondition := by
  cases curstate <;> rfl

theorem scopePorts_learn (p : ι) :
    (st.learn curstate p).scopePorts curstate = p :: st.scopePorts curstate := by
  cases curstate <;> rfl

theorem known_learn (p : ι) : (st.learn curstate p).Known p := by
  cases curstate
  · exact .inl List.mem_cons_self
  · exact .inr List.mem_cons_self

theorem Known.learn {p : ι} (h : st.Known p) (q : ι) : (st.learn curstate q).Known p := by
  cases curstate
  · exact h.imp (List.mem_cons_of_mem q) id
  · exact h.imp id (List.mem_cons_of_mem q)

theorem resultOf_learn {p : ι} (hp : ¬ st.Known p) :
    (st.learn curstate p).resultOf curstate p = ⟨curstate, p⟩ := by
  cases curstate with
  | none => simp [resultOf, learn]
  | some s =>
    have hg : p ∉ st.globalPorts := fun hm => hp (.inl hm)
    simp [resultOf, learn, hg]

/-- The transition that is the first to read a port. -/
theorem Parsed.installFirst (h : Parsed curstate st) {event : PortEvent ι ν} {guard : Option δ}
    {line : ℕ} {target : τ} (hk : ¬ st.Known event.evname) :
    Parsed curstate ((st.learn curstate event.evname).install line target
      (firstCondition ⟨curstate, event.evname⟩ event guard true)) := by
  have hport : (firstCondition (⟨curstate, event.evname⟩ : Result σ ι) event guard true).port =
      some event.evname := by
    cases guard <;> rfl
  have hread : firstRead (firstCondition (⟨curstate, event.evname⟩ : Result σ ι) event guard true) =
      some event.evname := by
    cases guard <;> rfl
  have hnew : event.evname ∉ reading st.transitions := by
    rw [h.kept]
    intro hm
    unfold scopePorts at hm
    split at hm
    · exact hk (.inr hm)
    · exact hk (.inl hm)
  have hg : curstate.isSome → (st.learn curstate event.evname).globalPorts = st.globalPorts := by
    intro hs
    cases curstate with
    | none => cases hs
    | some s => rfl
  constructor
  · intro t ht
    rw [Parser.install, learn_transitions] at ht
    rcases mem_transitionSet.mp ht with rfl | ht
    · refine .own (fun hs => ?_) .first
      rw [Parser.install, hg hs]
      exact fun hm => hk (.inl hm)
    · cases h.shapes t ht with
      | plain hp => exact .plain hp
      | @shared event' guard' neg cnd hm ho =>
        cases curstate with
        | none => exact .own (fun hs => by cases hs) ho
        | some s => exact .shared hm ho
      | own hm ho => exact .own (fun hs => (hg hs).symm ▸ hm hs) ho
  · rw [Parser.install, (reading_transitionSet _ _).nodup_iff, learn_transitions]
    simpa [hread] using ⟨hnew, h.nodup⟩
  · intro p
    have hs : ((st.learn curstate event.evname).install line target
        (firstCondition ⟨curstate, event.evname⟩ event guard true)).scopePorts curstate =
          event.evname :: st.scopePorts curstate := scopePorts_learn event.evname
    rw [hs, List.mem_cons, ← h.kept p, Parser.install, (reading_transitionSet _ _).mem_iff,
      learn_transitions, hread]
    simp
  · intro t ht p hp
    rw [Parser.install, learn_transitions] at ht
    rcases mem_transitionSet.mp ht with rfl | ht
    · obtain rfl : event.evname = p := Option.some.inj (hport.symm.trans hp)
      exact known_learn event.evname
    · exact (h.known t ht p hp).learn event.evname
  · intro hs p hp
    rw [Parser.install, hg hs]
    cases curstate with
    | none => cases hs
    | some s =>
      rcases List.mem_cons.mp hp with rfl | hp
      · exact fun hm => hk (.inl hm)
      · exact h.apart rfl p hp
  · intro hc
    subst hc
    exact h.outside rfl
  · rw [Parser.install, learn_transitions]
    exact transitionSet_byPriority _ h.sorted
  · intro t ht
    have hlt : st.rank - 1 < st.rank := by omega
    rw [Parser.install, learn_transitions] at ht
    rw [Parser.install, learn_rank]
    rcases mem_transitionSet.mp ht with rfl | ht
    · simpa [learn_rank] using hlt
    · exact hlt.trans (h.rank t ht)
  · rw [Parser.install, learn_transitions,
      transitionSet_last fun t ht => by simpa [learn_rank] using (h.rank t ht).le]
    apply h.readBefore.concat
    intro p hp
    cases guard <;> cases hp

/-- The result of a port that is known is shared. -/
theorem evcondition_known {event : PortEvent ι ν}
    (hk : st.Known event.evname) :
    st.evcondition curstate event =
      (.boolDataSource (st.resultOf curstate event.evname), st) := by
  by_cases hg : event.evname ∈ st.globalPorts
  · simp [evcondition, resultOf, hg]
  · simp [evcondition, resultOf, hg, hk.resolve_left hg]

/-- A statement on a port event has a target already; `neg` is in the else branch. -/
def Going (curstate : Option σ) (event : PortEvent ι ν) (guard : Option δ) (neg : Bool)
    (st : Parser σ ι ν δ π τ) : Prop :=
  ∃ reads cnd, st.curcondition = some cnd ∧
    st.Known event.evname ∧
    (reads = true → curstate.isSome → event.evname ∉ st.globalPorts) ∧
    OnPort (st.resultOf curstate event.evname) event guard reads neg cnd

/-- A further target of a statement. -/
theorem Parsed.again (h : Parsed curstate st) {event : PortEvent ι ν} {guard : Option δ}
    {line : ℕ} {target : τ} {reads neg : Bool} {cnd : Condition σ ι ν δ}
    (hk : st.Known event.evname)
    (hr : reads = true → curstate.isSome → event.evname ∉ st.globalPorts)
    (hc : st.curcondition = some cnd)
    (ho : OnPort (st.resultOf curstate event.evname) event guard reads neg
      (.and (.boolDataSource (st.resultOf curstate event.evname)) cnd)) :
    Parsed curstate (st.doselect curstate (some event) line target) ∧
      Going curstate event guard neg (st.doselect curstate (some event) line target) := by
  simp only [doselect, evcondition_known hk, hc]
  constructor
  · apply h.install (shape_of_onPort ho hr) _ rfl
    · intro p hp
      obtain ⟨hreads, rfl⟩ := ho.rereads hp
      rw [h.kept]
      cases curstate with
      | none => exact hk.resolve_right (by simp [h.outside rfl])
      | some s => exact hk.resolve_left (hr hreads rfl)
    · intro p hp
      obtain rfl := Option.some.inj (ho.port.symm.trans hp)
      exact hk
  · exact ⟨reads, _, rfl, hk, hr, ho⟩

/-- The first target of a statement. -/
theorem Parsed.first (h : Parsed curstate st) {event : PortEvent ι ν} {guard : Option δ}
    {line : ℕ} {target : τ} (hc : st.curcondition = guard.map (.expression (some event))) :
    Parsed curstate (st.doselect curstate (some event) line target) ∧
      Going curstate event guard false (st.doselect curstate (some event) line target) := by
  by_cases hk : st.Known event.evname
  · have ho : OnPort (st.resultOf curstate event.evname) event guard false false
        (firstCondition (st.resultOf curstate event.evname) event guard false) := .first
    simp only [doselect, evcondition_known hk, hc]
    constructor
    · apply h.install (shape_of_onPort ho (by simp))
      · intro p hp
        obtain rfl := Option.some.inj (ho.port.symm.trans hp)
        exact hk
      · cases guard <;> rfl
      · intro p hp
        cases (ho.rereads hp).1
    · exact ⟨false, _, rfl, hk, by simp, ho⟩
  · have hec : st.evcondition curstate event = (.cache ⟨curstate, event.evname⟩ (.newData event),
        st.learn curstate event.evname) := by
      have hg : event.evname ∉ st.globalPorts := fun hm => hk (.inl hm)
      have hp : event.evname ∉ st.curPorts := fun hm => hk (.inr hm)
      simp [evcondition, hg, hp]
    simp only [doselect, hec, learn_curcondition, hc]
    refine ⟨h.installFirst hk, true, _, rfl, known_learn event.evname, ?_, ?_⟩
    · intro _ hs
      cases curstate with
      | none => cases hs
      | some s => exact fun hm => hk (.inl hm)
    · have : (st.learn curstate event.evname).resultOf curstate event.evname =
          ⟨curstate, event.evname⟩ := resultOf_learn hk
      rw [show (Parser.install line target _ (st.learn curstate event.evname)).resultOf curstate
        event.evname = (st.learn curstate event.evname).resultOf curstate event.evname from rfl, this]
      exact .first

/-- The targets of one branch, if the first of them is parsed well. -/
theorem Parsed.targets {event : PortEvent ι ν} {guard : Option δ} {line : ℕ} {neg : Bool}
    {ts : List τ} (hts : ts ≠ [])
    (hfirst : ∀ target, Parsed curstate (st.doselect curstate (some event) line target) ∧
      Going curstate event guard neg (st.doselect curstate (some event) line target)) :
    Parsed curstate (ts.foldl (doselect curstate (some event) line) st) ∧
      Going curstate event guard neg (ts.foldl (doselect curstate (some event) line) st) := by
  cases ts with
  | nil => exact absurd rfl hts
  | cons t ts =>
    rw [List.foldl_cons]
    have h := hfirst t
    generalize st.doselect curstate (some event) line t = st₁ at h
    induction ts generalizing st₁ with
    | nil => exact h
    | cons t ts ih =>
      obtain ⟨hp, reads, cnd, hc, hk, hr, ho⟩ := h
      exact ih (by simp) _ (hp.again hk hr hc ho.target)

theorem targets_ne_nil (toTarget : σ → τ) (self : τ) (ps : ProgSelect σ π) :
    ps.targets toTarget self ≠ [] := by
  rcases ps with ⟨f, os⟩ | ⟨p, _ | ⟨f, os⟩⟩ <;> simp [ProgSelect.targets]

theorem Parsed.curcondition (h : Parsed curstate st) (c : Option (Condition σ ι ν δ)) :
    Parsed curstate { st with curcondition := c } :=
  ⟨h.shapes, h.nodup, h.kept, h.known, h.apart, h.outside, h.sorted, h.rank, h.readBefore⟩

theorem Parsed.transProgram (h : Parsed curstate st) (T : Option π) :
    Parsed curstate { st with transProgram := T } :=
  ⟨h.shapes, h.nodup, h.kept, h.known, h.apart, h.outside, h.sorted, h.rank, h.readBefore⟩

theorem progselect_eq (curstate : Option σ) (st : Parser σ ι ν δ π τ) (toTarget : σ → τ) (self : τ) (event : Option (PortEvent ι ν)) (line : ℕ)
    (ps : ProgSelect σ π) : ∃ T, st.progselect curstate toTarget self event line ps =
      (ps.targets toTarget self).foldl (doselect curstate event line)
        { st with transProgram := T } := by
  cases hp : ps.prog with
  | none => exact ⟨st.transProgram, by simp [progselect, hp]⟩
  | some p => exact ⟨some p, by simp [progselect, hp]⟩

/-- The branch of a statement before any target was seen. -/
theorem Parsed.progselect (h : Parsed curstate st) {event : PortEvent ι ν} {guard : Option δ}
    {line : ℕ} {toTarget : σ → τ} {self : τ} {ps : ProgSelect σ π}
    (hc : st.curcondition = guard.map (.expression (some event))) :
    Parsed curstate (st.progselect curstate toTarget self (some event) line ps) ∧
      Going curstate event guard false
        (st.progselect curstate toTarget self (some event) line ps) := by
  obtain ⟨T, he⟩ := progselect_eq curstate st toTarget self (some event) line ps
  rw [he]
  exact Parsed.targets (targets_ne_nil toTarget self ps) fun target => (h.transProgram T).first hc

theorem Parsed.elseProgselect (h : Parsed curstate st) {event : PortEvent ι ν} {e : δ}
    {line : ℕ} {toTarget : σ → τ} {self : τ} {ps : ProgSelect σ π}
    (hg : Going curstate event (some e) false st) :
    Parsed curstate (st.seenelse.progselect curstate toTarget self (some event) line ps) ∧
      Going curstate event (some e) true
        (st.seenelse.progselect curstate toTarget self (some event) line ps) := by
  obtain ⟨reads, cnd, hc, hk, hr, ho⟩ := hg
  obtain ⟨T, he⟩ :=
    progselect_eq curstate st.seenelse toTarget self (some event) line ps
  have h' : Parsed curstate { st.seenelse with transProgram := T } :=
    ⟨h.shapes, h.nodup, h.kept, h.known, h.apart, h.outside, h.sorted, h.rank, h.readBefore⟩
  have hc' : { st.seenelse with transProgram := T }.curcondition = some (.invert cnd) := by
    simp [seenelse, hc]
  rw [he]
  exact Parsed.targets (targets_ne_nil toTarget self ps) fun target =>
    h'.again hk hr hc' (ho.elseTarget rfl)

/-- A branch of a statement without an event. -/
theorem Parsed.plain (h : Parsed curstate st) {line : ℕ} {toTarget : σ → τ} {self : τ}
    {ps : ProgSelect σ π} (hc : Plain (st.curcondition.getD .always)) :
    Parsed curstate (st.progselect curstate toTarget self none line ps) ∧
      Plain ((st.progselect curstate toTarget self none line ps).curcondition.getD .always) := by
  obtain ⟨T, he⟩ := progselect_eq curstate st toTarget self none line ps
  rw [he]
  have h' := h.transProgram T
  have hc' : Plain (({ st with transProgram := T } : Parser σ ι ν δ π τ).curcondition.getD .always) :=
    hc
  generalize ({ st with transProgram := T } : Parser σ ι ν δ π τ) = st₁ at h' hc'
  induction ps.targets toTarget self generalizing st₁ with
  | nil => exact ⟨h', hc'⟩
  | cons t ts ih =>
    obtain ⟨hfirst, hport, hagain⟩ : firstRead (st₁.curcondition.getD .always) = none ∧
        (st₁.curcondition.getD .always).port = none ∧
        rereads (st₁.curcondition.getD .always) = none := by
      generalize st₁.curcondition.getD .always = cnd at hc'
      cases hc' <;> exact ⟨rfl, rfl, rfl⟩
    apply ih _ (h'.install (.plain hc') _ hfirst _)
    · exact hc'
    · simp [hport]
    · simp [hagain]

theorem plain_seenelse (h : Plain (st.curcondition.getD .always)) :
    Plain (st.seenelse.curcondition.getD .always) := by
  cases hc : st.curcondition with
  | none => simpa [seenelse, hc] using Plain.always
  | some cnd =>
    rw [hc] at h
    simpa [seenelse, hc] using Plain.invert h

theorem Parsed.statement (h : Parsed curstate st) (hc : st.curcondition = none)
    (toTarget : σ → τ) (self : τ) (t : Statement σ ι ν δ π) :
    Parsed curstate (st.statement curstate toTarget self t) ∧
      (st.statement curstate toTarget self t).curcondition = none := by
  refine ⟨?_, rfl⟩
  have hend {st : Parser σ ι ν δ π τ} (h : Parsed curstate st) :
      Parsed curstate st.seenendcondition := ⟨h.shapes, h.nodup, h.kept, h.known, h.apart, h.outside, h.sorted, h.rank, h.readBefore⟩
  have hcond (event : Option (PortEvent ι ν)) (c : δ) :
      Parsed curstate (st.seencondition event c) := ⟨h.shapes, h.nodup, h.kept, h.known, h.apart, h.outside, h.sorted, h.rank, h.readBefore⟩
  obtain ⟨event, line, body⟩ := t
  cases event with
  | none =>
    cases body with
    | progselect ps =>
      apply hend
      exact (h.plain (by simpa [hc] using Plain.always)).1
    | ifbranch c ps elsebranch =>
      have hthen : Parsed curstate
            ((st.seencondition none c).progselect curstate toTarget self none line ps) ∧
          Plain (((st.seencondition none c).progselect curstate toTarget self none line
            ps).curcondition.getD .always) := (hcond none c).plain (Plain.expression c)
      cases elsebranch with
      | none => exact hend hthen.1
      | some ps' =>
        apply hend
        have helse : Parsed curstate
            ((st.seencondition none c).progselect curstate toTarget self none line ps).seenelse :=
          hthen.1.curcondition _
        exact (helse.plain (plain_seenelse hthen.2)).1
  | some event =>
    cases body with
    | progselect ps =>
      apply hend
      have hc' : st.curcondition = (none : Option δ).map (.expression (some event)) := hc
      exact (h.progselect hc').1
    | ifbranch c ps elsebranch =>
      have hthen : Parsed curstate
            ((st.seencondition (some event) c).progselect curstate toTarget self (some event) line
              ps) ∧
          Going curstate event (some c) false ((st.seencondition (some event) c).progselect
            curstate toTarget self (some event) line ps) := (hcond (some event) c).progselect rfl
      cases elsebranch with
      | none => exact hend hthen.1
      | some ps' => exact hend (hthen.1.elseProgselect hthen.2).1

theorem Parsed.statements (h : Parsed curstate st) (hc : st.curcondition = none)
    (toTarget : σ → τ) (self : τ) (ts : List (Statement σ ι ν δ π)) :
    Parsed curstate (ts.foldl (Parser.statement curstate toTarget self) st) := by
  induction ts generalizing st with
  | nil => exact h
  | cons t ts ih =>
    obtain ⟨h', hc'⟩ := h.statement hc toTarget self t
    exact ih h' hc'

/-- Parsing a state learns no global port. -/
theorem progselect_globalPorts (st : Parser σ ι ν δ π τ) {s : σ} {event : Option (PortEvent ι ν)} {line : ℕ}
    {toTarget : σ → τ} {self : τ} {ps : ProgSelect σ π} :
    (st.progselect (some s) toTarget self event line ps).globalPorts = st.globalPorts := by
  obtain ⟨T, he⟩ := progselect_eq (some s) st toTarget self event line ps
  rw [he]
  suffices h : ∀ (ts : List τ) (st : Parser σ ι ν δ π τ),
      (ts.foldl (doselect (some s) event line) st).globalPorts = st.globalPorts from h _ _
  intro ts
  induction ts with
  | nil => exact fun _ => rfl
  | cons t ts ih =>
    intro st
    refine (ih _).trans ?_
    cases event with
    | none => rfl
    | some event =>
      simp only [doselect, evcondition]
      split
      · rfl
      · split <;> rfl

theorem statements_globalPorts {s : σ} {toTarget : σ → τ} {self : τ}
    (ts : List (Statement σ ι ν δ π)) :
    (ts.foldl (Parser.statement (some s) toTarget self) st).globalPorts = st.globalPorts := by
  induction ts generalizing st with
  | nil => rfl
  | cons t ts ih =>
    refine ih.trans ?_
    obtain ⟨event, line, ps | ⟨c, ps, _ | ps'⟩⟩ := t
    · exact progselect_globalPorts st
    · exact progselect_globalPorts (st.seencondition event c)
    · exact (progselect_globalPorts (Parser.seenelse _)).trans
        (progselect_globalPorts (st.seencondition event c))

end Parser

namespace Script

variable (script : Script σ ι ν δ π)

theorem parseState_globalPorts (s : σ) :
    (script.parseState s).globalPorts = script.parseGlobals.globalPorts :=
  Parser.statements_globalPorts (script.locals s)

theorem parseGlobals_parsed : script.parseGlobals.Parsed none :=
  Parser.Parsed.statements (by constructor <;> simp [reading, Parser.scopePorts, readBefore_nil]) rfl some none script.globals

theorem parseState_parsed (s : σ) : (script.parseState s).Parsed (some s) :=
  Parser.Parsed.statements (by constructor <;> simp [reading, Parser.scopePorts, readBefore_nil]) rfl id s (script.locals s)

/-- The machine of a script whose states have preconditions but no programs. -/
def graph (states : List σ) (getName : σ → String) (initstate finistate : σ)
    (preconditions : σ → List (δ × ℕ)) :
    StateGraph σ π (Condition σ ι ν δ) where
  states := states
  getName := getName
  getEntryProgram _ := none
  getRunProgram _ := none
  getHandleProgram _ := none
  getExitProgram _ := none
  stateMap s := (script.parseState s).transitions
  globalMap := script.parseGlobals.transitions
  precondMap s := (s.elim [] preconditions).map fun c => (.expression none c.1, c.2)
  eventMap _ := []
  initstate := initstate
  finistate := finistate
  role _ := .transition
  entry_role := by simp
  run_role := by simp
  handle_role := by simp
  exit_role := by simp
  local_role _ _ _ _ _ := rfl
  global_role _ _ _ _ := rfl
  event_role := by simp
  local_sorted s := (script.parseState_parsed s).sorted
  global_sorted := script.parseGlobals_parsed.sorted

theorem graph_loads (states : List σ) (getName : σ → String) (initstate finistate : σ)
    (preconditions : σ → List (δ × ℕ)) :
    script.Loads (script.graph states getName initstate finistate preconditions) := by
  refine ⟨fun _ => rfl, rfl, fun s c hc => ?_⟩
  obtain ⟨c', -, rfl⟩ := List.mem_map.mp hc
  exact ⟨c'.1, rfl⟩

end Script

end OrocosRtt.StateMachine.PortEvents
