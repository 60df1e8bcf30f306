import OrocosRtt.Program.Graph

/-! The copy constructor of `FunctionGraph`, which `clone()` uses: a copy takes the first vertex of its
graph as its start node and as its exit node. What a program does is written here for any vertex as
`exitv`; with the exit node of the graph it is what `FunctionGraph` does. -/
namespace OrocosRtt.Scripting
set_option linter.unusedSectionVars false

/-- The members that the copy constructor leaves as they are in memory. -/
structure Unset where
  pausing : Bool
  mstep : Bool
  munloadOnStop : Bool
  deriving DecidableEq, Repr

/-- As the other constructor sets them. -/
def Unset.constructed (unloadOnStop : Bool) : Unset := ⟨false, false, unloadOnStop⟩

namespace FunctionGraph
variable {V K C W : Type} [DecidableEq V]

/-- `exitv` of a copy. The loop over the vertices that looks for the exit node leaves it in `it`, and
`*v1` is taken, as it is for `startv`: the first vertex, which the constructor added as the start
node. -/
def copiedExitv (G : ProgramGraph V K C) : V := G.startv

section
variable (G : ProgramGraph V K C) (B : Commands K C W) (exitv : V)

def resetTo (s : FunctionGraph V C W) : FunctionGraph V C W :=
  { s with pStatus := .stopped, current := G.startv, previous := exitv }

def startWith (s : FunctionGraph V C W) : FunctionGraph V C W :=
  if s.isLoaded = false then s
  else if s.pStatus = .stopped then ((s.resetTo G exitv).setStatus .running).note (.accepted .start)
  else if s.pStatus = .paused then (s.setStatus .running).note (.accepted .start)
  else s

def pauseWith (s : FunctionGraph V C W) : FunctionGraph V C W :=
  if s.isLoaded = false then s
  else
    let s := if s.pStatus = .stopped then s.resetTo G exitv else s
    { s with pausing := true }.note (.accepted .pause)

def requestWith (r : Request) (s : FunctionGraph V C W) : FunctionGraph V C W :=
  match r with
  | .start => s.startWith G exitv
  | .pause => s.pauseWith G exitv
  | .step => s.requestStep
  | .stop => s.stop.note (.accepted .stop)
  | .reset => (s.resetTo G exitv).note (.accepted .reset)

def askWith (s : FunctionGraph V C W) (r : SelfRequest) : FunctionGraph V C W :=
  match r with
  | .stop => s.requestWith G exitv .stop
  | .pause => s.requestWith G exitv .pause

def executeVertexWith (s : FunctionGraph V C W) : Bool × FunctionGraph V C W :=
  let s := { s with previous := s.current }
  match G.command s.current with
  | none => (false, s.note (.execute s.current))
  | some k =>
    let r := B.execute k s.world
    (r.1.threw, r.1.requests.foldl (askWith G exitv) ((s.setWorld r.2).note (.execute s.current)))

def turnWith (s : FunctionGraph V C W) : Bool × FunctionGraph V C W :=
  let r := (s.note (.vertex s.current)).startVertex G B
  if r.1 then r
  else
    let r := r.2.executeVertexWith G B exitv
    if r.1 then r
    else if r.2.isValid G B then r.2.branch B (G.outEdges r.2.current)
    else r

/-- The loop of `executeUntil` goes on. -/
def goesOn (s : FunctionGraph V C W) : Prop :=
  s.previous ≠ s.current ∧ s.pStatus = .running ∧ s.pausing = false

instance decidableGoesOn (s : FunctionGraph V C W) : Decidable s.goesOn :=
  inferInstanceAs (Decidable (_ ∧ _ ∧ _))

def passWith (s : FunctionGraph V C W) : FunctionGraph V C W :=
  let r := s.turnWith G B exitv
  if r.1 then r.2.fail.leave false
  else if r.2.goesOn then { r.2 with busy := true }
  else if r.2.current = exitv then (r.2.stop.note .exited).leave (!r.2.munloadOnStop)
  else r.2.leave true

def executeStepWith (s : FunctionGraph V C W) : FunctionGraph V C W :=
  let r := s.turnWith G B exitv
  if r.1 then r.2.fail
  else if r.2.current = exitv then r.2.stop.note .exited
  else r.2

def executeWith (s : FunctionGraph V C W) : FunctionGraph V C W :=
  if s.pausing then ({ s with pStatus := .paused, pausing := false }.note .nowPaused)
  else
    match s.pStatus with
    | .running => s.passWith G B exitv
    | .paused => if s.mstep then s.takeStep.executeStepWith G B exitv else s
    | .error | .unknown | .stopped => s.leave (!s.munloadOnStop)

def stepWith (s : FunctionGraph V C W) (a : Action) : FunctionGraph V C W :=
  match a with
  | .request r => if s.busy then s else s.requestWith G exitv r
  | .execute => if s.busy ∨ s.isLoaded = false then s else s.executeWith G B exitv
  | .goOn => if s.busy then s.passWith G B exitv else s

end

variable {G : ProgramGraph V K C} {B : Commands K C W}

/-- A program that has its own exit node does as the original. -/
theorem stepWith_exitv (s : FunctionGraph V C W) (a : Action) :
    s.stepWith G B G.exitv a = s.step G B a := by
  cases a <;> rfl

/-- A clone as it is loaded in the engine: the copy constructor ends with a `reset()`, whatever the
original is at. -/
def cloned (unset : Unset) (G : ProgramGraph V K C) (w : W) : FunctionGraph V C W where
  toProgram := Program.loaded { Program.fresh unset.munloadOnStop with
    pausing := unset.pausing, mstep := unset.mstep }
  current := G.startv
  previous := copiedExitv G
  context := false
  busy := false
  world := w
  log := []

/-- The commands executed and the conditions evaluated so far, newest first. -/
def executed (s : FunctionGraph V C W) : List (Event V C) :=
  s.log.filter fun e =>
    match e with
    | .execute _ | .evaluate _ => true
    | _ => false

/-- How the two programs look from outside, and what they have done. -/
structure Alike (s t : FunctionGraph V C W) : Prop where
  program : t.toProgram = s.toProgram
  busy : t.busy = s.busy
  current : t.current = s.current
  world : t.world = s.world
  executed : t.executed = s.executed

/-- The vertex executions a step makes: none, one of `executeUntil`, or the one of `executeStep`. -/
inductive Work where
  | nothing | pass | oneStep
  deriving DecidableEq, Repr

def work (s : FunctionGraph V C W) : Action → Work
  | .request _ => .nothing
  | .goOn => if s.busy then .pass else .nothing
  | .execute =>
    if s.busy ∨ s.isLoaded = false ∨ s.pausing then .nothing
    else if s.pStatus = .running then .pass
    else if s.pStatus = .paused ∧ s.mstep then .oneStep
    else .nothing

/-- The start node needs no initialisation when it is executed after a reset. -/
def IdleStart (G : ProgramGraph V K C) (B : Commands K C W) (s : FunctionGraph V C W) : Prop :=
  s.current = G.startv → s.previous = G.exitv →
    (s.startVertex G B).1 = false ∧ (s.startVertex G B).2.world = s.world

instance decidableIdleStart [DecidableEq W] (s : FunctionGraph V C W) :
    Decidable (IdleStart G B s) :=
  inferInstanceAs (Decidable (_ → _ → _ ∧ _))

/-- The execution of the vertex does not wait in the start node nor end in the exit node. -/
def StaysInside (G : ProgramGraph V K C) (B : Commands K C W) (s : FunctionGraph V C W)
    (w : Work) : Prop :=
  (s.turn G B).1 = true ∨ (w = .pass ∧ (s.turn G B).2.goesOn) ∨
    (s.turn G B).2.current ≠ G.startv ∧ (s.turn G B).2.current ≠ G.exitv

instance decidableStaysInside (s : FunctionGraph V C W) (w : Work) :
    Decidable (StaysInside G B s w) :=
  inferInstanceAs (Decidable (_ ∨ (_ ∧ _) ∨ _ ∧ _))

/-- The step of the original does not come to what is different in a clone. -/
def Unnoticed (G : ProgramGraph V K C) (B : Commands K C W) (s : FunctionGraph V C W)
    (a : Action) : Prop :=
  (s.work a = .pass → IdleStart G B s ∧ StaysInside G B s .pass) ∧
    (s.work a = .oneStep → IdleStart G B s.takeStep ∧ StaysInside G B s.takeStep .oneStep)

instance decidableUnnoticed [DecidableEq W] (s : FunctionGraph V C W) (a : Action) :
    Decidable (Unnoticed G B s a) :=
  inferInstanceAs (Decidable ((_ → _ ∧ _) ∧ (_ → _ ∧ _)))

/-! ### A vertex execution in lockstep -/

/-- Between two actions. After a reset each program has its own exit node as the previous one. -/
structure Mirrors (G : ProgramGraph V K C) (s t : FunctionGraph V C W) : Prop
    extends Alike s t where
  previous : t.previous = s.previous ∨
    s.previous = G.exitv ∧ t.previous = G.startv ∧ s.current ≠ G.exitv

/-- After a command has been executed: a program that was reset by it is stopped. -/
structure Executed (G : ProgramGraph V K C) (s t : FunctionGraph V C W) : Prop
    extends Alike s t where
  previous : t.previous = s.previous ∨
    s.previous = G.exitv ∧ t.previous = G.startv ∧ s.pStatus = .stopped ∧ s.current = G.startv

theorem Executed.mirrors {s t : FunctionGraph V C W} (h : Executed G s t) : Mirrors G s t := by
  refine ⟨h.toAlike, ?_⟩
  rcases h.previous with hp | ⟨hs, ht, -, hc⟩
  · exact Or.inl hp
  · refine Or.inr ⟨hs, ht, ?_⟩
    rw [hc]
    exact G.start_ne_exit

theorem executed_note (s : FunctionGraph V C W) (e : Event V C) :
    (s.note e).executed = (match e with
      | .execute _ | .evaluate _ => [e]
      | _ => []) ++ s.executed := by
  cases e <;> rfl

theorem Alike.note {s t : FunctionGraph V C W} (h : Alike s t) (e : Event V C) :
    Alike (s.note e) (t.note e) := by
  refine ⟨h.program, h.busy, h.current, h.world, ?_⟩
  rw [executed_note, executed_note, h.executed]

theorem Alike.setWorld {s t : FunctionGraph V C W} (h : Alike s t) (w : W) :
    Alike (s.setWorld w) (t.setWorld w) := ⟨h.program, h.busy, h.current, rfl, h.executed⟩

theorem Alike.setStatus {s t : FunctionGraph V C W} (h : Alike s t) (p : ProgramStatus) :
    Alike (s.setStatus p) (t.setStatus p) := by
  refine ⟨?_, h.busy, h.current, h.world, h.executed⟩
  show { t.toProgram with pStatus := p } = { s.toProgram with pStatus := p }
  rw [h.program]

theorem Alike.resetTo {s t : FunctionGraph V C W} (h : Alike s t) (e e' : V) :
    Alike (s.resetTo G e) (t.resetTo G e') := by
  refine ⟨?_, h.busy, rfl, h.world, h.executed⟩
  show { t.toProgram with pStatus := .stopped } = { s.toProgram with pStatus := .stopped }
  rw [h.program]

theorem Alike.setPausing {s t : FunctionGraph V C W} (h : Alike s t) (b : Bool) :
    Alike { s with pausing := b } { t with pausing := b } := by
  refine ⟨?_, h.busy, h.current, h.world, h.executed⟩
  show { t.toProgram with pausing := b } = { s.toProgram with pausing := b }
  rw [h.program]

theorem Alike.setStep {s t : FunctionGraph V C W} (h : Alike s t) (b : Bool) :
    Alike { s with mstep := b } { t with mstep := b } := by
  refine ⟨?_, h.busy, h.current, h.world, h.executed⟩
  show { t.toProgram with mstep := b } = { s.toProgram with mstep := b }
  rw [h.program]

/-- An initialisation changes the world and nothing that is compared. -/
structure Initialises (s s' : FunctionGraph V C W) : Prop where
  program : s'.toProgram = s.toProgram
  busy : s'.busy = s.busy
  current : s'.current = s.current
  previous : s'.previous = s.previous
  executed : s'.executed = s.executed

theorem resetConditions_initialises (es : List (C × V)) :
    ∀ s : FunctionGraph V C W, Initialises s (s.resetConditions B es) := by
  induction es with
  | nil => intro s; exact ⟨rfl, rfl, rfl, rfl, rfl⟩
  | cons e es ih =>
    intro s
    have h := ih ((s.setWorld (B.resetCondition e.1 s.world)).note (.resetCondition e.1))
    exact ⟨h.program, h.busy, h.current, h.previous, h.executed⟩

theorem startVertex_initialises (s : FunctionGraph V C W) :
    Initialises s (s.startVertex G B).2 := by
  unfold startVertex
  split
  · exact ⟨rfl, rfl, rfl, rfl, rfl⟩
  · have h := resetConditions_initialises (B := B) (G.outEdges s.current) s
    dsimp only
    split
    · exact ⟨h.program, h.busy, h.current, h.previous, h.executed⟩
    · exact ⟨h.program, h.busy, h.current, h.previous, h.executed⟩

theorem resetConditions_world (es : List (C × V)) :
    ∀ {s t : FunctionGraph V C W}, s.world = t.world →
      (s.resetConditions B es).world = (t.resetConditions B es).world := by
  induction es with
  | nil => intro s t h; exact h
  | cons e es ih =>
    intro s t h
    refine ih ?_
    show B.resetCondition e.1 s.world = B.resetCondition e.1 t.world
    rw [h]

/-- Two programs at one vertex in one world initialise it alike, if both do. -/
theorem startVertex_world {s t : FunctionGraph V C W} (hc : t.current = s.current)
    (hw : t.world = s.world) (hp : t.previous = t.current ↔ s.previous = s.current) :
    (t.startVertex G B).1 = (s.startVertex G B).1 ∧
      (t.startVertex G B).2.world = (s.startVertex G B).2.world := by
  unfold startVertex
  by_cases hs : s.previous = s.current
  · rw [if_pos hs, if_pos (hp.mpr hs)]
    exact ⟨rfl, hw⟩
  · rw [if_neg hs, if_neg fun ht => hs (hp.mp ht)]
    have hcs := (resetConditions_initialises (B := B) (G.outEdges s.current) s).current
    have hct := (resetConditions_initialises (B := B) (G.outEdges s.current) t).current
    have hworld := resetConditions_world (B := B) (G.outEdges s.current) hw
    dsimp only
    rw [hc, hct, hcs, hc]
    cases G.command s.current with
    | none => exact ⟨rfl, hworld⟩
    | some k =>
      dsimp only
      rw [hworld]
      exact ⟨rfl, rfl⟩

theorem Mirrors.startVertex {s t : FunctionGraph V C W} (h : Mirrors G s t)
    (hidle : IdleStart G B s) :
    (t.startVertex G B).1 = (s.startVertex G B).1 ∧
      Mirrors G (s.startVertex G B).2 (t.startVertex G B).2 := by
  have hs := startVertex_initialises (G := G) (B := B) s
  have ht := startVertex_initialises (G := G) (B := B) t
  have hworld : (t.startVertex G B).1 = (s.startVertex G B).1 ∧
      (t.startVertex G B).2.world = (s.startVertex G B).2.world := by
    by_cases hskip : s.previous = G.exitv ∧ t.previous = G.startv ∧ s.current = G.startv
    · -- only the original has come from another vertex
      obtain ⟨hsp, htp, hsc⟩ := hskip
      obtain ⟨hthrew, hsame⟩ := hidle hsc hsp
      have hnone : t.startVertex G B = (false, t) := by
        unfold FunctionGraph.startVertex
        rw [if_pos (htp.trans (h.current.trans hsc).symm)]
      rw [hnone, hthrew, hsame]
      exact ⟨rfl, h.world⟩
    · refine startVertex_world h.current h.world ?_
      rw [h.current]
      rcases h.previous with hp | ⟨hsp, htp, hsc⟩
      · rw [hp]
      · constructor
        · intro heq
          exact absurd ⟨hsp, htp, (htp.symm.trans heq).symm⟩ hskip
        · intro heq
          exact absurd (heq.symm.trans hsp) hsc
  refine ⟨hworld.1, ⟨?_, ?_, ?_, hworld.2, ?_⟩, ?_⟩
  · rw [ht.program, hs.program, h.program]
  · rw [ht.busy, hs.busy, h.busy]
  · rw [ht.current, hs.current, h.current]
  · rw [ht.executed, hs.executed, h.executed]
  · rw [ht.previous, hs.previous, hs.current]
    exact h.previous

theorem Executed.askWith {s t : FunctionGraph V C W} (h : Executed G s t) (r : SelfRequest) :
    Executed G (s.askWith G G.exitv r) (t.askWith G (copiedExitv G) r) := by
  cases r with
  | stop =>
    refine ⟨(h.toAlike.setStatus .stopped).note _, ?_⟩
    rcases h.previous with hp | ⟨hs, ht, -, hc⟩
    · exact Or.inl hp
    · exact Or.inr ⟨hs, ht, rfl, hc⟩
  | pause =>
    have hprog := h.program
    have hloaded : t.isLoaded = s.isLoaded := by rw [hprog]
    have hstatus : t.pStatus = s.pStatus := by rw [hprog]
    unfold FunctionGraph.askWith requestWith pauseWith
    dsimp only
    rw [hloaded, hstatus]
    by_cases hl : s.isLoaded = false
    · rw [if_pos hl, if_pos hl]
      exact h
    · rw [if_neg hl, if_neg hl]
      by_cases hst : s.pStatus = .stopped
      · rw [if_pos hst, if_pos hst]
        exact ⟨((h.toAlike.resetTo _ _).setPausing true).note _, Or.inr ⟨rfl, rfl, rfl, rfl⟩⟩
      · rw [if_neg hst, if_neg hst]
        exact ⟨(h.toAlike.setPausing true).note _, h.previous⟩

theorem Executed.asks (rs : List SelfRequest) :
    ∀ {s t : FunctionGraph V C W}, Executed G s t →
      Executed G (rs.foldl (FunctionGraph.askWith G G.exitv) s)
        (rs.foldl (FunctionGraph.askWith G (copiedExitv G)) t) := by
  induction rs with
  | nil => intro s t h; exact h
  | cons r rs ih => intro s t h; exact ih (h.askWith r)

theorem Alike.executeVertex {s t : FunctionGraph V C W} (h : Alike s t) :
    (t.executeVertexWith G B (copiedExitv G)).1 = (s.executeVertexWith G B G.exitv).1 ∧
      Executed G (s.executeVertexWith G B G.exitv).2
        (t.executeVertexWith G B (copiedExitv G)).2 := by
  have hprev : Executed G { s with previous := s.current } { t with previous := t.current } :=
    ⟨⟨h.program, h.busy, h.current, h.world, h.executed⟩, Or.inl h.current⟩
  unfold executeVertexWith
  dsimp only
  rw [h.current] at hprev ⊢
  cases G.command s.current with
  | none => exact ⟨rfl, hprev.toAlike.note _, hprev.previous⟩
  | some k =>
    dsimp only
    rw [h.world]
    exact ⟨rfl, Executed.asks _ ⟨(hprev.toAlike.setWorld _).note _, hprev.previous⟩⟩

theorem Executed.branch (es : List (C × V)) :
    ∀ {s t : FunctionGraph V C W}, Executed G s t →
      (t.branch B es).1 = (s.branch B es).1 ∧
        Alike (s.branch B es).2 (t.branch B es).2 ∧
        (s.branch B es).2.toProgram = s.toProgram ∧
        (s.branch B es).2.previous = s.previous ∧ (t.branch B es).2.previous = t.previous ∧
        ((s.branch B es).1 = true → (s.branch B es).2.current = s.current) := by
  induction es with
  | nil => intro s t h; exact ⟨rfl, h.toAlike, rfl, rfl, rfl, fun _ => rfl⟩
  | cons e es ih =>
    intro s t h
    have hnext : Executed G ((s.setWorld (B.evaluate e.1 s.world).2).note (.evaluate e.1))
        ((t.setWorld (B.evaluate e.1 s.world).2).note (.evaluate e.1)) :=
      ⟨(h.toAlike.setWorld _).note _, h.previous⟩
    unfold FunctionGraph.branch
    dsimp only
    rw [h.world]
    cases (B.evaluate e.1 s.world).1 with
    | none => exact ⟨rfl, hnext.toAlike, rfl, rfl, rfl, fun _ => rfl⟩
    | some b =>
      cases b with
      | true =>
        refine ⟨rfl, ⟨hnext.program, hnext.busy, rfl, hnext.world, hnext.executed⟩, rfl, rfl, rfl, ?_⟩
        exact fun hfalse => absurd hfalse Bool.false_ne_true
      | false => exact ih hnext

theorem Alike.isValid {s t : FunctionGraph V C W} (h : Alike s t) :
    t.isValid G B = s.isValid G B := by
  unfold FunctionGraph.isValid
  rw [h.current, h.world]

/-- Where the programs are after the execution of a vertex. -/
structure InStep (G : ProgramGraph V K C) (r r' : Bool × FunctionGraph V C W) : Prop where
  threw : r'.1 = r.1
  alike : Alike r.2 r'.2
  previous : r'.2.previous = r.2.previous ∨
    r.2.previous = G.exitv ∧ r'.2.previous = G.startv ∧
      (r.1 = true → r.2.current ≠ G.exitv) ∧ (r.1 = false → r.2.pStatus = .stopped)

theorem Mirrors.turn {s t : FunctionGraph V C W} (h : Mirrors G s t) (hidle : IdleStart G B s) :
    InStep G (s.turnWith G B G.exitv) (t.turnWith G B (copiedExitv G)) := by
  have hnote : Mirrors G (s.note (.vertex s.current)) (t.note (.vertex s.current)) :=
    ⟨h.toAlike.note _, h.previous⟩
  have hidle' : IdleStart G B (s.note (.vertex s.current)) := by
    intro hc hp
    obtain ⟨hthrew, hworld⟩ := hidle hc hp
    have hsame := startVertex_world (G := G) (B := B) (s := s) (t := s.note (.vertex s.current))
      rfl rfl Iff.rfl
    exact ⟨hsame.1.trans hthrew, hsame.2.trans hworld⟩
  obtain ⟨hthrew, hstart⟩ := hnote.startVertex hidle'
  unfold turnWith
  dsimp only
  rw [h.current, hthrew]
  by_cases hs : ((s.note (.vertex s.current)).startVertex G B).1
  · rw [if_pos hs, if_pos hs]
    refine ⟨hthrew, hstart.toAlike, ?_⟩
    rcases hstart.previous with hp | ⟨hsp, htp, hc⟩
    · exact Or.inl hp
    · refine Or.inr ⟨hsp, htp, fun _ => hc, fun hno => ?_⟩
      rw [hs] at hno
      cases hno
  · rw [if_neg hs, if_neg hs]
    obtain ⟨hthrew, hexec⟩ := hstart.toAlike.executeVertex (G := G) (B := B)
    rw [hthrew]
    split
    · next hs =>
      refine ⟨hthrew, hexec.toAlike, ?_⟩
      rcases hexec.mirrors.previous with hp | ⟨hsp, htp, hc⟩
      · exact Or.inl hp
      · refine Or.inr ⟨hsp, htp, fun _ => hc, fun hno => ?_⟩
        rw [hs] at hno
        cases hno
    · rw [hexec.toAlike.isValid, hexec.current]
      split
      · obtain ⟨hthrew, halike, hprog, hps, hpt, hcur⟩ := hexec.branch (B := B)
          (G.outEdges (((s.note (.vertex s.current)).startVertex G B).2.executeVertexWith G B
            G.exitv).2.current)
        refine ⟨hthrew, halike, ?_⟩
        rw [hps, hpt, hprog]
        rcases hexec.previous with hp | ⟨hsp, htp, hstop, hc⟩
        · exact Or.inl hp
        · refine Or.inr ⟨hsp, htp, ?_, fun _ => hstop⟩
          intro hfail
          rw [hcur hfail, hc]
          exact G.start_ne_exit
      · refine ⟨hthrew, hexec.toAlike, ?_⟩
        rcases hexec.previous with hp | ⟨hsp, htp, hstop, hc⟩
        · exact Or.inl hp
        · refine Or.inr ⟨hsp, htp, ?_, fun _ => hstop⟩
          intro _
          rw [hc]
          exact G.start_ne_exit

theorem Alike.leave {s t : FunctionGraph V C W} (h : Alike s t) (ret : Bool) :
    Alike (s.leave ret) (t.leave ret) := by
  cases ret with
  | true => exact ⟨h.program, rfl, h.current, h.world, h.executed⟩
  | false =>
    refine ⟨?_, rfl, h.current, h.world, h.executed⟩
    show { t.toProgram with isLoaded := false } = { s.toProgram with isLoaded := false }
    rw [h.program]

theorem Alike.fail {s t : FunctionGraph V C W} (h : Alike s t) : Alike s.fail t.fail :=
  (h.setStatus .error).note _

theorem InStep.failed {r r' : Bool × FunctionGraph V C W} (h : InStep G r r') (hthrew : r.1 = true) :
    r'.2.previous = r.2.previous ∨
      r.2.previous = G.exitv ∧ r'.2.previous = G.startv ∧ r.2.current ≠ G.exitv := by
  rcases h.previous with hp | ⟨hs, ht, hc, -⟩
  · exact Or.inl hp
  · exact Or.inr ⟨hs, ht, hc hthrew⟩

/-- Both loops go on or both end. -/
theorem InStep.goesOn {r r' : Bool × FunctionGraph V C W} (h : InStep G r r') (hthrew : r.1 = false) :
    r'.2.goesOn ↔ r.2.goesOn := by
  have hprog := h.alike.program
  unfold FunctionGraph.goesOn
  rw [hprog, h.alike.current]
  rcases h.previous with hp | ⟨-, -, -, hstop⟩
  · rw [hp]
  · rw [hstop hthrew]
    simp

theorem Mirrors.pass {s t : FunctionGraph V C W} (h : Mirrors G s t) (hidle : IdleStart G B s)
    (hinside : StaysInside G B s .pass) :
    Mirrors G (s.passWith G B G.exitv) (t.passWith G B (copiedExitv G)) := by
  have hturn := h.turn hidle
  have hinside' : (s.turnWith G B G.exitv).1 = true ∨ (s.turnWith G B G.exitv).2.goesOn ∨
      (s.turnWith G B G.exitv).2.current ≠ G.startv ∧
        (s.turnWith G B G.exitv).2.current ≠ G.exitv := by
    rcases hinside with h | ⟨-, h⟩ | h
    · exact Or.inl h
    · exact Or.inr (Or.inl h)
    · exact Or.inr (Or.inr h)
  unfold passWith
  dsimp only
  revert hturn hinside'
  generalize s.turnWith G B G.exitv = r
  generalize t.turnWith G B (copiedExitv G) = r'
  intro hturn hinside'
  rw [hturn.threw]
  by_cases hthrew : r.1 = true
  · rw [if_pos hthrew, if_pos hthrew]
    exact ⟨hturn.alike.fail.leave _, hturn.failed hthrew⟩
  · have hfine : r.1 = false := Bool.eq_false_iff.mpr hthrew
    rw [if_neg hthrew, if_neg hthrew]
    by_cases hgo : r.2.goesOn
    · rw [if_pos hgo, if_pos ((hturn.goesOn hfine).mpr hgo)]
      refine ⟨⟨hturn.alike.program, rfl, hturn.alike.current, hturn.alike.world,
        hturn.alike.executed⟩, ?_⟩
      rcases hturn.previous with hp | ⟨-, -, -, hstop⟩
      · exact Or.inl hp
      · have hrun := hgo.2.1
        rw [hstop hfine] at hrun
        cases hrun
    · rw [if_neg hgo, if_neg fun hgo' => hgo ((hturn.goesOn hfine).mp hgo')]
      rcases hinside' with hno | hno | ⟨hstart, hexit⟩
      · exact absurd hno hthrew
      · exact absurd hno hgo
      · rw [if_neg hexit, if_neg (by rw [hturn.alike.current]; exact hstart)]
        refine ⟨hturn.alike.leave _, ?_⟩
        rcases hturn.previous with hp | ⟨hs, ht, -, -⟩
        · exact Or.inl hp
        · exact Or.inr ⟨hs, ht, hexit⟩

theorem Mirrors.executeStep {s t : FunctionGraph V C W} (h : Mirrors G s t)
    (hidle : IdleStart G B s) (hinside : StaysInside G B s .oneStep) :
    Mirrors G (s.executeStepWith G B G.exitv) (t.executeStepWith G B (copiedExitv G)) := by
  have hturn := h.turn hidle
  have hinside' : (s.turnWith G B G.exitv).1 = true ∨
      (s.turnWith G B G.exitv).2.current ≠ G.startv ∧
        (s.turnWith G B G.exitv).2.current ≠ G.exitv := by
    rcases hinside with h | ⟨h, -⟩ | h
    · exact Or.inl h
    · cases h
    · exact Or.inr h
  unfold executeStepWith
  dsimp only
  revert hturn hinside'
  generalize s.turnWith G B G.exitv = r
  generalize t.turnWith G B (copiedExitv G) = r'
  intro hturn hinside'
  rw [hturn.threw]
  by_cases hthrew : r.1 = true
  · rw [if_pos hthrew, if_pos hthrew]
    exact ⟨hturn.alike.fail, hturn.failed hthrew⟩
  · rw [if_neg hthrew, if_neg hthrew]
    rcases hinside' with hno | ⟨hstart, hexit⟩
    · exact absurd hno hthrew
    · rw [if_neg hexit, if_neg (by rw [hturn.alike.current]; exact hstart)]
      refine ⟨hturn.alike, ?_⟩
      rcases hturn.previous with hp | ⟨hs, ht, -, -⟩
      · exact Or.inl hp
      · exact Or.inr ⟨hs, ht, hexit⟩

theorem Mirrors.request {s t : FunctionGraph V C W} (h : Mirrors G s t) (r : Request) :
    Mirrors G (s.requestWith G G.exitv r) (t.requestWith G (copiedExitv G) r) := by
  have hloaded : t.isLoaded = s.isLoaded := by rw [h.program]
  have hstatus : t.pStatus = s.pStatus := by rw [h.program]
  have hreset : Mirrors G (s.resetTo G G.exitv) (t.resetTo G (copiedExitv G)) :=
    ⟨h.toAlike.resetTo _ _, Or.inr ⟨rfl, rfl, G.start_ne_exit⟩⟩
  cases r with
  | start =>
    unfold requestWith startWith
    dsimp only
    rw [hloaded, hstatus]
    by_cases hl : s.isLoaded = false
    · rw [if_pos hl, if_pos hl]
      exact h
    · rw [if_neg hl, if_neg hl]
      by_cases hst : s.pStatus = .stopped
      · rw [if_pos hst, if_pos hst]
        exact ⟨(hreset.toAlike.setStatus _).note _, hreset.previous⟩
      · rw [if_neg hst, if_neg hst]
        split
        · exact ⟨(h.toAlike.setStatus _).note _, h.previous⟩
        · exact h
  | pause =>
    unfold requestWith pauseWith
    dsimp only
    rw [hloaded, hstatus]
    by_cases hl : s.isLoaded = false
    · rw [if_pos hl, if_pos hl]
      exact h
    · rw [if_neg hl, if_neg hl]
      by_cases hst : s.pStatus = .stopped
      · rw [if_pos hst, if_pos hst]
        exact ⟨(hreset.toAlike.setPausing true).note _, hreset.previous⟩
      · rw [if_neg hst, if_neg hst]
        exact ⟨(h.toAlike.setPausing true).note _, h.previous⟩
  | step =>
    have hmstep : t.mstep = s.mstep := by rw [h.program]
    unfold requestWith requestStep
    dsimp only
    by_cases hcan : s.isLoaded = true ∧ s.pStatus = .paused ∧ s.mstep = false
    · rw [if_pos hcan, if_pos ⟨hloaded.trans hcan.1, hstatus.trans hcan.2.1, hmstep.trans hcan.2.2⟩]
      exact ⟨(h.toAlike.setStep true).note _, h.previous⟩
    · rw [← hloaded, ← hstatus, ← hmstep] at hcan
      rw [if_neg hcan]
      rw [hloaded, hstatus, hmstep] at hcan
      rw [if_neg hcan]
      exact h
  | stop => exact ⟨(h.toAlike.setStatus .stopped).note _, h.previous⟩
  | reset => exact ⟨hreset.toAlike.note _, hreset.previous⟩

theorem Mirrors.takeStep {s t : FunctionGraph V C W} (h : Mirrors G s t) :
    Mirrors G s.takeStep t.takeStep := ⟨h.toAlike.setStep false, h.previous⟩

theorem Mirrors.leave {s t : FunctionGraph V C W} (h : Mirrors G s t) (ret : Bool) :
    Mirrors G (s.leave ret) (t.leave ret) := by
  refine ⟨h.toAlike.leave ret, ?_⟩
  cases ret <;> exact h.previous

theorem Mirrors.nowPaused {s t : FunctionGraph V C W} (h : Mirrors G s t) :
    Mirrors G ({ s with pStatus := .paused, pausing := false }.note .nowPaused)
      ({ t with pStatus := .paused, pausing := false }.note .nowPaused) :=
  ⟨((h.toAlike.setStatus .paused).setPausing false).note _, h.previous⟩

/-- One step of the two programs. -/
theorem Mirrors.step {s t : FunctionGraph V C W} (h : Mirrors G s t) {a : Action}
    (hmeets : Unnoticed G B s a) :
    Mirrors G (s.step G B a) (t.stepWith G B (copiedExitv G) a) := by
  have hloaded : t.isLoaded = s.isLoaded := by rw [h.program]
  have hstatus : t.pStatus = s.pStatus := by rw [h.program]
  have hpause : t.pausing = s.pausing := by rw [h.program]
  have hmstep : t.mstep = s.mstep := by rw [h.program]
  have hunload : t.munloadOnStop = s.munloadOnStop := by rw [h.program]
  rw [← stepWith_exitv]
  cases a with
  | request r =>
    unfold stepWith
    dsimp only
    rw [h.busy]
    split
    · exact h
    · exact h.request r
  | goOn =>
    unfold stepWith
    dsimp only
    rw [h.busy]
    by_cases hb : s.busy = true
    · obtain ⟨hidle, hinside⟩ := hmeets.1 (if_pos hb)
      rw [if_pos hb, if_pos hb]
      exact h.pass hidle hinside
    · rw [if_neg hb, if_neg hb]
      exact h
  | execute =>
    unfold stepWith
    dsimp only
    rw [h.busy, hloaded]
    by_cases hidle : s.busy ∨ s.isLoaded = false
    · rw [if_pos hidle, if_pos hidle]
      exact h
    · rw [if_neg hidle, if_neg hidle]
      unfold executeWith
      by_cases hpausing : s.pausing = true
      · rw [if_pos hpausing, if_pos (hpause.trans hpausing)]
        exact h.nowPaused
      · have hno : ¬ (s.busy ∨ s.isLoaded = false ∨ s.pausing) := by
          rintro (hb | hl | hp)
          · exact hidle (Or.inl hb)
          · exact hidle (Or.inr hl)
          · exact hpausing hp
        have hnot : ¬ t.pausing = true := by
          rw [hpause]
          exact hpausing
        rw [if_neg hpausing, if_neg hnot, hstatus, hmstep, hunload]
        have hwork : s.work .execute = if s.pStatus = .running then .pass
            else if s.pStatus = .paused ∧ s.mstep then .oneStep else .nothing := if_neg hno
        cases hst : s.pStatus with
        | running =>
          obtain ⟨hstart, hinside⟩ := hmeets.1 (hwork.trans (if_pos hst))
          exact h.pass hstart hinside
        | paused =>
          dsimp only
          by_cases hm : s.mstep = true
          · rw [if_neg (by rw [hst]; nofun), if_pos ⟨hst, hm⟩] at hwork
            obtain ⟨hstart, hinside⟩ := hmeets.2 hwork
            rw [if_pos hm, if_pos hm]
            exact h.takeStep.executeStep hstart hinside
          · rw [if_neg hm, if_neg hm]
            exact h
        | stopped => exact h.leave _
        | unknown => exact h.leave _
        | error => exact h.leave _

theorem cloned_mirrors (unloadOnStop : Bool) (w : W) :
    Mirrors G (loaded unloadOnStop G w) (cloned (.constructed unloadOnStop) G w) :=
  ⟨⟨rfl, rfl, rfl, rfl, rfl⟩, Or.inr ⟨rfl, rfl, G.start_ne_exit⟩⟩

/-- A clone does as the original in every run that does not come to the difference. -/
theorem clone_alike {unset : Unset} {unloadOnStop : Bool} {w : W} {acts : List Action}
    (hunset : unset = .constructed unloadOnStop)
    (hmeets : Library.Run.Along (step G B) (Unnoticed G B) (loaded unloadOnStop G w) acts) :
    Alike (Library.Run.run (step G B) (loaded unloadOnStop G w) acts)
      (Library.Run.run (stepWith G B (copiedExitv G)) (cloned unset G w) acts) := by
  subst hunset
  have hrun : ∀ (acts : List Action) (s t : FunctionGraph V C W), Mirrors G s t →
      Library.Run.Along (step G B) (Unnoticed G B) s acts →
      Mirrors G (Library.Run.run (step G B) s acts)
        (Library.Run.run (stepWith G B (copiedExitv G)) t acts) := by
    intro acts
    induction acts with
    | nil => intro s t h _; exact h
    | cons a acts ih => intro s t h ha; exact ih _ _ (h.step ha.1) ha.2
  exact (hrun acts _ _ (cloned_mirrors unloadOnStop w) hmeets).toAlike

/-- Vertices of a program that does one thing again and again. -/
inductive Endless where
  | entry | body | exit
  deriving DecidableEq

/-- `while ( true ) n = n + 1;`, where each turn waits for the next step of the engine -/
def endless : ProgramGraph Endless Unit Unit where
  startv := .entry
  exitv := .exit
  command
    | .body => some ()
    | _ => none
  outEdges
    | .entry => [((), .body)]
    | .body => []
    | .exit => []
  start_ne_exit := by decide
  exit_command := rfl
  exit_outEdges := rfl

def countingCommands : Commands Unit Unit ℕ where
  startExecution _ n := (false, n)
  execute _ n := (⟨[], false⟩, n + 1)
  valid _ _ := true
  resetCondition _ n := n
  evaluate _ n := (some true, n)

/-- Three steps of the engine, paused and resumed between them. -/
theorem clone_alike_endless :
    Alike
      (Library.Run.run (step endless countingCommands) (loaded false endless 0)
        [.request .start, .execute, .goOn, .execute, .request .pause, .execute, .request .step,
          .execute])
      (Library.Run.run (stepWith endless countingCommands (copiedExitv endless))
        (cloned (.constructed false) endless 0)
        [.request .start, .execute, .goOn, .execute, .request .pause, .execute, .request .step,
          .execute]) :=
  clone_alike rfl (by decide)

/-- The original ends at its exit node; the clone has done the same and goes on waiting there. -/
theorem clone_never_ends :
    let G := oneCommand
    let B : Commands Unit Unit ℕ := countingCommands
    let s := Library.Run.run (step G B) (loaded true G 0) [.execute, .goOn]
    let t := Library.Run.run (stepWith G B (copiedExitv G)) (cloned (.constructed true) G 0)
      [.execute, .goOn]
    s.pStatus = .stopped ∧ s.isLoaded = false ∧ s.current = G.exitv ∧
      t.executed = s.executed ∧ t.current = G.exitv ∧ t.pStatus = .running ∧ t.isLoaded = true := by
  decide

end FunctionGraph
end OrocosRtt.Scripting
