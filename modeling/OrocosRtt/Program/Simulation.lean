import OrocosRtt.Program.Clone

/-! Two program graphs whose nodes have the same commands and edges, up to a relation between the
nodes, run alike under the same requests and engine steps. -/
namespace OrocosRtt.Scripting
set_option linter.unusedSectionVars false

/-- An event with other nodes in it. -/
def Event.map {V V' C : Type} (f : V → V') : Event V C → Event V' C
  | .vertex v => .vertex (f v)
  | .resetCondition c => .resetCondition c
  | .startExecution v => .startExecution (f v)
  | .execute v => .execute (f v)
  | .evaluate c => .evaluate c
  | .accepted r => .accepted r
  | .nowPaused => .nowPaused
  | .exited => .exited
  | .failed => .failed
  | .unloaded => .unloaded

/-- Related nodes have the same command and edges with the same conditions to related nodes; no
edge leads back to the node it leaves. -/
structure Simulates {V V' K C : Type} (G : ProgramGraph V K C) (G' : ProgramGraph V' K C)
    (R : V → V' → Prop) : Prop where
  start : R G.startv G'.startv
  exit : ∀ {v v'}, R v v' → (v = G.exitv ↔ v' = G'.exitv)
  command : ∀ {v v'}, R v v' → G.command v = G'.command v'
  edges : ∀ {v v'}, R v v' →
    List.Forall₂ (fun e e' => e.1 = e'.1 ∧ R e.2 e'.2) (G.outEdges v) (G'.outEdges v')
  leaves : ∀ {v v'}, R v v' → (∀ e ∈ G.outEdges v, e.2 ≠ v) ∧ ∀ e ∈ G'.outEdges v', e.2 ≠ v'

namespace FunctionGraph

variable {V V' K C W : Type} [DecidableEq V] [DecidableEq V']

/-- What has happened so far, newest first, with the commands in place of the nodes. -/
def trace (G : ProgramGraph V K C) (s : FunctionGraph V C W) : List (Event (Option K) C) :=
  s.log.map (Event.map G.command)

/-- Two programs at related nodes, alike in everything else. -/
structure Matches (G : ProgramGraph V K C) (G' : ProgramGraph V' K C) (R : V → V' → Prop)
    (s : FunctionGraph V C W) (t : FunctionGraph V' C W) : Prop where
  program : t.toProgram = s.toProgram
  context : t.context = s.context
  busy : t.busy = s.busy
  world : t.world = s.world
  trace : t.trace G' = s.trace G
  current : R s.current t.current

/-- Between two steps: both have just been reset, or wait in their node, or have come to it from
another one. -/
structure Waiting (G : ProgramGraph V K C) (G' : ProgramGraph V' K C) (R : V → V' → Prop)
    (s : FunctionGraph V C W) (t : FunctionGraph V' C W) : Prop extends Matches G G' R s t where
  previous : s.previous = G.exitv ∧ t.previous = G'.exitv ∨
    s.previous = s.current ∧ t.previous = t.current ∨
    s.previous ≠ s.current ∧ t.previous ≠ t.current

/-- Once the node has been executed: it is the previous one, unless there was a reset. -/
structure Acted (G : ProgramGraph V K C) (G' : ProgramGraph V' K C) (R : V → V' → Prop)
    (s : FunctionGraph V C W) (t : FunctionGraph V' C W) : Prop extends Matches G G' R s t where
  previous : s.previous = G.exitv ∧ t.previous = G'.exitv ∨
    s.previous = s.current ∧ t.previous = t.current

variable {G : ProgramGraph V K C} {G' : ProgramGraph V' K C} {R : V → V' → Prop}
  {B : Commands K C W} {s : FunctionGraph V C W} {t : FunctionGraph V' C W}

namespace Matches

theorem note (h : Matches G G' R s t) (e : Event V C) (e' : Event V' C)
    (he : e'.map G'.command = e.map G.command) : Matches G G' R (s.note e) (t.note e') where
  program := h.program
  context := h.context
  busy := h.busy
  world := h.world
  trace := by
    show e'.map G'.command :: t.trace G' = e.map G.command :: s.trace G
    rw [he, h.trace]
  current := h.current

theorem setWorld (h : Matches G G' R s t) (w : W) :
    Matches G G' R (s.setWorld w) (t.setWorld w) :=
  ⟨h.program, h.context, h.busy, rfl, h.trace, h.current⟩

theorem setStatus (h : Matches G G' R s t) (p : ProgramStatus) :
    Matches G G' R (s.setStatus p) (t.setStatus p) :=
  ⟨congrArg (fun q : Program => { q with pStatus := p }) h.program, h.context, h.busy, h.world,
    h.trace, h.current⟩

theorem setBusy (h : Matches G G' R s t) (b : Bool) :
    Matches G G' R { s with busy := b } { t with busy := b } :=
  ⟨h.program, h.context, rfl, h.world, h.trace, h.current⟩

theorem setPrevious (h : Matches G G' R s t) (v : V) (v' : V') :
    Matches G G' R { s with previous := v } { t with previous := v' } :=
  ⟨h.program, h.context, h.busy, h.world, h.trace, h.current⟩

theorem reset (hR : Simulates G G' R) (h : Matches G G' R s t) :
    Matches G G' R (s.reset G) (t.reset G') :=
  ⟨congrArg (fun q : Program => { q with pStatus := .stopped }) h.program, h.context, h.busy,
    h.world, h.trace, hR.start⟩

theorem isLoaded (h : Matches G G' R s t) : t.isLoaded = s.isLoaded :=
  congrArg Program.isLoaded h.program

theorem pStatus (h : Matches G G' R s t) : t.pStatus = s.pStatus :=
  congrArg Program.pStatus h.program

theorem pausing (h : Matches G G' R s t) : t.pausing = s.pausing :=
  congrArg Program.pausing h.program

theorem mstep (h : Matches G G' R s t) : t.mstep = s.mstep := congrArg Program.mstep h.program

theorem munloadOnStop (h : Matches G G' R s t) : t.munloadOnStop = s.munloadOnStop :=
  congrArg Program.munloadOnStop h.program

end Matches

theorem Acted.waiting (h : Acted G G' R s t) : Waiting G G' R s t :=
  ⟨h.toMatches, h.previous.imp_right .inl⟩

theorem Waiting.test (hR : Simulates G G' R) (h : Waiting G G' R s t) :
    s.previous = s.current ↔ t.previous = t.current := by
  rcases h.previous with ⟨hs, ht⟩ | ⟨hs, ht⟩ | ⟨hs, ht⟩
  · rw [hs, ht, eq_comm, hR.exit h.current, eq_comm]
  · exact iff_of_true hs ht
  · exact iff_of_false hs ht

/-! ### The execution of a node -/

theorem Matches.resetConditions {es : List (C × V)} {es' : List (C × V')}
    (he : List.Forall₂ (fun e e' => e.1 = e'.1 ∧ R e.2 e'.2) es es') :
    ∀ {s : FunctionGraph V C W} {t : FunctionGraph V' C W}, Matches G G' R s t →
      Matches G G' R (s.resetConditions B es) (t.resetConditions B es') := by
  induction he with
  | nil => intro s t h; exact h
  | @cons e e' es es' hhead _ ih =>
    intro s t h
    obtain ⟨c, v⟩ := e
    obtain ⟨c', v'⟩ := e'
    obtain ⟨rfl, -⟩ : c = c' ∧ R v v' := hhead
    refine ih ?_
    rw [h.world]
    exact (h.setWorld _).note _ _ rfl

theorem Waiting.startVertex (hR : Simulates G G' R) (h : Waiting G G' R s t) :
    (t.startVertex G' B).1 = (s.startVertex G B).1 ∧
      Matches G G' R (s.startVertex G B).2 (t.startVertex G' B).2 := by
  unfold FunctionGraph.startVertex
  by_cases hs : s.previous = s.current
  · rw [if_pos hs, if_pos ((h.test hR).mp hs)]
    exact ⟨rfl, h.toMatches⟩
  · rw [if_neg hs, if_neg fun ht => hs ((h.test hR).mpr ht)]
    have hreset := Matches.resetConditions (B := B) (hR.edges h.current) h.toMatches
    have hcommand := hR.command hreset.current
    dsimp only
    revert hreset hcommand
    generalize s.resetConditions B (G.outEdges s.current) = s₁
    generalize t.resetConditions B (G'.outEdges t.current) = t₁
    intro hreset hcommand
    rw [← hcommand]
    cases G.command s₁.current with
    | none => exact ⟨rfl, hreset.note _ _ (congrArg Event.startExecution hcommand.symm)⟩
    | some k =>
      dsimp only
      rw [hreset.world]
      exact ⟨rfl, (hreset.setWorld _).note _ _ (congrArg Event.startExecution hcommand.symm)⟩

theorem Matches.setPausing (h : Matches G G' R s t) (b : Bool) :
    Matches G G' R { s with pausing := b } { t with pausing := b } :=
  ⟨congrArg (fun q : Program => { q with pausing := b }) h.program, h.context, h.busy, h.world,
    h.trace, h.current⟩

theorem Matches.pause (hR : Simulates G G' R) (h : Matches G G' R s t) :
    Matches G G' R (s.pause G) (t.pause G') := by
  unfold FunctionGraph.pause
  rw [h.isLoaded, h.pStatus]
  split
  · exact h
  · split
    · exact ((h.reset hR).setPausing true).note _ _ rfl
    · exact (h.setPausing true).note _ _ rfl

/-- Either both cursors stay where they are or both are reset. -/
theorem Matches.pause_previous (h : Matches G G' R s t) :
    (s.pause G).previous = s.previous ∧ (s.pause G).current = s.current ∧
      (t.pause G').previous = t.previous ∧ (t.pause G').current = t.current ∨
    (s.pause G).previous = G.exitv ∧ (t.pause G').previous = G'.exitv := by
  unfold FunctionGraph.pause
  rw [h.isLoaded, h.pStatus]
  split
  · exact .inl ⟨rfl, rfl, rfl, rfl⟩
  · split
    · exact .inr ⟨rfl, rfl⟩
    · exact .inl ⟨rfl, rfl, rfl, rfl⟩

theorem Acted.ask (hR : Simulates G G' R) (h : Acted G G' R s t) (r : SelfRequest) :
    Acted G G' R (s.ask G r) (t.ask G' r) := by
  cases r with
  | stop => exact ⟨(h.toMatches.setStatus .stopped).note _ _ rfl, h.previous⟩
  | pause =>
    refine ⟨h.toMatches.pause hR, ?_⟩
    show (s.pause G).previous = G.exitv ∧ (t.pause G').previous = G'.exitv ∨
      (s.pause G).previous = (s.pause G).current ∧ (t.pause G').previous = (t.pause G').current
    rcases h.toMatches.pause_previous with ⟨hs, hs', ht, ht'⟩ | hreset
    · rw [hs, hs', ht, ht']
      exact h.previous
    · exact .inl hreset

theorem Acted.asks (hR : Simulates G G' R) (rs : List SelfRequest) :
    ∀ {s : FunctionGraph V C W} {t : FunctionGraph V' C W}, Acted G G' R s t →
      Acted G G' R (rs.foldl (FunctionGraph.ask G) s) (rs.foldl (FunctionGraph.ask G') t) := by
  induction rs with
  | nil => intro s t h; exact h
  | cons r rs ih => intro s t h; exact ih (h.ask hR r)

theorem Matches.executeVertex (hR : Simulates G G' R) (h : Matches G G' R s t) :
    (t.executeVertex G' B).1 = (s.executeVertex G B).1 ∧
      Acted G G' R (s.executeVertex G B).2 (t.executeVertex G' B).2 := by
  have hcommand := hR.command h.current
  have hprev := h.setPrevious s.current t.current
  unfold FunctionGraph.executeVertex
  dsimp only
  rw [← hcommand]
  cases G.command s.current with
  | none => exact ⟨rfl, hprev.note _ _ (congrArg Event.execute hcommand.symm), .inr ⟨rfl, rfl⟩⟩
  | some k =>
    dsimp only
    rw [h.world]
    refine ⟨rfl, Acted.asks hR _ ⟨?_, .inr ⟨rfl, rfl⟩⟩⟩
    exact (hprev.setWorld _).note _ _ (congrArg Event.execute hcommand.symm)

theorem Matches.isValid (hR : Simulates G G' R) (h : Matches G G' R s t) :
    t.isValid G' B = s.isValid G B := by
  unfold FunctionGraph.isValid
  rw [← hR.command h.current, h.world]

/-- Along the edges of the node both stay, or go to another node. -/
theorem Acted.branch {es : List (C × V)} {es' : List (C × V')}
    (he : List.Forall₂ (fun e e' => e.1 = e'.1 ∧ R e.2 e'.2) es es') :
    ∀ {s : FunctionGraph V C W} {t : FunctionGraph V' C W}, Acted G G' R s t →
      (∀ e ∈ es, e.2 ≠ s.current) → (∀ e ∈ es', e.2 ≠ t.current) →
      (t.branch B es').1 = (s.branch B es).1 ∧
        Waiting G G' R (s.branch B es).2 (t.branch B es').2 := by
  induction he with
  | nil => intro s t h _ _; exact ⟨rfl, h.waiting⟩
  | @cons e e' es es' hhead _ ih =>
    intro s t h hs ht
    obtain ⟨c, v⟩ := e
    obtain ⟨c', v'⟩ := e'
    obtain ⟨rfl, hv⟩ : c = c' ∧ R v v' := hhead
    have hnext : Acted G G' R ((s.setWorld (B.evaluate c s.world).2).note (.evaluate c))
        ((t.setWorld (B.evaluate c s.world).2).note (.evaluate c)) :=
      ⟨(h.toMatches.setWorld _).note _ _ rfl, h.previous⟩
    unfold FunctionGraph.branch
    dsimp only
    rw [h.world]
    cases (B.evaluate c s.world).1 with
    | none => exact ⟨rfl, hnext.waiting⟩
    | some b =>
      cases b with
      | true =>
        refine ⟨rfl, ⟨hnext.program, hnext.context, hnext.busy, hnext.world, hnext.trace, hv⟩, ?_⟩
        refine h.previous.imp_right fun hprev => .inr ⟨?_, ?_⟩
        · show s.previous ≠ v
          rw [hprev.1]
          exact (hs _ List.mem_cons_self).symm
        · show t.previous ≠ v'
          rw [hprev.2]
          exact (ht _ List.mem_cons_self).symm
      | false =>
        exact ih hnext (fun e he => hs e (List.mem_cons_of_mem _ he))
          fun e he => ht e (List.mem_cons_of_mem _ he)

theorem Waiting.turn (hR : Simulates G G' R) (h : Waiting G G' R s t) :
    (t.turn G' B).1 = (s.turn G B).1 ∧ Waiting G G' R (s.turn G B).2 (t.turn G' B).2 := by
  have hopen : Waiting G G' R (s.note (.vertex s.current)) (t.note (.vertex t.current)) :=
    ⟨h.toMatches.note _ _ (congrArg Event.vertex (hR.command h.current).symm), h.previous⟩
  obtain ⟨hthrew, hstart⟩ := hopen.startVertex (B := B) hR
  have hs := startVertex_initialises (G := G) (B := B) (s.note (.vertex s.current))
  have ht := startVertex_initialises (G := G') (B := B) (t.note (.vertex t.current))
  unfold FunctionGraph.turn
  dsimp only
  rw [hthrew]
  split
  · refine ⟨hthrew, hstart, ?_⟩
    rw [hs.previous, hs.current, ht.previous, ht.current]
    exact hopen.previous
  · obtain ⟨hthrew', hexec⟩ := hstart.executeVertex (B := B) hR
    rw [hthrew']
    split
    · exact ⟨hthrew', hexec.waiting⟩
    · rw [hexec.toMatches.isValid hR]
      split
      · exact hexec.branch (hR.edges hexec.current) (hR.leaves hexec.current).1
          (hR.leaves hexec.current).2
      · exact ⟨hthrew', hexec.waiting⟩

/-! ### Requests and engine steps -/

theorem Waiting.setProgram (h : Waiting G G' R s t) (f : Program → Program) :
    Waiting G G' R { s with toProgram := f s.toProgram } { t with toProgram := f t.toProgram } :=
  ⟨⟨congrArg f h.program, h.context, h.busy, h.world, h.trace, h.current⟩, h.previous⟩

theorem Waiting.note (h : Waiting G G' R s t) (e : Event V C) (e' : Event V' C)
    (he : e'.map G'.command = e.map G.command) : Waiting G G' R (s.note e) (t.note e') :=
  ⟨h.toMatches.note e e' he, h.previous⟩

theorem Waiting.setBusy (h : Waiting G G' R s t) (b : Bool) :
    Waiting G G' R { s with busy := b } { t with busy := b } :=
  ⟨h.toMatches.setBusy b, h.previous⟩

theorem Waiting.setContext (h : Waiting G G' R s t) (b : Bool) :
    Waiting G G' R { s with context := b } { t with context := b } :=
  ⟨⟨h.program, rfl, h.busy, h.world, h.trace, h.current⟩, h.previous⟩

theorem Waiting.reset (hR : Simulates G G' R) (h : Waiting G G' R s t) :
    Waiting G G' R (s.reset G) (t.reset G') := ⟨h.toMatches.reset hR, .inl ⟨rfl, rfl⟩⟩

theorem Waiting.leave (h : Waiting G G' R s t) (ret : Bool) :
    Waiting G G' R (s.leave ret) (t.leave ret) := by
  cases ret with
  | true => exact h.setBusy false
  | false =>
    exact (((h.setBusy false).setProgram fun p => { p with isLoaded := false }).setContext
      false).note _ _ rfl

theorem Waiting.stop (h : Waiting G G' R s t) : Waiting G G' R s.stop t.stop :=
  h.setProgram fun p => { p with pStatus := .stopped }

theorem Waiting.fail (h : Waiting G G' R s t) : Waiting G G' R s.fail t.fail :=
  (h.setProgram fun p => { p with pStatus := .error }).note _ _ rfl

theorem Waiting.pass (hR : Simulates G G' R) (h : Waiting G G' R s t) :
    Waiting G G' R (s.pass G B) (t.pass G' B) := by
  obtain ⟨hthrew, hturn⟩ := h.turn (B := B) hR
  unfold FunctionGraph.pass
  dsimp only
  rw [hthrew]
  by_cases hfail : (s.turn G B).1 = true
  · rw [if_pos hfail, if_pos hfail]
    exact hturn.fail.leave false
  rw [if_neg hfail, if_neg hfail, hturn.pStatus, hturn.pausing, hturn.munloadOnStop]
  have hmoved := hturn.test hR
  have hexit := hR.exit hturn.current
  have hgoes : (s.turn G B).2.previous ≠ (s.turn G B).2.current ∧
        (s.turn G B).2.pStatus = .running ∧ (s.turn G B).2.pausing = false ↔
      (t.turn G' B).2.previous ≠ (t.turn G' B).2.current ∧
        (s.turn G B).2.pStatus = .running ∧ (s.turn G B).2.pausing = false :=
    and_congr_left' (not_congr hmoved)
  by_cases hgo : (s.turn G B).2.previous ≠ (s.turn G B).2.current ∧
      (s.turn G B).2.pStatus = .running ∧ (s.turn G B).2.pausing = false
  · rw [if_pos hgo, if_pos (hgoes.mp hgo)]
    exact hturn.setBusy true
  · rw [if_neg hgo, if_neg (mt hgoes.mpr hgo)]
    by_cases hend : (s.turn G B).2.current = G.exitv
    · rw [if_pos hend, if_pos (hexit.mp hend)]
      exact (hturn.stop.note _ _ rfl).leave _
    · rw [if_neg hend, if_neg (mt hexit.mpr hend)]
      exact hturn.leave true

theorem Waiting.executeStep (hR : Simulates G G' R) (h : Waiting G G' R s t) :
    Waiting G G' R (s.executeStep G B) (t.executeStep G' B) := by
  obtain ⟨hthrew, hturn⟩ := h.turn (B := B) hR
  have hexit := hR.exit hturn.current
  unfold FunctionGraph.executeStep
  dsimp only
  rw [hthrew]
  by_cases hfail : (s.turn G B).1 = true
  · rw [if_pos hfail, if_pos hfail]
    exact hturn.fail
  rw [if_neg hfail, if_neg hfail]
  by_cases hend : (s.turn G B).2.current = G.exitv
  · rw [if_pos hend, if_pos (hexit.mp hend)]
    exact hturn.stop.note _ _ rfl
  · rw [if_neg hend, if_neg (mt hexit.mpr hend)]
    exact hturn

theorem Waiting.request (hR : Simulates G G' R) (h : Waiting G G' R s t) (r : Request) :
    Waiting G G' R (s.request G r) (t.request G' r) := by
  cases r with
  | start =>
    unfold FunctionGraph.request FunctionGraph.start
    dsimp only
    rw [h.isLoaded, h.pStatus]
    split
    · exact h
    · split
      · exact ((h.reset hR).setProgram fun p => { p with pStatus := .running }).note _ _ rfl
      · split
        · exact (h.setProgram fun p => { p with pStatus := .running }).note _ _ rfl
        · exact h
  | pause =>
    refine ⟨h.toMatches.pause hR, ?_⟩
    show (s.pause G).previous = G.exitv ∧ (t.pause G').previous = G'.exitv ∨
      (s.pause G).previous = (s.pause G).current ∧ (t.pause G').previous = (t.pause G').current ∨
      (s.pause G).previous ≠ (s.pause G).current ∧ (t.pause G').previous ≠ (t.pause G').current
    rcases h.toMatches.pause_previous with ⟨hs, hs', ht, ht'⟩ | hreset
    · rw [hs, hs', ht, ht']
      exact h.previous
    · exact .inl hreset
  | step =>
    unfold FunctionGraph.request FunctionGraph.requestStep
    by_cases hok : s.isLoaded = true ∧ s.pStatus = .paused ∧ s.mstep = false
    · have hok' : t.isLoaded = true ∧ t.pStatus = .paused ∧ t.mstep = false := by
        rw [h.isLoaded, h.pStatus, h.mstep]
        exact hok
      dsimp only
      rw [if_pos hok, if_pos hok']
      exact (h.setProgram fun p => { p with mstep := true }).note _ _ rfl
    · have hok' : ¬ (t.isLoaded = true ∧ t.pStatus = .paused ∧ t.mstep = false) := by
        rw [h.isLoaded, h.pStatus, h.mstep]
        exact hok
      dsimp only
      rw [if_neg hok, if_neg hok']
      exact h
  | stop => exact h.stop.note _ _ rfl
  | reset => exact (h.reset hR).note _ _ rfl

theorem Waiting.execute (hR : Simulates G G' R) (h : Waiting G G' R s t) :
    Waiting G G' R (s.execute G B) (t.execute G' B) := by
  unfold FunctionGraph.execute
  by_cases hp : s.pausing = true
  · rw [if_pos hp, if_pos (h.pausing.trans hp)]
    exact (h.setProgram fun p => { p with pStatus := .paused, pausing := false }).note _ _ rfl
  · have hp' : ¬ t.pausing = true := by rw [h.pausing]; exact hp
    rw [if_neg hp, if_neg hp', h.pStatus, h.munloadOnStop]
    cases s.pStatus with
    | running => exact h.pass hR
    | paused =>
      dsimp only
      by_cases hm : s.mstep = true
      · rw [if_pos hm, if_pos (h.mstep.trans hm)]
        exact (h.setProgram fun p => { p with mstep := false }).executeStep hR
      · have hm' : ¬ t.mstep = true := by rw [h.mstep]; exact hm
        rw [if_neg hm, if_neg hm']
        exact h
    | error => exact h.leave _
    | unknown => exact h.leave _
    | stopped => exact h.leave _

theorem Waiting.step (hR : Simulates G G' R) (h : Waiting G G' R s t) (a : Action) :
    Waiting G G' R (s.step G B a) (t.step G' B a) := by
  unfold FunctionGraph.step
  rw [h.busy, h.isLoaded]
  cases a with
  | request r =>
    dsimp only
    split
    · exact h
    · exact h.request hR r
  | execute =>
    dsimp only
    split
    · exact h
    · exact h.execute hR
  | goOn =>
    dsimp only
    split
    · exact h.pass hR
    · exact h

/-- Programs of related graphs run alike under all requests and engine steps. -/
theorem run_waiting (hR : Simulates G G' R) (acts : List Action) :
    ∀ {s : FunctionGraph V C W} {t : FunctionGraph V' C W}, Waiting G G' R s t →
      Waiting G G' R (Library.Run.run (FunctionGraph.step G B) s acts)
        (Library.Run.run (FunctionGraph.step G' B) t acts) := by
  induction acts with
  | nil => intro s t h; exact h
  | cons a acts ih => intro s t h; exact ih (h.step hR a)

theorem loaded_waiting (hR : Simulates G G' R) (unloadOnStop : Bool) (w : W) :
    Waiting G G' R (loaded unloadOnStop G w) (loaded unloadOnStop G' w) :=
  ⟨⟨rfl, rfl, rfl, rfl, rfl, hR.start⟩, .inl ⟨rfl, rfl⟩⟩

end FunctionGraph
end OrocosRtt.Scripting
