import OrocosRtt.DataSource.Instance
import OrocosRtt.StateMachine.GraphCopy

/-! `ParsedStateMachine::copy`: the instance has the same states in the same roles, unless a state is
known as the `else` state of an event only. -/
namespace OrocosRtt.StateMachine.GraphCopy

open DataSource.Copy

/-- A script from which machines are built, and the variables that an instance gets for itself. The
service that sets up handlers for events sees no difference between arguments and their copies. -/
structure Source where
  script : Script
  vars : List ℕ
  instantiated : ∀ i ∈ vars, script.IsVariable i
  produces : ℕ → String → List Node → Bool
  produces_copy : ∀ sp ename args args', List.Forall₂ (CopyOf script vars) args args' →
    produces sp ename args' = produces sp ename args

namespace Source

variable (o : Source)

/-- The programs and conditions of the script. -/
abbrev Code : Type := { n : Node // o.script.Has n ∧ ∃ i parts, n = .composite i parts }

abbrev Argument : Type := { n : Node // o.script.Has n }

/-- A machine that was built with the operations. -/
def build (desc : ℕ → StateDescription o.Code) (ops : List (Operation o.Code o.Argument)) :
    Graph o.Code o.Argument :=
  ops.foldl (Graph.step fun sp ename args => o.produces sp ename (args.map Subtype.val))
    (Graph.create desc)

end Source

/-! ## The copy -/

variable {o : Source}

def copyCode (c : o.Code) (st : Copying) : Node × Copying := copy c.val st

def copyProgram (c : Option o.Code) (st : Copying) : Option Node × Copying :=
  match c with
  | none => (none, st)
  | some c => (some (copy c.val st).1, (copy c.val st).2)

def copyArgs (args : List o.Argument) (st : Copying) : List Node × Copying :=
  match args with
  | [] => ([], st)
  | a :: args =>
    let r := copy a.val st
    let rest := copyArgs args r.2
    (r.1 :: rest.1, rest.2)

/-- `StateDescription::copy` -/
def copyDescription (d : StateDescription o.Code) (st : Copying) :
    StateDescription Node × Copying :=
  let entry := copyProgram d.mentry st
  let exit := copyProgram d.mexit entry.2
  let handle := copyProgram d.mhandle exit.2
  let run := copyProgram d.mrun handle.2
  (⟨d.name, d.entrypoint, d.inited, entry.1, exit.1, handle.1, run.1⟩, run.2)

def copyTransition (f : Pointer → Pointer) (t : Transition Pointer o.Code o.Code) (st : Copying) :
    Transition Pointer Node Node × Copying :=
  let condition := copyCode t.cnd st
  let transprog := copyProgram t.transprog condition.2
  (⟨condition.1, f t.target, t.priority, t.line, transprog.1⟩, transprog.2)

def copyEvent (f : Pointer → Pointer) (e : Event o.Code o.Argument) (st : Copying) :
    Event Node Node × Copying :=
  let newargs := copyArgs e.args st
  let condition := copyCode e.guard newargs.2
  let tprog := copyProgram e.transprog condition.2
  let eprog := copyProgram e.elseprog tprog.2
  (⟨e.sp, e.ename, newargs.1, f e.target, condition.1, tprog.1, f e.elseto, eprog.1⟩, eprog.2)

def copyPrecondition (p : o.Code × ℕ) (st : Copying) : (Node × ℕ) × Copying :=
  (((copyCode p.1 st).1, p.2), (copyCode p.1 st).2)

/-- The copy under way, while the states are copied; `next` is where the next state is allocated. -/
structure Making where
  ret : Graph Node Node
  replacements : Copying
  statemapping : List (Pointer × Pointer)
  next : ℕ

/-- `statemapping[k]`: a state that is not there is mapped to the null pointer. -/
def Making.mapped (m : Making) (k : Pointer) : Pointer := (m.statemapping.lookup k).getD none

def copyState (g : Graph o.Code o.Argument) (m : Making) (k : Pointer) : Making :=
  match k with
  | none => m
  | some i =>
    let cpy := copyDescription (g.desc i) m.replacements
    { ret := { m.ret with
        desc := Function.update m.ret.desc m.next cpy.1
        stateMap := m.ret.stateMap.add (some m.next) }
      replacements := cpy.2
      statemapping := (some i, some m.next) :: m.statemapping
      next := m.next + 1 }

/-- The loops over transitions, events and preconditions: each entry of each state is copied by `cp`
and given to `insert` for the copy of the state. -/
def copyMap {α β : Type} (f : Pointer → Pointer) (cp : α → Copying → β × Copying)
    (insert : Pointer → β → Graph Node Node → Graph Node Node) (m : PointerMap α)
    (acc : Graph Node Node × Copying) : Graph Node Node × Copying :=
  m.keys.foldl (fun acc k => (m.value k).foldl
    (fun acc a => (insert (f k) (cp a acc.2).1 acc.1, (cp a acc.2).2)) acc) acc

/-- The states that a machine knows of. -/
def Graph.mentioned {C D : Type} (g : Graph C D) : List Pointer :=
  g.stateMap.keys ++ g.eventMap.keys.flatMap fun k => (g.eventMap.value k).map Event.elseto

/-- An address behind all these states. -/
def Graph.next {C D : Type} (g : Graph C D) : ℕ :=
  (g.mentioned.map fun k => k.getD 0).foldr max 0 + 1

def emptyDescription : StateDescription Node := ⟨"", 0, false, none, none, none, none⟩

/-- The init command has been copied. -/
def startCopy (g : Graph o.Code o.Argument) : Making :=
  let init := copyProgram g.initc (o.script.begin o.vars)
  { ret := (Graph.create fun _ => emptyDescription).setInitCommand init.1
    replacements := init.2
    statemapping := [(none, none)]
    next := g.next }

/-- The states have been copied. -/
def copyStates (g : Graph o.Code o.Argument) : Making :=
  g.stateMap.keys.foldl (copyState g) (startCopy g)

/-- The transitions have been copied. -/
def copyTransitions (g : Graph o.Code o.Argument) : Graph Node Node × Copying :=
  let f := (copyStates g).mapped
  copyMap f (copyTransition f) Graph.transitionSet g.stateMap
    ((copyStates g).ret, (copyStates g).replacements)

/-- The events have been copied. -/
def copyEvents (g : Graph o.Code o.Argument) : Graph Node Node × Copying :=
  let f := (copyStates g).mapped
  copyMap f (copyEvent f) (Graph.createEventTransition o.produces) g.eventMap (copyTransitions g)

/-- The preconditions have been copied. -/
def copyPreconditions (g : Graph o.Code o.Argument) : Graph Node Node × Copying :=
  let f := (copyStates g).mapped
  copyMap f copyPrecondition Graph.preconditionSet g.precondMap (copyEvents g)

/-- `ParsedStateMachine::copy`, from the init command on: the instance and the replacements. -/
def copyMachine (g : Graph o.Code o.Argument) : Graph Node Node × Copying :=
  let f := (copyStates g).mapped
  let r := copyPreconditions g
  ((r.1.setFinalState (f g.finistate)).setInitialState (f g.initstate), r.2)

/-! ## What a copy is -/

/-- `n` is a copy of `c` in which every object is the one that the replacements give for it. -/
def Replaced (o : Source) (st : Copying) (c n : Node) : Prop :=
  CopyOf o.script o.vars c n ∧ ∀ p ∈ pairs c n, Good o.script st p.1 p.2

/-- A copied program or condition is none of the script's. -/
def CodeCopied (st : Copying) (c : o.Code) (n : Node) : Prop :=
  Replaced o st c.val n ∧ o.script.nextId ≤ n.id

structure DescriptionCopied (st : Copying) (d : StateDescription o.Code)
    (d' : StateDescription Node) : Prop where
  name : d'.name = d.name
  entrypoint : d'.entrypoint = d.entrypoint
  inited : d'.inited = d.inited
  entry : Option.Rel (CodeCopied st) d.mentry d'.mentry
  exit : Option.Rel (CodeCopied st) d.mexit d'.mexit
  handle : Option.Rel (CodeCopied st) d.mhandle d'.mhandle
  run : Option.Rel (CodeCopied st) d.mrun d'.mrun

structure TransitionCopied (f : Pointer → Pointer) (st : Copying)
    (t : Transition Pointer o.Code o.Code) (t' : Transition Pointer Node Node) : Prop where
  cnd : CodeCopied st t.cnd t'.cnd
  target : t'.target = f t.target
  priority : t'.priority = t.priority
  line : t'.line = t.line
  transprog : Option.Rel (CodeCopied st) t.transprog t'.transprog

structure EventCopied (f : Pointer → Pointer) (st : Copying) (e : Event o.Code o.Argument)
    (e' : Event Node Node) : Prop where
  sp : e'.sp = e.sp
  ename : e'.ename = e.ename
  args : List.Forall₂ (fun a n => Replaced o st a.val n) e.args e'.args
  target : e'.target = f e.target
  guard : CodeCopied st e.guard e'.guard
  transprog : Option.Rel (CodeCopied st) e.transprog e'.transprog
  elseto : e'.elseto = f e.elseto
  elseprog : Option.Rel (CodeCopied st) e.elseprog e'.elseprog

structure PreconditionCopied (st : Copying) (p : o.Code × ℕ) (p' : Node × ℕ) : Prop where
  cnd : CodeCopied st p.1 p'.1
  line : p'.2 = p.2

/-- `f` maps the states of a machine to those of its copy. It keeps the states `known` apart from
each other and from those of the machine, and what belongs to a state belongs to its image, in the
same order. -/
structure Maps (known : List Pointer) (g : Graph o.Code o.Argument)
    (r : Graph Node Node × Copying) (f : Pointer → Pointer) : Prop where
  null : f none = none
  injective : ∀ k ∈ known, ∀ k' ∈ known, f k = f k' → k = k'
  fresh : ∀ i j, some i ∈ known → some j ∈ g.mentioned → f (some i) ≠ some j
  states : ∀ k, k ∈ r.1.stateMap.keys ↔ ∃ j ∈ g.stateMap.keys, f j = k
  descriptions : ∀ i, some i ∈ g.stateMap.keys →
    ∃ j, f (some i) = some j ∧ DescriptionCopied r.2 (g.desc i) (r.1.desc j)
  transitions : ∀ k ∈ g.stateMap.keys,
    List.Forall₂ (TransitionCopied f r.2) (g.stateMap.value k) (r.1.stateMap.value (f k))
  events : ∀ k ∈ g.stateMap.keys,
    List.Forall₂ (EventCopied f r.2) (g.eventMap.value k) (r.1.eventMap.value (f k))
  eventStates : ∀ k ∈ r.1.eventMap.keys, k ∈ r.1.stateMap.keys
  preconditions : ∀ k ∈ g.stateMap.keys,
    List.Forall₂ (PreconditionCopied r.2) (g.precondMap.value k) (r.1.precondMap.value (f k))
  preconditionStates : ∀ k ∈ r.1.precondMap.keys, k ∈ r.1.stateMap.keys
  initial : r.1.initstate = f g.initstate
  final : r.1.finistate = f g.finistate
  initCommand : Option.Rel (CodeCopied r.2) g.initc r.1.initc

/-- The copy has the same states in the same roles as the machine, and none of its states. -/
def Isomorphic (g : Graph o.Code o.Argument) (r : Graph Node Node × Copying) : Prop :=
  ∃ f, Maps g.mentioned g r f

/-! ## Each copy on its own -/

/-- What was copied stays a copy when more is copied. -/
def Lasting {α β : Type} (Rel : Copying → α → β → Prop) : Prop :=
  ∀ st st' a b, st.Extends st' → Rel st a b → Rel st' a b

/-- The function makes a copy and keeps the map in order. -/
def Copies {α β : Type} (o : Source) (Rel : Copying → α → β → Prop)
    (cp : α → Copying → β × Copying) : Prop :=
  ∀ a st, Inv o.script o.vars st →
    Inv o.script o.vars (cp a st).2 ∧ st.Extends (cp a st).2 ∧ Rel (cp a st).2 a (cp a st).1

theorem Replaced.extend {st st' : Copying} {c n : Node} (h : Replaced o st c n)
    (he : st.Extends st') : Replaced o st' c n :=
  ⟨h.1, fun p hp => (h.2 p hp).mono he⟩

theorem CodeCopied.extend {st st' : Copying} {c : o.Code} {n : Node} (h : CodeCopied st c n)
    (he : st.Extends st') : CodeCopied st' c n :=
  ⟨h.1.extend he, h.2⟩

theorem extend_program {st st' : Copying} {c : Option o.Code} {n : Option Node}
    (h : Option.Rel (CodeCopied st) c n) (he : st.Extends st') :
    Option.Rel (CodeCopied st') c n := by
  cases h with
  | none => exact .none
  | some h => exact .some (h.extend he)

theorem copy_replaced {n : Node} {st : Copying} (hn : o.script.Has n)
    (h : Inv o.script o.vars st) :
    Inv o.script o.vars (copy n st).2 ∧ st.Extends (copy n st).2 ∧
      Replaced o (copy n st).2 n (copy n st).1 := by
  obtain ⟨hc, hd⟩ := copy_copied n st hn h
  exact ⟨hd.inv, hd.older, hc, hd.good⟩

theorem copies_code : Copies o (CodeCopied (o := o)) copyCode := by
  intro c st h
  obtain ⟨hi, he, hr⟩ := copy_replaced c.property.1 h
  refine ⟨hi, he, hr, ?_⟩
  obtain ⟨n, hn, i, parts, rfl⟩ := c
  obtain ⟨j, parts', hj, hle, -⟩ := hr.1
  simpa only [copyCode, hj, Node.id] using hle

theorem copies_program :
    Copies o (fun st => Option.Rel (CodeCopied (o := o) st)) copyProgram := by
  intro c st h
  cases c with
  | none => exact ⟨h, .rfl, .none⟩
  | some c =>
    obtain ⟨hi, he, hr⟩ := copies_code c st h
    exact ⟨hi, he, .some hr⟩

theorem copies_args :
    Copies o (fun st => List.Forall₂ fun a n => Replaced o st a.val n) (copyArgs (o := o)) := by
  intro args
  induction args with
  | nil => exact fun st h => ⟨h, .rfl, .nil⟩
  | cons a args ih =>
    intro st h
    obtain ⟨hi, he, hr⟩ := copy_replaced a.property h
    obtain ⟨hi', he', hr'⟩ := ih (copy a.val st).2 hi
    exact ⟨hi', he.trans he', .cons (hr.extend he') hr'⟩

theorem copies_description : Copies o (DescriptionCopied (o := o)) copyDescription := by
  intro d st h
  obtain ⟨hi₁, he₁, hr₁⟩ := copies_program d.mentry st h
  obtain ⟨hi₂, he₂, hr₂⟩ := copies_program d.mexit _ hi₁
  obtain ⟨hi₃, he₃, hr₃⟩ := copies_program d.mhandle _ hi₂
  obtain ⟨hi₄, he₄, hr₄⟩ := copies_program d.mrun _ hi₃
  have he₃₄ := he₃.trans he₄
  exact ⟨hi₄, he₁.trans (he₂.trans he₃₄),
    { name := rfl
      entrypoint := rfl
      inited := rfl
      entry := extend_program hr₁ (he₂.trans he₃₄)
      exit := extend_program hr₂ he₃₄
      handle := extend_program hr₃ he₄
      run := hr₄ }⟩

theorem copies_transition (f : Pointer → Pointer) :
    Copies o (TransitionCopied (o := o) f) (copyTransition f) := by
  intro t st h
  obtain ⟨hi₁, he₁, hr₁⟩ := copies_code t.cnd st h
  obtain ⟨hi₂, he₂, hr₂⟩ := copies_program t.transprog _ hi₁
  exact ⟨hi₂, he₁.trans he₂, hr₁.extend he₂, rfl, rfl, rfl, hr₂⟩

theorem copies_event (f : Pointer → Pointer) :
    Copies o (EventCopied (o := o) f) (copyEvent f) := by
  intro e st h
  obtain ⟨hi₁, he₁, hr₁⟩ := copies_args e.args st h
  obtain ⟨hi₂, he₂, hr₂⟩ := copies_code e.guard _ hi₁
  obtain ⟨hi₃, he₃, hr₃⟩ := copies_program e.transprog _ hi₂
  obtain ⟨hi₄, he₄, hr₄⟩ := copies_program e.elseprog _ hi₃
  have he₃₄ := he₃.trans he₄
  exact ⟨hi₄, he₁.trans (he₂.trans he₃₄),
    { sp := rfl
      ename := rfl
      args := hr₁.imp fun _ _ hr => hr.extend (he₂.trans he₃₄)
      target := rfl
      guard := hr₂.extend he₃₄
      transprog := extend_program hr₃ he₄
      elseto := rfl
      elseprog := hr₄ }⟩

theorem copies_precondition : Copies o (PreconditionCopied (o := o)) copyPrecondition := by
  intro p st h
  obtain ⟨hi, he, hr⟩ := copies_code p.1 st h
  exact ⟨hi, he, hr, rfl⟩

theorem lasting_description : Lasting (DescriptionCopied (o := o)) := by
  intro st st' d d' he h
  exact { h with
    entry := extend_program h.entry he
    exit := extend_program h.exit he
    handle := extend_program h.handle he
    run := extend_program h.run he }

theorem lasting_transition (f : Pointer → Pointer) : Lasting (TransitionCopied (o := o) f) := by
  intro st st' t t' he h
  exact { h with cnd := h.cnd.extend he, transprog := extend_program h.transprog he }

theorem lasting_event (f : Pointer → Pointer) : Lasting (EventCopied (o := o) f) := by
  intro st st' e e' he h
  exact { h with
    args := h.args.imp fun _ _ hr => hr.extend he
    guard := h.guard.extend he
    transprog := extend_program h.transprog he
    elseprog := extend_program h.elseprog he }

theorem lasting_precondition : Lasting (PreconditionCopied (o := o)) :=
  fun _ _ _ _ he h => ⟨h.cnd.extend he, h.line⟩

/-! ## The loops -/

section Loops

variable {α β : Type} {Rel : Copying → α → β → Prop} {cp : α → Copying → β × Copying}
  {ins : Pointer → β → Graph Node Node → Graph Node Node} {f : Pointer → Pointer}

/-- The insertions of a loop, without the copying. -/
def insertAll (ins : Pointer → β → Graph Node Node → Graph Node Node) (k : Pointer) (bs : List β)
    (g : Graph Node Node) : Graph Node Node :=
  bs.foldl (fun g b => ins k b g) g

def rebuild (ins : Pointer → β → Graph Node Node → Graph Node Node) (f : Pointer → Pointer)
    (B : Pointer → List β) (ks : List Pointer) (g : Graph Node Node) : Graph Node Node :=
  ks.foldl (fun g k => insertAll ins (f k) (B k) g) g

/-- The loop over the entries of one state. -/
theorem copyEntries_spec (hcp : Copies o Rel cp) (hl : Lasting Rel) (k : Pointer) (as : List α)
    (acc : Graph Node Node × Copying) (h : Inv o.script o.vars acc.2) :
    let r := as.foldl (fun acc a => (ins k (cp a acc.2).1 acc.1, (cp a acc.2).2)) acc
    Inv o.script o.vars r.2 ∧ acc.2.Extends r.2 ∧
      ∃ bs, List.Forall₂ (Rel r.2) as bs ∧ r.1 = insertAll ins k bs acc.1 := by
  induction as generalizing acc with
  | nil => exact ⟨h, .rfl, [], .nil, rfl⟩
  | cons a as ih =>
    obtain ⟨hi, he, hr⟩ := hcp a acc.2 h
    obtain ⟨hi', he', bs, hbs, hg⟩ := ih (ins k (cp a acc.2).1 acc.1, (cp a acc.2).2) hi
    exact ⟨hi', he.trans he', (cp a acc.2).1 :: bs, .cons (hl _ _ _ _ he' hr) hbs, hg⟩

/-- The loop over all states makes all the copies, and is a rebuilding from these. -/
theorem copyMap_spec (f : Pointer → Pointer) (ins : Pointer → β → Graph Node Node → Graph Node Node)
    (hcp : Copies o Rel cp) (hl : Lasting Rel) (m : PointerMap α) (acc : Graph Node Node × Copying) (h : Inv o.script o.vars acc.2) :
    let r := copyMap f cp ins m acc
    Inv o.script o.vars r.2 ∧ acc.2.Extends r.2 ∧
      ∃ B : Pointer → List β, (∀ k ∈ m.keys, List.Forall₂ (Rel r.2) (m.value k) (B k)) ∧
        r.1 = rebuild ins f B m.keys acc.1 := by
  have key (ks : List Pointer) : ∀ acc : Graph Node Node × Copying, ks.Nodup →
      Inv o.script o.vars acc.2 →
      let r := ks.foldl (fun acc k => (m.value k).foldl
        (fun acc a => (ins (f k) (cp a acc.2).1 acc.1, (cp a acc.2).2)) acc) acc
      Inv o.script o.vars r.2 ∧ acc.2.Extends r.2 ∧
        ∃ B : Pointer → List β, (∀ k ∈ ks, List.Forall₂ (Rel r.2) (m.value k) (B k)) ∧
          r.1 = rebuild ins f B ks acc.1 := by
    induction ks with
    | nil => exact fun acc _ h => ⟨h, .rfl, fun _ => [], fun k hk => by simp at hk, rfl⟩
    | cons k ks ih =>
      intro acc hn h
      obtain ⟨hk, hn⟩ := List.nodup_cons.mp hn
      obtain ⟨hi, he, bs, hbs, hg⟩ := copyEntries_spec hcp hl (f k) (m.value k) acc h
      obtain ⟨hi', he', B, hB, hg'⟩ := ih _ hn hi
      refine ⟨hi', he.trans he', Function.update B k bs, ?_, ?_⟩
      · intro j hj
        rcases List.mem_cons.mp hj with rfl | hj
        · rw [Function.update_self]
          exact hbs.imp fun _ _ hr => hl _ _ _ _ he' hr
        · rw [Function.update_of_ne (ne_of_mem_of_not_mem hj hk)]
          exact hB j hj
      · rw [List.foldl_cons, hg', hg, rebuild, rebuild, List.foldl_cons, Function.update_self]
        apply List.foldl_ext
        intro g j hj
        rw [Function.update_of_ne (ne_of_mem_of_not_mem hj hk)]
  exact key m.keys acc m.nodup h

/-- What every insertion of a loop keeps, the loop keeps. -/
theorem rebuild_keeps (J : Graph Node Node → Prop) {B : Pointer → List β} {ks : List Pointer}
    (hJ : ∀ k ∈ ks, ∀ b ∈ B k, ∀ g, J g → J (ins (f k) b g)) {g : Graph Node Node} (hg : J g) :
    J (rebuild ins f B ks g) := by
  apply List.foldlRecOn ks _ hg
  intro g hg k hk
  exact List.foldlRecOn (B k) _ hg fun g hg b hb => hJ k hk b hb g hg

/-- The entries of the copied states, where an insertion puts an entry into the list of its state by
`put`. -/
theorem rebuild_value {γ : Type} (proj : Graph Node Node → PointerMap γ)
    (put : Pointer → β → List γ → List γ)
    (hins : ∀ k b g, (proj (ins k b g)).value =
      Function.update (proj g).value k (put k b ((proj g).value k)))
    {B : Pointer → List β} {ks : List Pointer} (hn : ks.Nodup)
    (hf : ∀ k ∈ ks, ∀ k' ∈ ks, f k = f k' → k = k') (g : Graph Node Node) :
    (∀ k ∈ ks, (proj (rebuild ins f B ks g)).value (f k) =
      (B k).foldl (fun l b => put (f k) b l) ((proj g).value (f k))) ∧
    ∀ j, (∀ k ∈ ks, f k ≠ j) → (proj (rebuild ins f B ks g)).value j = (proj g).value j := by
  have hone (k : Pointer) (bs : List β) (g : Graph Node Node) :
      (proj (insertAll ins k bs g)).value =
        Function.update (proj g).value k (bs.foldl (fun l b => put k b l) ((proj g).value k)) := by
    induction bs generalizing g with
    | nil => simp [insertAll]
    | cons b bs ih =>
      have := ih (ins k b g)
      simpa [insertAll, hins] using this
  induction ks generalizing g with
  | nil => simp [rebuild]
  | cons k ks ih =>
    obtain ⟨hk, hn⟩ := List.nodup_cons.mp hn
    have hf' : ∀ j ∈ ks, ∀ j' ∈ ks, f j = f j' → j = j' := fun j hj j' hj' =>
      hf j (List.mem_cons_of_mem _ hj) j' (List.mem_cons_of_mem _ hj')
    have hne (j : Pointer) (hj : j ∈ ks) : f j ≠ f k := fun he =>
      ne_of_mem_of_not_mem hj hk (hf j (List.mem_cons_of_mem _ hj) k List.mem_cons_self he)
    obtain ⟨hin, hout⟩ := ih hn hf' (insertAll ins (f k) (B k) g)
    refine ⟨fun j hj => ?_, fun j hj => ?_⟩
    · rcases List.mem_cons.mp hj with rfl | hj
      · exact (hout (f j) hne).trans (by rw [hone, Function.update_self])
      · exact (hin j hj).trans (by rw [hone, Function.update_of_ne (hne j hj)])
    · refine (hout j fun i hi => hj i (List.mem_cons_of_mem _ hi)).trans ?_
      rw [hone, Function.update_of_ne (hj k List.mem_cons_self).symm]

end Loops

/-! ## The states -/

variable {g : Graph o.Code o.Argument}

/-- The states `done` have been copied. -/
structure Mapped (g : Graph o.Code o.Argument) (done : List Pointer) (m : Making) : Prop where
  inv : Inv o.script o.vars m.replacements
  null : m.mapped none = none
  copied : ∀ i, some i ∈ done → ∃ j, m.mapped (some i) = some j ∧ g.next ≤ j ∧ j < m.next ∧
    DescriptionCopied m.replacements (g.desc i) (m.ret.desc j)
  missing : ∀ k ∉ done, m.mapped k = none
  injective : ∀ k ∈ done, ∀ k' ∈ done, m.mapped k = m.mapped k' → k = k'
  states : ∀ k, k ∈ m.ret.stateMap.keys ↔ k = none ∨ ∃ j ∈ done, m.mapped j = k
  transitions : m.ret.stateMap.value = fun _ => []
  events : m.ret.eventMap = .empty
  preconditions : m.ret.precondMap = .empty
  next : g.next ≤ m.next
  initCommand : Option.Rel (CodeCopied m.replacements) g.initc m.ret.initc

theorem mapped_copyState {m : Making} {i : ℕ} (k : Pointer) :
    (copyState g m (some i)).mapped k = if k = some i then some m.next else m.mapped k := by
  simp only [copyState, Making.mapped, List.lookup_cons]
  split <;> simp_all

theorem Mapped.step {done : List Pointer} {m : Making} (h : Mapped g done m) {k : Pointer}
    (hk : k ∉ done) : Mapped g (done ++ [k]) (copyState g m k) := by
  cases k with
  | none =>
    exact { h with
      copied := fun i hi => h.copied i (by simpa using hi)
      missing := fun k hk => h.missing k fun hd => hk (List.mem_append_left _ hd)
      injective := by
        have hnew (j : Pointer) (hj : j ∈ done) : m.mapped j ≠ none := by
          cases j with
          | none => exact absurd hj hk
          | some i =>
            obtain ⟨n, hn, -⟩ := h.copied i hj
            simp [hn]
        intro j hj j' hj' he
        rw [List.mem_append, List.mem_singleton] at hj hj'
        rcases hj with hj | rfl <;> rcases hj' with hj' | rfl
        · exact h.injective j hj j' hj' he
        · exact absurd (he.trans h.null) (hnew j hj)
        · exact absurd (he.symm.trans h.null) (hnew j' hj')
        · rfl
      states := fun j => by
        rw [copyState, h.states j]
        constructor
        · exact Or.imp_right fun ⟨i, hi, he⟩ => ⟨i, List.mem_append_left _ hi, he⟩
        · rintro (rfl | ⟨i, hi, rfl⟩)
          · exact Or.inl rfl
          · rcases List.mem_append.mp hi with hi | hi
            · exact Or.inr ⟨i, hi, rfl⟩
            · obtain rfl := List.mem_singleton.mp hi
              exact Or.inl h.null }
  | some i =>
    obtain ⟨hi, he, hd⟩ := copies_description (g.desc i) m.replacements h.inv
    have hold (k : Pointer) (hk' : k ∈ done) :
        (copyState g m (some i)).mapped k = m.mapped k := by
      rw [mapped_copyState, if_neg (ne_of_mem_of_not_mem hk' hk)]
    have hself : (copyState g m (some i)).mapped (some i) = some m.next := by
      rw [mapped_copyState, if_pos rfl]
    have hlt (k : Pointer) (hk' : k ∈ done) : m.mapped k ≠ some m.next := by
      cases k with
      | none => simp [h.null]
      | some i' =>
        obtain ⟨j, hj, -, hlt, -⟩ := h.copied i' hk'
        rw [hj]
        simpa using hlt.ne
    exact
      { inv := hi
        null := by rw [mapped_copyState, if_neg (by simp), h.null]
        copied := by
          intro i' hi'
          rcases List.mem_append.mp hi' with hi' | hi'
          · obtain ⟨j, hj, hle, hlt, hc⟩ := h.copied i' hi'
            refine ⟨j, (hold _ hi').trans hj, hle, Nat.lt_succ_of_lt hlt, ?_⟩
            simp only [copyState, Function.update_of_ne hlt.ne]
            exact lasting_description _ _ _ _ he hc
          · obtain rfl : i' = i := by simpa using hi'
            refine ⟨m.next, hself, h.next, Nat.lt_succ_self _, ?_⟩
            simpa [copyState] using hd
        missing := by
          intro k hk'
          rw [List.mem_append, List.mem_singleton, not_or] at hk'
          rw [mapped_copyState, if_neg hk'.2, h.missing k hk'.1]
        injective := by
          intro j hj j' hj' he
          rw [List.mem_append, List.mem_singleton] at hj hj'
          rcases hj with hj | rfl <;> rcases hj' with hj' | rfl
          · exact h.injective j hj j' hj' (by rwa [hold j hj, hold j' hj'] at he)
          · rw [hold j hj, hself] at he
            exact absurd he (hlt j hj)
          · rw [hold j' hj', hself] at he
            exact absurd he.symm (hlt j' hj')
          · rfl
        states := by
          intro k
          simp only [copyState, PointerMap.mem_add, h.states k]
          constructor
          · rintro (rfl | hn | ⟨j, hj, hm⟩)
            · exact Or.inr ⟨some i, by simp, hself⟩
            · exact Or.inl hn
            · exact Or.inr ⟨j, List.mem_append_left _ hj, (hold j hj).trans hm⟩
          · rintro (hn | ⟨j, hj, hm⟩)
            · exact Or.inr (Or.inl hn)
            · rcases List.mem_append.mp hj with hj | hj
              · exact Or.inr (Or.inr ⟨j, hj, (hold j hj).symm.trans hm⟩)
              · obtain rfl := List.mem_singleton.mp hj
                exact Or.inl (hm.symm.trans hself)
        transitions := h.transitions
        events := h.events
        preconditions := h.preconditions
        next := Nat.le_succ_of_le h.next
        initCommand := extend_program h.initCommand he }

theorem Mapped.foldl {done ks : List Pointer} {m : Making} (h : Mapped g done m)
    (hn : (done ++ ks).Nodup) : Mapped g (done ++ ks) (ks.foldl (copyState g) m) := by
  induction ks generalizing done m with
  | nil => simpa using h
  | cons k ks ih =>
    have hk : k ∉ done := fun hk => (List.nodup_append.mp hn).2.2 k hk k List.mem_cons_self rfl
    simpa using ih (h.step hk) (by simpa using hn)

theorem mapped_startCopy (g : Graph o.Code o.Argument) : Mapped g [] (startCopy g) := by
  have hb := (begun o.script o.vars).inv o.instantiated
  obtain ⟨hi, -, hc⟩ := copies_program g.initc (o.script.begin o.vars) hb
  exact
    { inv := hi
      null := rfl
      copied := fun i hi => nomatch hi
      missing := fun k _ => by cases k <;> rfl
      injective := fun k hk => nomatch hk
      states := fun k => by
        simp [startCopy, Graph.setInitCommand, Graph.create, PointerMap.empty]
      transitions := rfl
      events := rfl
      preconditions := rfl
      next := le_rfl
      initCommand := hc }

/-- All states have been copied. -/
theorem mapped_copyStates (g : Graph o.Code o.Argument) :
    Mapped g g.stateMap.keys (copyStates g) := by
  have h := (mapped_startCopy g).foldl (by simpa using g.stateMap.nodup)
  simpa [copyStates] using h

/-! ## The machine -/

/-- The states that events and transitions lead to are in the `stateMap`, for any machine that is
built. -/
theorem wellFormed_build (desc : ℕ → StateDescription o.Code)
    (ops : List (Operation o.Code o.Argument)) :
    (o.build desc ops).WellFormed fun sp ename args => o.produces sp ename (args.map Subtype.val) :=
  Graph.wellFormed_foldl ops (Graph.wellFormed_create _ desc)

section Values

variable {f : Pointer → Pointer} {st : Copying} {g' : Graph Node Node}

theorem byPriority_copied {ts : List (Transition Pointer o.Code o.Code)}
    {ts' : List (Transition Pointer Node Node)} (h : List.Forall₂ (TransitionCopied f st) ts ts')
    (hs : ByPriority ts) : ByPriority ts' := by
  have hp : ts'.map Transition.priority = ts.map Transition.priority := by
    clear hs
    induction h with
    | nil => rfl
    | cons ht _ ih => simp [ht.priority, ih]
  have hs' : (ts.map Transition.priority).Pairwise fun a b => b ≤ a := List.pairwise_map.mpr hs
  rw [← hp] at hs'
  exact List.pairwise_map.mp hs'

theorem value_transitions {B : Pointer → List (Transition Pointer Node Node)}
    (hf : ∀ k ∈ g.stateMap.keys, ∀ k' ∈ g.stateMap.keys, f k = f k' → k = k')
    (hs : ∀ k, ByPriority (g.stateMap.value k))
    (hB : ∀ k ∈ g.stateMap.keys,
      List.Forall₂ (TransitionCopied f st) (g.stateMap.value k) (B k))
    (hg' : g'.stateMap.value = fun _ => []) {k : Pointer} (hk : k ∈ g.stateMap.keys) :
    (rebuild Graph.transitionSet f B g.stateMap.keys g').stateMap.value (f k) = B k := by
  have hins (k : Pointer) (t : Transition Pointer Node Node) (g : Graph Node Node) :
      (g.transitionSet k t).stateMap.value = Function.update g.stateMap.value k
        (StateMachine.transitionSet t (g.stateMap.value k)) := rfl
  have hv := (rebuild_value (B := B) Graph.stateMap _ hins g.stateMap.nodup hf g').1 k hk
  classical
  have hsorted : ByPriority ([] ++ B k) := byPriority_copied (hB k hk) (hs k)
  rw [hv, hg', foldl_transitionSet _ _ hsorted, List.nil_append]

/-- A list that is built by appending comes out as it was. -/
theorem foldl_put {β : Type} {put : β → List β → List β} (bs : List β) :
    ∀ l, (∀ b ∈ bs, ∀ l, put b l = l ++ [b]) → bs.foldl (fun l b => put b l) l = l ++ bs := by
  induction bs with
  | nil => simp
  | cons b bs ih =>
    intro l h
    rw [List.foldl_cons, h b List.mem_cons_self,
      ih _ fun b' hb' => h b' (List.mem_cons_of_mem _ hb')]
    simp

theorem value_preconditions {B : Pointer → List (Node × ℕ)}
    (hf : ∀ k ∈ g.precondMap.keys, ∀ k' ∈ g.precondMap.keys, f k = f k' → k = k')
    (hg' : g'.precondMap = .empty) :
    (∀ k ∈ g.precondMap.keys,
      (rebuild Graph.preconditionSet f B g.precondMap.keys g').precondMap.value (f k) = B k) ∧
    ∀ j, (∀ k ∈ g.precondMap.keys, f k ≠ j) →
      (rebuild Graph.preconditionSet f B g.precondMap.keys g').precondMap.value j = [] := by
  have hins (k : Pointer) (p : Node × ℕ) (g : Graph Node Node) :
      (g.preconditionSet k p).precondMap.value = Function.update g.precondMap.value k
        (g.precondMap.value k ++ [p]) := rfl
  have hv := rebuild_value (B := B) Graph.precondMap (fun _ p l => l ++ [p]) hins
    g.precondMap.nodup hf g'
  refine ⟨fun k hk => ?_, fun j hj => ?_⟩
  · rw [hv.1 k hk, hg', foldl_put _ _ fun _ _ _ => rfl]
    rfl
  · rw [hv.2 j hj, hg']
    rfl

theorem value_events {B : Pointer → List (Event Node Node)}
    (hf : ∀ k ∈ g.eventMap.keys, ∀ k' ∈ g.eventMap.keys, f k = f k' → k = k')
    (hB : ∀ k ∈ g.eventMap.keys, ∀ e ∈ B k,
      o.produces e.sp e.ename e.args ∧ (e.target = none → f k = none))
    (hg' : g'.eventMap = .empty) :
    (∀ k ∈ g.eventMap.keys, (rebuild (Graph.createEventTransition o.produces) f B
      g.eventMap.keys g').eventMap.value (f k) = B k) ∧
    ∀ j, (∀ k ∈ g.eventMap.keys, f k ≠ j) → (rebuild (Graph.createEventTransition o.produces) f B
      g.eventMap.keys g').eventMap.value j = [] := by
  have hins (k : Pointer) (e : Event Node Node) (g : Graph Node Node) :
      (g.createEventTransition o.produces k e).eventMap.value = Function.update g.eventMap.value k
        (if o.produces e.sp e.ename e.args then g.eventMap.value k ++ [Graph.retarget k e]
          else g.eventMap.value k) := by
    unfold Graph.createEventTransition
    split <;> simp
  have hv := rebuild_value (B := B) Graph.eventMap
    (fun k e l => if o.produces e.sp e.ename e.args then l ++ [Graph.retarget k e] else l) hins
    g.eventMap.nodup hf g'
  refine ⟨fun k hk => ?_, fun j hj => ?_⟩
  · have hput (e : Event Node Node) (he : e ∈ B k) (l : List (Event Node Node)) :
        (if o.produces e.sp e.ename e.args then l ++ [Graph.retarget (f k) e] else l) =
          l ++ [e] := by
      obtain ⟨hp, ht⟩ := hB k hk e he
      have hr : Graph.retarget (f k) e = e := by
        cases e
        simp only [Graph.retarget, Event.mk.injEq, and_true, true_and]
        split
        · next hn => exact (ht hn).trans hn.symm
        · rfl
      rw [if_pos hp, hr]
    rw [hv.1 k hk, hg', foldl_put _ _ hput]
    rfl
  · rw [hv.2 j hj, hg']
    rfl

end Values

/-- A copied entry is the copy of an entry. -/
theorem exists_of_mem_copies {α β : Type} {R : α → β → Prop} {as : List α} {bs : List β} {b : β}
    (h : List.Forall₂ R as bs) (hb : b ∈ bs) : ∃ a ∈ as, R a b := by
  induction h with
  | nil => simp at hb
  | cons hab _ ih =>
    rcases List.mem_cons.mp hb with rfl | hb
    · exact ⟨_, List.mem_cons_self, hab⟩
    · obtain ⟨a, ha, hr⟩ := ih hb
      exact ⟨a, List.mem_cons_of_mem _ ha, hr⟩

/-- What a loop of the copy leaves as it is: the state objects and the init command, and the set of
the states. -/
structure Frame (I : Pointer → Prop) (g₀ g : Graph Node Node) : Prop where
  desc : g.desc = g₀.desc
  initc : g.initc = g₀.initc
  keys : ∀ k, k ∈ g.stateMap.keys ↔ I k

theorem Frame.trans {I : Pointer → Prop} {g₀ g₁ g₂ : Graph Node Node} (h : Frame I g₀ g₁)
    (h' : Frame I g₁ g₂) : Frame I g₀ g₂ :=
  ⟨h'.desc.trans h.desc, h'.initc.trans h.initc, h'.keys⟩

section Frames

variable {I : Pointer → Prop} {f : Pointer → Pointer} {ks : List Pointer} {g' : Graph Node Node}

theorem frame_transitions {B : Pointer → List (Transition Pointer Node Node)}
    (hk : ∀ k ∈ ks, I (f k)) (hB : ∀ k ∈ ks, ∀ t ∈ B k, I t.target)
    (h : ∀ k, k ∈ g'.stateMap.keys ↔ I k) :
    Frame I g' (rebuild Graph.transitionSet f B ks g') ∧
      (rebuild Graph.transitionSet f B ks g').eventMap = g'.eventMap ∧
      (rebuild Graph.transitionSet f B ks g').precondMap = g'.precondMap := by
  refine rebuild_keeps (fun g => Frame I g' g ∧ g.eventMap = g'.eventMap ∧
    g.precondMap = g'.precondMap) ?_ ⟨⟨rfl, rfl, h⟩, rfl, rfl⟩
  intro k hk' t ht g hg
  refine ⟨⟨hg.1.desc, hg.1.initc, fun j => ?_⟩, hg.2⟩
  have h₁ := hk k hk'
  have h₂ := hB k hk' t ht
  simp only [Graph.transitionSet, PointerMap.mem_add, PointerMap.mem_modify, hg.1.keys j]
  constructor
  · rintro (rfl | rfl | hj) <;> assumption
  · exact fun hj => Or.inr (Or.inr hj)

theorem frame_events {B : Pointer → List (Event Node Node)}
    (hk : ∀ k ∈ ks, I (f k)) (hB : ∀ k ∈ ks, ∀ e ∈ B k, I e.target)
    (h : ∀ k, k ∈ g'.stateMap.keys ↔ I k) (he : g'.eventMap = .empty) :
    Frame I g' (rebuild (Graph.createEventTransition o.produces) f B ks g') ∧
      (rebuild (Graph.createEventTransition o.produces) f B ks g').stateMap.value =
        g'.stateMap.value ∧
      (rebuild (Graph.createEventTransition o.produces) f B ks g').precondMap = g'.precondMap ∧
      ∀ k ∈ (rebuild (Graph.createEventTransition o.produces) f B ks g').eventMap.keys, I k := by
  refine rebuild_keeps (fun g => Frame I g' g ∧ g.stateMap.value = g'.stateMap.value ∧
    g.precondMap = g'.precondMap ∧ ∀ k ∈ g.eventMap.keys, I k) ?_
    ⟨⟨rfl, rfl, h⟩, rfl, rfl, by simp [he, PointerMap.empty]⟩
  intro k hk' e he g hg
  unfold Graph.createEventTransition
  split
  · have h₁ := hk k hk'
    have h₂ : I (Graph.retarget (f k) e).target := by
      have := hB k hk' e he
      simp only [Graph.retarget]
      split <;> assumption
    refine ⟨⟨hg.1.desc, hg.1.initc, fun j => ?_⟩, hg.2.1, hg.2.2.1, fun j hj => ?_⟩
    · simp only [PointerMap.mem_add, hg.1.keys j]
      constructor
      · rintro (rfl | rfl | hj) <;> assumption
      · exact fun hj => Or.inr (Or.inr hj)
    · rcases PointerMap.mem_modify.mp hj with rfl | hj
      · exact h₁
      · exact hg.2.2.2 j hj
  · exact hg

theorem frame_preconditions {B : Pointer → List (Node × ℕ)} (hk : ∀ k ∈ ks, I (f k))
    (h : ∀ k, k ∈ g'.stateMap.keys ↔ I k) (he : g'.precondMap = .empty) :
    Frame I g' (rebuild Graph.preconditionSet f B ks g') ∧
      (rebuild Graph.preconditionSet f B ks g').stateMap.value = g'.stateMap.value ∧
      (rebuild Graph.preconditionSet f B ks g').eventMap = g'.eventMap ∧
      ∀ k ∈ (rebuild Graph.preconditionSet f B ks g').precondMap.keys, I k := by
  refine rebuild_keeps (fun g => Frame I g' g ∧ g.stateMap.value = g'.stateMap.value ∧
    g.eventMap = g'.eventMap ∧ ∀ k ∈ g.precondMap.keys, I k) ?_
    ⟨⟨rfl, rfl, h⟩, rfl, rfl, by simp [he, PointerMap.empty]⟩
  intro k hk' p hp g hg
  have h₁ := hk k hk'
  refine ⟨⟨hg.1.desc, hg.1.initc, fun j => ?_⟩, hg.2.1, hg.2.2.1, fun j hj => ?_⟩
  · simp only [Graph.preconditionSet, PointerMap.mem_add, hg.1.keys j]
    constructor
    · rintro (rfl | hj) <;> assumption
    · exact Or.inr
  · rcases PointerMap.mem_modify.mp hj with rfl | hj
    · exact h₁
    · exact hg.2.2.2 j hj

end Frames

/-- A state that the machine knows of lies in front of all that the copy allocates. -/
theorem lt_next {i : ℕ} (h : some i ∈ g.mentioned) : i < g.next := by
  have key (l : List ℕ) : ∀ j ∈ l, j ≤ l.foldr max 0 := by
    induction l with
    | nil => simp
    | cons a l ih =>
      intro j hj
      rcases List.mem_cons.mp hj with rfl | hj
      · exact le_max_left _ _
      · exact (ih j hj).trans (le_max_right _ _)
  have := key (g.mentioned.map fun k => k.getD 0) i (List.mem_map.mpr ⟨some i, h, rfl⟩)
  exact Nat.lt_succ_of_le this

theorem mentioned_of_mem {k : Pointer} (h : k ∈ g.stateMap.keys) : k ∈ g.mentioned :=
  List.mem_append_left _ h

theorem mentioned_elseto {k : Pointer} {e : Event o.Code o.Argument} (h : e ∈ g.eventMap.value k) :
    e.elseto ∈ g.mentioned :=
  List.mem_append_right _ (List.mem_flatMap.mpr
    ⟨k, PointerMap.mem_keys_of_mem h, List.mem_map.mpr ⟨e, h, rfl⟩⟩)

/-- The state is the image of one in the `stateMap`. -/
def Image (g : Graph o.Code o.Argument) (f : Pointer → Pointer) (k : Pointer) : Prop :=
  ∃ j ∈ g.stateMap.keys, f j = k

section Specs

variable {f : Pointer → Pointer}

theorem transitions_spec (acc : Graph Node Node × Copying)
    (h : g.WellFormed fun sp ename args => o.produces sp ename (args.map Subtype.val))
    (hf : ∀ k ∈ g.stateMap.keys, ∀ k' ∈ g.stateMap.keys, f k = f k' → k = k')
    (hi : Inv o.script o.vars acc.2) (hI : ∀ k, k ∈ acc.1.stateMap.keys ↔ Image g f k)
    (hv : acc.1.stateMap.value = fun _ => []) :
    let r := copyMap f (copyTransition f) Graph.transitionSet g.stateMap acc
    Inv o.script o.vars r.2 ∧ acc.2.Extends r.2 ∧ Frame (Image g f) acc.1 r.1 ∧
      r.1.eventMap = acc.1.eventMap ∧ r.1.precondMap = acc.1.precondMap ∧
      ∀ k ∈ g.stateMap.keys, List.Forall₂ (TransitionCopied f r.2) (g.stateMap.value k)
        (r.1.stateMap.value (f k)) := by
  obtain ⟨hi', he, B, hB, hg⟩ := copyMap_spec f Graph.transitionSet
    (copies_transition f) (lasting_transition f) g.stateMap acc hi
  obtain ⟨hframe, hev, hpc⟩ := frame_transitions (I := Image g f)
    (fun k hk => ⟨k, hk, rfl⟩)
    (fun k hk t ht => by
      obtain ⟨a, ha, hr⟩ := exists_of_mem_copies (hB k hk) ht
      exact ⟨a.target, h.targets k a ha, hr.target.symm⟩) hI
  have hvalue (k : Pointer) (hk : k ∈ g.stateMap.keys) :=
    value_transitions hf h.sorted hB hv hk
  rw [← hg] at hframe hev hpc hvalue
  refine ⟨hi', he, hframe, hev, hpc, fun k hk => ?_⟩
  rw [hvalue k hk]
  exact hB k hk

variable {acc : Graph Node Node × Copying}

theorem events_spec
    (h : g.WellFormed fun sp ename args => o.produces sp ename (args.map Subtype.val))
    (hf : ∀ k ∈ g.stateMap.keys, ∀ k' ∈ g.stateMap.keys, f k = f k' → k = k')
    (hnull : f none = none)
    (hi : Inv o.script o.vars acc.2) (hI : ∀ k, k ∈ acc.1.stateMap.keys ↔ Image g f k)
    (hv : acc.1.eventMap = .empty) :
    let r := copyMap f (copyEvent f) (Graph.createEventTransition o.produces) g.eventMap acc
    Inv o.script o.vars r.2 ∧ acc.2.Extends r.2 ∧ Frame (Image g f) acc.1 r.1 ∧
      r.1.stateMap.value = acc.1.stateMap.value ∧ r.1.precondMap = acc.1.precondMap ∧
      (∀ k ∈ r.1.eventMap.keys, Image g f k) ∧
      ∀ k ∈ g.stateMap.keys, List.Forall₂ (EventCopied f r.2) (g.eventMap.value k)
        (r.1.eventMap.value (f k)) := by
  obtain ⟨hi', he, B, hB, hg⟩ := copyMap_spec f (Graph.createEventTransition o.produces)
    (copies_event f) (lasting_event f) g.eventMap acc hi
  have hkeys := h.events
  obtain ⟨hframe, hst, hpc, hev⟩ := frame_events (I := Image g f)
    (fun k hk => ⟨k, hkeys k hk, rfl⟩)
    (fun k hk e he => by
      obtain ⟨a, ha, hr⟩ := exists_of_mem_copies (hB k hk) he
      exact ⟨a.target, h.eventTargets k a ha, hr.target.symm⟩) hI hv
  have hsub : ∀ k ∈ g.eventMap.keys, ∀ k' ∈ g.eventMap.keys, f k = f k' → k = k' :=
    fun k hk k' hk' => hf k (hkeys k hk) k' (hkeys k' hk')
  have hready : ∀ k ∈ g.eventMap.keys, ∀ e ∈ B k,
      o.produces e.sp e.ename e.args ∧ (e.target = none → f k = none) := by
    intro k hk e he
    obtain ⟨a, ha, hr⟩ := exists_of_mem_copies (hB k hk) he
    constructor
    · have hargs : List.Forall₂ (CopyOf o.script o.vars) (a.args.map Subtype.val) e.args :=
        List.forall₂_map_left_iff.mpr (hr.args.imp fun _ _ hc => hc.1)
      rw [hr.sp, hr.ename, o.produces_copy _ _ _ _ hargs]
      exact h.produced k a ha
    · intro hn
      have ht : a.target = none :=
        hf _ (h.eventTargets k a ha) _ h.null (by rw [← hr.target, hn, hnull])
      rw [h.nullTargets k a ha ht, hnull]
  have hvalue := value_events hsub hready hv
  rw [← hg] at hframe hst hpc hev hvalue
  refine ⟨hi', he, hframe, hst, hpc, hev, fun k hk => ?_⟩
  by_cases hk' : k ∈ g.eventMap.keys
  · rw [hvalue.1 k hk']
    exact hB k hk'
  · have hne : ∀ j ∈ g.eventMap.keys, f j ≠ f k := fun j hj heq =>
      ne_of_mem_of_not_mem hj hk' (hf j (hkeys j hj) k hk heq)
    rw [g.eventMap.outside k hk', hvalue.2 (f k) hne]
    exact .nil

theorem preconditions_spec
    (h : g.WellFormed fun sp ename args => o.produces sp ename (args.map Subtype.val))
    (hf : ∀ k ∈ g.stateMap.keys, ∀ k' ∈ g.stateMap.keys, f k = f k' → k = k')
    (hi : Inv o.script o.vars acc.2) (hI : ∀ k, k ∈ acc.1.stateMap.keys ↔ Image g f k)
    (hv : acc.1.precondMap = .empty) :
    let r := copyMap f copyPrecondition Graph.preconditionSet g.precondMap acc
    Inv o.script o.vars r.2 ∧ acc.2.Extends r.2 ∧ Frame (Image g f) acc.1 r.1 ∧
      r.1.stateMap.value = acc.1.stateMap.value ∧ r.1.eventMap = acc.1.eventMap ∧
      (∀ k ∈ r.1.precondMap.keys, Image g f k) ∧
      ∀ k ∈ g.stateMap.keys, List.Forall₂ (PreconditionCopied r.2) (g.precondMap.value k)
        (r.1.precondMap.value (f k)) := by
  obtain ⟨hi', he, B, hB, hg⟩ := copyMap_spec f Graph.preconditionSet
    copies_precondition lasting_precondition g.precondMap acc hi
  have hkeys := h.preconditions
  obtain ⟨hframe, hst, hev, hpc⟩ := frame_preconditions (I := Image g f)
    (B := B) (fun k hk => ⟨k, hkeys k hk, rfl⟩) hI hv
  have hsub : ∀ k ∈ g.precondMap.keys, ∀ k' ∈ g.precondMap.keys, f k = f k' → k = k' :=
    fun k hk k' hk' => hf k (hkeys k hk) k' (hkeys k' hk')
  have hvalue := value_preconditions (B := B) hsub hv
  rw [← hg] at hframe hst hev hpc hvalue
  refine ⟨hi', he, hframe, hst, hev, hpc, fun k hk => ?_⟩
  by_cases hk' : k ∈ g.precondMap.keys
  · rw [hvalue.1 k hk']
    exact hB k hk'
  · have hne : ∀ j ∈ g.precondMap.keys, f j ≠ f k := fun j hj heq =>
      ne_of_mem_of_not_mem hj hk' (hf j (hkeys j hj) k hk heq)
    rw [g.precondMap.outside k hk', hvalue.2 (f k) hne]
    exact .nil

end Specs

/-- The copy, for the states that are in the `stateMap`. -/
theorem copyMachine_maps
    (h : g.WellFormed fun sp ename args => o.produces sp ename (args.map Subtype.val)) :
    Maps g.stateMap.keys g (copyMachine g) (copyStates g).mapped := by
  have hm := mapped_copyStates g
  have hinj := hm.injective
  have hI (k : Pointer) :
      k ∈ (copyStates g).ret.stateMap.keys ↔ Image g (copyStates g).mapped k := by
    rw [hm.states k]
    exact or_iff_right_of_imp fun hk => ⟨none, h.null, hk ▸ hm.null⟩
  obtain ⟨hi₁, he₁, hf₁, hev₁, hpc₁, ht⟩ := transitions_spec
    ((copyStates g).ret, (copyStates g).replacements) h hinj hm.inv hI hm.transitions
  rw [← copyTransitions] at hi₁ he₁ hf₁ hev₁ hpc₁ ht
  obtain ⟨hi₂, he₂, hf₂, hst₂, hpc₂, hek, hev⟩ :=
    events_spec h hinj hm.null hi₁ hf₁.keys (hev₁.trans hm.events)
  rw [← copyEvents] at hi₂ he₂ hf₂ hst₂ hpc₂ hek hev
  obtain ⟨hi₃, he₃, hf₃, hst₃, hev₃, hpk, hpc⟩ :=
    preconditions_spec h hinj hi₂ hf₂.keys (hpc₂.trans (hpc₁.trans hm.preconditions))
  rw [← copyPreconditions] at hi₃ he₃ hf₃ hst₃ hev₃ hpk hpc
  have hframe := (hf₁.trans hf₂).trans hf₃
  have he₂₃ := he₂.trans he₃
  have hstates (k : Pointer) : k ∈ (copyMachine g).1.stateMap.keys ↔
      Image g (copyStates g).mapped k := by
    simp only [copyMachine, Graph.setInitialState, Graph.setFinalState, PointerMap.mem_add,
      hframe.keys k]
    constructor
    · rintro (rfl | rfl | hk)
      · exact ⟨_, h.initial, rfl⟩
      · exact ⟨_, h.final, rfl⟩
      · exact hk
    · exact fun hk => Or.inr (Or.inr hk)
  exact
    { null := hm.null
      injective := hinj
      fresh := by
        intro i j hi hj
        obtain ⟨n, hn, hle, -⟩ := hm.copied i hi
        have hlt := lt_next hj
        rw [hn]
        intro heq
        cases heq
        omega
      states := hstates
      descriptions := by
        intro i hi
        obtain ⟨j, hj, -, -, hd⟩ := hm.copied i hi
        refine ⟨j, hj, ?_⟩
        have hd' := lasting_description _ _ _ _ (he₁.trans he₂₃) hd
        simpa [copyMachine, Graph.setInitialState, Graph.setFinalState, hframe.desc] using hd'
      transitions := by
        intro k hk
        have hk' := (ht k hk).imp fun _ _ => lasting_transition _ _ _ _ _ he₂₃
        simpa [copyMachine, Graph.setInitialState, Graph.setFinalState, hst₃, hst₂] using hk'
      events := by
        intro k hk
        have hk' := (hev k hk).imp fun _ _ => lasting_event _ _ _ _ _ he₃
        simpa [copyMachine, Graph.setInitialState, Graph.setFinalState, hev₃] using hk'
      eventStates := by
        intro k hk
        rw [hstates k]
        exact hek k (by simpa [copyMachine, Graph.setInitialState, Graph.setFinalState, hev₃]
          using hk)
      preconditions := hpc
      preconditionStates := fun k hk => (hstates k).mpr (hpk k hk)
      initial := rfl
      final := rfl
      initCommand := by
        have hc := extend_program hm.initCommand (he₁.trans he₂₃)
        simpa [copyMachine, Graph.setInitialState, Graph.setFinalState, hframe.initc] using hc }

theorem mem_mentioned {k : Pointer} :
    k ∈ g.mentioned ↔ k ∈ g.stateMap.keys ∨ ∃ j, ∃ e ∈ g.eventMap.value j, e.elseto = k := by
  constructor
  · intro h
    rcases List.mem_append.mp h with h | h
    · exact Or.inl h
    · obtain ⟨j, -, hj⟩ := List.mem_flatMap.mp h
      obtain ⟨e, he, heq⟩ := List.mem_map.mp hj
      exact Or.inr ⟨j, e, he, heq⟩
  · rintro (h | ⟨j, e, he, rfl⟩)
    · exact mentioned_of_mem h
    · exact mentioned_elseto he

/-- An event of the copy has no `else` state that the copy does not have. -/
theorem elseto_mem
    (h : g.WellFormed fun sp ename args => o.produces sp ename (args.map Subtype.val))
    {j : Pointer} {e : Event Node Node} (he : e ∈ (copyMachine g).1.eventMap.value j) :
    e.elseto ∈ (copyMachine g).1.stateMap.keys := by
  have hmaps := copyMachine_maps h
  have hm := mapped_copyStates g
  obtain ⟨k, hk, rfl⟩ :=
    (hmaps.states j).mp (hmaps.eventStates j (PointerMap.mem_keys_of_mem he))
  obtain ⟨a, -, hr⟩ := exists_of_mem_copies (hmaps.events k hk) he
  rw [hr.elseto, hmaps.states]
  by_cases ha : a.elseto ∈ g.stateMap.keys
  · exact ⟨a.elseto, ha, rfl⟩
  · exact ⟨none, h.null, hm.null.trans (hm.missing _ ha).symm⟩

theorem isomorphic_iff_of_wellFormed
    (h : g.WellFormed fun sp ename args => o.produces sp ename (args.map Subtype.val)) :
    Isomorphic g (copyMachine g) ↔
      ∀ k, ∀ e ∈ g.eventMap.value k, e.elseto ∈ g.stateMap.keys := by
  constructor
  · rintro ⟨f, hf⟩ k e he
    have hk := h.events k (PointerMap.mem_keys_of_mem he)
    obtain ⟨e', he', hr⟩ := exists_of_mem_copies (hf.events k hk).flip he
    obtain ⟨j, hj, heq⟩ := (hf.states _).mp (elseto_mem h he')
    -- the image of the `else` state is that of a state in the map
    rw [hr.elseto] at heq
    exact hf.injective j (mentioned_of_mem hj) _ (mentioned_elseto he) heq ▸ hj
  · intro hall
    have hmaps := copyMachine_maps h
    have hmem {k : Pointer} (hk : k ∈ g.mentioned) : k ∈ g.stateMap.keys := by
      rcases mem_mentioned.mp hk with hk | ⟨j, e, he, rfl⟩
      · exact hk
      · exact hall j e he
    exact ⟨_, { hmaps with
      injective := fun k hk k' hk' => hmaps.injective k (hmem hk) k' (hmem hk')
      fresh := fun i j hi hj => hmaps.fresh i j (hmem hi) hj }⟩

/-- The copy of a machine, however it was built, is isomorphic to it if and only if the `else` state
of every event is also known in some other way. -/
theorem isomorphic_iff (o : Source) (desc : ℕ → StateDescription o.Code)
    (ops : List (Operation o.Code o.Argument)) :
    Isomorphic (o.build desc ops) (copyMachine (o.build desc ops)) ↔
      ∀ k, ∀ e ∈ (o.build desc ops).eventMap.value k,
        e.elseto ∈ (o.build desc ops).stateMap.keys :=
  isomorphic_iff_of_wellFormed (wellFormed_build desc ops)

/-- State 2 is known only as the state to go to when the guard of an event fails. -/
theorem elseto_lost :
    let o : Source :=
      { script :=
          { objects := fun i => .composite i .nil
            nextId := 1
            nextCell := 0
            apart := fun _ _ _ hi => nomatch hi }
        vars := []
        instantiated := fun _ hi => nomatch hi
        produces := fun _ _ _ => true
        produces_copy := fun _ _ _ _ _ => rfl }
    let guard : o.Code := ⟨.composite 0 .nil, ⟨⟨rfl, Nat.one_pos⟩, trivial⟩, 0, .nil, rfl⟩
    let g := o.build (fun _ => ⟨"", 0, true, none, none, none, none⟩)
      [.addState (some 1), .createEventTransition (some 1)
        { sp := 0, ename := "update", args := [], target := some 1, guard := guard
          transprog := none, elseto := some 2, elseprog := none }]
    ¬ Isomorphic g (copyMachine g) := by
  intro o guard g h
  have hall := (isomorphic_iff_of_wellFormed (wellFormed_build _ _)).mp h
  have hmem := hall (some 1)
    { sp := 0, ename := "update", args := [], target := some 1, guard := guard
      transprog := none, elseto := some 2, elseprog := none } List.mem_cons_self
  revert hmem
  decide

end OrocosRtt.StateMachine.GraphCopy
