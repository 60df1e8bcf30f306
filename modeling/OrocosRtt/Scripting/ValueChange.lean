import Mathlib.Data.Int.Notation
import OrocosRtt.Library.Run

/-! `ValueChangeParser`: the values it adds to a service and the assign commands it makes, over
definitions of every kind, refused ones and syntax errors. -/
namespace OrocosRtt.Scripting.ValueChange
open Library.Run

variable {Ty E V : Type}

/-! ### The parser and its actions -/

/-- What the types registered make of a name, a size hint and an expression. -/
structure Typekit (Ty E V : Type) where
  type : String → Option Ty
  /-- The value of an expression that is a `DataSource<int>`. -/
  intValue : E → Option ℤ
  buildConstant : Ty → String → E → Option ℤ → Option V
  buildAlias : Ty → String → E → Option V
  buildVariable : Ty → String → Option ℤ → V
  /-- Whether `updateAction` gives a command, and no `bad_assignment`. -/
  updateAction : V → E → Bool

/-- The attributes of the parser, the values of its service, and the account of its commands: how
many there were and which of them `assignCommands` or `delete` has had, in this order. A definition
that was built has the size hint of its declaration and the one it was given. -/
structure Parser (V : Type) where
  assigncommands : List (Option ℕ) := []
  definedvalues : List V := []
  definednames : List String := []
  alldefinednames : List String := []
  valuename : String := ""
  sizehint : ℤ := -1
  mstore : List (String × V)
  created : ℕ := 0
  handed : List ℕ := []
  deleted : List ℕ := []
  built : List (Option ℤ × Option ℤ) := []

/-- Where a syntax error ends a declaration: no identifier, no size expression after the `(`, no
`)`, no initialisation. -/
inductive Stop
  | name
  | size
  | close
  | init
deriving DecidableEq

structure Decl (E : Type) where
  name : String
  hint : Option E := none
  init : Option E := none
  stop : Option Stop := none

inductive Kind
  | const
  | var
  | alias
  | param
  | bare
deriving DecidableEq

/-- One definition, with the type's name and at least one declaration. -/
inductive Definition (E : Type)
  | const (type : String) (d : Decl E) (ds : List (Decl E))
  | var (type : String) (d : Decl E) (ds : List (Decl E))
  | alias (type : String) (d : Decl E)
  | param (type : String) (d : Decl E) (ds : List (Decl E))
  | bare (type : String) (d : Decl E)

def Definition.kind : Definition E → Kind
  | .const _ _ _ => .const
  | .var _ _ _ => .var
  | .alias _ _ => .alias
  | .param _ _ _ => .param
  | .bare _ _ => .bare

def Definition.type : Definition E → String
  | .const type _ _ => type
  | .var type _ _ => type
  | .alias type _ => type
  | .param type _ _ => type
  | .bare type _ => type

def Definition.decls : Definition E → List (Decl E)
  | .const _ d ds => d :: ds
  | .var _ d ds => d :: ds
  | .alias _ d => [d]
  | .param _ d ds => d :: ds
  | .bare _ d => [d]

namespace Parser

/-- The commands behind the pointers that are not null. -/
def pending (s : Parser V) : List ℕ := s.assigncommands.filterMap id

def getValue (name : String) (s : Parser V) : Option V :=
  (s.mstore.find? fun v => v.1 = name).map Prod.snd

/-- `removeValue`: the first of the name. -/
def removeValue (store : List (String × V)) (name : String) : List (String × V) :=
  store.eraseP fun v => v.1 = name

/-- `cleanup`: the commands are deleted, the pointers stay. -/
def cleanup (s : Parser V) : Parser V := { s with deleted := s.deleted ++ s.pending }

def clear (s : Parser V) : Parser V :=
  { s with assigncommands := [], definedvalues := [], definednames := [] }

def reset (s : Parser V) : Parser V :=
  let s := { s with mstore := s.alldefinednames.foldl removeValue s.mstore, alldefinednames := [] }
  { s.cleanup.clear with valuename := "", sizehint := -1 }

/-- `assignCommands`, whose caller has the commands from then on. -/
def assignCommands (s : Parser V) : Parser V := { s with handed := s.handed ++ s.pending }

/-- The hint that a build is given. -/
def hint (s : Parser V) : Option ℤ := if s.sizehint = -1 then none else some s.sizehint

/-- A value that was built, under the name, in the service and in the lists of the parser. -/
def setValue (v : V) (own used : Option ℤ) (s : Parser V) : Parser V :=
  { s with
    mstore := s.mstore ++ [(s.valuename, v)]
    definedvalues := s.definedvalues ++ [v]
    definednames := s.definednames ++ [s.valuename]
    alldefinednames := s.alldefinednames ++ [s.valuename]
    built := s.built ++ [(own, used)] }

end Parser

/-- The next action, unless this one has thrown. -/
def andThen (r : Parser V × Bool) (f : Parser V → Parser V × Bool) : Parser V × Bool :=
  if r.2 then r else f r.1

/-- With whether it has thrown, as all actions that follow. -/
def storedefinitionname (name : String) (s : Parser V) : Parser V × Bool :=
  if (s.getValue name).isSome then (s.cleanup, true) else ({ s with valuename := name }, false)

def seensizehint (k : Typekit Ty E V) (expr : E) (s : Parser V) : Parser V × Bool :=
  match k.intValue expr with
  | none => (s.cleanup, true)
  | some i => if i < 0 then (s.cleanup, true) else ({ s with sizehint := i }, false)

def seenconstantdefinition (k : Typekit Ty E V) (type : Ty) (own : Option ℤ) (expr : E)
    (s : Parser V) : Parser V × Bool :=
  match k.buildConstant type s.valuename expr s.hint with
  | none => (s.cleanup, true)
  | some v => (s.setValue v own s.hint, false)

def seenaliasdefinition (k : Typekit Ty E V) (type : Ty) (expr : E) (s : Parser V) :
    Parser V × Bool :=
  match k.buildAlias type s.valuename expr with
  | none => (s.cleanup, true)
  | some v =>
    let s := s.setValue v none none
    ({ s with assigncommands := s.assigncommands ++ [none] }, false)

def seenbaredefinition (k : Typekit Ty E V) (type : Ty) (own : Option ℤ) (s : Parser V) :
    Parser V × Bool :=
  let v := k.buildVariable type s.valuename s.hint
  ({ s with sizehint := -1 }.setValue v own s.hint, false)

def seenvariabledefinition (k : Typekit Ty E V) (type : Ty) (own : Option ℤ) (init : Option E)
    (s : Parser V) : Parser V × Bool :=
  let v := k.buildVariable type s.valuename s.hint
  let s := { s with sizehint := -1 }.setValue v own s.hint
  match init with
  | none => (s, false)
  | some expr =>
    if k.updateAction v expr then
      ({ s with assigncommands := s.assigncommands ++ [some s.created], created := s.created + 1 },
        false)
    else (s.cleanup, true)

/-! ### The rules -/

/-- The value of the size expression of a declaration. -/
def own (k : Typekit Ty E V) (d : Decl E) : Option ℤ := d.hint.bind k.intValue

/-- The identifier of a declaration. -/
def identifier (d : Decl E) (s : Parser V) : Parser V × Bool :=
  if d.stop = some .name then (s, true) else storedefinitionname d.name s

/-- What may stand in brackets after it. -/
def brackets (k : Typekit Ty E V) (d : Decl E) (s : Parser V) : Parser V × Bool :=
  if d.stop = some .size then (s, true)
  else
    match d.hint with
    | none => (s, false)
    | some expr => andThen (seensizehint k expr s) fun s => (s, d.stop = some .close)

def baredecl (k : Typekit Ty E V) (d : Decl E) (s : Parser V) : Parser V × Bool :=
  andThen (identifier d s) (brackets k d)

/-- The initialisation that `const` and `alias` have to have. -/
def expectInit (d : Decl E) (f : E → Parser V → Parser V × Bool) (s : Parser V) :
    Parser V × Bool :=
  if d.stop = some .init then (s, true)
  else
    match d.init with
    | none => (s, true)
    | some expr => f expr s

/-- A declaration of the kind, up to its initialisation. -/
def declarator (k : Typekit Ty E V) (kind : Kind) (d : Decl E) (s : Parser V) : Parser V × Bool :=
  match kind with
  | .const => baredecl k d s
  | .var => baredecl k d s
  | .alias => identifier d s
  | .param => baredecl k d s
  | .bare => baredecl k d s

/-- Its initialisation, and the action of the kind. -/
def action (k : Typekit Ty E V) (kind : Kind) (type : Ty) (d : Decl E) (s : Parser V) :
    Parser V × Bool :=
  match kind with
  | .const => expectInit d (seenconstantdefinition k type (own k d)) s
  | .var =>
    if d.stop = some .init then (s, true)
    else seenvariabledefinition k type (own k d) d.init s
  | .alias => expectInit d (seenaliasdefinition k type) s
  | .param => seenbaredefinition k type (own k d) s
  | .bare => seenbaredefinition k type (own k d) s

def declare (k : Typekit Ty E V) (kind : Kind) (type : Ty) (d : Decl E) (s : Parser V) :
    Parser V × Bool :=
  andThen (declarator k kind d s) (action k kind type d)

/-- The declarations of a definition, up to the one that throws. -/
def declareAll (k : Typekit Ty E V) (kind : Kind) (type : Ty) :
    List (Decl E) → Parser V → Parser V × Bool
  | [], s => (s, false)
  | d :: ds, s => andThen (declare k kind type d s) (declareAll k kind type ds)

/-- What the owner of the parser does after a definition: it takes the commands, except after an
argument or a parameter. -/
def accept (kind : Kind) (s : Parser V) : Parser V :=
  match kind with
  | .const => s.assignCommands.clear
  | .var => s.assignCommands.clear
  | .alias => s.assignCommands.clear
  | .param => s.clear
  | .bare => s.clear

/-- A definition is parsed. An exception goes to the owner of the parser, which resets it. -/
def define (k : Typekit Ty E V) (s : Parser V) (d : Definition E) : Parser V :=
  match k.type d.type with
  | none => s.reset
  | some type =>
    let r := declareAll k d.kind type d.decls s
    if r.2 then r.1.reset else accept d.kind r.1

/-- A definition, or the end of a program or a function, where its owner resets the parser. -/
def step (k : Typekit Ty E V) (s : Parser V) : Option (Definition E) → Parser V
  | none => s.reset
  | some d => define k s d

/-- A parser for the service with these values. -/
def start (mstore : List (String × V)) : Parser V := { mstore := mstore }

/-! ### What is expected -/

/-- How often a command was handed out or deleted. -/
def settled (s : Parser V) (c : ℕ) : ℕ := s.handed.count c + s.deleted.count c

/-- After the definitions and the clean-up the service has the values it had, every command was
handed out or deleted once, and a definition was built with its own size hint or with none. -/
def CleansUp (k : Typekit Ty E V) (mstore : List (String × V))
    (definitions : List (Option (Definition E))) : Prop :=
  let s := (run (step k) (start mstore) definitions).reset
  s.mstore = mstore ∧ (∀ c < s.created, settled s c = 1) ∧ ∀ b ∈ s.built, b.1 = b.2

/-- The size hint can be taken. -/
def accepts (k : Typekit Ty E V) (expr : E) : Bool :=
  match k.intValue expr with
  | none => false
  | some i => 0 ≤ i

/-- The name is taken: the first thing that a declaration can be refused for. -/
def Taken (s : Parser V) (d : Decl E) : Prop := d.stop ≠ some .name ∧ (s.getValue d.name).isSome

/-- The name is free and the declaration goes on after it. -/
def Named (s : Parser V) (d : Decl E) : Prop := d.stop ≠ some .name ∧ s.getValue d.name = none

/-- The size expression is not one. -/
def Oversized (k : Typekit Ty E V) (kind : Kind) (d : Decl E) : Prop :=
  kind ≠ .alias ∧ d.stop ≠ some .size ∧ ∃ expr ∈ d.hint, accepts k expr = false

/-- Nothing is wrong with the size, and the declaration goes on after it. -/
def Sized (k : Typekit Ty E V) (kind : Kind) (d : Decl E) : Prop :=
  kind = .alias ∨ d.stop ≠ some .size ∧ ∀ expr ∈ d.hint, accepts k expr ∧ d.stop ≠ some .close

/-- The hint that the definition is built with. -/
def given (k : Typekit Ty E V) (s : Parser V) (d : Decl E) : Option ℤ := (own k d).or s.hint

/-- The size hints of a definition: its own, and the one it is built with. -/
def hints (k : Typekit Ty E V) (kind : Kind) (s : Parser V) (d : Decl E) : Option ℤ × Option ℤ :=
  if kind = .alias then (none, none) else (own k d, given k s d)

/-- There is something to build, and it can be built. -/
def Builds (k : Typekit Ty E V) (kind : Kind) (type : Ty) (s : Parser V) (d : Decl E) : Prop :=
  match kind with
  | .const => d.stop ≠ some .init ∧
      ∃ expr ∈ d.init, (k.buildConstant type d.name expr (given k s d)).isSome
  | .alias => d.stop ≠ some .init ∧ ∃ expr ∈ d.init, (k.buildAlias type d.name expr).isSome
  | .var => d.stop ≠ some .init
  | .param => True
  | .bare => True

/-- The expression is one that the type does not take. -/
def Unsuited (k : Typekit Ty E V) (kind : Kind) (type : Ty) (s : Parser V) (d : Decl E) : Prop :=
  d.stop ≠ some .init ∧ ∃ expr ∈ d.init,
    match kind with
    | .const => k.buildConstant type d.name expr (given k s d) = none
    | .alias => k.buildAlias type d.name expr = none
    | .var => k.updateAction (k.buildVariable type d.name (given k s d)) expr = false
    | .param => False
    | .bare => False

/-- The declaration is refused for what it means. -/
def Refused (k : Typekit Ty E V) (kind : Kind) (type : Ty) (s : Parser V) (d : Decl E) : Prop :=
  Taken s d ∨ Named s d ∧ (Oversized k kind d ∨ Sized k kind d ∧ Unsuited k kind type s d)

/-- A declaration that is refused has no command of its definition before it, and one that is built
without a size hint finds none that another has left. -/
def Fits (k : Typekit Ty E V) (kind : Kind) (type : Ty) (s : Parser V) (d : Decl E) : Prop :=
  (Refused k kind type s d → s.pending = []) ∧
    (Named s d → Sized k kind d → Builds k kind type s d → kind ≠ .alias → d.hint = none →
      s.sizehint = -1)

/-- Every declaration that is reached fits. -/
def AllFit (k : Typekit Ty E V) (kind : Kind) (type : Ty) : List (Decl E) → Parser V → Prop
  | [], _ => True
  | d :: ds, s => Fits k kind type s d ∧
      ((declare k kind type d s).2 = false → AllFit k kind type ds (declare k kind type d s).1)

/-- A definition whose type is known has declarations that fit. -/
def Clean (k : Typekit Ty E V) (s : Parser V) : Option (Definition E) → Prop
  | none => True
  | some d => ∀ type ∈ k.type d.type, AllFit k d.kind type d.decls s

/-! ### What an action does to the account -/

@[simp] theorem andThen_thrown (s : Parser V) (f : Parser V → Parser V × Bool) :
    andThen (s, true) f = (s, true) := rfl

@[simp] theorem andThen_done (s : Parser V) (f : Parser V → Parser V × Bool) :
    andThen (s, false) f = f s := rfl

theorem identifier_cases (d : Decl E) (s : Parser V) :
    (d.stop = some .name ∧ identifier d s = (s, true)) ∨
    (Taken s d ∧ identifier d s = (s.cleanup, true)) ∨
    (Named s d ∧ identifier d s = ({ s with valuename := d.name }, false)) := by
  unfold identifier storedefinitionname Taken Named
  by_cases hname : d.stop = some .name
  · exact .inl ⟨hname, if_pos hname⟩
  · rw [if_neg hname]
    cases hget : s.getValue d.name with
    | none => exact .inr (.inr ⟨⟨hname, rfl⟩, rfl⟩)
    | some v => exact .inr (.inl ⟨⟨hname, rfl⟩, rfl⟩)

theorem hint_sizehint {i : ℤ} (hi : 0 ≤ i) (s : Parser V) :
    { s with sizehint := i }.hint = some i := if_neg (by dsimp only; omega)

theorem brackets_cases (k : Typekit Ty E V) {kind : Kind} (hk : kind ≠ .alias) (d : Decl E)
    (s : Parser V) :
    (¬ Oversized k kind d ∧ ¬ Sized k kind d ∧
      ∃ h, brackets k d s = ({ s with sizehint := h }, true)) ∨
    (Oversized k kind d ∧ ¬ Sized k kind d ∧ brackets k d s = (s.cleanup, true)) ∨
    (¬ Oversized k kind d ∧ Sized k kind d ∧
      ∃ h, brackets k d s = ({ s with sizehint := h }, false) ∧
        { s with sizehint := h }.hint = (own k d).or s.hint) := by
  unfold brackets Oversized Sized own
  by_cases hsize : d.stop = some .size
  · exact .inl ⟨by simp [hsize], by simp [hsize, hk], s.sizehint, if_pos hsize⟩
  rw [if_neg hsize]
  cases hhint : d.hint with
  | none => exact .inr (.inr ⟨by simp, by simp [hsize], s.sizehint, rfl, rfl⟩)
  | some expr =>
    cases hi : k.intValue expr with
    | none =>
      refine .inr (.inl ⟨by simp [hk, hsize, accepts, hi], by simp [hk, accepts, hi], ?_⟩)
      simp [seensizehint, hi]
    | some i =>
      by_cases hneg : i < 0
      · have hpos : ¬ 0 ≤ i := Int.not_le.mpr hneg
        refine .inr (.inl ⟨by simp [hk, hsize, accepts, hi, hneg], ?_, ?_⟩)
        · simp [hk, accepts, hi, hpos]
        · simp [seensizehint, hi, hneg]
      · have hpos : 0 ≤ i := Int.not_lt.mp hneg
        have hget : seensizehint k expr s = ({ s with sizehint := i }, false) := by
          simp [seensizehint, hi, hneg]
        dsimp only
        rw [hget, andThen_done]
        by_cases hclose : d.stop = some .close
        · refine .inl ⟨by simp [accepts, hi, hpos], by simp [hk, hclose], i, ?_⟩
          simp [hclose]
        · refine .inr (.inr ⟨by simp [accepts, hi, hpos], ?_, i, by simp [hclose], ?_⟩)
          · simp [hsize, hclose, accepts, hi, hpos]
          · rw [hint_sizehint hpos, Option.bind_some, hi]
            rfl

/-- Up to the initialisation a declaration is ended, or refused, or has its name and hint read. -/
theorem declarator_cases (k : Typekit Ty E V) (kind : Kind) (d : Decl E) (s : Parser V) :
    (¬ (Taken s d ∨ Named s d ∧ Oversized k kind d) ∧ ¬ (Named s d ∧ Sized k kind d) ∧
      ∃ n h, declarator k kind d s = ({ s with valuename := n, sizehint := h }, true)) ∨
    ((Taken s d ∨ Named s d ∧ Oversized k kind d) ∧ ¬ (Named s d ∧ Sized k kind d) ∧
      ∃ n, declarator k kind d s = ({ s with valuename := n }.cleanup, true)) ∨
    (¬ (Taken s d ∨ Named s d ∧ Oversized k kind d) ∧ (Named s d ∧ Sized k kind d) ∧
      ∃ h, declarator k kind d s = ({ s with valuename := d.name, sizehint := h }, false) ∧
        (kind ≠ .alias →
          { s with valuename := d.name, sizehint := h }.hint = given k s d)) := by
  have hfree : Named s d → ¬ Taken s d := by
    intro hnamed htaken
    rw [Taken, hnamed.2] at htaken
    exact absurd htaken.2 (by simp)
  by_cases halias : kind = .alias
  · subst halias
    have hover : ¬ Oversized k .alias d := fun h => h.1 rfl
    rcases identifier_cases d s with ⟨hstop, h⟩ | ⟨htaken, h⟩ | ⟨hnamed, h⟩
    · exact .inl ⟨by simp [Taken, Named, hstop], by simp [Named, hstop], s.valuename, s.sizehint, h⟩
    · refine .inr (.inl ⟨.inl htaken, fun hn => hfree hn.1 htaken, s.valuename, h⟩)
    · refine .inr (.inr ⟨?_, ⟨hnamed, .inl rfl⟩, s.sizehint, h, fun h => absurd rfl h⟩)
      rintro (htaken | ⟨-, h⟩)
      · exact hfree hnamed htaken
      · exact hover h
  · have hbare : declarator k kind d s = andThen (identifier d s) (brackets k d) := by
      cases kind <;> first | rfl | exact absurd rfl halias
    rw [hbare]
    rcases identifier_cases d s with ⟨hstop, h⟩ | ⟨htaken, h⟩ | ⟨hnamed, h⟩
    · refine .inl ⟨by simp [Taken, Named, hstop], by simp [Named, hstop], s.valuename, s.sizehint,
        ?_⟩
      rw [h, andThen_thrown]
    · refine .inr (.inl ⟨.inl htaken, fun hn => hfree hn.1 htaken, s.valuename, ?_⟩)
      rw [h, andThen_thrown]
    · rw [h, andThen_done]
      rcases brackets_cases k halias d { s with valuename := d.name } with
        ⟨hover, hsized, x, hx⟩ | ⟨hover, hsized, hx⟩ | ⟨hover, hsized, x, hx, hhint⟩
      · refine .inl ⟨?_, fun h => hsized h.2, d.name, x, hx⟩
        exact fun h => h.elim (hfree hnamed) fun h => hover h.2
      · exact .inr (.inl ⟨.inr ⟨hnamed, hover⟩, fun h => hsized h.2, d.name, hx⟩)
      · refine .inr (.inr ⟨?_, ⟨hnamed, hsized⟩, x, hx, fun _ => hhint⟩)
        exact fun h => h.elim (hfree hnamed) fun h => hover h.2

/-- The commands and what became of them are as they were. -/
structure SameAccount (s s' : Parser V) : Prop where
  handed : s'.handed = s.handed
  deleted : s'.deleted = s.deleted
  assigncommands : s'.assigncommands = s.assigncommands
  created : s'.created = s.created

/-- As they were, but for a command that a `var` may have. -/
structure Added (kind : Kind) (s s' : Parser V) : Prop where
  handed : s'.handed = s.handed
  deleted : s'.deleted = s.deleted
  pending : s'.pending = s.pending ∧ s'.created = s.created ∨
    kind = .var ∧ s'.pending = s.pending ++ [s.created] ∧ s'.created = s.created + 1

theorem Added.setValue (kind : Kind) (s : Parser V) (v : V) (x y : Option ℤ) (h : ℤ) :
    Added kind s ({ s with sizehint := h }.setValue v x y) := ⟨rfl, rfl, .inl ⟨rfl, rfl⟩⟩

theorem Added.null (kind : Kind) (s : Parser V) (v : V) :
    Added kind s { s.setValue v none none with
      assigncommands := (s.setValue v none none).assigncommands ++ [none] } := by
  refine ⟨rfl, rfl, .inl ⟨?_, rfl⟩⟩
  show (s.assigncommands ++ [none]).filterMap id = s.assigncommands.filterMap id
  simp

theorem Added.command (s : Parser V) (v : V) (x y : Option ℤ) (h : ℤ) :
    Added .var s { { s with sizehint := h }.setValue v x y with
      assigncommands := s.assigncommands ++ [some s.created], created := s.created + 1 } := by
  refine ⟨rfl, rfl, .inr ⟨rfl, ?_, rfl⟩⟩
  show (s.assigncommands ++ [some s.created]).filterMap id =
    s.assigncommands.filterMap id ++ [s.created]
  simp

/-- A value of this name was built with these hints. -/
structure Defined (name : String) (hints : Option ℤ × Option ℤ) (s s' : Parser V) : Prop where
  mstore : ∃ v, s'.mstore = s.mstore ++ [(name, v)]
  alldefinednames : s'.alldefinednames = s.alldefinednames ++ [name]
  built : s'.built = s.built ++ [hints]

theorem Defined.setValue (s : Parser V) (v : V) (x y : Option ℤ) (h : ℤ) :
    Defined s.valuename (x, y) s ({ s with sizehint := h }.setValue v x y) := ⟨⟨v, rfl⟩, rfl, rfl⟩

/-- No value was built. -/
structure SameValues (s s' : Parser V) : Prop where
  mstore : s'.mstore = s.mstore
  alldefinednames : s'.alldefinednames = s.alldefinednames
  built : s'.built = s.built

/-- What a declaration does: it ends and does nothing, or is refused and deletes the commands, or
adds to them. Whatever its end, its value was built if it could be. -/
def Effect (kind : Kind) (name : String) (refused builds : Prop) (hints : Option ℤ × Option ℤ)
    (s : Parser V) (r : Parser V × Bool) : Prop :=
  (¬ refused ∧ r.2 = true ∧ SameAccount s r.1 ∨ refused ∧ r.2 = true ∧ SameAccount s.cleanup r.1 ∨
    ¬ refused ∧ r.2 = false ∧ Added kind s r.1) ∧
  (builds ∧ Defined name hints s r.1 ∨ ¬ builds ∧ SameValues s r.1)

section Effects

variable {kind : Kind} {name : String} {refused builds : Prop} {hints : Option ℤ × Option ℤ}
  {s : Parser V} {r : Parser V × Bool}

theorem Effect.ended (hr : ¬ refused) (hb : ¬ builds) :
    Effect kind name refused builds hints s (s, true) :=
  ⟨.inl ⟨hr, rfl, rfl, rfl, rfl, rfl⟩, .inr ⟨hb, rfl, rfl, rfl⟩⟩

theorem Effect.rejected (hr : refused) (hb : ¬ builds) :
    Effect kind name refused builds hints s (s.cleanup, true) :=
  ⟨.inr (.inl ⟨hr, rfl, rfl, rfl, rfl, rfl⟩), .inr ⟨hb, rfl, rfl, rfl⟩⟩

theorem Effect.added {s' : Parser V} (hr : ¬ refused) (hadd : Added kind s s') (hb : builds)
    (hdefined : Defined name hints s s') :
    Effect kind name refused builds hints s (s', false) :=
  ⟨.inr (.inr ⟨hr, rfl, hadd⟩), .inl ⟨hb, hdefined⟩⟩

theorem Effect.of_read {kind : Kind} {name : String} {refused refused' builds builds' : Prop}
    {hints : Option ℤ × Option ℤ} {s : Parser V} {r : Parser V × Bool} {n : String} {h : ℤ}
    (hr : refused' ↔ refused) (hb : builds' ↔ builds)
    (he : Effect kind name refused builds hints { s with valuename := n, sizehint := h } r) :
    Effect kind name refused' builds' hints s r := by
  rw [Effect, hr, hb]
  have hvalues : builds ∧ Defined name hints s r.1 ∨ ¬ builds ∧ SameValues s r.1 :=
    he.2.imp (fun h => ⟨h.1, h.2.1, h.2.2, h.2.3⟩) fun h => ⟨h.1, h.2.1, h.2.2, h.2.3⟩
  refine ⟨?_, hvalues⟩
  rcases he.1 with ⟨hn, ht, ha⟩ | ⟨hn, ht, ha⟩ | ⟨hn, ht, ha⟩
  · exact .inl ⟨hn, ht, ha.1, ha.2, ha.3, ha.4⟩
  · exact .inr (.inl ⟨hn, ht, ha.1, ha.2, ha.3, ha.4⟩)
  · exact .inr (.inr ⟨hn, ht, ha.1, ha.2, ha.3⟩)

theorem Effect.expectInit {d : Decl E} {f : E → Parser V → Parser V × Bool}
    (hr : refused → d.stop ≠ some .init ∧ d.init.isSome)
    (hb : builds → d.stop ≠ some .init ∧ d.init.isSome)
    (hf : d.stop ≠ some .init → ∀ expr, d.init = some expr →
      Effect kind name refused builds hints s (f expr s)) :
    Effect kind name refused builds hints s (expectInit d f s) := by
  unfold ValueChange.expectInit
  by_cases hstop : d.stop = some .init
  · rw [if_pos hstop]
    exact .ended (fun h => (hr h).1 hstop) fun h => (hb h).1 hstop
  · rw [if_neg hstop]
    cases hinit : d.init with
    | none =>
      rw [hinit] at hr hb
      exact .ended (fun h => absurd (hr h).2 (by simp)) fun h => absurd (hb h).2 (by simp)
    | some expr => exact hf hstop expr hinit

end Effects

theorem seenbaredefinition_effect (k : Typekit Ty E V) {kind : Kind} (type : Ty) (d : Decl E)
    (s s' : Parser V) (hk : kind ≠ .alias) (hname : s'.valuename = d.name)
    (hhint : s'.hint = given k s d) {refused builds : Prop}
    (hr : ¬ refused) (hb : builds) :
    Effect kind d.name refused builds (hints k kind s d) s'
      (seenbaredefinition k type (own k d) s') := by
  refine .added hr (Added.setValue _ _ _ _ _ _) hb ?_
  rw [hints, if_neg hk, ← hhint, ← hname]
  exact .setValue _ _ _ _ _

/-- The action of a declaration refuses the expression, or adds what it has made of it. -/
theorem action_effect (k : Typekit Ty E V) (kind : Kind) (type : Ty) (d : Decl E) (s s' : Parser V)
    (hname : s'.valuename = d.name) (hhint : kind ≠ .alias → s'.hint = given k s d) :
    Effect kind d.name (Unsuited k kind type s d) (Builds k kind type s d) (hints k kind s d) s'
      (action k kind type d s') := by
  cases kind with
  | param =>
    refine seenbaredefinition_effect k type d s s' (by simp) hname (hhint (by simp))
      ?_ trivial
    exact fun ⟨_, _, _, h⟩ => h
  | bare =>
    refine seenbaredefinition_effect k type d s s' (by simp) hname (hhint (by simp))
      ?_ trivial
    exact fun ⟨_, _, _, h⟩ => h
  | const =>
    refine .expectInit (fun ⟨h, _, he, _⟩ => ⟨h, Option.isSome_of_mem he⟩)
      (fun ⟨h, _, he, _⟩ => ⟨h, Option.isSome_of_mem he⟩) ?_
    intro hstop expr hinit
    have hh : s'.hint = given k s d := hhint (by simp)
    rw [seenconstantdefinition, hname, hh]
    cases hb : k.buildConstant type d.name expr (given k s d) with
    | none => exact .rejected (by simp [Unsuited, hstop, hinit, hb]) (by simp [Builds, hinit, hb])
    | some v =>
      refine .added (by simp [Unsuited, hinit, hb]) (Added.setValue _ _ _ _ _ s'.sizehint)
        (by simp [Builds, hstop, hinit, hb]) ?_
      rw [hints, if_neg (by simp), ← hname]
      exact .setValue _ _ _ _ s'.sizehint
  | «alias» =>
    refine .expectInit (fun ⟨h, _, he, _⟩ => ⟨h, Option.isSome_of_mem he⟩)
      (fun ⟨h, _, he, _⟩ => ⟨h, Option.isSome_of_mem he⟩) ?_
    intro hstop expr hinit
    rw [seenaliasdefinition, hname]
    cases hb : k.buildAlias type d.name expr with
    | none => exact .rejected (by simp [Unsuited, hstop, hinit, hb]) (by simp [Builds, hinit, hb])
    | some v =>
      refine .added (by simp [Unsuited, hinit, hb]) (Added.null _ _ _)
        (by simp [Builds, hstop, hinit, hb]) ?_
      rw [← hname]
      exact ⟨⟨v, rfl⟩, rfl, rfl⟩
  | var =>
    have hh : s'.hint = given k s d := hhint (by simp)
    unfold action
    by_cases hstop : d.stop = some .init
    · rw [if_pos hstop]
      exact .ended (fun h => h.1 hstop) fun h => h hstop
    rw [if_neg hstop]
    have hdefined : Defined d.name (hints k .var s d) s'
        ({ s' with sizehint := -1 }.setValue (k.buildVariable type s'.valuename s'.hint) (own k d)
          s'.hint) := by
      rw [hints, if_neg (by simp), ← hh, ← hname]
      exact .setValue _ _ _ _ _
    cases hinit : d.init with
    | none => exact .added (by simp [Unsuited, hinit]) (Added.setValue _ _ _ _ _ _) hstop hdefined
    | some expr =>
      unfold seenvariabledefinition
      dsimp only
      cases hb : k.updateAction (k.buildVariable type s'.valuename s'.hint) expr with
      | true =>
        refine .added ?_ (Added.command _ _ _ _ _) hstop ⟨hdefined.1, hdefined.2, hdefined.3⟩
        simp [Unsuited, hinit, ← hname, ← hh, hb]
      | false =>
        refine ⟨.inr (.inl ⟨?_, rfl, rfl, rfl, rfl, rfl⟩),
          .inl ⟨hstop, hdefined.1, hdefined.2, hdefined.3⟩⟩
        simp [Unsuited, hstop, hinit, ← hname, ← hh, hb]

theorem declare_effect (k : Typekit Ty E V) (kind : Kind) (type : Ty) (d : Decl E) (s : Parser V) :
    Effect kind d.name (Refused k kind type s d)
      (Named s d ∧ Sized k kind d ∧ Builds k kind type s d) (hints k kind s d) s
      (declare k kind type d s) := by
  unfold declare
  rcases declarator_cases k kind d s with
    ⟨hfine, hout, n, h, he⟩ | ⟨hbad, hout, n, he⟩ | ⟨hfine, ⟨hnamed, hsized⟩, h, he, hhint⟩
  · rw [he, andThen_thrown]
    refine (Effect.ended (s := { s with valuename := n, sizehint := h }) id id).of_read ?_ ?_
    · refine iff_false_intro ?_
      rintro (htaken | ⟨hnamed, hover | ⟨hsized, -⟩⟩)
      · exact hfine (.inl htaken)
      · exact hfine (.inr ⟨hnamed, hover⟩)
      · exact hout ⟨hnamed, hsized⟩
    · exact iff_false_intro fun h => hout ⟨h.1, h.2.1⟩
  · rw [he, andThen_thrown]
    refine (Effect.rejected (s := { s with valuename := n }) trivial id).of_read ?_ ?_
    · exact iff_true_intro (hbad.imp_right fun h => ⟨h.1, .inl h.2⟩)
    · exact iff_false_intro fun h => hout ⟨h.1, h.2.1⟩
  · rw [he, andThen_done]
    have hread := action_effect k kind type d s { s with valuename := d.name, sizehint := h } rfl
      hhint
    refine hread.of_read ?_ ?_
    · constructor
      · rintro (htaken | ⟨-, hover | ⟨-, hunsuited⟩⟩)
        · exact absurd (.inl htaken) hfine
        · exact absurd (.inr ⟨hnamed, hover⟩) hfine
        · exact hunsuited
      · exact fun h => .inr ⟨hnamed, .inr ⟨hsized, h⟩⟩
    · exact ⟨fun h => h.2.2, fun h => ⟨hnamed, hsized, h⟩⟩

/-! ### The commands -/

/-- How often a command was handed out, deleted or is to be. -/
def times (s : Parser V) (c : ℕ) : ℕ := settled s c + s.pending.count c

/-- Every command has been made, is pending or has its end, and the rest has not. -/
def Counted (s : Parser V) : Prop := ∀ c, 0 < times s c ↔ c < s.created

/-- No command has two ends, and every definition its own hint or none. -/
def Sound (s : Parser V) : Prop := (∀ c, times s c ≤ 1) ∧ ∀ b ∈ s.built, b.1 = b.2

/-- A call with the clean-up that follows an exception. -/
def finish (r : Parser V × Bool) : Parser V := if r.2 then r.1.reset else r.1

theorem times_cleanup (s : Parser V) (c : ℕ) :
    times s.cleanup c = times s c + s.pending.count c := by
  show s.handed.count c + (s.deleted ++ s.pending).count c + s.pending.count c = _
  rw [List.count_append]
  unfold times settled
  omega

theorem times_reset (s : Parser V) (c : ℕ) : times s.reset c = times s c := by
  show s.handed.count c + (s.deleted ++ s.pending).count c + 0 = _
  rw [List.count_append]
  unfold times settled
  omega

theorem times_accept {kind : Kind} {s : Parser V} (c : ℕ) (hnone : kind ≠ .var → s.pending = []) :
    times (accept kind s) c = times s c := by
  have htake : times s.assignCommands.clear c = times s c := by
    show (s.handed ++ s.pending).count c + s.deleted.count c + 0 = _
    rw [List.count_append]
    unfold times settled
    omega
  have hclear : s.pending = [] → times s.clear c = times s c := by
    intro h
    show settled s c + 0 = settled s c + s.pending.count c
    rw [h]
    rfl
  cases kind with
  | const => exact htake
  | var => exact htake
  | «alias» => exact htake
  | param => exact hclear (hnone (by simp))
  | bare => exact hclear (hnone (by simp))

theorem SameAccount.times_eq {s s' : Parser V} (h : SameAccount s s') (c : ℕ) :
    times s' c = times s c := by
  unfold times settled Parser.pending
  rw [h.handed, h.deleted, h.assigncommands]

section Effects

variable {kind : Kind} {name : String} {refused builds : Prop} {hints : Option ℤ × Option ℤ}
  {s : Parser V} {r : Parser V × Bool}

/-- With the clean-up after it, a declaration that is refused has given the commands before it an
end too many, and one that is not has made a command or none. -/
theorem Effect.ends
    (he : Effect kind name refused builds hints s r) :
    (refused ∧ (finish r).created = s.created ∧
      ∀ c, times (finish r) c = times s c + s.pending.count c) ∨
    ¬ refused ∧ ((finish r).created = s.created ∧
        (∀ c, times (finish r) c = times s c) ∨
      (finish r).created = s.created + 1 ∧
        ∀ c, times (finish r) c = times s c + [s.created].count c) := by
  unfold finish
  rcases he.1 with ⟨hn, ht, ha⟩ | ⟨hn, ht, ha⟩ | ⟨hn, ht, ha⟩
  · rw [if_pos ht]
    refine .inr ⟨hn, .inl ⟨ha.created, fun c => ?_⟩⟩
    rw [times_reset, ha.times_eq]
  · rw [if_pos ht]
    refine .inl ⟨hn, ha.created, fun c => ?_⟩
    rw [times_reset, ha.times_eq, times_cleanup]
  · rw [if_neg (by simp [ht])]
    refine .inr ⟨hn, ha.pending.imp (fun h => ⟨h.2, fun c => ?_⟩) fun h => ⟨h.2.2, fun c => ?_⟩⟩
    · unfold times settled
      rw [ha.handed, ha.deleted, h.1]
    · unfold times settled
      rw [ha.handed, ha.deleted, h.2.1, List.count_append]
      omega

theorem Effect.counted
    (he : Effect kind name refused builds hints s r) (hs : Counted s) : Counted (finish r) := by
  intro c
  have hc := hs c
  have hpart : s.pending.count c ≤ times s c := Nat.le_add_left _ _
  rcases he.ends with ⟨-, hcreated, ht⟩ | ⟨-, ⟨hcreated, ht⟩ | ⟨hcreated, ht⟩⟩
  · rw [hcreated, ht]
    omega
  · rw [hcreated, ht]
    exact hc
  · rw [hcreated, ht, List.count_singleton]
    by_cases h : s.created = c
    · subst h; simp
    · rw [if_neg (by simpa using h)]
      omega

theorem Effect.built
    (he : Effect kind name refused builds hints s r) :
    builds ∧ (finish r).built = s.built ++ [hints] ∨ ¬ builds ∧ (finish r).built = s.built := by
  have hsame : (finish r).built = r.1.built := by
    unfold finish
    split
    · rfl
    · rfl
  rw [hsame]
  exact he.2.imp (fun h => ⟨h.1, h.2.built⟩) fun h => ⟨h.1, h.2.built⟩

/-- Nothing that has gone wrong is put right. -/
theorem Effect.lost
    (he : Effect kind name refused builds hints s r) (hs : ¬ Sound s) : ¬ Sound (finish r) := by
  intro hafter
  refine hs ⟨fun c => ?_, fun b hb => ?_⟩
  · have hc := hafter.1 c
    rcases he.ends with ⟨-, -, ht⟩ | ⟨-, ⟨-, ht⟩ | ⟨-, ht⟩⟩ <;> rw [ht] at hc <;> omega
  · rcases he.built with ⟨-, hbuilt⟩ | ⟨-, hbuilt⟩
    · exact hafter.2 b (by rw [hbuilt]; exact List.mem_append_left _ hb)
    · exact hafter.2 b (by rw [hbuilt]; exact hb)

theorem Effect.sound_iff
    (he : Effect kind name refused builds hints s r) (hc : Counted s) (hs : Sound s) :
    Sound (finish r) ↔ (refused → s.pending = []) ∧ (builds → hints.1 = hints.2) := by
  refine and_congr ?_ ?_
  · rcases he.ends with ⟨href, -, ht⟩ | ⟨href, ⟨-, ht⟩ | ⟨-, ht⟩⟩
    · refine ⟨fun h _ => ?_, fun h c => ?_⟩
      · refine List.eq_nil_iff_forall_not_mem.mpr fun c hmem => ?_
        have hone := h c
        rw [ht c, times] at hone
        have := List.count_pos_iff.mpr hmem
        omega
      · rw [ht c, h href]
        exact hs.1 c
    · exact ⟨fun _ h => absurd h href, fun _ c => by rw [ht c]; exact hs.1 c⟩
    · refine ⟨fun _ h => absurd h href, fun _ c => ?_⟩
      rw [ht c, List.count_singleton]
      by_cases h : s.created = c
      · have hnew : times s c = 0 := by
          have := hc c
          omega
        subst h
        simp [hnew]
      · rw [if_neg (by simpa using h)]
        exact hs.1 c
  · rcases he.built with ⟨hb, hbuilt⟩ | ⟨hb, hbuilt⟩
    · rw [hbuilt]
      refine ⟨fun h _ => h hints (List.mem_append_right _ (List.mem_singleton.mpr rfl)), ?_⟩
      intro h b hmem
      rcases List.mem_append.mp hmem with hmem | hmem
      · exact hs.2 b hmem
      · rw [List.mem_singleton.mp hmem]
        exact h hb
    · rw [hbuilt]
      exact ⟨fun _ h => absurd h hb, fun _ => hs.2⟩

end Effects

theorem own_none_iff (k : Typekit Ty E V) {kind : Kind} {d : Decl E} (hk : kind ≠ .alias)
    (hsized : Sized k kind d) : own k d = none ↔ d.hint = none := by
  unfold own
  cases hhint : d.hint with
  | none => simp
  | some expr =>
    have hok := ((hsized.resolve_left hk).2 expr hhint).1
    cases hi : k.intValue expr with
    | none => simp [accepts, hi] at hok
    | some i => simp [hi]

/-- The hint of a declaration goes into what it builds, and another only where it has none. -/
theorem hints_eq_iff (k : Typekit Ty E V) {kind : Kind} (s : Parser V) {d : Decl E}
    (hsized : Sized k kind d) :
    (hints k kind s d).1 = (hints k kind s d).2 ↔
      (kind ≠ .alias → d.hint = none → s.sizehint = -1) := by
  unfold hints
  by_cases hk : kind = .alias
  · rw [if_pos hk]
    exact ⟨fun _ h => absurd hk h, fun _ => rfl⟩
  rw [if_neg hk, ← own_none_iff k hk hsized]
  unfold given
  cases own k d with
  | some i => exact ⟨fun _ _ h => absurd h (by simp), fun _ => rfl⟩
  | none =>
    unfold Parser.hint
    by_cases hs : s.sizehint = -1
    · rw [if_pos hs]
      exact ⟨fun _ _ _ => hs, fun _ => rfl⟩
    · rw [if_neg hs]
      exact ⟨fun h => absurd h (by simp), fun h => absurd (h hk rfl) hs⟩

theorem declare_sound_iff (k : Typekit Ty E V) (kind : Kind) (type : Ty) (d : Decl E)
    {s : Parser V} (hc : Counted s) (hs : Sound s) :
    Sound (finish (declare k kind type d s)) ↔ Fits k kind type s d := by
  rw [(declare_effect k kind type d s).sound_iff hc hs, Fits]
  refine and_congr_right fun _ => ⟨?_, ?_⟩
  · exact fun h hnamed hsized hbuilds => (hints_eq_iff k s hsized).mp (h ⟨hnamed, hsized, hbuilds⟩)
  · exact fun h ⟨hnamed, hsized, hbuilds⟩ => (hints_eq_iff k s hsized).mpr (h hnamed hsized hbuilds)

theorem declareAll_lost (k : Typekit Ty E V) (kind : Kind) (type : Ty) (ds : List (Decl E))
    {s : Parser V} (hs : ¬ Sound s) : ¬ Sound (finish (declareAll k kind type ds s)) := by
  induction ds generalizing s with
  | nil => exact hs
  | cons d ds ih =>
    have hd := (declare_effect k kind type d s).lost hs
    rw [declareAll, andThen]
    split
    · exact hd
    · next h => exact ih (by rwa [finish, if_neg h] at hd)

theorem declareAll_counted (k : Typekit Ty E V) (kind : Kind) (type : Ty) (ds : List (Decl E))
    {s : Parser V} (hc : Counted s) : Counted (finish (declareAll k kind type ds s)) := by
  induction ds generalizing s with
  | nil => exact hc
  | cons d ds ih =>
    have hd := (declare_effect k kind type d s).counted hc
    rw [declareAll, andThen]
    split
    · exact hd
    · next h => exact ih (by rwa [finish, if_neg h] at hd)

theorem declareAll_sound_iff (k : Typekit Ty E V) (kind : Kind) (type : Ty) (ds : List (Decl E))
    {s : Parser V} (hc : Counted s) (hs : Sound s) :
    Sound (finish (declareAll k kind type ds s)) ↔ AllFit k kind type ds s := by
  induction ds generalizing s with
  | nil => exact ⟨fun _ => trivial, fun _ => hs⟩
  | cons d ds ih =>
    have heff := declare_effect k kind type d s
    rw [AllFit, ← declare_sound_iff k kind type d hc hs, declareAll, andThen]
    split
    · next h => exact ⟨fun hd => ⟨hd, fun hf => absurd h (by simp [hf])⟩, fun hd => hd.1⟩
    · next h =>
      have hfin : finish (declare k kind type d s) = (declare k kind type d s).1 := if_neg h
      rw [hfin]
      have hcounted := hfin ▸ heff.counted hc
      by_cases hd : Sound (declare k kind type d s).1
      · rw [ih hcounted hd]
        exact ⟨fun ha => ⟨hd, fun _ => ha⟩, fun ha => ha.2 (by simpa using h)⟩
      · exact ⟨fun ha => absurd ha (declareAll_lost k kind type ds hd), fun ha => absurd ha.1 hd⟩

/-! ### The values -/

theorem getValue_eq_none {s : Parser V} {name : String} :
    s.getValue name = none ↔ name ∉ s.mstore.map Prod.fst := by
  unfold Parser.getValue
  rw [Option.map_eq_none_iff, List.find?_eq_none, List.mem_map]
  constructor
  · rintro h ⟨v, hv, rfl⟩
    exact h v hv (by simp)
  · intro h v hv hname
    exact h ⟨v, hv, by simpa using hname⟩

/-- The values of the service, and after them those of the names that a reset removes. -/
def Restorable (base : List (String × V)) (s : Parser V) : Prop :=
  ∃ added : List (String × V), s.mstore = base ++ added ∧
    s.alldefinednames = added.map Prod.fst ∧ (added.map Prod.fst).Nodup ∧
    ∀ v ∈ added, v.1 ∉ base.map Prod.fst

theorem removeValue_append {base added : List (String × V)} {name : String} {v : V}
    (h : name ∉ base.map Prod.fst) :
    Parser.removeValue (base ++ (name, v) :: added) name = base ++ added := by
  unfold Parser.removeValue
  rw [List.eraseP_append_right, List.eraseP_cons_of_pos (by simp)]
  intro w hw hname
  exact h (List.mem_map.mpr ⟨w, hw, by simpa using hname⟩)

theorem foldl_removeValue {base : List (String × V)} (added : List (String × V))
    (h : ∀ v ∈ added, v.1 ∉ base.map Prod.fst) :
    (added.map Prod.fst).foldl Parser.removeValue (base ++ added) = base := by
  induction added with
  | nil => exact List.append_nil base
  | cons v added ih =>
    obtain ⟨name, v⟩ := v
    rw [List.map_cons, List.foldl_cons, removeValue_append (h _ List.mem_cons_self)]
    exact ih fun w hw => h w (List.mem_cons_of_mem _ hw)

theorem Restorable.reset_mstore {base : List (String × V)} {s : Parser V} (h : Restorable base s) :
    s.reset.mstore = base := by
  obtain ⟨added, hstore, hnames, -, hnew⟩ := h
  show s.alldefinednames.foldl Parser.removeValue s.mstore = base
  rw [hstore, hnames]
  exact foldl_removeValue added hnew

theorem Restorable.reset {base : List (String × V)} {s : Parser V} (h : Restorable base s) :
    Restorable base s.reset :=
  ⟨[], by rw [h.reset_mstore, List.append_nil], rfl, List.nodup_nil, fun v hv => by cases hv⟩

theorem Effect.restorable {kind : Kind} {name : String} {refused builds : Prop}
    {hints : Option ℤ × Option ℤ} {base : List (String × V)} {s : Parser V} {r : Parser V × Bool}
    (he : Effect kind name refused builds hints s r) (hfree : builds → s.getValue name = none)
    (hs : Restorable base s) : Restorable base r.1 := by
  obtain ⟨added, hstore, hnames, hnodup, hnew⟩ := hs
  rcases he.2 with ⟨hb, hdefined⟩ | ⟨-, hsame⟩
  · obtain ⟨v, hv⟩ := hdefined.mstore
    have hname : name ∉ (base ++ added).map Prod.fst := hstore ▸ getValue_eq_none.mp (hfree hb)
    rw [List.map_append, List.mem_append, not_or] at hname
    refine ⟨added ++ [(name, v)], ?_, ?_, ?_, ?_⟩
    · rw [hv, hstore, List.append_assoc]
    · rw [hdefined.alldefinednames, hnames, List.map_append]
      rfl
    · rw [List.map_append, List.nodup_append]
      refine ⟨hnodup, by simp, ?_⟩
      intro n hn m hm
      obtain rfl : m = name := by simpa using hm
      exact fun h => hname.2 (h ▸ hn)
    · intro w hw
      rcases List.mem_append.mp hw with hw | hw
      · exact hnew w hw
      · rw [List.mem_singleton.mp hw]
        exact hname.1
  · exact ⟨added, hsame.mstore.trans hstore, hsame.alldefinednames.trans hnames, hnodup, hnew⟩

theorem declareAll_restorable (k : Typekit Ty E V) (kind : Kind) (type : Ty) (ds : List (Decl E))
    {base : List (String × V)} {s : Parser V} (hs : Restorable base s) :
    Restorable base (declareAll k kind type ds s).1 := by
  induction ds generalizing s with
  | nil => exact hs
  | cons d ds ih =>
    have hd := (declare_effect k kind type d s).restorable (fun h => h.1.2) hs
    rw [declareAll, andThen]
    split
    · exact hd
    · exact ih hd

/-- Only a `var` has commands. -/
theorem declareAll_pending (k : Typekit Ty E V) {kind : Kind} (hk : kind ≠ .var) (type : Ty)
    (ds : List (Decl E)) {s : Parser V} (hs : s.pending = [])
    (hdone : (declareAll k kind type ds s).2 = false) :
    (declareAll k kind type ds s).1.pending = [] := by
  induction ds generalizing s with
  | nil => exact hs
  | cons d ds ih =>
    rw [declareAll, andThen] at hdone ⊢
    split at hdone
    · next h => rw [h] at hdone; cases hdone
    · next h =>
      rw [if_neg h]
      refine ih ?_ hdone
      rcases (declare_effect k kind type d s).1 with ⟨-, ht, -⟩ | ⟨-, ht, -⟩ | ⟨-, -, ha⟩
      · exact absurd ht h
      · exact absurd ht h
      · rcases ha.pending with hp | ⟨hvar, -⟩
        · rw [hp.1, hs]
        · exact absurd hvar hk

/-! ### A run -/

/-- Between two definitions no command is pending. -/
structure Idle (base : List (String × V)) (s : Parser V) : Prop where
  pending : s.pending = []
  counted : Counted s
  restorable : Restorable base s

theorem counted_reset {s : Parser V} (h : Counted s) : Counted s.reset := by
  intro c
  rw [times_reset]
  exact h c

theorem sound_reset {s : Parser V} : Sound s.reset ↔ Sound s := by
  refine and_congr ?_ Iff.rfl
  exact forall_congr' fun c => by rw [times_reset]

theorem Idle.reset {base : List (String × V)} {s : Parser V} (hc : Counted s)
    (hr : Restorable base s) : Idle base s.reset := ⟨rfl, counted_reset hc, hr.reset⟩

theorem accept_pending (kind : Kind) (s : Parser V) : (accept kind s).pending = [] := by
  cases kind <;> rfl

theorem accept_restorable {kind : Kind} {base : List (String × V)} {s : Parser V}
    (h : Restorable base s) : Restorable base (accept kind s) := by
  cases kind <;> exact h

/-- A definition leaves no command pending, and goes wrong exactly where its declarations do. -/
theorem define_spec (k : Typekit Ty E V) {base : List (String × V)} {s : Parser V}
    (hi : Idle base s) (d : Definition E) :
    Idle base (define k s d) ∧ (¬ Sound s → ¬ Sound (define k s d)) ∧
      (Sound s → (Sound (define k s d) ↔ Clean k s (some d))) := by
  unfold define Clean
  cases htype : k.type d.type with
  | none =>
    refine ⟨.reset hi.counted hi.restorable, fun h => by rwa [sound_reset], fun h => ?_⟩
    rw [sound_reset]
    exact ⟨fun _ _ ht => absurd ht (by simp [htype]), fun _ => h⟩
  | some type =>
    have hcounted := declareAll_counted k d.kind type d.decls hi.counted
    have hrestorable := declareAll_restorable k d.kind type d.decls hi.restorable
    have hlost : ¬ Sound s → _ := declareAll_lost k d.kind type d.decls
    have hsound : Sound s → _ := declareAll_sound_iff k d.kind type d.decls hi.counted
    have hclean : (∀ type' ∈ k.type d.type, AllFit k d.kind type' d.decls s) ↔
        AllFit k d.kind type d.decls s := by simp [htype]
    dsimp only
    rw [hclean]
    unfold finish at hcounted hlost hsound
    split
    · next h =>
      rw [if_pos h] at hcounted hlost hsound
      refine ⟨⟨rfl, hcounted, hrestorable.reset⟩, hlost, hsound⟩
    · next h =>
      rw [if_neg h] at hcounted hlost hsound
      have htimes : ∀ c, times (accept d.kind (declareAll k d.kind type d.decls s).1) c =
          times (declareAll k d.kind type d.decls s).1 c := fun c =>
        times_accept c fun hk => declareAll_pending k hk type d.decls hi.pending (by simpa using h)
      have hbuilt : (accept d.kind (declareAll k d.kind type d.decls s).1).built =
          (declareAll k d.kind type d.decls s).1.built := by cases d.kind <;> rfl
      have hcreated : (accept d.kind (declareAll k d.kind type d.decls s).1).created =
          (declareAll k d.kind type d.decls s).1.created := by cases d.kind <;> rfl
      have hiff : Sound (accept d.kind (declareAll k d.kind type d.decls s).1) ↔
          Sound (declareAll k d.kind type d.decls s).1 := by
        unfold Sound
        rw [hbuilt]
        exact and_congr_left fun _ => forall_congr' fun c => by rw [htimes c]
      rw [hiff]
      refine ⟨⟨accept_pending _ _, fun c => ?_, accept_restorable hrestorable⟩, hlost, hsound⟩
      rw [htimes c, hcreated]
      exact hcounted c

theorem step_spec (k : Typekit Ty E V) {base : List (String × V)} {s : Parser V} (hi : Idle base s)
    (o : Option (Definition E)) :
    Idle base (step k s o) ∧ (¬ Sound s → ¬ Sound (step k s o)) ∧
      (Sound s → (Sound (step k s o) ↔ Clean k s o)) := by
  cases o with
  | none =>
    refine ⟨.reset hi.counted hi.restorable, fun h => by rwa [step, sound_reset], fun h => ?_⟩
    rw [step, sound_reset]
    exact ⟨fun _ => trivial, fun _ => h⟩
  | some d => exact define_spec k hi d

theorem start_idle (mstore : List (String × V)) : Idle mstore (start mstore) :=
  ⟨rfl, fun c => ⟨fun h => absurd h (Nat.lt_irrefl 0), fun h => absurd h (Nat.not_lt_zero c)⟩,
    [], (List.append_nil mstore).symm, rfl, List.nodup_nil, fun v hv => by cases hv⟩

theorem start_sound (mstore : List (String × V)) : Sound (start mstore) :=
  ⟨fun _ => Nat.zero_le 1, fun b hb => by cases hb⟩

theorem run_idle (k : Typekit Ty E V) (mstore : List (String × V))
    (definitions : List (Option (Definition E))) :
    Idle mstore (run (step k) (start mstore) definitions) :=
  run_invariant (I := Idle mstore) (fun _ o hi (_ : True) => (step_spec k hi o).1)
    (start_idle mstore) (along_trivial _ _ _)

theorem cleansUp_iff_sound (k : Typekit Ty E V) (mstore : List (String × V))
    (definitions : List (Option (Definition E))) :
    CleansUp k mstore definitions ↔ Sound (run (step k) (start mstore) definitions) := by
  have hi := run_idle k mstore definitions
  have hc := counted_reset hi.counted
  show (run (step k) (start mstore) definitions).reset.mstore = mstore ∧
    (∀ c < _, times (run (step k) (start mstore) definitions).reset c = 1) ∧ _ ↔ _
  rw [hi.restorable.reset_mstore, ← sound_reset]
  constructor
  · rintro ⟨-, hone, hb⟩
    refine ⟨fun c => ?_, hb⟩
    by_cases hlt : c < (run (step k) (start mstore) definitions).reset.created
    · exact Nat.le_of_eq (hone c hlt)
    · have := mt (hc c).mp hlt
      omega
  · rintro ⟨hone, hb⟩
    refine ⟨rfl, fun c hlt => ?_, hb⟩
    have hpos := (hc c).mpr hlt
    have hle := hone c
    omega

/-- The parser cleans up after definitions of all kinds exactly if no declaration is refused after
a command of its own definition, and none without a size hint meets one that a `const` has left. -/
theorem cleansUp_iff_clean (k : Typekit Ty E V) (mstore : List (String × V))
    (definitions : List (Option (Definition E))) :
    CleansUp k mstore definitions ↔ Along (step k) (Clean k) (start mstore) definitions := by
  rw [cleansUp_iff_sound]
  refine run_keeps_iff_of_invariant ?_ ?_ ?_ (start_idle mstore) (start_sound mstore)
  · exact fun s o hi => (step_spec k hi o).1
  · exact fun s o hi => (step_spec k hi o).2.1
  · exact fun s o hi hs => (step_spec k hi o).2.2 hs

/-- One type, whose expressions are numbers. -/
def numbers : Typekit Unit ℤ ℤ where
  type name := if name = "int" then some () else none
  intValue expr := some expr
  buildConstant _ _ expr _ := some expr
  buildAlias _ _ expr := some expr
  buildVariable _ _ _ := 0
  updateAction _ _ := true

/-- `var int x = 1, x = 2` makes a command and deletes it twice, and `const int a(2) = 1, b = 1`
builds the second constant with the size hint of the first. -/
theorem deleted_twice_and_hint_kept :
    ¬ CleansUp numbers [] [some (.var "int" { name := "x", init := some 1 }
      [{ name := "x", init := some 2 }])] ∧
    ¬ CleansUp numbers [] [some (.const "int" { name := "a", hint := some 2, init := some 1 }
      [{ name := "b", init := some 1 }])] := by
  constructor
  · rintro ⟨-, h, -⟩
    exact absurd (h 0 (by decide)) (by decide)
  · rintro ⟨-, -, h⟩
    exact absurd (h (none, some 2) (by decide)) (by decide)

end OrocosRtt.Scripting.ValueChange
