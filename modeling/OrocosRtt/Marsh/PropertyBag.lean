import Mathlib.Data.List.Basic
import Mathlib.Data.List.Destutter
import Mathlib.Data.List.GetD

/-! Property bags as trees of values, and the functions that refresh, update, copy and compose
them. -/
namespace OrocosRtt.Marsh

/-- A property of a value type, or one that holds a bag. -/
inductive Property (τ V : Type) where
  | leaf (name description : String) (type : τ) (value : V)
  | bag (name description type : String) (properties : List (Property τ V))

structure PropertyBag (τ V : Type) where
  type : String
  properties : List (Property τ V)

/-- How a function of the source ends: with `true`, with `false` or with an exception. -/
inductive Outcome where
  | ok
  | failed
  | thrown
  deriving DecidableEq

/-- What a type constructor makes of a value of another type: nothing, a value, or an exception. -/
inductive Conversion (V : Type) where
  | none
  | value (v : V)
  | thrown

/-- The type system, as far as properties need it. A conversion or composition is code of the user
of a type. A composition may have changed the value that it was given even when it fails. -/
structure TypeSystem (ι τ V : Type) where
  type : String → Option ι
  bagInfo : ι
  type_bag : type "PropertyBag" = some bagInfo
  leafType : ι → τ
  initial : τ → V
  convert : τ → Property τ V → Conversion V
  composeType : τ → Property τ V → V → V × Outcome

variable {ι τ V : Type} [DecidableEq ι] [DecidableEq τ]

namespace Property

def name : Property τ V → String
  | .leaf n _ _ _ => n
  | .bag n _ _ _ => n

end Property

/-- `PropertyBag::find`: the first property of the name. -/
def find (name : String) (ps : List (Property τ V)) : Option (Property τ V) :=
  ps.find? fun p => p.name = name

/-- Where `refreshProperties` takes the value of its `i`-th target property from. -/
def sourceOf (source : List (Property τ V)) (i : ℕ) (name : String) : Option (Property τ V) :=
  if name = "" then source[i]? else find name source

namespace TypeSystem

variable (ts : TypeSystem ι τ V)

/-- The type of the bag is not that of a plain bag. -/
def typed (type : String) : Bool :=
  ts.type type ≠ some ts.bagInfo

/-- What `updateOrRefreshProperty` makes of the value of a property that is no bag: the value of the
source where the types are the same, else a conversion of the source, else a composition. -/
def assign (type : τ) (value : V) (source : Property τ V) : V × Outcome :=
  let adopt := match ts.convert type source with
    | .value v => (v, .ok)
    | .thrown => (value, .thrown)
    | .none => ts.composeType type source value
  match source with
  | .leaf _ _ type' v => if type' = type then (v, .ok) else adopt
  | .bag _ _ _ _ => adopt

/-- Whether the two bags are of types that cannot be taken one from the other. -/
def differ (target source : String) : Bool :=
  ts.typed target && ts.type target ≠ ts.type source

mutual

/-- `updateOrRefreshProperty`, for a refresh. A plain bag has no constructors and no
composition. -/
def refreshProperty (target source : Property τ V) : Property τ V × Outcome :=
  match target with
  | .leaf n d t v => (.leaf n d t (ts.assign t v source).1, (ts.assign t v source).2)
  | .bag n d type ps =>
    match source with
    | .leaf _ _ _ _ => (.bag n d type ps, .failed)
    | .bag _ _ type' qs =>
      if ts.differ type type' then (.bag n d type ps, .failed)
      else (.bag n d type (refreshList false qs 0 ps).1, (refreshList false qs 0 ps).2)

/-- The loop of `refreshProperties`, from its `i`-th target property on. One that has no source
does not stop it. -/
def refreshList (allprops : Bool) (source : List (Property τ V)) (i : ℕ)
    (target : List (Property τ V)) : List (Property τ V) × Outcome :=
  match target with
  | [] => ([], .ok)
  | p :: ps =>
    let rest := refreshList allprops source (i + 1) ps
    match sourceOf source i p.name with
    | none => (p :: rest.1, if allprops ∧ rest.2 = .ok then .failed else rest.2)
    | some q =>
      if (refreshProperty p q).2 = .ok then ((refreshProperty p q).1 :: rest.1, rest.2)
      else ((refreshProperty p q).1 :: ps, (refreshProperty p q).2)

end

def refreshProperties (target source : PropertyBag τ V) (allprops : Bool) :
    PropertyBag τ V × Outcome :=
  if ts.differ target.type source.type then (target, .failed)
  else
    let r := ts.refreshList allprops source.properties 0 target.properties
    (⟨target.type, r.1⟩, r.2)

end TypeSystem

mutual

/-- `create` and then `copy`: a bag inside does not get the type of its original. -/
def Property.copy (p : Property τ V) : Property τ V :=
  match p with
  | .leaf n d t v => .leaf n d t v
  | .bag n d _ ps => .bag n d "PropertyBag" (copyList ps)

def copyList (ps : List (Property τ V)) : List (Property τ V) :=
  match ps with
  | [] => []
  | p :: ps => p.copy :: copyList ps

end

/-- `copyProperties`. -/
def copyProperties (target source : PropertyBag τ V) : PropertyBag τ V :=
  { target with properties := target.properties ++ copyList source.properties }

/-- What `updateProperties` needs of one of its source properties: its name, the property that
`create` gives, and what an update with it does to a property. -/
structure Updater (τ V : Type) where
  name : String
  created : Property τ V
  update : Property τ V → Property τ V × Outcome

namespace TypeSystem

variable (ts : TypeSystem ι τ V)

/-- The target property that the `k`-th source of the name updates is the `k`-th one of the name. -/
def updateAt (u : Updater τ V) (k : ℕ) (target : List (Property τ V)) :
    List (Property τ V) × Outcome :=
  match target with
  | [] =>
    -- the outcome of updating a property that was just created is not looked at
    let r := u.update u.created
    if r.2 = .thrown then ([], .thrown) else ([r.1], .ok)
  | p :: ps =>
    if p.name = u.name then
      match k with
      | 0 => ((u.update p).1 :: ps, (u.update p).2)
      | k + 1 => (p :: (updateAt u k ps).1, (updateAt u k ps).2)
    else (p :: (updateAt u k ps).1, (updateAt u k ps).2)

/-- The sources of one name. -/
def updateNamed (us : List (Updater τ V)) (k : ℕ) (target : List (Property τ V)) :
    List (Property τ V) × Outcome :=
  match us with
  | [] => (target, .ok)
  | u :: us =>
    let r := updateAt u k target
    if r.2 = .ok then updateNamed us (k + 1) r.1 else r

/-- The loop over the names of the source. -/
def updateNames (us : List (Updater τ V)) (names : List String) (target : List (Property τ V)) :
    List (Property τ V) × Outcome :=
  match names with
  | [] => (target, .ok)
  | n :: names =>
    let r := updateNamed (us.filter fun u => u.name = n) 0 target
    if r.2 = .ok then updateNames us names r.1 else r

/-- A bag that was never given a type counts as a plain one. -/
def mend (type : String) : String :=
  if type = "" ∨ type = "type_less" then "PropertyBag" else type

/-- `updateProperties`. Only neighbours of the same name are seen as one. -/
def updateWith (us : List (Updater τ V)) (sourceType : String) (target : PropertyBag τ V) :
    PropertyBag τ V × Outcome :=
  let target := { target with type := mend target.type }
  if ts.differ target.type sourceType then (target, .failed)
  else
    let names := (us.map Updater.name).destutter (· ≠ ·)
    let r := updateNames us names target.properties
    (⟨sourceType, r.1⟩, r.2)

mutual

def updater (source : Property τ V) : Updater τ V :=
  match source with
  | .leaf n d t v => ⟨n, .leaf n d t (ts.initial t), fun target =>
      match target with
      | .leaf n' d' t' v' =>
        -- the description is taken along only from a property of the same type
        let d'' := if t' = t ∧ d' = "" then d else d'
        (.leaf n' d'' t' (ts.assign t' v' (.leaf n d t v)).1, (ts.assign t' v' (.leaf n d t v)).2)
      | .bag n' d' type ps => (.bag n' d' type ps, .failed)⟩
  | .bag n d type qs => ⟨n, .bag n d "PropertyBag" [], fun target =>
      match target with
      | .leaf n' d' t' v' =>
        (.leaf n' d' t' (ts.assign t' v' (.bag n d type qs)).1,
          (ts.assign t' v' (.bag n d type qs)).2)
      | .bag n' d' type' ps =>
        let r := ts.updateWith (updaters qs) type ⟨type', ps⟩
        (.bag n' (if d' = "" then d else d') r.1.type r.1.properties, r.2)⟩

def updaters (source : List (Property τ V)) : List (Updater τ V) :=
  match source with
  | [] => []
  | q :: qs => updater q :: updaters qs

end

def updateProperties (target source : PropertyBag τ V) : PropertyBag τ V × Outcome :=
  ts.updateWith (ts.updaters source.properties) source.type target

mutual

/-- `composePropertyBag`, for one property of the file: what it adds to the composed bag, and
whether it is an error. -/
def composeProperty (source : Property τ V) : List (Property τ V) × Outcome :=
  match source with
  | .leaf n d t v => ([.leaf n d t v], .ok)
  | .bag n d type qs =>
    if type ≠ "PropertyBag" then
      match ts.type type with
      | none => ([], .failed)
      | some i =>
        if i = ts.bagInfo then ([], .failed)
        else
          let t := ts.leafType i
          let r := ts.composeType t (.bag n d type qs) (ts.initial t)
          (if r.2 = .ok then [.leaf n d t r.1] else [], r.2)
    else
      let r := composeList qs
      (if r.2 = .ok then [.bag n d "PropertyBag" r.1] else [], r.2)

def composeList (source : List (Property τ V)) : List (Property τ V) × Outcome :=
  match source with
  | [] => ([], .ok)
  | q :: qs =>
    let r := composeProperty q
    if r.2 = .thrown then ([], .thrown)
    else
      -- an error does not stop the loop
      let rest := composeList qs
      (r.1 ++ rest.1, if r.2 = .failed ∧ rest.2 = .ok then .failed else rest.2)

end

/-- `composePropertyBag` with an empty plain bag as its target. -/
def composePropertyBag (source : PropertyBag τ V) : PropertyBag τ V × Outcome :=
  let r := ts.composeList source.properties
  (⟨"PropertyBag", r.1⟩, r.2)

end TypeSystem

end OrocosRtt.Marsh
