import OrocosRtt.Marsh.PropertyBag
import Mathlib.Data.Int.Notation
import Mathlib.Data.List.Basic

/-! Decomposing a value of a user type into a property bag, and composing a value from such a
bag again. A type is known by its name. -/
namespace OrocosRtt.Types
open Marsh

/-- A value of a primitive type, or the members of a struct or the items of a container. -/
inductive Val (A : Type) where
  | prim (a : A)
  | parts (vs : List (Val A))

/-- A member of a struct; `size` counts its items when it is an array. -/
structure Member where
  name : String
  type : String
  size : ℕ

inductive Shape where
  | primitive
  | struct (members : List Member)
  | sequence (element : String)
  | array (element : String)

/-- The types that are registered, the values that `buildProperty` starts from, the conversions
by constructors, and the value of a property that is a `DataSource<int>`. -/
structure TypeTable (A : Type) where
  shape : String → Option Shape
  initial : String → Val A
  convert : String → Property String (Val A) → Conversion (Val A)
  intValue : Property String (Val A) → Option ℤ

variable {A : Type}

namespace TypeTable

variable (tt : TypeTable A)

def elementName (i : ℕ) : String := "Element" ++ toString i

mutual

/-- `typeDecomposition` with recursion: the properties of the target bag, which gets the name of
the type. The size and the capacity of a container are not assignable, and no member of a struct is
named by a number. -/
def decompose (type : String) (v : Val A) : Option (List (Property String (Val A))) :=
  match v with
  | .prim _ => none
  | .parts vs =>
    match tt.shape type with
    | some (.struct members) => if members.isEmpty then none else some (decomposeParts members vs)
    | some (.sequence element) => some (decomposeItems element 0 vs)
    | some (.array element) => some (decomposeItems element 0 vs)
    | some .primitive => none
    | none => none

def decomposeParts (members : List Member) (vs : List (Val A)) :
    List (Property String (Val A)) :=
  match vs with
  | [] => []
  | v :: vs =>
    match members with
    | [] => []
    | m :: members =>
      (match decompose m.type v with
        | none => .leaf m.name "Part" m.type v
        | some ps => .bag m.name "Part" m.type ps) :: decomposeParts members vs

def decomposeItems (element : String) (i : ℕ) (vs : List (Val A)) :
    List (Property String (Val A)) :=
  match vs with
  | [] => []
  | v :: vs =>
    (match decompose element v with
      | none => .leaf (elementName i) "Sequence Element" element v
      | some ps => .bag (elementName i) "Item" element ps) :: decomposeItems element (i + 1) vs

end

/-- `typeDecomposition` without recursion, of a struct: each property refers to a member. -/
def parts : List Member → List (Val A) → List (Property String (Val A)) :=
  List.zipWith fun m v => .leaf m.name "Part" m.type v

/-- The same of a container, from its `i`-th item on. -/
def items (element : String) (i : ℕ) : List (Val A) → List (Property String (Val A))
  | [] => []
  | v :: vs => .leaf (elementName i) "Sequence Element" element v :: items element (i + 1) vs

/-- What a property of such a decomposition refers to. -/
def value : Property String (Val A) → Val A
  | .leaf _ _ _ v => v
  | .bag _ _ _ _ => .parts []

def resize (element : String) (n : ℕ) (vs : List (Val A)) : List (Val A) :=
  vs.take n ++ List.replicate (n - vs.length) (tt.initial element)

/-- The size that a sequence gets from the bag it is composed of. -/
def sizeOf (source : List (Property String (Val A))) (old : ℕ) : ℤ :=
  match (find "Size" source).or (find "size" source) with
  | some sz => (tt.intValue sz).getD old
  | none => source.length

/-- The types by their names; `none` is the type of a plain bag. -/
abbrev System (A : Type) := TypeSystem (Option String) String (Val A)

/-- What a container does with a bag, once it has its size: the items are composed by themselves,
and the container is decomposed and refreshed with them. -/
def composeItems (ts : System A) (type element : String) (sourceType : String)
    (source : List (Property String (Val A))) (vs : List (Val A)) : Val A × Marsh.Outcome :=
  let target := ts.composeList source
  if target.2 ≠ .ok then (.parts vs, target.2)
  else if ts.type type ≠ ts.type sourceType then (.parts vs, .failed)
  else
    let r := ts.refreshProperties ⟨type, items element 0 vs⟩ ⟨sourceType, target.1⟩ true
    (.parts (r.1.properties.map value), r.2)

/-- `composeType` of the type. It only reads the source. -/
def composeType (ts : System A) (type : String) (source : Property String (Val A)) (w : Val A) :
    Val A × Marsh.Outcome :=
  match source, w with
  | .bag _ _ sourceType ps, .parts vs =>
    match tt.shape type with
    | some (.struct members) =>
      if members.isEmpty then (w, .failed)
      else if ts.type type ≠ ts.type sourceType then (w, .failed)
      else
        let r := ts.refreshProperties ⟨type, parts members vs⟩ ⟨sourceType, ps⟩ false
        (.parts (r.1.properties.map value), r.2)
    | some (.sequence element) =>
      -- `resize` throws where the size is negative
      if tt.sizeOf ps vs.length < 0 then (w, .thrown)
      else
        composeItems ts type element sourceType ps
          (tt.resize element (tt.sizeOf ps vs.length).toNat vs)
    | some (.array element) =>
      if vs.length ≠ ps.length then (w, .failed)
      else composeItems ts type element sourceType ps vs
    | some .primitive => (w, .failed)
    | none => (w, .failed)
  | _, _ => (w, .failed)

/-- `Types()->type( name )`. -/
def typeInfo (name : String) : Option (Option String) :=
  if name = "PropertyBag" then some none
  else if (tt.shape name).isSome then some (some name) else none

/-- The type system, with compositions nested up to `fuel` deep. -/
def system : ℕ → System A
  | 0 =>
    { type := tt.typeInfo
      bagInfo := none
      type_bag := rfl
      leafType := fun i => i.getD ""
      initial := tt.initial
      convert := tt.convert
      composeType := fun _ _ w => (w, .thrown) }
  | fuel + 1 =>
    { type := tt.typeInfo
      bagInfo := none
      type_bag := rfl
      leafType := fun i => i.getD ""
      initial := tt.initial
      convert := tt.convert
      composeType := tt.composeType (system fuel) }

mutual

/-- The value is one of the type; arrays are found as members of structs only, and each has the
size that its member fixes. -/
def HasType (type : String) (v : Val A) : Prop :=
  match v with
  | .prim _ =>
    match tt.shape type with
    | some .primitive => True
    | _ => False
  | .parts vs =>
    match tt.shape type with
    | some (.struct members) => MembersType members vs
    | some (.sequence element) => ItemsType element vs
    | _ => False

def MembersType (members : List Member) (vs : List (Val A)) : Prop :=
  match vs with
  | [] => members = []
  | v :: vs =>
    match members with
    | [] => False
    | m :: members =>
      (match tt.shape m.type with
        | some (.array element) =>
          match v with
          | .prim _ => False
          | .parts items => items.length = m.size ∧ ItemsType element items
        | _ => HasType m.type v) ∧ MembersType members vs

def ItemsType (element : String) (vs : List (Val A)) : Prop :=
  match vs with
  | [] => True
  | v :: vs => HasType element v ∧ ItemsType element vs

end

end TypeTable

/-- A table of types as the type system has it: `PropertyBag` is none of them, the members of a
struct have names of their own, a fresh value is one of its type, and no constructor takes a
bag. -/
structure TypeRepository (A : Type) extends TypeTable A where
  plain : shape "PropertyBag" = none
  nodup : ∀ type members, shape type = some (.struct members) →
    (members.map Member.name).Nodup ∧ "" ∉ members.map Member.name
  initial_type : ∀ type v, toTypeTable.HasType type v → toTypeTable.HasType type (initial type)
  convert_bag : ∀ type name description bagType ps,
    convert type (.bag name description bagType ps) = .none

end OrocosRtt.Types
