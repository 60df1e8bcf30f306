import OrocosRtt.Types.RoundTrip

/-! Decomposing a property bag, so that it can be written to a file, and composing the result. -/
namespace OrocosRtt.Types
open Marsh

variable {A : Type}

/-- What `decomposeType` returns: null, the data source that it was given, a bag, or another data
source, of which `buildProperty` makes a property of some type and value, or none. -/
inductive Decomposition (A : Type) where
  | null
  | itself
  | bag (type : String) (properties : List (Property String (Val A)))
  | other (built : Option (String × Val A))

/-- Types that are not in the table: what their users have written, and the decomposition by members
of a type whose `decomposeType` returns null, such as a struct with a member of a user's type. -/
structure UserTypes (A : Type) where
  registered : String → Bool
  decomposeType : String → Val A → Decomposition A
  members : String → Val A → Option (List (Property String (Val A)))
  composeType : String → Property String (Val A) → Val A → Val A × Marsh.Outcome

section
variable (tr : TypeRepository A) (user : UserTypes A)

/-- A primitive type returns its argument, a struct and a container return null. -/
def decomposeType (type : String) (v : Val A) : Decomposition A :=
  match tr.shape type with
  | some .primitive => .itself
  | some _ => .null
  | none => user.decomposeType type v

/-- `propertyDecomposition`; the bag has the name of the type. -/
def propertyDecomposition (type : String) (v : Val A) : Option (List (Property String (Val A))) :=
  match tr.shape type with
  | some _ => tr.decompose type v
  | none => user.members type v

/-- What is added to the target for one property of the source. The bag that is made for a bag is an
empty plain one that has the properties put into it. -/
def decomposeProperty
    (recurse : List (Property String (Val A)) → Option (List (Property String (Val A)))) :
    Property String (Val A) → Option (List (Property String (Val A)))
  | .bag n d _ ps => (recurse ps).map fun qs => [.bag n d "PropertyBag" qs]
  | .leaf n d type v =>
    match decomposeType tr user type v with
    | .itself => some [.leaf n d type v]
    | .bag _ ps => (recurse ps).map fun qs => [.bag n d "PropertyBag" qs]
    | .other (some (type', v')) => some [.leaf n d type' v']
    | .other none => some []
    | .null =>
      match propertyDecomposition tr user type v with
      | some ps => some [.bag n d type ps]
      | none => some []

def decomposeEach
    (recurse : List (Property String (Val A)) → Option (List (Property String (Val A)))) :
    List (Property String (Val A)) → Option (List (Property String (Val A)))
  | [] => some []
  | p :: ps => do
    let q ← decomposeProperty tr user recurse p
    let qs ← decomposeEach recurse ps
    pure (q ++ qs)

/-- `decomposePropertyBag` into an empty bag, if no more than `depth` calls are in one another; the
bags of user types may hold values of user types. -/
def decomposeBag : ℕ → List (Property String (Val A)) → Option (List (Property String (Val A)))
  | 0, _ => none
  | depth + 1, ps => decomposeEach tr user (decomposeBag depth) ps

/-- The target keeps its type. -/
def decomposePropertyBag (depth : ℕ) (source target : PropertyBag String (Val A)) :
    Option (PropertyBag String (Val A) × Bool) :=
  if target.properties.isEmpty then
    (decomposeBag tr user depth source.properties).map fun qs => (⟨target.type, qs⟩, true)
  else some (target, false)

/-- The type system with the types of the user. The parts of a type of the table are of such types
too. -/
def typeSystem (fuel : ℕ) : TypeTable.System A where
  type name :=
    if name = "PropertyBag" then some none
    else if (tr.shape name).isSome ∨ user.registered name then some (some name)
    else none
  bagInfo := none
  type_bag := rfl
  leafType i := i.getD ""
  initial := tr.initial
  convert := tr.convert
  composeType type source v :=
    if (tr.shape type).isSome then (tr.system fuel).composeType type source v
    else user.composeType type source v

mutual

/-- No property is a `Property<PropertyBag>` and yet not a bag, and the values of the types of the
table are of their types. -/
def TypedProperty (p : Property String (Val A)) : Prop :=
  match p with
  | .leaf _ _ type v => type ≠ "PropertyBag" ∧ ((tr.shape type).isSome → tr.HasType type v)
  | .bag _ _ _ ps => Typed ps

def Typed (ps : List (Property String (Val A))) : Prop :=
  match ps with
  | [] => True
  | p :: ps => TypedProperty p ∧ Typed ps

end

/-- The type of a property that is no bag keeps it: it is primitive, a struct with members or a
sequence. A type of the user returns its argument or a copy of it; or it has no `decomposeType`, but
members, from which its `composeType` makes the value. -/
def KeptLeaf (n d type : String) (v : Val A) : Prop :=
  match tr.shape type with
  | some .primitive => True
  | some _ => tr.Composite type
  | none =>
    match user.decomposeType type v with
    | .itself => True
    | .bag _ _ => False
    | .other built => built = some (type, v)
    | .null => ∃ ps, user.members type v = some ps ∧ user.registered type ∧
        user.composeType type (.bag n d type ps) (tr.initial type) = (v, .ok)

mutual

def KeptProperty (p : Property String (Val A)) : Prop :=
  match p with
  | .leaf n d type v => KeptLeaf tr user n d type v
  | .bag _ _ type ps => type = "PropertyBag" ∧ Kept ps

/-- All bags inside are plain ones, and all types keep their properties. -/
def Kept (ps : List (Property String (Val A))) : Prop :=
  match ps with
  | [] => True
  | p :: ps => KeptProperty p ∧ Kept ps

end

/-- Composing the decomposition of the bag, each into an empty plain bag, gives its properties. -/
def Restored (source : PropertyBag String (Val A)) : Prop :=
  ∃ depth ds, decomposePropertyBag tr user depth source ⟨"PropertyBag", []⟩ = some (ds, true) ∧
    ∃ bound, ∀ fuel, bound ≤ fuel → (typeSystem tr user fuel).composePropertyBag ds =
      (⟨"PropertyBag", source.properties⟩, .ok)

end

section
variable (ts : TypeTable.System A)

theorem composeProperty_length (q : Property String (Val A)) :
    (ts.composeProperty q).1.length ≤ 1 := by
  cases q with
  | leaf n d t v => exact Nat.le_refl 1
  | bag n d type qs =>
    unfold TypeSystem.composeProperty
    split
    · split
      · exact Nat.zero_le 1
      · split
        · exact Nat.zero_le 1
        · dsimp only
          split
          · exact Nat.le_refl 1
          · exact Nat.zero_le 1
    · dsimp only
      split
      · exact Nat.le_refl 1
      · exact Nat.zero_le 1

theorem composeList_length (qs : List (Property String (Val A))) :
    (ts.composeList qs).1.length ≤ qs.length := by
  induction qs with
  | nil => exact Nat.le_refl 0
  | cons q qs ih =>
    rw [TypeSystem.composeList]
    dsimp only
    split
    · exact Nat.zero_le _
    · have hq := composeProperty_length ts q
      have hlen : ((ts.composeProperty q).1 ++ (ts.composeList qs).1).length ≤ qs.length + 1 := by
        rw [List.length_append]
        omega
      exact hlen

/-- Where nothing has been dropped, each property is composed to the one in its place. -/
theorem composeList_cons_inv {q p : Property String (Val A)}
    {qs ps : List (Property String (Val A))} (h : (ts.composeList (q :: qs)).1 = p :: ps)
    (hlen : qs.length ≤ ps.length) :
    (ts.composeProperty q).1 = [p] ∧ (ts.composeList qs).1 = ps := by
  have htail := composeList_length ts qs
  have hhead := composeProperty_length ts q
  rw [TypeSystem.composeList] at h
  dsimp only at h
  split at h
  · cases h
  · cases hq : (ts.composeProperty q).1 with
    | nil =>
      have hdropped := congrArg List.length h
      rw [hq, List.nil_append, List.length_cons] at hdropped
      dsimp only at hdropped
      omega
    | cons p' rest =>
      rw [hq, List.length_cons] at hhead
      have hrest : rest = [] := List.length_eq_zero_iff.mp (by omega)
      rw [hq, hrest] at h
      obtain ⟨rfl, hps⟩ := List.cons.inj h
      exact ⟨by rw [hrest], hps⟩

theorem composeList_cons {q p : Property String (Val A)} {qs ps : List (Property String (Val A))}
    (hq : ts.composeProperty q = ([p], .ok)) (hqs : ts.composeList qs = (ps, .ok)) :
    ts.composeList (q :: qs) = (p :: ps, .ok) := by
  rw [TypeSystem.composeList, hq, hqs]
  simp

theorem composeProperty_plain (n d : String) (qs : List (Property String (Val A))) :
    ts.composeProperty (.bag n d "PropertyBag" qs) =
      (if (ts.composeList qs).2 = .ok then [.bag n d "PropertyBag" (ts.composeList qs).1] else [],
        (ts.composeList qs).2) := by
  rw [TypeSystem.composeProperty, if_neg (not_not_intro rfl)]

end

section
variable (tr : TypeRepository A) (user : UserTypes A)

theorem composeProperty_typed (fuel : ℕ) {type : String} (hne : type ≠ "PropertyBag")
    (hknown : (tr.shape type).isSome ∨ user.registered type) (n d : String)
    (qs : List (Property String (Val A))) :
    (typeSystem tr user fuel).composeProperty (.bag n d type qs) =
      let r := (typeSystem tr user fuel).composeType type (.bag n d type qs) (tr.initial type)
      (if r.2 = .ok then [.leaf n d type r.1] else [], r.2) := by
  have htype : (typeSystem tr user fuel).type type = some (some type) := by
    simp [typeSystem, hne, hknown]
  rw [TypeSystem.composeProperty, if_pos hne, htype]
  exact if_neg (by simp [typeSystem])

/-- A bag of a type that is not known is dropped. -/
theorem composeProperty_unknown (fuel : ℕ) {type : String} (hne : type ≠ "PropertyBag")
    (hknown : ¬ ((tr.shape type).isSome ∨ user.registered type)) (n d : String)
    (qs : List (Property String (Val A))) :
    (typeSystem tr user fuel).composeProperty (.bag n d type qs) = ([], .failed) := by
  have htype : (typeSystem tr user fuel).type type = none := by
    simp [typeSystem, hne, hknown]
  rw [TypeSystem.composeProperty, if_pos hne, htype]

theorem decomposeProperty_length
    {recurse : List (Property String (Val A)) → Option (List (Property String (Val A)))}
    {p : Property String (Val A)} {qs : List (Property String (Val A))}
    (h : decomposeProperty tr user recurse p = some qs) : qs.length ≤ 1 := by
  have hmap {n d : String} {ps : List (Property String (Val A))}
      (h : (recurse ps).map (fun qs => [Property.bag n d "PropertyBag" qs]) = some qs) :
      qs.length ≤ 1 := by
    obtain ⟨_, -, rfl⟩ := Option.map_eq_some_iff.mp h
    exact Nat.le_refl 1
  cases p with
  | bag n d type ps => exact hmap h
  | leaf n d type v =>
    rw [decomposeProperty] at h
    split at h
    · exact Option.some.inj h ▸ Nat.le_refl 1
    · exact hmap h
    · exact Option.some.inj h ▸ Nat.le_refl 1
    · exact Option.some.inj h ▸ Nat.zero_le 1
    · split at h
      · exact Option.some.inj h ▸ Nat.le_refl 1
      · exact Option.some.inj h ▸ Nat.zero_le 1

theorem decomposeEach_cons
    {recurse : List (Property String (Val A)) → Option (List (Property String (Val A)))}
    {p : Property String (Val A)} {ps qs : List (Property String (Val A))}
    (h : decomposeEach tr user recurse (p :: ps) = some qs) :
    ∃ q rest, decomposeProperty tr user recurse p = some q ∧
      decomposeEach tr user recurse ps = some rest ∧ qs = q ++ rest := by
  rw [decomposeEach] at h
  obtain ⟨q, hq, h⟩ := Option.bind_eq_some_iff.mp h
  obtain ⟨rest, hrest, h⟩ := Option.bind_eq_some_iff.mp h
  exact ⟨q, rest, hq, hrest, (Option.some.inj h).symm⟩

theorem decomposeEach_length
    {recurse : List (Property String (Val A)) → Option (List (Property String (Val A)))}
    {ps : List (Property String (Val A))} : ∀ {qs : List (Property String (Val A))},
      decomposeEach tr user recurse ps = some qs → qs.length ≤ ps.length := by
  induction ps with
  | nil => intro qs h; exact Option.some.inj h ▸ Nat.le_refl 0
  | cons p ps ih =>
    intro qs h
    obtain ⟨q, rest, hq, hrest, rfl⟩ := decomposeEach_cons tr user h
    have hhead := decomposeProperty_length tr user hq
    have htail := ih hrest
    rw [List.length_append, List.length_cons]
    omega

/-- A struct without members is not decomposed. -/
theorem composite_of_decompose {type : String} {v : Val A} (hv : tr.HasType type v)
    {ps : List (Property String (Val A))} (h : tr.decompose type v = some ps) :
    tr.Composite type := by
  cases v with
  | prim a => rw [TypeTable.decompose] at h; cases h
  | parts vs =>
    unfold TypeTable.HasType at hv
    rw [TypeTable.decompose] at h
    unfold TypeTable.Composite
    cases hs : tr.shape type with
    | none => rw [hs] at hv; exact hv.elim
    | some shape =>
      cases shape with
      | primitive => rw [hs] at hv; exact hv.elim
      | struct members =>
        rw [hs] at h
        rintro rfl
        cases h
      | sequence element => trivial
      | array element => rw [hs] at hv; exact hv.elim

/-- What becomes of a leaf of a type of the user. -/
theorem keptLeaf_of_user {depth fuel : ℕ} {n d type : String} {v : Val A}
    {q : Property String (Val A)} (hs : tr.shape type = none) (hne : type ≠ "PropertyBag")
    (h : decomposeProperty tr user (decomposeBag tr user depth) (.leaf n d type v) = some [q])
    (hq : ((typeSystem tr user fuel).composeProperty q).1 = [.leaf n d type v]) :
    KeptLeaf tr user n d type v := by
  rw [decomposeProperty] at h
  simp only [decomposeType, propertyDecomposition, hs] at h
  simp only [KeptLeaf, hs]
  cases hu : user.decomposeType type v with
  | itself => trivial
  | bag type' ps =>
    rw [hu] at h
    obtain ⟨qs, -, hqs⟩ := Option.map_eq_some_iff.mp h
    obtain rfl := List.head_eq_of_cons_eq hqs
    rw [composeProperty_plain] at hq
    dsimp only at hq
    split at hq <;> cases hq
  | other built =>
    rw [hu] at h
    cases built with
    | none => cases h
    | some r =>
      obtain rfl := List.head_eq_of_cons_eq (Option.some.inj h)
      rw [TypeSystem.composeProperty] at hq
      obtain ⟨-, -, htype, hv⟩ := Property.leaf.inj (List.head_eq_of_cons_eq hq)
      exact congrArg some (Prod.ext htype hv)
  | null =>
    rw [hu] at h
    cases hm : user.members type v with
    | none => rw [hm] at h; cases h
    | some ps =>
      rw [hm] at h
      obtain rfl := List.head_eq_of_cons_eq (Option.some.inj h)
      by_cases hr : user.registered type = true
      · rw [composeProperty_typed tr user fuel hne (.inr hr)] at hq
        simp only [typeSystem, hs, Option.isSome_none, Bool.false_eq_true, if_false] at hq
        split at hq
        · next hok =>
          have hv := (Property.leaf.inj (List.head_eq_of_cons_eq hq)).2.2.2
          exact ⟨ps, rfl, hr, Prod.ext hv hok⟩
        · cases hq
      · have hknown : ¬ ((tr.shape type).isSome ∨ user.registered type) := by simp [hs, hr]
        rw [composeProperty_unknown tr user fuel hne hknown] at hq
        cases hq

/-- A leaf that is composed from its decomposition is one that its type keeps. -/
theorem keptLeaf_of_composed {depth fuel : ℕ} {n d type : String} {v : Val A}
    {q : Property String (Val A)} (hp : TypedProperty tr (.leaf n d type v))
    (h : decomposeProperty tr user (decomposeBag tr user depth) (.leaf n d type v) = some [q])
    (hq : ((typeSystem tr user fuel).composeProperty q).1 = [.leaf n d type v]) :
    KeptLeaf tr user n d type v := by
  unfold TypedProperty at hp
  cases hs : tr.shape type with
  | none => exact keptLeaf_of_user tr user hs hp.1 h hq
  | some shape =>
    by_cases hprim : shape = .primitive
    · subst hprim
      simp only [KeptLeaf, hs]
    · have hdecomposed : ∃ ps, tr.decompose type v = some ps := by
        cases hd : tr.decompose type v with
        | some ps => exact ⟨ps, rfl⟩
        | none =>
          rw [decomposeProperty] at h
          cases shape with
          | primitive => exact absurd rfl hprim
          | struct | sequence | array =>
            simp only [decomposeType, propertyDecomposition, hs, hd] at h
            cases h
      obtain ⟨ps, hps⟩ := hdecomposed
      have hc := composite_of_decompose tr (hp.2 (by rw [hs]; rfl)) hps
      cases shape with
      | primitive => exact absurd rfl hprim
      | struct | sequence | array => simpa only [KeptLeaf, hs] using hc

mutual

theorem keptProperty_of_composed (p : Property String (Val A)) (hp : TypedProperty tr p) :
    ∀ {depth fuel : ℕ} {q : Property String (Val A)},
      decomposeProperty tr user (decomposeBag tr user depth) p = some [q] →
        ((typeSystem tr user fuel).composeProperty q).1 = [p] → KeptProperty tr user p := by
  intro depth fuel q h hq
  cases p with
  | leaf n d type v =>
    unfold KeptProperty
    exact keptLeaf_of_composed tr user hp h hq
  | bag n d type ps =>
    unfold TypedProperty at hp
    rw [decomposeProperty] at h
    obtain ⟨qs, hqs, heq⟩ := Option.map_eq_some_iff.mp h
    obtain rfl := List.head_eq_of_cons_eq heq
    rw [composeProperty_plain] at hq
    dsimp only at hq
    split at hq
    · obtain ⟨-, -, rfl, hps⟩ := Property.bag.inj (List.head_eq_of_cons_eq hq)
      unfold KeptProperty
      exact ⟨rfl, kept_of_composed ps hp hqs hps⟩
    · cases hq

theorem kept_of_composed (ps : List (Property String (Val A))) (hp : Typed tr ps) :
    ∀ {depth fuel : ℕ} {qs : List (Property String (Val A))},
      decomposeBag tr user depth ps = some qs →
        ((typeSystem tr user fuel).composeList qs).1 = ps → Kept tr user ps := by
  intro depth fuel qs h hqs
  cases ps with
  | nil => unfold Kept; trivial
  | cons p ps =>
    cases depth with
    | zero => cases h
    | succ depth =>
      unfold Typed at hp
      unfold Kept
      obtain ⟨q, rest, hq, hrest, rfl⟩ := decomposeEach_cons tr user h
      have hlen := decomposeEach_length tr user hrest
      cases q with
      | nil =>
        have hcomposed := composeList_length (typeSystem tr user fuel) rest
        rw [List.nil_append] at hqs
        rw [hqs, List.length_cons] at hcomposed
        omega
      | cons q more =>
        have hone := decomposeProperty_length tr user hq
        obtain rfl : more = [] :=
          List.length_eq_zero_iff.mp (Nat.le_zero.mp (Nat.le_of_succ_le_succ hone))
        obtain ⟨hhead, htail⟩ := composeList_cons_inv (typeSystem tr user fuel) hqs hlen
        exact ⟨keptProperty_of_composed p hp.1 hq hhead,
          kept_of_composed ps hp.2
            (show decomposeBag tr user (depth + 1) ps = some rest from hrest) htail⟩

end

/-- `q` is what `p` is decomposed to, and is composed to `p`, if enough calls may be in one
another. -/
def RestoredFrom (p q : Property String (Val A)) (bound : ℕ) : Prop :=
  (∀ depth, bound ≤ depth →
    decomposeProperty tr user (decomposeBag tr user depth) p = some [q]) ∧
  ∀ fuel, bound ≤ fuel → (typeSystem tr user fuel).composeProperty q = ([p], .ok)

def AllRestoredFrom (ps qs : List (Property String (Val A))) (bound : ℕ) : Prop :=
  (∀ depth, bound ≤ depth →
    decomposeEach tr user (decomposeBag tr user depth) ps = some qs) ∧
  ∀ fuel, bound ≤ fuel → (typeSystem tr user fuel).composeList qs = (ps, .ok)

variable {tr user}

theorem AllRestoredFrom.cons {p q : Property String (Val A)}
    {ps qs : List (Property String (Val A))} {b₁ b₂ : ℕ} (h : RestoredFrom tr user p q b₁)
    (hs : AllRestoredFrom tr user ps qs b₂) :
    AllRestoredFrom tr user (p :: ps) (q :: qs) (max b₁ b₂) := by
  refine ⟨fun depth hd => ?_, fun fuel hf => ?_⟩
  · rw [decomposeEach, h.1 depth ((Nat.le_max_left _ _).trans hd),
      hs.1 depth ((Nat.le_max_right _ _).trans hd)]
    rfl
  · exact composeList_cons _ (h.2 fuel ((Nat.le_max_left _ _).trans hf))
      (hs.2 fuel ((Nat.le_max_right _ _).trans hf))

theorem AllRestoredFrom.bag {ps qs : List (Property String (Val A))} {bound : ℕ}
    (h : AllRestoredFrom tr user ps qs bound) (n d : String) :
    RestoredFrom tr user (.bag n d "PropertyBag" ps) (.bag n d "PropertyBag" qs) (bound + 1) := by
  refine ⟨fun depth hd => ?_, fun fuel hf => ?_⟩
  · obtain ⟨depth, rfl⟩ := Nat.exists_eq_add_of_le' (Nat.le_trans (Nat.le_add_left 1 bound) hd)
    rw [decomposeProperty, decomposeBag, h.1 depth (Nat.le_of_succ_le_succ hd)]
    rfl
  · rw [composeProperty_plain, h.2 fuel (Nat.le_of_succ_le hf)]
    rfl

/-- A struct or a sequence is composed from its members. -/
theorem restoredFrom_composite {n d type : String} {v : Val A} {ps : List (Property String (Val A))}
    (hv : tr.HasType type v) (hne : type ≠ "PropertyBag") {shape : Shape}
    (hs : tr.shape type = some shape) (hprim : shape ≠ .primitive)
    (hps : tr.decompose type v = some ps) :
    ∃ bound, RestoredFrom tr user (.leaf n d type v) (.bag n d type ps) bound := by
  obtain ⟨bound, hb⟩ := tr.composes_value v type hv
  refine ⟨bound, fun depth _ => ?_, fun fuel hf => ?_⟩
  · rw [decomposeProperty]
    cases shape with
    | primitive => exact absurd rfl hprim
    | struct | sequence | array =>
      simp only [decomposeType, propertyDecomposition, hs, hps]
  · have hknown : (tr.shape type).isSome = true := by rw [hs]; rfl
    have hcompose := hb fuel hf (tr.initial type) (tr.initial_type type v hv) ps hps n d
    rw [composeProperty_typed tr user fuel hne (.inl hknown)]
    simp only [typeSystem, hknown, if_true, hcompose]

theorem restoredFrom_user {n d type : String} {v : Val A} (hs : tr.shape type = none)
    (hne : type ≠ "PropertyBag") (h : KeptLeaf tr user n d type v) :
    ∃ q, RestoredFrom tr user (.leaf n d type v) q 0 := by
  simp only [KeptLeaf, hs] at h
  cases hu : user.decomposeType type v with
  | itself =>
    refine ⟨.leaf n d type v, fun depth _ => ?_, fun fuel _ => rfl⟩
    simp only [decomposeProperty, decomposeType, hs, hu]
  | bag type' ps => rw [hu] at h; exact h.elim
  | other built =>
    rw [hu] at h
    subst h
    refine ⟨.leaf n d type v, fun depth _ => ?_, fun fuel _ => rfl⟩
    simp only [decomposeProperty, decomposeType, hs, hu]
  | null =>
    rw [hu] at h
    obtain ⟨ps, hps, hr, hcompose⟩ := h
    refine ⟨.bag n d type ps, fun depth _ => ?_, fun fuel _ => ?_⟩
    · simp only [decomposeProperty, decomposeType, propertyDecomposition, hs, hu, hps]
    · rw [composeProperty_typed tr user fuel hne (.inr hr)]
      simp [typeSystem, hs, hcompose]

theorem restoredFrom_leaf {n d type : String} {v : Val A}
    (hp : TypedProperty tr (.leaf n d type v)) (h : KeptLeaf tr user n d type v) :
    ∃ q bound, RestoredFrom tr user (.leaf n d type v) q bound := by
  unfold TypedProperty at hp
  cases hs : tr.shape type with
  | none =>
    obtain ⟨q, hq⟩ := restoredFrom_user hs hp.1 h
    exact ⟨q, 0, hq⟩
  | some shape =>
    have hv := hp.2 (by rw [hs]; rfl)
    by_cases hprim : shape = .primitive
    · subst hprim
      refine ⟨.leaf n d type v, 0, fun depth _ => ?_, fun fuel _ => rfl⟩
      simp only [decomposeProperty, decomposeType, hs]
    · have hc : tr.Composite type := by
        cases shape with
        | primitive => exact absurd rfl hprim
        | struct | sequence | array => simpa only [KeptLeaf, hs] using h
      obtain ⟨ps, hps⟩ := tr.decompose_of_composite hv hc
      obtain ⟨bound, hb⟩ := restoredFrom_composite hv hp.1 hs hprim hps
      exact ⟨_, bound, hb⟩

mutual

theorem restoredFrom_property (p : Property String (Val A)) (hp : TypedProperty tr p)
    (h : KeptProperty tr user p) : ∃ q bound, RestoredFrom tr user p q bound := by
  cases p with
  | leaf n d type v =>
    unfold KeptProperty at h
    exact restoredFrom_leaf hp h
  | bag n d type ps =>
    unfold TypedProperty at hp
    unfold KeptProperty at h
    obtain ⟨rfl, hps⟩ := h
    obtain ⟨qs, bound, hqs⟩ := allRestoredFrom_list ps hp hps
    exact ⟨_, _, hqs.bag n d⟩

theorem allRestoredFrom_list (ps : List (Property String (Val A))) (hp : Typed tr ps)
    (h : Kept tr user ps) : ∃ qs bound, AllRestoredFrom tr user ps qs bound := by
  cases ps with
  | nil => exact ⟨[], 0, fun _ _ => rfl, fun _ _ => rfl⟩
  | cons p ps =>
    unfold Typed at hp
    unfold Kept at h
    obtain ⟨q, b₁, hq⟩ := restoredFrom_property p hp.1 h.1
    obtain ⟨qs, b₂, hqs⟩ := allRestoredFrom_list ps hp.2 h.2
    exact ⟨_, _, .cons hq hqs⟩

end

theorem kept_of_restored {source : PropertyBag String (Val A)} (hp : Typed tr source.properties)
    (h : Restored tr user source) : Kept tr user source.properties := by
  obtain ⟨depth, ds, hds, bound, h⟩ := h
  obtain ⟨qs, hqs, heq⟩ := Option.map_eq_some_iff.mp hds
  obtain rfl := congrArg Prod.fst heq
  have hcomposed := congrArg (fun r => r.1.properties) (h bound (Nat.le_refl bound))
  exact kept_of_composed tr user source.properties hp hqs hcomposed

/-- A bag is composed again from its decomposition if and only if all bags in it are plain ones and
the types of its properties keep them. -/
theorem restored_iff (source : PropertyBag String (Val A)) (hp : Typed tr source.properties) :
    Restored tr user source ↔ Kept tr user source.properties := by
  refine ⟨kept_of_restored hp, fun h => ?_⟩
  obtain ⟨qs, bound, hdecomposed, hcomposed⟩ := allRestoredFrom_list source.properties hp h
  refine ⟨bound + 1, ⟨"PropertyBag", qs⟩, ?_, bound, fun fuel hf => ?_⟩
  · show (decomposeBag tr user (bound + 1) source.properties).map _ = _
    rw [decomposeBag, hdecomposed bound (Nat.le_refl bound)]
    rfl
  · unfold TypeSystem.composePropertyBag
    rw [hcomposed fuel hf]

end

/-- A type with two coordinates, whose user decomposes it to a bag of the type's name, and composes
it from one. -/
def frames : UserTypes ℕ where
  registered type := type = "frame"
  decomposeType type v :=
    match type, v with
    | "frame", .parts [x, y] => .bag "frame" [.leaf "x" "" "int" x, .leaf "y" "" "int" y]
    | _, _ => .null
  members _ _ := none
  composeType type source v :=
    match type, source with
    | "frame", .bag _ _ "frame" [.leaf _ _ _ x, .leaf _ _ _ y] => (.parts [x, y], .ok)
    | _, _ => (v, .failed)

/-- A pose and, in a plain bag, a number and a sequence. -/
def poseBag : PropertyBag String (Val ℕ) :=
  ⟨"PropertyBag", [
    .leaf "pose" "where it is" "pose" (.parts [.prim 1, .parts ([2, 3].map .prim),
      .parts [.prim 4, .prim 5]]),
    .bag "limits" "" "PropertyBag" [.leaf "speed" "" "int" (.prim 6),
      .leaf "path" "" "ints" (.parts ([].map .prim))]]⟩

theorem restored_pose : Restored poses frames poseBag := by
  refine (restored_iff poseBag ?_).mpr (by
    simp [poseBag, Kept, KeptProperty, KeptLeaf, TypeTable.Composite, poses, poseTable])
  have hint : poses.HasType "int" (.prim 6) :=
    poseTable.hasType_primitive (by simp [poseTable]) 6
  have hints : poses.HasType "ints" (.parts ([].map .prim)) :=
    poseTable.hasType_sequence (by simp [poseTable]; rfl) (by unfold TypeTable.ItemsType; trivial)
  simp only [poseBag, Typed, TypedProperty]
  refine ⟨⟨by decide, fun _ => pose_hasType 1 4 5 [2, 3]⟩, ⟨⟨by decide, fun _ => hint⟩, ?_⟩, trivial⟩
  exact ⟨⟨by decide, fun _ => hints⟩, trivial⟩

/-- The user composes what he decomposes, but the frame becomes a plain bag. -/
theorem frame_not_restored :
    (∀ x y w, frames.composeType "frame" (.bag "f" "" "frame"
      [.leaf "x" "" "int" x, .leaf "y" "" "int" y]) w = (.parts [x, y], .ok)) ∧
    ¬ ∀ source : PropertyBag String (Val ℕ), Typed poses source.properties →
      Restored poses frames source := by
  refine ⟨fun _ _ _ => rfl, fun h => ?_⟩
  let frame : PropertyBag String (Val ℕ) :=
    ⟨"PropertyBag", [.leaf "f" "" "frame" (.parts [.prim 1, .prim 2])]⟩
  have hp : Typed poses frame.properties := by
    simp [frame, Typed, TypedProperty, poses, poseTable]
  have hkept := kept_of_restored hp (h frame hp)
  simp [frame, Kept, KeptProperty, KeptLeaf, poses, poseTable, frames] at hkept

end OrocosRtt.Types
