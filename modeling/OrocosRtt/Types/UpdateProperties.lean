import OrocosRtt.Marsh.Restore
import OrocosRtt.Marsh.Update
import OrocosRtt.Types.PropertyComposition

/-! Compositions of the types of the table can be repeated, and with them updates of bags. -/
namespace OrocosRtt.Types
open Marsh

variable {A : Type}

section
variable (ts : TypeTable.System A)

theorem refreshProperty_leaf (n d t : String) (v : Val A) (source : Property String (Val A)) :
    ts.refreshProperty (.leaf n d t v) source =
      (.leaf n d t (ts.assign t v source).1, (ts.assign t v source).2) := by
  rw [TypeSystem.refreshProperty]

theorem refreshProperty_bag {type type' : String} (h : ts.differ type type' = false)
    (n d n' d' : String) (ps qs : List (Property String (Val A))) :
    ts.refreshProperty (.bag n d type ps) (.bag n' d' type' qs) =
      (.bag n d type (ts.refreshList false qs 0 ps).1, (ts.refreshList false qs 0 ps).2) := by
  rw [TypeSystem.refreshProperty, if_neg (by simp [h])]

theorem refreshList_none {allprops : Bool} {source : List (Property String (Val A))} {i : ℕ}
    {p : Property String (Val A)} (h : sourceOf source i p.name = none)
    (ps : List (Property String (Val A))) :
    ts.refreshList allprops source i (p :: ps) =
      (p :: (ts.refreshList allprops source (i + 1) ps).1,
        if allprops ∧ (ts.refreshList allprops source (i + 1) ps).2 = .ok then .failed
        else (ts.refreshList allprops source (i + 1) ps).2) := by
  rw [TypeSystem.refreshList]
  simp only [h]

theorem refreshList_some {allprops : Bool} {source : List (Property String (Val A))} {i : ℕ}
    {p q : Property String (Val A)} (h : sourceOf source i p.name = some q)
    (ps : List (Property String (Val A))) :
    ts.refreshList allprops source i (p :: ps) =
      if (ts.refreshProperty p q).2 = .ok then
        ((ts.refreshProperty p q).1 :: (ts.refreshList allprops source (i + 1) ps).1,
          (ts.refreshList allprops source (i + 1) ps).2)
      else ((ts.refreshProperty p q).1 :: ps, (ts.refreshProperty p q).2) := by
  rw [TypeSystem.refreshList]
  simp only [h]

theorem refreshProperty_name (p source : Property String (Val A)) :
    (ts.refreshProperty p source).1.name = p.name := by
  have hsame : outline (ts.refreshProperty p source).1 = outline p := outline_refresh p source
  have h := congrArg Property.name hsame
  rwa [outline_name, outline_name] at h

variable {ts}

mutual

theorem refreshProperty_again (hc : ts.Recomposes) (p source : Property String (Val A))
    (h : (ts.refreshProperty p source).2 = .ok) :
    ts.refreshProperty (ts.refreshProperty p source).1 source =
      ((ts.refreshProperty p source).1, .ok) := by
  cases p with
  | leaf n d t v =>
    rw [refreshProperty_leaf] at h ⊢
    rw [refreshProperty_leaf, TypeSystem.assign_again hc h]
  | bag n d type ps =>
    cases source with
    | leaf n' d' t' v' =>
      rw [TypeSystem.refreshProperty] at h
      cases h
    | bag n' d' type' qs =>
      by_cases hd : ts.differ type type' = true
      · rw [TypeSystem.refreshProperty, if_pos hd] at h
        cases h
      · have hsame : ts.differ type type' = false := by simpa using hd
        rw [refreshProperty_bag ts hsame] at h ⊢
        rw [refreshProperty_bag ts hsame, refreshList_again hc false qs 0 ps h]

theorem refreshList_again (hc : ts.Recomposes) (allprops : Bool)
    (source : List (Property String (Val A))) (i : ℕ) (ps : List (Property String (Val A)))
    (h : (ts.refreshList allprops source i ps).2 = .ok) :
    ts.refreshList allprops source i (ts.refreshList allprops source i ps).1 =
      ((ts.refreshList allprops source i ps).1, .ok) := by
  cases ps with
  | nil => rfl
  | cons p ps =>
    cases hs : sourceOf source i p.name with
    | none =>
      rw [refreshList_none ts hs] at h ⊢
      by_cases hall : allprops ∧ (ts.refreshList allprops source (i + 1) ps).2 = .ok
      · rw [if_pos hall] at h
        cases h
      · rw [if_neg hall] at h
        have hrest := refreshList_again hc allprops source (i + 1) ps h
        have hno : ¬ (allprops = true ∧ Outcome.ok = .ok) := fun hyes => hall ⟨hyes.1, h⟩
        dsimp only
        rw [refreshList_none ts hs, hrest]
        dsimp only
        rw [if_neg hno]
    | some q =>
      rw [refreshList_some ts hs] at h ⊢
      by_cases hok : (ts.refreshProperty p q).2 = .ok
      · rw [if_pos hok] at h ⊢
        have hrest := refreshList_again hc allprops source (i + 1) ps h
        have hfirst := refreshProperty_again hc p q hok
        have hs' : sourceOf source i (ts.refreshProperty p q).1.name = some q := by
          rw [refreshProperty_name, hs]
        dsimp only
        rw [refreshList_some ts hs', hfirst, hrest, if_pos rfl]
      · rw [if_neg hok] at h
        exact absurd h hok

end

end

theorem outlines_cons {p : Property String (Val A)} {ps : List (Property String (Val A))}
    {xs : List (Property String (Val A))} (h : outlines xs = outlines (p :: ps)) :
    ∃ x rest, xs = x :: rest ∧ outline x = outline p ∧ outlines rest = outlines ps := by
  cases xs with
  | nil => simp [outlines] at h
  | cons x rest =>
    simp only [outlines, List.cons.injEq] at h
    exact ⟨x, rest, rfl, h.1, h.2⟩

theorem outline_leaf {x : Property String (Val A)} {n d t : String} {v : Val A}
    (h : outline x = outline (.leaf n d t v)) : x = .leaf n d t (TypeTable.value x) := by
  cases x with
  | leaf m e s w =>
    simp only [outline, Property.leaf.injEq] at h
    obtain ⟨rfl, rfl, rfl, -⟩ := h
    rfl
  | bag m e s qs => simp [outline] at h

/-- What has the outline of the parts of a struct is the parts of one. -/
theorem parts_of_outlines (members : List Member) (vs : List (Val A))
    (xs : List (Property String (Val A))) (h : outlines xs = outlines (TypeTable.parts members vs)) :
    TypeTable.parts members (xs.map TypeTable.value) = xs := by
  induction members generalizing vs xs with
  | nil =>
    cases xs with
    | nil => rfl
    | cons x xs => simp [outlines, TypeTable.parts] at h
  | cons m members ih =>
    cases vs with
    | nil =>
      cases xs with
      | nil => rfl
      | cons x xs => simp [outlines, TypeTable.parts] at h
    | cons v vs =>
      obtain ⟨x, rest, rfl, hx, hrest⟩ := outlines_cons h
      have hsame := ih vs rest hrest
      have hleaf := outline_leaf hx
      calc TypeTable.parts (m :: members) ((x :: rest).map TypeTable.value)
          = .leaf m.name "Part" m.type (TypeTable.value x) ::
              TypeTable.parts members (rest.map TypeTable.value) := rfl
        _ = x :: rest := by rw [hsame, ← hleaf]

theorem items_of_outlines (element : String) (i : ℕ) (vs : List (Val A))
    (xs : List (Property String (Val A)))
    (h : outlines xs = outlines (TypeTable.items element i vs)) :
    TypeTable.items element i (xs.map TypeTable.value) = xs ∧ xs.length = vs.length := by
  induction vs generalizing i xs with
  | nil =>
    cases xs with
    | nil => exact ⟨rfl, rfl⟩
    | cons x xs => simp [outlines, TypeTable.items] at h
  | cons v vs ih =>
    obtain ⟨x, rest, rfl, hx, hrest⟩ := outlines_cons h
    obtain ⟨hsame, hlen⟩ := ih (i + 1) rest hrest
    have hleaf := outline_leaf hx
    refine ⟨?_, congrArg (· + 1) hlen⟩
    calc TypeTable.items element i ((x :: rest).map TypeTable.value)
        = .leaf (TypeTable.elementName i) "Sequence Element" element (TypeTable.value x) ::
            TypeTable.items element (i + 1) (rest.map TypeTable.value) := rfl
      _ = x :: rest := by rw [hsame, ← hleaf]

section
variable (tt : TypeTable A) {ts : TypeTable.System A}

theorem differ_of_type {type sourceType : String} (h : ts.type type = ts.type sourceType) :
    ts.differ type sourceType = false := by
  rw [TypeSystem.differ, h]
  simp

/-- A composition of a struct, once the types agree, is a refresh of its parts. -/
theorem refreshProperties_eq {type sourceType : String} (h : ts.type type = ts.type sourceType)
    (ps qs : List (Property String (Val A))) (allprops : Bool) :
    ts.refreshProperties ⟨type, ps⟩ ⟨sourceType, qs⟩ allprops =
      (⟨type, (ts.refreshList allprops qs 0 ps).1⟩, (ts.refreshList allprops qs 0 ps).2) := by
  rw [TypeSystem.refreshProperties, differ_of_type h, if_neg (by simp)]

/-- The items of a container are composed again, and their number is the same. -/
theorem composeItems_again (hc : ts.Recomposes) {type element sourceType : String}
    {source : List (Property String (Val A))} {vs : List (Val A)}
    (h : (TypeTable.composeItems ts type element sourceType source vs).2 = .ok) :
    ∃ ws, (TypeTable.composeItems ts type element sourceType source vs).1 = .parts ws ∧
      ws.length = vs.length ∧
        TypeTable.composeItems ts type element sourceType source ws = (.parts ws, .ok) := by
  by_cases hitems : (ts.composeList source).2 ≠ .ok
  · rw [TypeTable.composeItems, if_pos hitems] at h
    exact absurd h hitems
  by_cases htypes : ts.type type ≠ ts.type sourceType
  · rw [TypeTable.composeItems, if_neg hitems, if_pos htypes] at h
    cases h
  have heq : ∀ ws, TypeTable.composeItems ts type element sourceType source ws =
      (.parts ((ts.refreshList true (ts.composeList source).1 0
        (TypeTable.items element 0 ws)).1.map TypeTable.value),
        (ts.refreshList true (ts.composeList source).1 0 (TypeTable.items element 0 ws)).2) := by
    intro ws
    rw [TypeTable.composeItems, if_neg hitems, if_neg htypes,
      refreshProperties_eq (not_not.mp htypes)]
  rw [heq] at h ⊢
  have hout : outlines (ts.refreshList true (ts.composeList source).1 0
      (TypeTable.items element 0 vs)).1 = outlines (TypeTable.items element 0 vs) :=
    outlines_refresh true _ 0 _
  obtain ⟨hsame, hlen⟩ := items_of_outlines element 0 vs _ hout
  refine ⟨_, rfl, by rw [List.length_map, hlen], ?_⟩
  rw [heq, hsame, refreshList_again hc true _ 0 _ h]

theorem resize_same (element : String) (vs : List (Val A)) :
    tt.resize element vs.length vs = vs := by
  simp [TypeTable.resize]

/-- A sequence that has its size from the bag keeps it. -/
theorem sizeOf_again (source : List (Property String (Val A))) (old : ℕ) :
    tt.sizeOf source (tt.sizeOf source old).toNat = tt.sizeOf source old := by
  unfold TypeTable.sizeOf
  cases (find "Size" source).or (find "size" source) with
  | none => rfl
  | some sz =>
    dsimp only
    cases hint : tt.intValue sz with
    | none => rw [Option.getD_none, Option.getD_none, Int.toNat_natCast]
    | some n => rw [Option.getD_some, Option.getD_some]

theorem composeType_again (hc : ts.Recomposes) (type : String)
    (source : Property String (Val A)) (v : Val A)
    (h : (tt.composeType ts type source v).2 = .ok) :
    tt.composeType ts type source (tt.composeType ts type source v).1 =
      ((tt.composeType ts type source v).1, .ok) := by
  cases source with
  | leaf n d t w => cases h
  | bag n d sourceType ps =>
    cases v with
    | prim a => cases h
    | parts vs =>
      unfold TypeTable.composeType at h ⊢
      cases hs : tt.shape type with
      | none =>
        simp only [hs] at h
        cases h
      | some shape =>
        cases shape with
        | primitive =>
          simp only [hs] at h
          cases h
        | struct members =>
          simp only [hs] at h ⊢
          by_cases hm : members.isEmpty = true
          · rw [if_pos hm] at h
            cases h
          by_cases htypes : ts.type type ≠ ts.type sourceType
          · rw [if_neg hm, if_pos htypes] at h
            cases h
          simp only [if_neg hm, if_neg htypes, refreshProperties_eq (not_not.mp htypes)] at h ⊢
          have hout : outlines (ts.refreshList false ps 0 (TypeTable.parts members vs)).1 =
              outlines (TypeTable.parts members vs) := outlines_refresh false ps 0 _
          rw [parts_of_outlines members vs _ hout, refreshList_again hc false ps 0 _ h]
        | sequence element =>
          simp only [hs] at h ⊢
          by_cases hneg : tt.sizeOf ps vs.length < 0
          · rw [if_pos hneg] at h
            cases h
          simp only [if_neg hneg] at h ⊢
          obtain ⟨ws, hws, hlen, hagain⟩ := composeItems_again hc h
          rw [TypeTable.resize_length] at hlen
          have hsize := sizeOf_again tt ps vs.length
          rw [← hlen] at hsize
          rw [hws]
          dsimp only
          rw [hsize, if_neg hneg, ← hlen, resize_same, hagain]
        | array element =>
          simp only [hs] at h ⊢
          by_cases hlen : vs.length ≠ ps.length
          · rw [if_pos hlen] at h
            cases h
          simp only [if_neg hlen] at h ⊢
          obtain ⟨ws, hws, hwlen, hagain⟩ := composeItems_again hc h
          rw [hws]
          dsimp only
          rw [hwlen, if_neg hlen, hagain]

/-- A composition of a type of the table can be repeated. -/
theorem system_recomposes (fuel : ℕ) : (tt.system fuel).Recomposes := by
  induction fuel with
  | zero =>
    intro type source v h
    cases h
  | succ fuel ih => exact fun type source v => composeType_again tt ih type source v

end

section
variable (tr : TypeRepository A) (user : UserTypes A)

theorem typeSystem_recomposes (fuel : ℕ)
    (huser : ∀ type source v, (user.composeType type source v).2 = .ok →
      user.composeType type source (user.composeType type source v).1 =
        ((user.composeType type source v).1, .ok)) :
    (typeSystem tr user fuel).Recomposes := by
  intro type source v h
  by_cases hs : (tr.shape type).isSome = true
  · simp only [typeSystem, if_pos hs] at h ⊢
    exact system_recomposes tr.toTypeTable fuel type source v h
  · simp only [typeSystem, if_neg hs] at h ⊢
    exact huser type source v h

/-- After an update that succeeded, the target has the source in it, with the values of the source
where the types are the same and what they were converted or composed to elsewhere; the rest of the
target is as it was, and a second update changes nothing. -/
theorem updateProperties_carries (fuel : ℕ)
    (huser : ∀ type source v, (user.composeType type source v).2 = .ok →
      user.composeType type source (user.composeType type source v).1 =
        ((user.composeType type source v).1, .ok))
    (target source : PropertyBag String (Val A))
    (h : ((typeSystem tr user fuel).updateProperties target source).2 = .ok) :
    (typeSystem tr user fuel).Follows source.properties target.properties
        ((typeSystem tr user fuel).updateProperties target source).1.properties ∧
      ((typeSystem tr user fuel).updateProperties target source).1.type = source.type ∧
        (typeSystem tr user fuel).updateProperties
            ((typeSystem tr user fuel).updateProperties target source).1 source =
          (((typeSystem tr user fuel).updateProperties target source).1, .ok) := by
  have hc := typeSystem_recomposes tr user fuel huser
  exact ⟨TypeSystem.updateProperties_follows hc h, TypeSystem.updateWith_type _ h,
    TypeSystem.updateProperties_again hc h⟩

end

/-- Whoever composes frames does not look at the frame there was. -/
theorem frames_again (type : String) (source : Property String (Val ℕ)) (v : Val ℕ)
    (h : (frames.composeType type source v).2 = .ok) :
    frames.composeType type source (frames.composeType type source v).1 =
      ((frames.composeType type source v).1, .ok) := by
  unfold frames at h ⊢
  dsimp only at h ⊢
  split at h
  · rfl
  · cases h

/-- A pose at the origin, and a number. -/
def origin : PropertyBag String (Val ℕ) :=
  ⟨"PropertyBag", [.leaf "p" "" "pose" (.parts [.prim 0, .parts [], .parts [.prim 0, .prim 0]]),
    .leaf "n" "" "int" (.prim 1)]⟩

/-- The number of a pose. -/
def renumbered : PropertyBag String (Val ℕ) :=
  ⟨"PropertyBag", [.bag "p" "" "pose" [.leaf "id" "" "int" (.prim 7)]]⟩

theorem renumbered_origin : (typeSystem poses frames 1).updateProperties origin renumbered =
    (⟨"PropertyBag", [.leaf "p" "" "pose" (.parts [.prim 7, .parts [], .parts [.prim 0, .prim 0]]),
      .leaf "n" "" "int" (.prim 1)]⟩, .ok) := by
  rfl

theorem updateProperties_carries_number :
    ((typeSystem poses frames 1).updateProperties origin renumbered).2 = .ok ∧
      (typeSystem poses frames 1).Follows renumbered.properties origin.properties
        ((typeSystem poses frames 1).updateProperties origin renumbered).1.properties := by
  have hok : ((typeSystem poses frames 1).updateProperties origin renumbered).2 = .ok := by
    rw [renumbered_origin]
  exact ⟨hok, (updateProperties_carries poses frames 1 frames_again origin renumbered hok).1⟩

/-- The number is in the pose then, and no longer a property. -/
theorem number_no_property :
    ((typeSystem poses frames 1).updateProperties origin renumbered).2 = .ok ∧
      TypeSystem.atPath [("p", 0), ("id", 0)] renumbered.properties = some (.leaf "id" "" "int" (.prim 7)) ∧
      TypeSystem.atPath [("p", 0), ("id", 0)]
        ((typeSystem poses frames 1).updateProperties origin renumbered).1.properties = none := by
  rw [renumbered_origin]
  exact ⟨rfl, rfl, rfl⟩

end OrocosRtt.Types
