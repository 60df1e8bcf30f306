import OrocosRtt.Types.Decomposition
import Mathlib

/-! Composing the decomposition of a value gives the value back, whatever was there before. -/
namespace OrocosRtt.Types
open Marsh

variable {A : Type}

theorem elementName_injective : Function.Injective TypeTable.elementName := by
  intro i j h
  exact Nat.repr_injective ((String.append_right_inj "Element").mp h)

theorem elementName_length (i : ℕ) : 7 ≤ (TypeTable.elementName i).length := by
  unfold TypeTable.elementName
  rw [String.length_append]
  exact Nat.le_add_right 7 _

theorem find_of_nodup {name : String} {p : Property String (Val A)}
    {ps : List (Property String (Val A))} (hnodup : (ps.map Property.name).Nodup) (hp : p ∈ ps)
    (hname : p.name = name) : find name ps = some p := by
  induction ps with
  | nil => cases hp
  | cons q ps ih =>
    obtain ⟨hq, hps⟩ := List.nodup_cons.mp hnodup
    unfold find
    rcases List.mem_cons.mp hp with rfl | hmem
    · rw [List.find?_cons_of_pos (by simpa using hname)]
    · have hne : q.name ≠ name := by
        intro he
        exact hq (he.trans hname.symm ▸ List.mem_map_of_mem hmem)
      rw [List.find?_cons_of_neg (by simpa using hne)]
      exact ih hps hmem

namespace TypeTable

variable (tt : TypeTable A)

theorem decomposeParts_names : ∀ (vs : List (Val A)) (members : List Member),
    tt.MembersType members vs →
      (tt.decomposeParts members vs).map Property.name = members.map Member.name := by
  intro vs
  induction vs with
  | nil =>
    intro members h
    unfold MembersType at h
    rw [h, decomposeParts]
    rfl
  | cons v vs ih =>
    intro members h
    cases members with
    | nil => exact absurd h (by simp [MembersType])
    | cons m members =>
      unfold MembersType at h
      rw [decomposeParts, List.map_cons, List.map_cons, ih members h.2]
      cases tt.decompose m.type v with
      | none => rfl
      | some ps => rfl

theorem decomposeItems_names (element : String) : ∀ (vs : List (Val A)) (i : ℕ),
    (tt.decomposeItems element i vs).map Property.name =
      (List.range' i vs.length).map elementName := by
  intro vs
  induction vs with
  | nil => intro i; rw [decomposeItems]; rfl
  | cons v vs ih =>
    intro i
    rw [decomposeItems, List.map_cons, ih, List.length_cons, List.range'_succ, List.map_cons]
    cases tt.decompose element v with
    | none => rfl
    | some ps => rfl

theorem decomposeItems_length (element : String) (vs : List (Val A)) (i : ℕ) :
    (tt.decomposeItems element i vs).length = vs.length := by
  have h := congrArg List.length (tt.decomposeItems_names element vs i)
  simpa using h

/-- The items of a container, composed by themselves. -/
def composedItems (element : String) (i : ℕ) : List (Val A) → List (Property String (Val A))
  | [] => []
  | v :: vs =>
    .leaf (elementName i) (if (tt.decompose element v).isNone then "Sequence Element" else "Item")
      element v :: composedItems element (i + 1) vs

theorem composedItems_names (element : String) : ∀ (vs : List (Val A)) (i : ℕ),
    (tt.composedItems element i vs).map Property.name =
      (List.range' i vs.length).map elementName := by
  intro vs
  induction vs with
  | nil => intro i; rfl
  | cons v vs ih =>
    intro i
    rw [composedItems, List.map_cons, ih, List.length_cons, List.range'_succ, List.map_cons]
    rfl

/-- The properties of a decomposed container have names of their own. -/
theorem elementNames_nodup (i n : ℕ) : ((List.range' i n).map elementName).Nodup :=
  List.Nodup.map elementName_injective List.nodup_range'

theorem items_value (element : String) (vs : List (Val A)) (i : ℕ) :
    (items element i vs).map value = vs := by
  induction vs generalizing i with
  | nil => rfl
  | cons v vs ih => rw [items, List.map_cons, ih]; rfl

theorem parts_value : ∀ (vs : List (Val A)) (members : List Member), tt.MembersType members vs →
    (parts members vs).map value = vs := by
  intro vs
  induction vs with
  | nil => intro members _; cases members <;> rfl
  | cons v vs ih =>
    intro members h
    cases members with
    | nil => exact absurd h (by simp [MembersType])
    | cons m members =>
      unfold MembersType at h
      show v :: (parts members vs).map value = v :: vs
      rw [ih members h.2]

theorem resize_length (element : String) (n : ℕ) (vs : List (Val A)) :
    (tt.resize element n vs).length = n := by
  rw [TypeTable.resize, List.length_append, List.length_take, List.length_replicate]
  omega

theorem system_type (fuel : ℕ) : (tt.system fuel).type = tt.typeInfo := by
  cases fuel with
  | zero => rfl
  | succ fuel => rfl

theorem system_bagInfo (fuel : ℕ) : (tt.system fuel).bagInfo = none := by
  cases fuel with
  | zero => rfl
  | succ fuel => rfl

theorem system_leafType (fuel : ℕ) (type : String) :
    (tt.system fuel).leafType (some type) = type := by
  cases fuel with
  | zero => rfl
  | succ fuel => rfl

theorem system_initial (fuel : ℕ) : (tt.system fuel).initial = tt.initial := by
  cases fuel with
  | zero => rfl
  | succ fuel => rfl

theorem system_convert (fuel : ℕ) : (tt.system fuel).convert = tt.convert := by
  cases fuel with
  | zero => rfl
  | succ fuel => rfl

theorem system_composeType (fuel : ℕ) :
    (tt.system (fuel + 1)).composeType = tt.composeType (tt.system fuel) := rfl

theorem hasType_primitive {type : String} (hs : tt.shape type = some .primitive) (a : A) :
    tt.HasType type (.prim a) := by
  unfold HasType
  rw [hs]
  trivial

theorem hasType_struct {type : String} {members : List Member}
    (hs : tt.shape type = some (.struct members)) {vs : List (Val A)}
    (h : tt.MembersType members vs) : tt.HasType type (.parts vs) := by
  unfold HasType
  rw [hs]
  exact h

theorem hasType_sequence {type element : String} (hs : tt.shape type = some (.sequence element))
    {vs : List (Val A)} (h : tt.ItemsType element vs) : tt.HasType type (.parts vs) := by
  unfold HasType
  rw [hs]
  exact h

theorem membersType_cons {m : Member} {members : List Member}
    (hs : ∀ element, tt.shape m.type ≠ some (.array element)) {v : Val A} {vs : List (Val A)}
    (hv : tt.HasType m.type v) (hvs : tt.MembersType members vs) :
    tt.MembersType (m :: members) (v :: vs) := by
  unfold MembersType
  refine ⟨?_, hvs⟩
  split
  · next element he => exact absurd he (hs element)
  · exact hv

theorem membersType_cons_array {m : Member} {members : List Member} {element : String}
    (hs : tt.shape m.type = some (.array element)) {items vs : List (Val A)}
    (hsize : items.length = m.size) (hitems : tt.ItemsType element items)
    (hvs : tt.MembersType members vs) : tt.MembersType (m :: members) (.parts items :: vs) := by
  unfold MembersType
  refine ⟨?_, hvs⟩
  split
  · next element' he =>
    obtain rfl : element' = element := by
      rw [hs] at he
      exact (Shape.array.inj (Option.some.inj he)).symm
    exact ⟨hsize, hitems⟩
  · next hno => exact absurd hs (hno element)

theorem membersType_array {m : Member} {members : List Member} {element : String}
    (hs : tt.shape m.type = some (.array element)) {v : Val A} {vs : List (Val A)}
    (h : tt.MembersType (m :: members) (v :: vs)) :
    ∃ items, v = .parts items ∧ items.length = m.size ∧ tt.ItemsType element items := by
  unfold MembersType at h
  have hm := h.1
  split at hm
  · next element' hs' =>
    obtain rfl : element' = element := by
      rw [hs] at hs'
      exact (Shape.array.inj (Option.some.inj hs')).symm
    cases v with
    | prim a => exact hm.elim
    | parts items => exact ⟨items, rfl, hm⟩
  · next hno => exact absurd hs (hno element)

theorem membersType_plain {m : Member} {members : List Member}
    (hs : ∀ element, tt.shape m.type ≠ some (.array element)) {v : Val A} {vs : List (Val A)}
    (h : tt.MembersType (m :: members) (v :: vs)) : tt.HasType m.type v := by
  unfold MembersType at h
  have hm := h.1
  split at hm
  · next element he => exact absurd he (hs element)
  · exact hm

/-- A leaf takes over the value of a leaf of its type. -/
theorem refresh_leaf (ts : System A) (n d n' d' type : String) (v w : Val A) :
    ts.refreshProperty (.leaf n d type w) (.leaf n' d' type v) = (.leaf n d type v, .ok) := by
  simp [TypeSystem.refreshProperty, TypeSystem.assign]

/-- Each target property takes its value from the source property of its name. -/
theorem refreshItems_eq (ts : System A) (element : String) (source : List (Property String (Val A))) :
    ∀ (vs ws : List (Val A)) (i j : ℕ), ws.length = vs.length →
      (∀ p ∈ tt.composedItems element i vs, find p.name source = some p) →
        ts.refreshList true source j (items element i ws) = (items element i vs, .ok) := by
  intro vs
  induction vs with
  | nil =>
    intro ws i j hlen _
    obtain rfl := List.length_eq_zero_iff.mp hlen
    rfl
  | cons v vs ih =>
    intro ws i j hlen hfind
    cases ws with
    | nil => cases hlen
    | cons w ws =>
      have hne : elementName i ≠ "" := by
        intro he
        have hl := elementName_length i
        rw [he] at hl
        exact absurd hl (by decide)
      have hhead := hfind _ List.mem_cons_self
      have htail := ih ws (i + 1) (j + 1) (Nat.succ.inj hlen) fun p hp =>
        hfind p (List.mem_cons_of_mem _ hp)
      simp only [Property.name] at hhead
      rw [items, items, TypeSystem.refreshList]
      simp only [Property.name, sourceOf, if_neg hne, hhead, htail, refresh_leaf]
      rfl

end TypeTable

namespace TypeRepository

variable (tr : TypeRepository A)

theorem typeInfo_of_shape {type : String} {s : Shape} (h : tr.shape type = some s) :
    tr.typeInfo type = some (some type) := by
  have hne : type ≠ "PropertyBag" := by
    rintro rfl
    rw [tr.plain] at h
    cases h
  simp [TypeTable.typeInfo, hne, h]

theorem differ_self (fuel : ℕ) (type : String) : (tr.system fuel).differ type type = false := by
  simp [TypeSystem.differ]

theorem refresh_bag (fuel : ℕ) {n d n' d' type : String} {qs : List (Property String (Val A))}
    {v w : Val A}
    (h : (tr.system fuel).composeType type (.bag n' d' type qs) w = (v, .ok)) :
    (tr.system fuel).refreshProperty (.leaf n d type w) (.bag n' d' type qs) =
      (.leaf n d type v, .ok) := by
  have hconv : (tr.system fuel).convert type (.bag n' d' type qs) = .none := by
    rw [TypeTable.system_convert]
    exact tr.convert_bag type n' d' type qs
  simp [TypeSystem.refreshProperty, TypeSystem.assign, hconv, h]

/-- A container gets its items back, once they are composed by themselves. -/
theorem composeItems_eq (fuel : ℕ) {type element : String} {vs ws : List (Val A)} (hlen : ws.length = vs.length)
    (hc : (tr.system fuel).composeList (tr.decomposeItems element 0 vs) =
      (tr.composedItems element 0 vs, .ok)) :
    TypeTable.composeItems (tr.system fuel) type element type (tr.decomposeItems element 0 vs) ws =
      (.parts vs, .ok) := by
  have hfind : ∀ p ∈ tr.composedItems element 0 vs,
      find p.name (tr.composedItems element 0 vs) = some p := by
    intro p hp
    refine find_of_nodup ?_ hp rfl
    rw [TypeTable.composedItems_names]
    exact TypeTable.elementNames_nodup 0 _
  have hrefresh := tr.refreshItems_eq (tr.system fuel) element _ vs ws 0 0 hlen hfind
  simp [TypeTable.composeItems, hc, TypeSystem.refreshProperties, differ_self, hrefresh,
    TypeTable.items_value]

/-- No item is named `Size` or `size`, so the number of items counts. -/
theorem sizeOf_items (element : String) (vs : List (Val A)) (old : ℕ) :
    tr.sizeOf (tr.decomposeItems element 0 vs) old = vs.length := by
  have hnot : ∀ name : String, name.length < 7 →
      find name (tr.decomposeItems element 0 vs) = none := by
    intro name hshort
    refine List.find?_eq_none.mpr fun p hp he => ?_
    have hmem : p.name ∈ (tr.decomposeItems element 0 vs).map Property.name :=
      List.mem_map_of_mem hp
    rw [TypeTable.decomposeItems_names] at hmem
    obtain ⟨i, -, hi⟩ := List.mem_map.mp hmem
    have hlen := elementName_length i
    rw [hi, of_decide_eq_true he] at hlen
    omega
  rw [TypeTable.sizeOf, hnot "Size" (by decide), hnot "size" (by decide)]
  exact congrArg Nat.cast (tr.decomposeItems_length element vs 0)

/-- Composing the decomposition of this value, over any other value of its type, gives it back. -/
def Composes (type : String) (v : Val A) (fuel : ℕ) : Prop :=
  ∀ w, tr.HasType type w → ∀ qs, tr.decompose type v = some qs → ∀ name description,
    (tr.system fuel).composeType type (.bag name description type qs) w = (v, .ok)

/-- The members get the values of `vs`, from a bag with all properties of their decomposition. -/
def RefreshesParts (members : List Member) (vs : List (Val A)) (fuel : ℕ) : Prop :=
  ∀ ws source i, tr.MembersType members ws → "" ∉ members.map Member.name →
    (∀ p ∈ tr.decomposeParts members vs, find p.name source = some p) →
      (tr.system fuel).refreshList false source i (TypeTable.parts members ws) =
        (TypeTable.parts members vs, .ok)

/-- The decomposed items can be composed by themselves. -/
def ComposesItems (element : String) (vs : List (Val A)) (fuel : ℕ) : Prop :=
  ∀ i, (tr.system fuel).composeList (tr.decomposeItems element i vs) =
    (tr.composedItems element i vs, .ok)

theorem shape_of_decompose {type : String} {v : Val A} {qs : List (Property String (Val A))}
    (h : tr.decompose type v = some qs) : ∃ s, tr.shape type = some s := by
  cases v with
  | prim a => rw [TypeTable.decompose] at h; cases h
  | parts vs =>
    cases hs : tr.shape type with
    | none => rw [TypeTable.decompose, hs] at h; cases h
    | some s => exact ⟨s, rfl⟩

theorem composes_struct {type : String} {members : List Member}
    (hs : tr.shape type = some (.struct members)) {vs : List (Val A)}
    (hvs : tr.MembersType members vs) {fuel : ℕ} (h : tr.RefreshesParts members vs fuel) :
    tr.Composes type (.parts vs) (fuel + 1) := by
  intro w hw qs hqs name description
  obtain ⟨hnodup, hempty⟩ := tr.nodup type members hs
  rw [TypeTable.decompose, hs] at hqs
  cases hm : members.isEmpty with
  | true => simp [hm] at hqs
  | false =>
    obtain rfl : tr.decomposeParts members vs = qs := by simpa [hm] using hqs
    cases w with
    | prim a => exact absurd hw (by simp [TypeTable.HasType, hs])
    | parts ws =>
      have hws : tr.MembersType members ws := by simpa [TypeTable.HasType, hs] using hw
      have hfind : ∀ p ∈ tr.decomposeParts members vs,
          find p.name (tr.decomposeParts members vs) = some p := by
        intro p hp
        refine find_of_nodup ?_ hp rfl
        rwa [TypeTable.decomposeParts_names _ _ _ hvs]
      have hrefresh := h ws _ 0 hws hempty hfind
      rw [TypeTable.system_composeType]
      simp [TypeTable.composeType, hs, hm, TypeSystem.refreshProperties, differ_self, hrefresh,
        tr.parts_value _ _ hvs]

theorem composes_sequence {type element : String} (hs : tr.shape type = some (.sequence element))
    {vs : List (Val A)} {fuel : ℕ} (h : tr.ComposesItems element vs fuel) :
    tr.Composes type (.parts vs) (fuel + 1) := by
  intro w hw qs hqs name description
  obtain rfl : tr.decomposeItems element 0 vs = qs := by
    simpa [TypeTable.decompose, hs] using hqs
  cases w with
  | prim a => exact absurd hw (by simp [TypeTable.HasType, hs])
  | parts ws =>
    have hsize := tr.sizeOf_items element vs ws.length
    have hlen : (tr.resize element vs.length ws).length = vs.length := tr.resize_length element _ ws
    rw [TypeTable.system_composeType]
    simp only [TypeTable.composeType, hs, hsize, Int.toNat_natCast]
    rw [if_neg (by omega)]
    exact tr.composeItems_eq fuel hlen (h 0)

/-- A member that is an array keeps its size. -/
theorem composes_array {type element : String} (hs : tr.shape type = some (.array element))
    {vs ws : List (Val A)} (hlen : ws.length = vs.length) {fuel : ℕ}
    (h : tr.ComposesItems element vs fuel) (name description : String) :
    (tr.system (fuel + 1)).composeType type
      (.bag name description type (tr.decomposeItems element 0 vs)) (.parts ws) =
        (.parts vs, .ok) := by
  have hsize : ¬ ws.length ≠ (tr.decomposeItems element 0 vs).length := by
    rw [TypeTable.decomposeItems_length, not_not, hlen]
  rw [TypeTable.system_composeType]
  simp only [TypeTable.composeType, hs, if_neg hsize]
  exact tr.composeItems_eq fuel hlen (h 0)

/-- The property of a decomposed member. -/
def part (m : Member) (v : Val A) : Property String (Val A) :=
  match tr.decompose m.type v with
  | none => .leaf m.name "Part" m.type v
  | some ps => .bag m.name "Part" m.type ps

/-- A member gets its value from its own property. -/
def RefreshesMember (m : Member) (members : List Member) (v : Val A) (fuel : ℕ) : Prop :=
  ∀ w ws, tr.MembersType (m :: members) (w :: ws) →
    (tr.system fuel).refreshProperty (.leaf m.name "Part" m.type w) (tr.part m v) =
      (.leaf m.name "Part" m.type v, .ok)

theorem refreshes_plain {m : Member} {members : List Member}
    (hs : ∀ element, tr.shape m.type ≠ some (.array element)) {v : Val A} {fuel : ℕ}
    (h : tr.Composes m.type v fuel) : tr.RefreshesMember m members v fuel := by
  intro w ws hw
  unfold part
  cases hq : tr.decompose m.type v with
  | none => exact TypeTable.refresh_leaf _ _ _ _ _ _ _ _
  | some qs => exact tr.refresh_bag fuel (h w (tr.membersType_plain hs hw) qs hq _ _)

theorem refreshes_array {m : Member} {members : List Member} {element : String}
    (hs : tr.shape m.type = some (.array element)) {vs : List (Val A)} (hsize : vs.length = m.size)
    {fuel : ℕ} (h : tr.ComposesItems element vs fuel) :
    tr.RefreshesMember m members (.parts vs) (fuel + 1) := by
  intro w ws hw
  obtain ⟨items, rfl, hlen, -⟩ := tr.membersType_array hs hw
  have hq : tr.decompose m.type (.parts vs) = some (tr.decomposeItems element 0 vs) := by
    simp [TypeTable.decompose, hs]
  unfold part
  rw [hq]
  exact tr.refresh_bag _ (tr.composes_array hs (hlen.trans hsize.symm) h _ _)

theorem refreshesParts_cons {m : Member} {members : List Member} {v : Val A} {vs : List (Val A)}
    {fuel : ℕ} (hm : tr.RefreshesMember m members v fuel)
    (hrest : tr.RefreshesParts members vs fuel) :
    tr.RefreshesParts (m :: members) (v :: vs) fuel := by
  intro ws source i hws hempty hfind
  cases ws with
  | nil => exact absurd hws (by simp [TypeTable.MembersType])
  | cons w ws =>
    rw [List.map_cons, List.mem_cons, not_or] at hempty
    have hname : (tr.part m v).name = m.name := by
      unfold part
      cases tr.decompose m.type v with
      | none => rfl
      | some ps => rfl
    have hsource : sourceOf source i m.name = some (tr.part m v) := by
      rw [sourceOf, if_neg (Ne.symm hempty.1), ← hname]
      apply hfind
      rw [TypeTable.decomposeParts]
      exact List.mem_cons_self
    have hws' : tr.MembersType members ws := by
      unfold TypeTable.MembersType at hws
      exact hws.2
    have htail := hrest ws source (i + 1) hws' hempty.2 fun p hp => hfind p (by
      rw [TypeTable.decomposeParts]
      exact List.mem_cons_of_mem _ hp)
    have hhead := hm w ws hws
    show (tr.system fuel).refreshList false source i
      (.leaf m.name "Part" m.type w :: TypeTable.parts members ws) = _
    rw [TypeSystem.refreshList]
    simp only [Property.name, hsource, htail, hhead]
    rfl

theorem composesItems_cons {element : String} {v : Val A} {vs : List (Val A)} {fuel : ℕ}
    (htype : tr.HasType element v) (hv : tr.Composes element v fuel)
    (hrest : tr.ComposesItems element vs fuel) : tr.ComposesItems element (v :: vs) fuel := by
  intro i
  have htail := hrest (i + 1)
  rw [TypeTable.decomposeItems, TypeTable.composedItems]
  cases hq : tr.decompose element v with
  | none => simp [TypeSystem.composeList, TypeSystem.composeProperty, htail]
  | some qs =>
    obtain ⟨s, hs⟩ := tr.shape_of_decompose hq
    have hinfo := tr.typeInfo_of_shape hs
    have hplain : element ≠ "PropertyBag" := by
      rintro rfl
      rw [tr.plain] at hs
      cases hs
    have hinit := hv (tr.initial element) (tr.initial_type element v htype) qs hq
      (TypeTable.elementName i) "Item"
    -- the item is composed into a fresh value of its type
    have hone : (tr.system fuel).composeProperty
        (.bag (TypeTable.elementName i) "Item" element qs) =
          ([.leaf (TypeTable.elementName i) "Item" element v], .ok) := by
      simp [TypeSystem.composeProperty, hplain, TypeTable.system_type, hinfo,
        TypeTable.system_bagInfo, TypeTable.system_leafType, TypeTable.system_initial, hinit]
    simp [TypeSystem.composeList, hone, htail]

mutual

theorem composes_value (v : Val A) (type : String) (hv : tr.HasType type v) :
    ∃ bound, ∀ fuel, bound ≤ fuel → tr.Composes type v fuel := by
  cases v with
  | prim a =>
    refine ⟨0, fun fuel _ w _ qs hqs => ?_⟩
    rw [TypeTable.decompose] at hqs
    cases hqs
  | parts vs =>
    unfold TypeTable.HasType at hv
    split at hv
    · next members hs =>
      obtain ⟨bound, hb⟩ := refreshes_parts vs members hv
      refine ⟨bound + 1, fun fuel hf => ?_⟩
      obtain ⟨fuel, rfl⟩ := Nat.exists_eq_add_of_le' (Nat.le_trans (Nat.le_add_left 1 bound) hf)
      exact tr.composes_struct hs hv (hb fuel (Nat.le_of_succ_le_succ hf))
    · next element hs =>
      obtain ⟨bound, hb⟩ := composes_items vs element hv
      refine ⟨bound + 1, fun fuel hf => ?_⟩
      obtain ⟨fuel, rfl⟩ := Nat.exists_eq_add_of_le' (Nat.le_trans (Nat.le_add_left 1 bound) hf)
      exact tr.composes_sequence hs (hb fuel (Nat.le_of_succ_le_succ hf))
    · exact hv.elim

theorem refreshes_parts (vs : List (Val A)) (members : List Member)
    (hvs : tr.MembersType members vs) :
    ∃ bound, ∀ fuel, bound ≤ fuel → tr.RefreshesParts members vs fuel := by
  cases vs with
  | nil =>
    unfold TypeTable.MembersType at hvs
    subst hvs
    exact ⟨0, fun fuel _ ws source i _ _ _ => rfl⟩
  | cons v vs =>
    cases members with
    | nil => exact absurd hvs (by simp [TypeTable.MembersType])
    | cons m members =>
      obtain ⟨b₂, h₂⟩ := refreshes_parts vs members (by
        unfold TypeTable.MembersType at hvs
        exact hvs.2)
      have hmember : ∃ b₁, ∀ fuel, b₁ ≤ fuel → tr.RefreshesMember m members v fuel := by
        by_cases harr : ∃ element, tr.shape m.type = some (.array element)
        · obtain ⟨element, hs⟩ := harr
          obtain ⟨items, rfl, hsize, hitems⟩ := tr.membersType_array hs hvs
          obtain ⟨b, hb⟩ := composes_items items element hitems
          refine ⟨b + 1, fun fuel hf => ?_⟩
          obtain ⟨fuel, rfl⟩ := Nat.exists_eq_add_of_le' (Nat.le_trans (Nat.le_add_left 1 b) hf)
          exact tr.refreshes_array hs hsize (hb fuel (Nat.le_of_succ_le_succ hf))
        · have hs : ∀ element, tr.shape m.type ≠ some (.array element) := not_exists.mp harr
          obtain ⟨b, hb⟩ := composes_value v m.type (tr.membersType_plain hs hvs)
          exact ⟨b, fun fuel hf => tr.refreshes_plain hs (hb fuel hf)⟩
      obtain ⟨b₁, h₁⟩ := hmember
      refine ⟨max b₁ b₂, fun fuel hf => ?_⟩
      exact tr.refreshesParts_cons (h₁ fuel ((le_max_left _ _).trans hf))
        (h₂ fuel ((le_max_right _ _).trans hf))

theorem composes_items (vs : List (Val A)) (element : String) (hvs : tr.ItemsType element vs) :
    ∃ bound, ∀ fuel, bound ≤ fuel → tr.ComposesItems element vs fuel := by
  cases vs with
  | nil => exact ⟨0, fun fuel _ i => rfl⟩
  | cons v vs =>
    unfold TypeTable.ItemsType at hvs
    obtain ⟨b₁, h₁⟩ := composes_value v element hvs.1
    obtain ⟨b₂, h₂⟩ := composes_items vs element hvs.2
    refine ⟨max b₁ b₂, fun fuel hf => ?_⟩
    exact tr.composesItems_cons hvs.1 (h₁ fuel ((le_max_left _ _).trans hf))
      (h₂ fuel ((le_max_right _ _).trans hf))

end

end TypeRepository

/-- The type is a struct that has members, or a sequence. -/
def TypeTable.Composite (tt : TypeTable A) (type : String) : Prop :=
  match tt.shape type with
  | some (.struct members) => members ≠ []
  | some (.sequence _) => True
  | _ => False

theorem TypeTable.decompose_of_composite (tt : TypeTable A) {type : String} {v : Val A}
    (hv : tt.HasType type v) (hc : tt.Composite type) : ∃ qs, tt.decompose type v = some qs := by
  unfold TypeTable.Composite at hc
  cases v with
  | prim a =>
    unfold TypeTable.HasType at hv
    split at hv
    · next hs =>
      rw [hs] at hc
      exact hc.elim
    · exact hv.elim
  | parts vs =>
    rw [TypeTable.decompose]
    split at hc
    · next members hs =>
      rw [hs]
      exact ⟨tt.decomposeParts members vs, by simp [hc]⟩
    · next element hs =>
      rw [hs]
      exact ⟨_, rfl⟩
    · exact hc.elim

/-- A composite value is decomposed fully, and composing the bag over any value of the type gives
the decomposed value. -/
theorem compose_decompose (tr : TypeRepository A) {type : String} (hc : tr.Composite type)
    {v w : Val A} (hv : tr.HasType type v) (hw : tr.HasType type w) :
    ∃ qs, tr.decompose type v = some qs ∧ ∃ bound, ∀ fuel, bound ≤ fuel →
      ∀ name description, (tr.system fuel).composeType type (.bag name description type qs) w =
        (v, .ok) := by
  obtain ⟨qs, hqs⟩ := tr.decompose_of_composite hv hc
  obtain ⟨bound, hb⟩ := tr.composes_value v type hv
  exact ⟨qs, hqs, bound, fun fuel hf => hb fuel hf w hw qs hqs⟩

/-- Integers, sequences and arrays of them, and a struct with one member of each. -/
def poseTable : TypeTable ℕ where
  shape := fun type =>
    if type = "int" then some .primitive
    else if type = "ints" then some (.sequence "int")
    else if type = "cints" then some (.array "int")
    else if type = "pose" then
      some (.struct [⟨"id", "int", 0⟩, ⟨"path", "ints", 0⟩, ⟨"corner", "cints", 2⟩])
    else none
  initial := fun type =>
    if type = "int" then .prim 0
    else if type = "ints" then .parts []
    else .parts [.prim 0, .parts [], .parts [.prim 0, .prim 0]]
  convert := fun _ _ => .none
  intValue := fun _ => none

theorem pose_hasType (a c d : ℕ) (path : List ℕ) : poseTable.HasType "pose"
    (.parts [.prim a, .parts (path.map .prim), .parts [.prim c, .prim d]]) := by
  have hint (n : ℕ) : poseTable.HasType "int" (.prim n) :=
    poseTable.hasType_primitive (by simp [poseTable]) n
  have hints (l : List ℕ) : poseTable.ItemsType "int" (l.map .prim) := by
    induction l with
    | nil => unfold TypeTable.ItemsType; trivial
    | cons n l ih =>
      rw [List.map_cons]
      unfold TypeTable.ItemsType
      exact ⟨hint n, ih⟩
  have hpath : poseTable.HasType "ints" (.parts (path.map .prim)) :=
    poseTable.hasType_sequence (by simp [poseTable]) (hints path)
  refine poseTable.hasType_struct (by simp [poseTable]; rfl) ?_
  refine poseTable.membersType_cons (by simp [poseTable]) (hint a) ?_
  refine poseTable.membersType_cons (by simp [poseTable]) hpath ?_
  refine poseTable.membersType_cons_array (by simp [poseTable]) rfl (hints [c, d]) ?_
  unfold TypeTable.MembersType
  rfl

/-- The types of the table are all that has a value. -/
theorem pose_initial (type : String) (v : Val ℕ) (h : poseTable.HasType type v) :
    poseTable.HasType type (poseTable.initial type) := by
  by_cases hint : type = "int"
  · subst hint
    exact poseTable.hasType_primitive (by simp [poseTable]) 0
  by_cases hints : type = "ints"
  · subst hints
    refine poseTable.hasType_sequence (by simp [poseTable]; rfl) ?_
    unfold TypeTable.ItemsType
    trivial
  by_cases hpose : type = "pose"
  · subst hpose
    exact pose_hasType 0 0 0 []
  have hnone : ∀ s, poseTable.shape type = some s → s = .array "int" := by
    intro s hs
    by_cases hc : type = "cints"
    · subst hc
      simpa [poseTable] using hs.symm
    · simp [poseTable, hint, hints, hpose, hc] at hs
  unfold TypeTable.HasType at h
  split at h
  · split at h
    · next hs => cases hnone _ hs
    · exact h.elim
  · split at h
    · next hs => cases hnone _ hs
    · next hs => cases hnone _ hs
    · exact h.elim

def poses : TypeRepository ℕ where
  toTypeTable := poseTable
  plain := by simp [poseTable]
  nodup := by
    intro type members hs
    by_cases hpose : type = "pose"
    · subst hpose
      have hm : members = [⟨"id", "int", 0⟩, ⟨"path", "ints", 0⟩, ⟨"corner", "cints", 2⟩] := by
        simpa [poseTable] using hs.symm
      subst hm
      decide
    · simp only [poseTable] at hs
      split_ifs at hs <;> simp at hs
  initial_type := pose_initial
  convert_bag := fun _ _ _ _ _ => rfl

/-- A pose over one with a path of another length. -/
theorem compose_decompose_pose : ∃ qs, poses.decompose "pose"
      (.parts [.prim 1, .parts ([2, 3].map .prim), .parts [.prim 4, .prim 5]]) = some qs ∧
    ∃ bound, ∀ fuel, bound ≤ fuel → ∀ name description,
      (poses.system fuel).composeType "pose" (.bag name description "pose" qs)
        (.parts [.prim 0, .parts ([6].map .prim), .parts [.prim 7, .prim 8]]) =
          (.parts [.prim 1, .parts ([2, 3].map .prim), .parts [.prim 4, .prim 5]], .ok) := by
  have hc : poses.Composite "pose" := by
    simp [TypeTable.Composite, poses, poseTable]
  exact compose_decompose poses hc (pose_hasType 1 4 5 [2, 3]) (pose_hasType 0 7 8 [6])

end OrocosRtt.Types
