import OrocosRtt.Types.UpdateProperties

/-! A composition against one that does everything or nothing: where it changes its target without
success, and where its assertions fail. -/
namespace OrocosRtt.Types
open Marsh

variable {A : Type}

namespace TypeTable

/-! ### What a composition means -/

/-- The values of the parts after each one that the source names took its property; nothing when one
cannot, or when one is missing in the source that must be there. -/
def adoptAll (takes : String → Property String (Val A) → Val A → Option (Val A))
    (allprops : Bool) (source : List (Property String (Val A))) (i : ℕ) :
    List (Property String (Val A)) → Option (List (Val A))
  | [] => some []
  | .leaf n _ t v :: ps =>
    match sourceOf source i n with
    | none => if allprops then none else (adoptAll takes allprops source (i + 1) ps).map (v :: ·)
    | some q => (takes t q v).bind fun u =>
      (adoptAll takes allprops source (i + 1) ps).map (u :: ·)
  | .bag .. :: _ => none

variable (tt : TypeTable A)

/-- The value of a part that takes a property: that of the property, or what a constructor makes of
it, or what it means as a composition. -/
def takes (meaning : String → Property String (Val A) → Val A → Option (Val A))
    (type : String) (source : Property String (Val A)) (v : Val A) : Option (Val A) :=
  let adopted := match tt.convert type source with
    | .value u => some u
    | .thrown => none
    | .none => meaning type source v
  match source with
  | .leaf _ _ type' u => if type' = type then some u else adopted
  | .bag .. => adopted

/-- The items of a container that is composed of a bag. -/
def itemsMeaning (ts : System A)
    (meaning : String → Property String (Val A) → Val A → Option (Val A))
    (type element sourceType : String) (source : List (Property String (Val A)))
    (vs : List (Val A)) : Option (Val A) :=
  if (ts.composeList source).2 ≠ .ok ∨ tt.typeInfo type ≠ tt.typeInfo sourceType then none
  else
    (adoptAll (tt.takes meaning) true (ts.composeList source).1 0 (items element 0 vs)).map .parts

/-- The value that a bag gives a value of the type, where all of it fits; what the bag does not name
stays. A sequence gets the size that the bag says. -/
def meaning : ℕ → String → Property String (Val A) → Val A → Option (Val A)
  | 0, _, _, _ => none
  | fuel + 1, type, source, w =>
    match source, w with
    | .bag _ _ sourceType ps, .parts vs =>
      match tt.shape type with
      | some (.struct members) =>
        if members.isEmpty ∨ tt.typeInfo type ≠ tt.typeInfo sourceType then none
        else (adoptAll (tt.takes (meaning fuel)) false ps 0 (parts members vs)).map .parts
      | some (.sequence element) =>
        if tt.sizeOf ps vs.length < 0 then none
        else
          tt.itemsMeaning (tt.system fuel) (meaning fuel) type element sourceType ps
            (tt.resize element (tt.sizeOf ps vs.length).toNat vs)
      | some (.array element) =>
        if vs.length ≠ ps.length then none
        else tt.itemsMeaning (tt.system fuel) (meaning fuel) type element sourceType ps vs
      | some .primitive => none
      | none => none
    | _, _ => none

/-- `result.size() == source.size()`, `source.size() == target.size()` and
`source.size() == decomp.size()`, where the target is the bag of the composed items. -/
def Asserted (ts : System A) (type : String) (source : Property String (Val A))
    (w : Val A) : Prop :=
  match source, w with
  | .bag _ _ _ ps, .parts us =>
    match tt.shape type with
    | some (.sequence element) | some (.array element) =>
      us.length = ps.length ∧ ps.length = (ts.composeList ps).1.length ∧
        ps.length = (items element 0 us).length
    | _ => True
  | _, _ => True

/-- The composition returns true and has composed all that the source names, and nothing else, and
its assertions hold; or it returns false and the target is as before. -/
def Atomic (fuel : ℕ) (type : String) (source : Property String (Val A)) (w : Val A) : Prop :=
  let r := (tt.system (fuel + 1)).composeType type source w
  (r.2 = .ok ∧ tt.meaning (fuel + 1) type source w = some r.1 ∧
    tt.Asserted (tt.system fuel) type source r.1) ∨ (r.2 = .failed ∧ r.1 = w)

/-! ### Where it fails -/

/-- The parts before the first that cannot take its property have already what they are given, and
this one refuses. -/
def Untouched (takes : String → Property String (Val A) → Val A → Option (Val A))
    (refuses : String → Property String (Val A) → Val A → Prop)
    (source : List (Property String (Val A))) (i : ℕ) : List (Property String (Val A)) → Prop
  | [] => True
  | .leaf n _ t v :: ps =>
    match sourceOf source i n with
    | none => Untouched takes refuses source (i + 1) ps
    | some q =>
      match takes t q v with
      | some u => u = v ∧ Untouched takes refuses source (i + 1) ps
      | none => tt.convert t q = .none ∧ refuses t q v
  | .bag .. :: _ => False

/-- The items do not fit, and the container is as before. -/
def ItemsRefuse (ts : System A)
    (meaning : String → Property String (Val A) → Val A → Option (Val A))
    (refuses : String → Property String (Val A) → Val A → Prop)
    (type element sourceType : String) (source : List (Property String (Val A)))
    (vs : List (Val A)) : Prop :=
  (ts.composeList source).2 = .failed ∨ (ts.composeList source).2 = .ok ∧
    (tt.typeInfo type ≠ tt.typeInfo sourceType ∨
      tt.Untouched (tt.takes meaning) refuses (ts.composeList source).1 0 (items element 0 vs))

/-- A bag that does not fit is refused before anything has changed: it has another type or number of
items, or the parts before the first that does not fit have the values of the bag already. -/
def Refuses : ℕ → String → Property String (Val A) → Val A → Prop
  | 0, _, _, _ => False
  | fuel + 1, type, source, w =>
    match source, w with
    | .bag _ _ sourceType ps, .parts vs =>
      match tt.shape type with
      | some (.struct members) =>
        members.isEmpty ∨ tt.typeInfo type ≠ tt.typeInfo sourceType ∨
          tt.Untouched (tt.takes (tt.meaning fuel)) (Refuses fuel) ps 0 (parts members vs)
      | some (.sequence element) => tt.sizeOf ps vs.length = vs.length ∧
          tt.ItemsRefuse (tt.system fuel) (tt.meaning fuel) (Refuses fuel) type element sourceType
            ps vs
      | some (.array element) => vs.length ≠ ps.length ∨
          tt.ItemsRefuse (tt.system fuel) (tt.meaning fuel) (Refuses fuel) type element sourceType
            ps vs
      | some .primitive => True
      | none => True
    | _, _ => True

/-- The value of a call that returned true. -/
def okValue (r : Val A × Marsh.Outcome) : Option (Val A) :=
  if r.2 = .ok then some r.1 else none

theorem okValue_ok {r : Val A × Marsh.Outcome} (h : r.2 = .ok) : okValue r = some r.1 := if_pos h

theorem okValue_not {r : Val A × Marsh.Outcome} (h : r.2 ≠ .ok) : okValue r = none := if_neg h

/-- The properties are those of a decomposition that is one level deep. -/
def Leaves (ps : List (Property String (Val A))) : Prop :=
  ∀ p ∈ ps, ∃ n d t v, p = Property.leaf n d t v

theorem leaves_cons {p : Property String (Val A)} {ps : List (Property String (Val A))}
    (h : Leaves (p :: ps)) : (∃ n d t v, p = .leaf n d t v) ∧ Leaves ps :=
  List.forall_mem_cons.mp h

theorem parts_leaves (members : List Member) (vs : List (Val A)) : Leaves (parts members vs) := by
  induction members generalizing vs with
  | nil => exact fun p hp => absurd hp List.not_mem_nil
  | cons m members ih =>
    cases vs with
    | nil => exact fun p hp => absurd hp List.not_mem_nil
    | cons v vs => exact List.forall_mem_cons.mpr ⟨⟨_, _, _, _, rfl⟩, ih vs⟩

theorem items_leaves (element : String) (i : ℕ) (vs : List (Val A)) :
    Leaves (items element i vs) := by
  induction vs generalizing i with
  | nil => exact fun p hp => absurd hp List.not_mem_nil
  | cons v vs ih => exact List.forall_mem_cons.mpr ⟨⟨_, _, _, _, rfl⟩, ih (i + 1)⟩

section
variable {tt} {ts : System A}
  {m : String → Property String (Val A) → Val A → Option (Val A)}

/-- A part takes a property when it can be refreshed with it. -/
theorem takes_eq (hconvert : ts.convert = tt.convert)
    (hm : ∀ t q v, m t q v = okValue (ts.composeType t q v)) (t : String)
    (q : Property String (Val A)) (v : Val A) : tt.takes m t q v = okValue (ts.assign t v q) := by
  cases q with
  | leaf n d t' u =>
    simp only [takes, TypeSystem.assign, hconvert, hm]
    by_cases ht : t' = t
    · rw [if_pos ht, if_pos ht]
      rfl
    · rw [if_neg ht, if_neg ht]
      cases tt.convert t (.leaf n d t' u) with
      | none => rfl
      | value u' => rfl
      | thrown => rfl
  | bag n d type qs =>
    simp only [takes, TypeSystem.assign, hconvert, hm]
    cases tt.convert t (.bag n d type qs) with
    | none => rfl
    | value u => rfl
    | thrown => rfl

end

section
variable {tt} {ts : System A}
  {m : String → Property String (Val A) → Val A → Option (Val A)}
  {refuses : String → Property String (Val A) → Val A → Prop}

theorem failed_iff {r : Val A × Marsh.Outcome} {v : Val A} (h : r.2 ≠ .ok) :
    r = (v, .failed) ↔ r.1 = v ∧ r.2 ≠ .thrown := by
  obtain ⟨u, o⟩ := r
  cases o with
  | ok => exact absurd rfl h
  | failed => simp
  | thrown => simp

theorem missing_not_thrown (allprops : Bool) (o : Marsh.Outcome) :
    (if allprops ∧ o = .ok then .failed else o) ≠ .thrown ↔ o ≠ .thrown := by
  cases o with
  | ok => cases allprops <;> simp
  | failed => simp
  | thrown => simp

theorem adopted_refused_iff (hconvert : ts.convert = tt.convert)
    (hm : ∀ t q v, m t q v = okValue (ts.composeType t q v)) {t : String}
    {q : Property String (Val A)} {v : Val A}
    (hr : m t q v = none → (ts.composeType t q v = (v, .failed) ↔ refuses t q v))
    (h : (ts.adopted t v q).2 ≠ .ok) :
    ts.adopted t v q = (v, .failed) ↔ tt.convert t q = .none ∧ refuses t q v := by
  unfold TypeSystem.adopted at h ⊢
  rw [hconvert] at h ⊢
  cases hc : tt.convert t q with
  | none =>
    simp only [hc] at h ⊢
    have hnone : m t q v = none := by rw [hm, okValue_not h]
    rw [hr hnone, true_and]
  | value u =>
    simp only [hc] at h
    exact absurd rfl h
  | thrown => simp

/-- A part refuses its property without a change when that is neither of its type nor converted, and
no composition for it. -/
theorem assign_refused_iff (hconvert : ts.convert = tt.convert)
    (hm : ∀ t q v, m t q v = okValue (ts.composeType t q v)) {t : String}
    {q : Property String (Val A)} {v : Val A}
    (hr : m t q v = none → (ts.composeType t q v = (v, .failed) ↔ refuses t q v))
    (h : (ts.assign t v q).2 ≠ .ok) :
    ts.assign t v q = (v, .failed) ↔ tt.convert t q = .none ∧ refuses t q v := by
  cases q with
  | leaf n d t' u =>
    rw [TypeSystem.assign_leaf] at h ⊢
    by_cases ht : t' = t
    · rw [if_pos ht] at h
      exact absurd rfl h
    · rw [if_neg ht] at h ⊢
      exact adopted_refused_iff hconvert hm hr h
  | bag n d type qs =>
    rw [TypeSystem.assign_bag] at h ⊢
    exact adopted_refused_iff hconvert hm hr h

theorem untouched_none {takes : String → Property String (Val A) → Val A → Option (Val A)}
    {source : List (Property String (Val A))} {i : ℕ} {n : String}
    (h : sourceOf source i n = none) (d t : String) (v : Val A)
    (ps : List (Property String (Val A))) :
    tt.Untouched takes refuses source i (.leaf n d t v :: ps) ↔
      tt.Untouched takes refuses source (i + 1) ps := by
  rw [Untouched, h]

theorem untouched_some {takes : String → Property String (Val A) → Val A → Option (Val A)}
    {source : List (Property String (Val A))} {i : ℕ} {n : String} {q : Property String (Val A)}
    (h : sourceOf source i n = some q) {d t : String} {v u : Val A} (hu : takes t q v = some u)
    (ps : List (Property String (Val A))) :
    tt.Untouched takes refuses source i (.leaf n d t v :: ps) ↔
      u = v ∧ tt.Untouched takes refuses source (i + 1) ps := by
  rw [Untouched, h]
  simp only [hu]

theorem untouched_refused {takes : String → Property String (Val A) → Val A → Option (Val A)}
    {source : List (Property String (Val A))} {i : ℕ} {n : String} {q : Property String (Val A)}
    (h : sourceOf source i n = some q) {d t : String} {v : Val A} (hu : takes t q v = none)
    (ps : List (Property String (Val A))) :
    tt.Untouched takes refuses source i (.leaf n d t v :: ps) ↔
      tt.convert t q = .none ∧ refuses t q v := by
  rw [Untouched, h]
  simp only [hu]

/-- Whether a refresh leaves all values as they are. -/
theorem untouched_iff (hconvert : ts.convert = tt.convert)
    (hm : ∀ t q v, m t q v = okValue (ts.composeType t q v)) (allprops : Bool)
    (source : List (Property String (Val A))) (i : ℕ) {ps : List (Property String (Val A))}
    (hps : Leaves ps)
    (hr : ∀ n d t v, .leaf n d t v ∈ ps → ∀ q, m t q v = none →
      (ts.composeType t q v = (v, .failed) ↔ refuses t q v)) :
    (ts.refreshList allprops source i ps).1.map value = ps.map value ∧
        (ts.refreshList allprops source i ps).2 ≠ .thrown ↔
      tt.Untouched (tt.takes m) refuses source i ps := by
  induction ps generalizing i with
  | nil => simp [TypeSystem.refreshList, Untouched]
  | cons p ps ih =>
    obtain ⟨⟨n, d, t, v, rfl⟩, hrest⟩ := leaves_cons hps
    have ih := ih (i + 1) hrest fun n d t v hv => hr n d t v (List.mem_cons_of_mem _ hv)
    cases hs : sourceOf source i n with
    | none =>
      rw [untouched_none hs, ← ih, refreshList_none ts hs]
      rw [List.map_cons, List.map_cons, List.cons.injEq, missing_not_thrown]
      exact and_congr_left fun _ => and_iff_right rfl
    | some q =>
      rw [refreshList_some ts hs, refreshProperty_leaf]
      by_cases hq : (ts.assign t v q).2 = .ok
      · have htakes : tt.takes m t q v = some (ts.assign t v q).1 := by
          rw [takes_eq hconvert hm, okValue_ok hq]
        rw [untouched_some hs htakes, ← ih, if_pos hq, List.map_cons, List.map_cons,
          List.cons.injEq, and_assoc]
        rfl
      · have htakes : tt.takes m t q v = none := by rw [takes_eq hconvert hm, okValue_not hq]
        rw [untouched_refused hs htakes, if_neg hq, ← assign_refused_iff hconvert hm
          (hr n d t v List.mem_cons_self q) hq, failed_iff hq, List.map_cons, List.map_cons,
          List.cons.injEq, and_iff_left rfl]
        rfl

/-- The items that fit the type of the container, one by one. -/
theorem composeItems_refresh {type element sourceType : String}
    {source : List (Property String (Val A))} (hok : (ts.composeList source).2 = .ok)
    (htypes : ts.type type = ts.type sourceType) (vs : List (Val A)) :
    composeItems ts type element sourceType source vs =
      (.parts ((ts.refreshList true (ts.composeList source).1 0 (items element 0 vs)).1.map value),
        (ts.refreshList true (ts.composeList source).1 0 (items element 0 vs)).2) := by
  rw [composeItems, if_neg (not_not.mpr hok), if_neg (not_not.mpr htypes),
    refreshProperties_eq htypes]

end

/-! ### What its assertions say -/

mutual

def depth (p : Property String (Val A)) : ℕ :=
  match p with
  | .leaf .. => 0
  | .bag _ _ _ ps => depths ps + 1

def depths (ps : List (Property String (Val A))) : ℕ :=
  match ps with
  | [] => 0
  | p :: ps => max (depth p) (depths ps)

end

theorem depth_le_depths {p : Property String (Val A)} {ps : List (Property String (Val A))}
    (h : p ∈ ps) : depth p ≤ depths ps := by
  induction ps with
  | nil => cases h
  | cons q ps ih =>
    rw [depths]
    rcases List.mem_cons.mp h with rfl | hrest
    · exact Nat.le_max_left _ _
    · exact (ih hrest).trans (Nat.le_max_right _ _)

theorem depths_append (ps qs : List (Property String (Val A))) :
    depths (ps ++ qs) = max (depths ps) (depths qs) := by
  induction ps with
  | nil => rw [List.nil_append, depths, Nat.zero_max]
  | cons p ps ih => rw [List.cons_append, depths, depths, ih, Nat.max_assoc]

mutual

theorem composeProperty_depth (ts : System A) (q : Property String (Val A)) :
    depths (ts.composeProperty q).1 ≤ depth q := by
  cases q with
  | leaf n d t v => exact Nat.le_refl 0
  | bag n d type qs =>
    by_cases hplain : type = "PropertyBag"
    · subst hplain
      rw [composeProperty_plain, depth]
      by_cases hok : (ts.composeList qs).2 = .ok
      · rw [if_pos hok, depths, depths, depth, Nat.max_zero]
        exact Nat.succ_le_succ (composeList_depth ts qs)
      · rw [if_neg hok, depths]
        exact Nat.zero_le _
    · have hleaves : depths (ts.composeProperty (.bag n d type qs)).1 = 0 := by
        rw [TypeSystem.composeProperty, if_pos hplain]
        cases ts.type type with
        | none => rfl
        | some i =>
          dsimp only
          by_cases hbag : i = ts.bagInfo
          · rw [if_pos hbag]
            rfl
          · rw [if_neg hbag]
            dsimp only
            split
            · rfl
            · rfl
      rw [hleaves]
      exact Nat.zero_le _

theorem composeList_depth (ts : System A) (qs : List (Property String (Val A))) :
    depths (ts.composeList qs).1 ≤ depths qs := by
  cases qs with
  | nil => exact Nat.le_refl _
  | cons q qs =>
    rw [TypeSystem.composeList, depths]
    dsimp only
    by_cases hthrown : (ts.composeProperty q).2 = .thrown
    · rw [if_pos hthrown, depths]
      exact Nat.zero_le _
    · rw [if_neg hthrown]
      dsimp only
      rw [depths_append]
      exact max_le_max (composeProperty_depth ts q) (composeList_depth ts qs)

end

section
variable {k f g : ℕ}

/-- The compositions of sources that are `k` deep at most are the same. -/
def AgreeUpTo (k f g : ℕ) : Prop :=
  ∀ type q v, depth q ≤ k →
    (tt.system f).composeType type q v = (tt.system g).composeType type q v

variable {tt}

mutual

theorem composeProperty_agree (h : tt.AgreeUpTo k f g) (q : Property String (Val A))
    (hq : depth q ≤ k) : (tt.system f).composeProperty q = (tt.system g).composeProperty q := by
  cases q with
  | leaf n d t v => rfl
  | bag n d type qs =>
    by_cases hplain : type = "PropertyBag"
    · subst hplain
      rw [depth] at hq
      rw [composeProperty_plain, composeProperty_plain,
        composeList_agree h qs (Nat.le_of_succ_le hq)]
    · rw [TypeSystem.composeProperty, TypeSystem.composeProperty, if_pos hplain, if_pos hplain,
        tt.system_type, tt.system_type, tt.system_bagInfo, tt.system_bagInfo]
      cases hi : tt.typeInfo type with
      | none => rfl
      | some i =>
        cases i with
        | none => rfl
        | some t =>
          dsimp only
          rw [tt.system_leafType, tt.system_leafType, tt.system_initial, tt.system_initial,
            h _ _ _ hq]

theorem composeList_agree (h : tt.AgreeUpTo k f g) (qs : List (Property String (Val A)))
    (hq : depths qs ≤ k) : (tt.system f).composeList qs = (tt.system g).composeList qs := by
  cases qs with
  | nil => rfl
  | cons q qs =>
    rw [depths] at hq
    rw [TypeSystem.composeList, TypeSystem.composeList,
      composeProperty_agree h q ((Nat.le_max_left _ _).trans hq),
      composeList_agree h qs ((Nat.le_max_right _ _).trans hq)]

end

theorem assign_agree (h : tt.AgreeUpTo k f g) (t : String) (v : Val A)
    {q : Property String (Val A)} (hq : depth q ≤ k) :
    (tt.system f).assign t v q = (tt.system g).assign t v q := by
  have hadopted : (tt.system f).adopted t v q = (tt.system g).adopted t v q := by
    rw [TypeSystem.adopted, TypeSystem.adopted, tt.system_convert, tt.system_convert, h t q v hq]
  cases q with
  | leaf n d t' u => rw [TypeSystem.assign_leaf, TypeSystem.assign_leaf, hadopted]
  | bag n d type qs => rw [TypeSystem.assign_bag, TypeSystem.assign_bag, hadopted]

theorem mem_of_sourceOf {source : List (Property String (Val A))} {i : ℕ} {n : String}
    {q : Property String (Val A)} (h : sourceOf source i n = some q) : q ∈ source := by
  unfold sourceOf at h
  by_cases hn : n = ""
  · rw [if_pos hn] at h
    exact List.mem_of_getElem? h
  · rw [if_neg hn] at h
    exact List.mem_of_find?_eq_some h

theorem refreshList_agree (h : tt.AgreeUpTo k f g) (allprops : Bool)
    {source : List (Property String (Val A))} (hs : depths source ≤ k) (i : ℕ)
    {ps : List (Property String (Val A))} (hps : Leaves ps) :
    (tt.system f).refreshList allprops source i ps =
      (tt.system g).refreshList allprops source i ps := by
  induction ps generalizing i with
  | nil => rfl
  | cons p ps ih =>
    obtain ⟨⟨n, d, t, v, rfl⟩, hrest⟩ := leaves_cons hps
    cases hq : sourceOf source i n with
    | none => rw [refreshList_none _ hq, refreshList_none _ hq, ih (i + 1) hrest]
    | some q =>
      have hdepth := (depth_le_depths (mem_of_sourceOf hq)).trans hs
      rw [refreshList_some _ hq, refreshList_some _ hq, refreshProperty_leaf, refreshProperty_leaf,
        assign_agree h t v hdepth, ih (i + 1) hrest]

theorem composeItems_agree (h : tt.AgreeUpTo k f g) (type element sourceType : String)
    {source : List (Property String (Val A))} (hs : depths source ≤ k) (vs : List (Val A)) :
    composeItems (tt.system f) type element sourceType source vs =
      composeItems (tt.system g) type element sourceType source vs := by
  have hlist := composeList_agree h source hs
  have hdepth := (composeList_depth (tt.system g) source).trans hs
  by_cases hok : ((tt.system g).composeList source).2 = .ok
  · by_cases htypes : tt.typeInfo type = tt.typeInfo sourceType
    · rw [composeItems_refresh (by rw [hlist, hok]) (by rw [tt.system_type, htypes]),
        composeItems_refresh hok (by rw [tt.system_type, htypes]), hlist,
        refreshList_agree h true hdepth 0 (items_leaves element 0 vs)]
    · rw [composeItems, composeItems, hlist, tt.system_type, tt.system_type, if_pos htypes,
        if_pos htypes]
  · rw [composeItems, composeItems, hlist, if_pos hok, if_pos hok]

end

/-- More nested calls than the source is deep are never made. -/
theorem composeType_settled (type : String) (source : Property String (Val A)) (w : Val A)
    {f g : ℕ} (hf : depth source ≤ f) (hg : depth source ≤ g) :
    (tt.system (f + 1)).composeType type source w =
      (tt.system (g + 1)).composeType type source w := by
  induction f generalizing g type source w with
  | zero =>
    cases source with
    | leaf n d t v => rfl
    | bag n d sourceType ps =>
      rw [depth] at hf
      omega
  | succ f ih =>
    cases source with
    | leaf n d t v => rfl
    | bag n d sourceType ps =>
      rw [depth] at hf hg
      obtain ⟨g, rfl⟩ : ∃ g', g = g' + 1 := ⟨g - 1, by omega⟩
      have hagree : tt.AgreeUpTo (depths ps) (f + 1) (g + 1) :=
        fun t q v hq => ih t q v (by omega) (by omega)
      cases w with
      | prim a => rfl
      | parts vs =>
        rw [system_composeType, system_composeType, composeType, composeType]
        cases tt.shape type with
        | none => rfl
        | some shape =>
          cases shape with
          | primitive => rfl
          | struct members =>
            dsimp only
            rw [tt.system_type, tt.system_type]
            by_cases htypes : tt.typeInfo type = tt.typeInfo sourceType
            · rw [refreshProperties_eq (by rw [tt.system_type, htypes]),
                refreshProperties_eq (by rw [tt.system_type, htypes]),
                refreshList_agree hagree false le_rfl 0 (parts_leaves members vs)]
            · rw [if_pos htypes, if_pos htypes]
          | sequence element =>
            dsimp only
            rw [composeItems_agree hagree type element sourceType le_rfl]
          | array element =>
            dsimp only
            rw [composeItems_agree hagree type element sourceType le_rfl]

end TypeTable
end OrocosRtt.Types
