import OrocosRtt.Marsh.PropertyBag

/-! A refresh changes values only, and what a refresh from a backup undoes of it. -/
namespace OrocosRtt.Marsh

open TypeSystem

variable {ι τ V : Type} [DecidableEq ι]

/-! ## What lies behind a typed bag -/

section

variable (ts : TypeSystem ι τ V)

mutual

/-- The property is a bag that is not plain, or has one inside. -/
def hasTyped (p : Property τ V) : Bool :=
  match p with
  | .leaf _ _ _ _ => false
  | .bag _ _ type ps => ts.typed type || anyTyped ps

def anyTyped (ps : List (Property τ V)) : Bool :=
  match ps with
  | [] => false
  | p :: ps => hasTyped p || anyTyped ps

end

mutual

/-- The two differ at most in front of the first typed bag. -/
def Agree (p q : Property τ V) : Prop :=
  match q with
  | .leaf _ _ _ _ => True
  | .bag _ _ type qs =>
    match p with
    | .leaf _ _ _ _ => True
    | .bag _ _ _ ps => if ts.typed type then ps = qs else AgreeBehind ps qs

def AgreeBehind (ps qs : List (Property τ V)) : Prop :=
  match qs with
  | [] => True
  | q :: qs =>
    match ps with
    | [] => True
    | p :: ps => Agree p q ∧ if hasTyped ts q then ps = qs else AgreeBehind ps qs

end

end

variable {ts : TypeSystem ι τ V}

mutual

theorem agree_refl (p : Property τ V) : Agree ts p p := by
  cases p with
  | leaf => simp [Agree]
  | bag n d type ps => simp [Agree, agreeBehind_refl ps]

theorem agreeBehind_refl (ps : List (Property τ V)) :
    AgreeBehind ts ps ps := by
  cases ps with
  | nil => simp [AgreeBehind]
  | cons p ps => simp [AgreeBehind, agree_refl p, agreeBehind_refl ps]

end

/-! ## The shape of a property -/

mutual

/-- What a refresh leaves as it is. -/
def outline (p : Property τ V) : Property τ Unit :=
  match p with
  | .leaf n d t _ => .leaf n d t ()
  | .bag n d type ps => .bag n d type (outlines ps)

def outlines (ps : List (Property τ V)) : List (Property τ Unit) :=
  match ps with
  | [] => []
  | p :: ps => outline p :: outlines ps

end

theorem outline_name (p : Property τ V) : (outline p).name = p.name := by
  cases p <;> simp [outline, Property.name]

mutual

theorem hasTyped_of_outline (p q : Property τ V) (h : outline p = outline q) :
    hasTyped ts p = hasTyped ts q := by
  cases p with
  | leaf =>
    cases q with
    | leaf => simp [hasTyped]
    | bag => simp [outline] at h
  | bag n d type ps =>
    cases q with
    | leaf => simp [outline] at h
    | bag n' d' type' qs =>
      simp only [outline, Property.bag.injEq] at h
      obtain ⟨rfl, rfl, rfl, h⟩ := h
      simp [hasTyped, anyTyped_of_outlines ps qs h]

theorem anyTyped_of_outlines (ps qs : List (Property τ V)) (h : outlines ps = outlines qs) :
    anyTyped ts ps = anyTyped ts qs := by
  cases ps with
  | nil =>
    cases qs with
    | nil => rfl
    | cons q qs => simp [outlines] at h
  | cons p ps =>
    cases qs with
    | nil => simp [outlines] at h
    | cons q qs =>
      simp only [outlines, List.cons.injEq] at h
      simp [anyTyped, hasTyped_of_outline p q h.1, anyTyped_of_outlines ps qs h.2]

end

theorem copy_name (p : Property τ V) : p.copy.name = p.name := by
  cases p <;> simp [Property.copy, Property.name]

theorem copyList_eq_map (ps : List (Property τ V)) : copyList ps = ps.map Property.copy := by
  induction ps with
  | nil => simp [copyList]
  | cons p ps ih => simp [copyList, ih]

/-- A property is looked up in a copy where it is looked up in the original. -/
theorem sourceOf_copyList (source : List (Property τ V)) (i : ℕ) (name : String) :
    sourceOf (copyList source) i name = (sourceOf source i name).map Property.copy := by
  have hf : ((fun p => decide (p.name = name)) ∘ Property.copy (τ := τ) (V := V))
      = fun p => decide (p.name = name) := by
    funext p
    simp [copy_name]
  simp only [sourceOf, find, copyList_eq_map]
  split
  · simp
  · rw [List.find?_map, hf]

/-- A typed bag cannot be taken from the copy of a bag. -/
theorem differ_copy (type : String) : ts.differ type "PropertyBag" = ts.typed type := by
  cases ht : ts.typed type with
  | false => simp [differ, ht]
  | true =>
    have hne : ts.type type ≠ some ts.bagInfo := by simpa [typed] using ht
    simp [differ, ht, ts.type_bag, hne]

/-! ## A property and its source -/

section

variable (ts : TypeSystem ι τ V)

mutual

/-- The property and its source are of one type, and so are all those that a refresh of it from the
source meets. A refresh does not get past a typed bag. -/
def Fits (p source : Property τ V) : Prop :=
  match p with
  | .leaf _ _ t _ =>
    match source with
    | .leaf _ _ t' _ => t' = t
    | .bag _ _ _ _ => False
  | .bag _ _ type ps =>
    ts.typed type ∨
      match source with
      | .leaf _ _ _ _ => False
      | .bag _ _ _ qs => FitsAll qs 0 ps

def FitsAll (source : List (Property τ V)) (i : ℕ) (ps : List (Property τ V)) : Prop :=
  match ps with
  | [] => True
  | p :: ps =>
    match sourceOf source i p.name with
    | none => False
    | some q => Fits p q ∧ (hasTyped ts p ∨ FitsAll source (i + 1) ps)

end

mutual

/-- The properties in front of the first typed bag have the values of their sources. -/
def Same (p source : Property τ V) : Prop :=
  match p with
  | .leaf _ _ _ v =>
    match source with
    | .leaf _ _ _ v' => v' = v
    | .bag _ _ _ _ => True
  | .bag _ _ type ps =>
    ts.typed type ∨
      match source with
      | .leaf _ _ _ _ => True
      | .bag _ _ _ qs => SameAll qs 0 ps

def SameAll (source : List (Property τ V)) (i : ℕ) (ps : List (Property τ V)) : Prop :=
  match ps with
  | [] => True
  | p :: ps =>
    match sourceOf source i p.name with
    | none => True
    | some q => Same p q ∧ (hasTyped ts p ∨ SameAll source (i + 1) ps)

end
end

/-! ## Bags with distinct names -/

mutual

/-- In each bag, no name is there twice. Properties without a name may be there in any number. -/
def Distinct (p : Property τ V) : Prop :=
  match p with
  | .leaf _ _ _ _ => True
  | .bag _ _ _ ps => (ps.map Property.name).Pairwise (fun n m => n = "" ∨ n ≠ m) ∧ DistinctAll ps

def DistinctAll (ps : List (Property τ V)) : Prop :=
  match ps with
  | [] => True
  | p :: ps => Distinct p ∧ DistinctAll ps

end

theorem find_append_of_distinct {pre ps : List (Property τ V)} {p : Property τ V}
    (hn : ((pre ++ p :: ps).map Property.name).Pairwise (fun n m => n = "" ∨ n ≠ m))
    (hp : p.name ≠ "") : find p.name (pre ++ p :: ps) = some p := by
  induction pre with
  | nil => simp [find]
  | cons q pre ih =>
    simp only [List.cons_append, List.map_cons, List.pairwise_cons] at hn
    have hq : q.name ≠ p.name := by
      rcases hn.1 p.name (by simp) with h | h
      · exact fun he => hp (he ▸ h)
      · exact h
    simpa [find, hq] using ih hn.2

/-- With distinct names, each property is its own source. -/
theorem sourceOf_of_distinct {pre ps : List (Property τ V)} {p : Property τ V}
    (hn : ((pre ++ p :: ps).map Property.name).Pairwise (fun n m => n = "" ∨ n ≠ m)) :
    sourceOf (pre ++ p :: ps) pre.length p.name = some p := by
  unfold sourceOf
  split
  · simp
  · next hp => exact find_append_of_distinct hn hp

mutual

theorem fits_self (p : Property τ V) (h : Distinct p) : Fits ts p p ∧ Same ts p p := by
  cases p with
  | leaf n d t v => simp [Fits, Same]
  | bag n d type ps =>
    simp only [Distinct] at h
    have ih := fitsAll_self [] ps h.1 h.2
    simp only [List.nil_append, List.length_nil] at ih
    simp [Fits, Same, ih.1, ih.2]

theorem fitsAll_self (pre ps : List (Property τ V))
    (hn : ((pre ++ ps).map Property.name).Pairwise (fun n m => n = "" ∨ n ≠ m))
    (h : DistinctAll ps) :
    FitsAll ts (pre ++ ps) pre.length ps ∧ SameAll ts (pre ++ ps) pre.length ps := by
  cases ps with
  | nil => simp [FitsAll, SameAll]
  | cons p ps =>
    simp only [DistinctAll] at h
    have hp := fits_self p h.1
    have ih := fitsAll_self (pre ++ [p]) ps (by simpa using hn) h.2
    simp only [List.append_assoc, List.singleton_append, List.length_append, List.length_singleton]
      at ih
    simp [FitsAll, SameAll, sourceOf_of_distinct hn, hp.1, hp.2, ih.1, ih.2]

end

variable [DecidableEq τ]

mutual

theorem outline_refresh (p s : Property τ V) : outline (ts.refreshProperty p s).1 = outline p := by
  cases p with
  | leaf n d t v => simp [refreshProperty, outline]
  | bag n d type ps =>
    cases s with
    | leaf => simp [refreshProperty, outline]
    | bag n' d' type' qs =>
      simp only [refreshProperty]
      split
      · simp [outline]
      · simp [outline, outlines_refresh false qs 0 ps]

theorem outlines_refresh (allprops : Bool) (source : List (Property τ V)) (i : ℕ)
    (ps : List (Property τ V)) :
    outlines (ts.refreshList allprops source i ps).1 = outlines ps := by
  cases ps with
  | nil => simp [refreshList]
  | cons p ps =>
    have ih := outlines_refresh allprops source (i + 1) ps
    simp only [refreshList]
    cases hs : sourceOf source i p.name with
    | none => simp [outlines, ih]
    | some q =>
      simp only
      split
      · simp [outlines, ih, outline_refresh p q]
      · simp [outlines, outline_refresh p q]

end

/-! ## What a refresh changes -/

section

variable (ts : TypeSystem ι τ V)

mutual

/-- A refresh of the property from the source gives none of the properties behind its first typed
bag a new value, and no property at all where a typed bag lies in front of it. -/
def Keeps (behind : Bool) (p source : Property τ V) : Prop :=
  match p with
  | .leaf _ _ t v => behind → (ts.assign t v source).1 = v
  | .bag _ _ type ps =>
    match source with
    | .leaf _ _ _ _ => True
    | .bag _ _ type' qs =>
      ts.differ type type' = false → KeepsAll (behind || ts.typed type) qs 0 ps

/-- The same for a list, from its `i`-th property on. -/
def KeepsAll (behind : Bool) (source : List (Property τ V)) (i : ℕ) (ps : List (Property τ V)) :
    Prop :=
  match ps with
  | [] => True
  | p :: ps =>
    match sourceOf source i p.name with
    | none => KeepsAll (behind || hasTyped ts p) source (i + 1) ps
    | some q =>
      Keeps behind p q ∧ ((ts.refreshProperty p q).2 = .ok →
        KeepsAll (behind || hasTyped ts p) source (i + 1) ps)

end

end

mutual

/-- With a typed bag in front of it, a property keeps all its values. -/
theorem refresh_eq_iff (p s : Property τ V) :
    (ts.refreshProperty p s).1 = p ↔ Keeps ts true p s := by
  cases p with
  | leaf n d t v => simp [refreshProperty, Keeps]
  | bag n d type ps =>
    cases s with
    | leaf => simp [refreshProperty, Keeps]
    | bag n' d' type' qs =>
      simp only [refreshProperty, Keeps, Bool.true_or]
      split
      · next hd => simp [hd]
      · next hd => simp [hd, refreshList_eq_iff false qs 0 ps]

theorem refreshList_eq_iff (allprops : Bool) (source : List (Property τ V)) (i : ℕ)
    (ps : List (Property τ V)) :
    (ts.refreshList allprops source i ps).1 = ps ↔ KeepsAll ts true source i ps := by
  cases ps with
  | nil => simp [refreshList, KeepsAll]
  | cons p ps =>
    have ih := refreshList_eq_iff allprops source (i + 1) ps
    simp only [refreshList, KeepsAll, Bool.true_or]
    cases hs : sourceOf source i p.name with
    | none => simp [ih]
    | some q =>
      have hp := refresh_eq_iff p q
      simp only
      split
      · next ho => simp [hp, ih, ho]
      · next ho => simp [hp, ho]

end

mutual

theorem agree_refresh_iff (p s : Property τ V) :
    Agree ts (ts.refreshProperty p s).1 p ↔ Keeps ts false p s := by
  cases p with
  | leaf n d t v => simp [refreshProperty, Keeps, Agree]
  | bag n d type ps =>
    cases s with
    | leaf => simp [refreshProperty, Keeps, Agree, agreeBehind_refl]
    | bag n' d' type' qs =>
      simp only [refreshProperty, Keeps, Bool.false_or]
      split
      · next hd => simp [hd, Agree, agreeBehind_refl]
      · next hd =>
        simp only [Agree, hd]
        cases ht : ts.typed type with
        | true => simp [refreshList_eq_iff false qs 0 ps]
        | false => simp [agreeBehind_refresh_iff false qs 0 ps]

theorem agreeBehind_refresh_iff (allprops : Bool) (source : List (Property τ V)) (i : ℕ)
    (ps : List (Property τ V)) :
    AgreeBehind ts (ts.refreshList allprops source i ps).1 ps ↔ KeepsAll ts false source i ps := by
  cases ps with
  | nil => simp [refreshList, KeepsAll, AgreeBehind]
  | cons p ps =>
    have ih := agreeBehind_refresh_iff allprops source (i + 1) ps
    have ih' : (ts.refreshList allprops source (i + 1) ps).1 = ps ↔
        KeepsAll ts true source (i + 1) ps := refreshList_eq_iff allprops source (i + 1) ps
    simp only [refreshList, KeepsAll, Bool.false_or]
    cases hs : sourceOf source i p.name with
    | none =>
      cases ht : hasTyped ts p with
      | true => simp [AgreeBehind, ht, ih', agree_refl]
      | false => simp [AgreeBehind, ht, ih, agree_refl]
    | some q =>
      have hp := agree_refresh_iff p q
      simp only
      split
      · next ho =>
        cases ht : hasTyped ts p with
        | true => simp [AgreeBehind, ht, ih', hp, ho]
        | false => simp [AgreeBehind, ht, ih, hp, ho]
      · next ho => simp [AgreeBehind, hp, ho, agreeBehind_refl]

end

/-! ## What a refresh from a copy gives back -/

mutual

/-- A refresh from a copy stops at the first typed bag. In front of it, the property gets the values
of the original. -/
theorem restore_spec (p q p' : Property τ V) (hf : Fits ts p q) (ho : outline p' = outline p) :
    (ts.refreshProperty p' q.copy).2 = (if hasTyped ts p then .failed else .ok) ∧
      ((ts.refreshProperty p' q.copy).1 = p ↔ Same ts p q ∧ Agree ts p' p) := by
  cases p with
  | leaf n d t v =>
    cases p' with
    | bag => simp [outline] at ho
    | leaf n' d' t' v' =>
      cases q with
      | bag => simp [Fits] at hf
      | leaf n₂ d₂ t₂ v₂ =>
        simp only [outline, Property.leaf.injEq] at ho
        obtain ⟨rfl, rfl, rfl, -⟩ := ho
        obtain rfl : t₂ = t' := by simpa [Fits] using hf
        simp [Property.copy, refreshProperty, assign, hasTyped, Same, Agree]
  | bag n d type ps =>
    cases p' with
    | leaf => simp [outline] at ho
    | bag n' d' type' ps' =>
      simp only [outline, Property.bag.injEq] at ho
      obtain ⟨rfl, rfl, rfl, ho⟩ := ho
      cases ht : ts.typed type' with
      | true =>
        cases q <;> simp [Property.copy, refreshProperty, differ_copy, hasTyped, Same, Agree, ht]
      | false =>
        cases q with
        | leaf => simp [Fits, ht] at hf
        | bag n₂ d₂ type₂ qs =>
          simp only [Fits, ht, Bool.false_eq_true, false_or] at hf
          have ih := restoreList_spec false qs 0 ps ps' hf ho
          simp [Property.copy, refreshProperty, differ_copy, hasTyped, Same, Agree, ht, ih.1, ih.2]

theorem restoreList_spec (allprops : Bool) (source : List (Property τ V)) (i : ℕ)
    (ps ps' : List (Property τ V)) (hf : FitsAll ts source i ps) (ho : outlines ps' = outlines ps) :
    (ts.refreshList allprops (copyList source) i ps').2 = (if anyTyped ts ps then .failed else .ok) ∧
      ((ts.refreshList allprops (copyList source) i ps').1 = ps ↔
        SameAll ts source i ps ∧ AgreeBehind ts ps' ps) := by
  cases ps with
  | nil =>
    cases ps' with
    | nil => simp [refreshList, anyTyped, SameAll, AgreeBehind]
    | cons p' ps' => simp [outlines] at ho
  | cons p ps =>
    cases ps' with
    | nil => simp [outlines] at ho
    | cons p' ps' =>
      simp only [outlines, List.cons.injEq] at ho
      have hn : p'.name = p.name := by rw [← outline_name, ho.1, outline_name]
      cases hs : sourceOf source i p.name with
      | none => simp [FitsAll, hs] at hf
      | some q =>
        simp only [FitsAll, hs] at hf
        have hp := restore_spec p q p' hf.1 ho.1
        simp only [refreshList, hn, sourceOf_copyList, hs, Option.map_some]
        cases ht : hasTyped ts p with
        | true => simp [hp.1, hp.2, ht, anyTyped, SameAll, AgreeBehind, hs, and_assoc]
        | false =>
          have ih := restoreList_spec allprops source (i + 1) ps ps' (by simpa [ht] using hf.2) ho.2
          simp [hp.1, hp.2, ht, anyTyped, SameAll, AgreeBehind, hs, ih.1, ih.2, and_assoc,
            and_left_comm]

end

mutual

/-- A refresh of properties without a typed bag can be undone. -/
theorem keeps_of_not_typed (p s : Property τ V) (h : hasTyped ts p = false) :
    Keeps ts false p s := by
  cases p with
  | leaf => simp [Keeps]
  | bag n d type ps =>
    simp only [hasTyped, Bool.or_eq_false_iff] at h
    cases s with
    | leaf => simp [Keeps]
    | bag n' d' type' qs => simp [Keeps, h.1, keepsAll_of_not_typed qs 0 ps h.2]

theorem keepsAll_of_not_typed (source : List (Property τ V)) (i : ℕ) (ps : List (Property τ V))
    (h : anyTyped ts ps = false) : KeepsAll ts false source i ps := by
  cases ps with
  | nil => simp [KeepsAll]
  | cons p ps =>
    simp only [anyTyped, Bool.or_eq_false_iff] at h
    have ih := keepsAll_of_not_typed source (i + 1) ps h.2
    cases hs : sourceOf source i p.name with
    | none => simpa [KeepsAll, hs, h.1] using ih
    | some q => simp [KeepsAll, hs, h.1, keeps_of_not_typed p q h.1, ih]

end

end OrocosRtt.Marsh
