import OrocosRtt.Marsh.Restore
import OrocosRtt.Marsh.Update

/-! What a refresh and an update make of a bag, where the other bag has the same properties. -/
namespace OrocosRtt.Marsh
open TypeSystem

variable {ι τ V : Type} [DecidableEq ι] [DecidableEq τ]

mutual

/-- Plain bags that have the same names and types, in the same order. -/
def Alike (p q : Property τ V) : Prop :=
  match p, q with
  | .leaf n _ t _, .leaf n' _ t' _ => n = n' ∧ t = t'
  | .bag n _ type ps, .bag n' _ type' qs =>
    n = n' ∧ type = "PropertyBag" ∧ type' = "PropertyBag" ∧ AllAlike ps qs
  | _, _ => False

def AllAlike (ps qs : List (Property τ V)) : Prop :=
  match ps, qs with
  | [], [] => True
  | p :: ps, q :: qs => Alike p q ∧ AllAlike ps qs
  | _, _ => False

end

mutual

/-- The first property with the values of the second one; an update fills in descriptions too. -/
def given (update : Bool) (p q : Property τ V) : Property τ V :=
  match p, q with
  | .leaf n d t _, .leaf _ d' _ v => .leaf n (if update ∧ d = "" then d' else d) t v
  | .bag n d type ps, .bag _ d' _ qs =>
    .bag n (if update ∧ d = "" then d' else d) type (allGiven update ps qs)
  | p, _ => p

def allGiven (update : Bool) (ps qs : List (Property τ V)) : List (Property τ V) :=
  match ps, qs with
  | p :: ps, q :: qs => given update p q :: allGiven update ps qs
  | ps, _ => ps

end

mutual

/-- In each bag, any two names are in the relation. -/
def Apart (R : String → String → Prop) (p : Property τ V) : Prop :=
  match p with
  | .leaf _ _ _ _ => True
  | .bag _ _ _ ps => (ps.map Property.name).Pairwise R ∧ AllApart R ps

def AllApart (R : String → String → Prop) (ps : List (Property τ V)) : Prop :=
  match ps with
  | [] => True
  | p :: ps => Apart R p ∧ AllApart R ps

end

omit [DecidableEq τ] in
theorem Alike.name {p q : Property τ V} (h : Alike p q) : p.name = q.name := by
  cases p <;> cases q
  all_goals simp_all [Alike, Property.name]

section
omit [DecidableEq τ]
variable {R S : String → String → Prop}

mutual

theorem Alike.apart : (p q : Property τ V) → Alike p q → Apart R p → Apart R q
  | .leaf _ _ _ _, .leaf _ _ _ _, _, _ => trivial
  | .bag _ _ _ ps, .bag _ _ _ qs, h, hr => by
    simp only [Alike] at h
    simp only [Apart] at hr ⊢
    have ih := AllAlike.apart ps qs h.2.2.2 hr.2
    exact ⟨ih.1 ▸ hr.1, ih.2⟩
  | .leaf _ _ _ _, .bag _ _ _ _, h, _ => by simp [Alike] at h
  | .bag _ _ _ _, .leaf _ _ _ _, h, _ => by simp [Alike] at h

theorem AllAlike.apart : (ps qs : List (Property τ V)) → AllAlike ps qs → AllApart R ps →
    ps.map Property.name = qs.map Property.name ∧ AllApart R qs
  | [], [], _, _ => ⟨rfl, trivial⟩
  | p :: ps, q :: qs, h, hr => by
    simp only [AllAlike] at h
    simp only [AllApart] at hr ⊢
    have hfirst := Alike.apart p q h.1 hr.1
    have ih := AllAlike.apart ps qs h.2 hr.2
    exact ⟨by rw [List.map_cons, List.map_cons, h.1.name, ih.1], hfirst, ih.2⟩
  | [], _ :: _, h, _ => by simp [AllAlike] at h
  | _ :: _, [], h, _ => by simp [AllAlike] at h

end

mutual

theorem Apart.imp (h : ∀ n m, R n m → S n m) : (p : Property τ V) → Apart R p → Apart S p
  | .leaf _ _ _ _, _ => trivial
  | .bag _ _ _ ps, hr => by
    simp only [Apart] at hr ⊢
    exact ⟨hr.1.imp (h _ _), AllApart.imp h ps hr.2⟩

theorem AllApart.imp (h : ∀ n m, R n m → S n m) :
    (ps : List (Property τ V)) → AllApart R ps → AllApart S ps
  | [], _ => trivial
  | p :: ps, hr => by
    simp only [AllApart] at hr ⊢
    exact ⟨Apart.imp h p hr.1, AllApart.imp h ps hr.2⟩

end

mutual

theorem apart_iff_distinct : (p : Property τ V) →
    (Apart (fun n m => n = "" ∨ n ≠ m) p ↔ Distinct p)
  | .leaf _ _ _ _ => by simp only [Apart, Distinct]
  | .bag _ _ _ ps => by simp only [Apart, Distinct, allApart_iff_distinctAll ps]

theorem allApart_iff_distinctAll : (ps : List (Property τ V)) →
    (AllApart (fun n m => n = "" ∨ n ≠ m) ps ↔ DistinctAll ps)
  | [] => by simp only [AllApart, DistinctAll]
  | p :: ps => by
    simp only [AllApart, DistinctAll, apart_iff_distinct p, allApart_iff_distinctAll ps]

end

theorem Alike.distinct {p q : Property τ V} (h : Alike p q) (hd : Distinct p) : Distinct q :=
  (apart_iff_distinct q).mp (Alike.apart p q h ((apart_iff_distinct p).mpr hd))

/-- No name is there twice, the empty one not either. -/
theorem Apart.distinct {p : Property τ V} (h : Apart (· ≠ ·) p) : Distinct p :=
  (apart_iff_distinct p).mp (Apart.imp (fun _ _ hne => .inr hne) p h)

end

/-! ### Refreshes -/

variable (ts : TypeSystem ι τ V)

omit [DecidableEq τ] in
theorem differ_plain : ts.differ "PropertyBag" "PropertyBag" = false := by
  simp [differ]

mutual

theorem refresh_alike : (p q : Property τ V) → Alike p q → Distinct q →
    ts.refreshProperty p q = (given false p q, .ok)
  | .leaf n d t w, .leaf n' d' t' v, h, _ => by
    simp only [Alike] at h
    obtain ⟨rfl, rfl⟩ := h
    simp [refreshProperty, given, assign]
  | .bag n d type ps, .bag n' d' type' qs, h, hd => by
    simp only [Alike] at h
    obtain ⟨rfl, rfl, rfl, halike⟩ := h
    simp only [Distinct] at hd
    have ih := refreshList_alike false [] ps qs halike hd.1 hd.2
    rw [List.nil_append, List.length_nil] at ih
    simp [refreshProperty, given, differ_plain, ih]
  | .leaf _ _ _ _, .bag _ _ _ _, h, _ => by simp [Alike] at h
  | .bag _ _ _ _, .leaf _ _ _ _, h, _ => by simp [Alike] at h

/-- With distinct names, each property finds the one of its own place. -/
theorem refreshList_alike (allprops : Bool) : (pre ps qs : List (Property τ V)) →
    AllAlike ps qs →
    ((pre ++ qs).map Property.name).Pairwise (fun n m => n = "" ∨ n ≠ m) → DistinctAll qs →
      ts.refreshList allprops (pre ++ qs) pre.length ps = (allGiven false ps qs, .ok)
  | pre, [], [], _, _, _ => by simp [refreshList, allGiven]
  | pre, p :: ps, q :: qs, h, hn, hd => by
    simp only [AllAlike] at h
    simp only [DistinctAll] at hd
    have hsource := sourceOf_of_distinct hn
    rw [← h.1.name] at hsource
    have hfirst := refresh_alike p q h.1 hd.1
    have ih := refreshList_alike allprops (pre ++ [q]) ps qs h.2 (by simpa using hn) hd.2
    rw [List.append_assoc, List.singleton_append, List.length_append, List.length_singleton] at ih
    simp [refreshList, allGiven, hsource, hfirst, ih]
  | _, [], _ :: _, h, _, _ => by simp [AllAlike] at h
  | _, _ :: _, [], h, _, _ => by simp [AllAlike] at h

end

/-! ### Updates -/

omit [DecidableEq ι] [DecidableEq τ] in
/-- Where its name is the first of its kind, the property of that name is updated. -/
theorem updateAt_first {u : Updater τ V} {pre : List (Property τ V)} {p : Property τ V}
    (hpre : ∀ x ∈ pre, x.name ≠ u.name) (hp : p.name = u.name) (ps : List (Property τ V)) :
    updateAt u 0 (pre ++ p :: ps) = (pre ++ (u.update p).1 :: ps, (u.update p).2) := by
  induction pre with
  | nil => simp [updateAt, hp]
  | cons x pre ih =>
    have hx := hpre x List.mem_cons_self
    have ih := ih fun y hy => hpre y (List.mem_cons_of_mem x hy)
    simp [updateAt, hx, ih]

/-- Each name has one updater. -/
theorem updaters_single {pre qs : List (Property τ V)} {q : Property τ V}
    (hn : ((pre ++ q :: qs).map Property.name).Nodup) :
    (ts.updaters (pre ++ q :: qs)).filter (fun u => u.name = q.name) = [ts.updater q] := by
  rw [List.map_append, List.map_cons, List.nodup_middle, List.nodup_cons, List.mem_append] at hn
  have hpre : ∀ x ∈ pre, x.name ≠ q.name := fun x hx he =>
    hn.1 (.inl (List.mem_map.mpr ⟨x, hx, he⟩))
  have hqs : ∀ x ∈ qs, x.name ≠ q.name := fun x hx he =>
    hn.1 (.inr (List.mem_map.mpr ⟨x, hx, he⟩))
  have hfilter : (pre ++ q :: qs).filter (fun x => x.name = q.name) = [q] := by
    rw [List.filter_append, List.filter_eq_nil_iff.mpr (by simpa using hpre),
      List.filter_cons_of_pos (by simp), List.filter_eq_nil_iff.mpr (by simpa using hqs)]
    rfl
  rw [updaters_eq, List.filter_map]
  simp only [Function.comp_def, updater_name]
  rw [hfilter]
  rfl

mutual

theorem update_alike : (p q : Property τ V) → Alike p q → Apart (· ≠ ·) q →
    (ts.updater q).update p = (given true p q, .ok)
  | .leaf n d t w, .leaf n' d' t' v, h, _ => by
    simp only [Alike] at h
    obtain ⟨rfl, rfl⟩ := h
    rw [updater_leaf]
    simp [given]
  | .bag n d type ps, .bag n' d' type' qs, h, hs => by
    simp only [Alike] at h
    obtain ⟨rfl, rfl, rfl, halike⟩ := h
    simp only [Apart] at hs
    have ih := updateWith_alike ps qs halike hs.1 hs.2
    rw [updater_bag, ih]
    simp [given]
  | .leaf _ _ _ _, .bag _ _ _ _, h, _ => by simp [Alike] at h
  | .bag _ _ _ _, .leaf _ _ _ _, h, _ => by simp [Alike] at h

theorem updateWith_alike (ps qs : List (Property τ V)) (h : AllAlike ps qs)
    (hn : (qs.map Property.name).Nodup) (hs : AllApart (· ≠ ·) qs) :
    ts.updateWith (ts.updaters qs) "PropertyBag" ⟨"PropertyBag", ps⟩ =
      (⟨"PropertyBag", allGiven true ps qs⟩, .ok) := by
  have hnames : ((ts.updaters qs).map Updater.name).destutter (· ≠ ·) = qs.map Property.name := by
    rw [updaters_eq, List.map_map]
    simp only [Function.comp_def, updater_name]
    exact List.destutter_of_isChain _ _ hn.isChain
  have hlist := updateNames_alike [] [] ps qs rfl h (by simpa using hn) hs
  rw [List.nil_append, List.nil_append, List.nil_append] at hlist
  unfold updateWith
  simp [mend, differ_plain, hnames, hlist]

theorem updateNames_alike : (done pre ps qs : List (Property τ V)) →
    done.map Property.name = pre.map Property.name → AllAlike ps qs →
    ((pre ++ qs).map Property.name).Nodup → AllApart (· ≠ ·) qs →
      updateNames (ts.updaters (pre ++ qs)) (qs.map Property.name) (done ++ ps) =
        (done ++ allGiven true ps qs, .ok)
  | done, pre, [], [], _, _, _, _ => by simp [updateNames, allGiven]
  | done, pre, p :: ps, q :: qs, hdone, h, hn, hs => by
    simp only [AllAlike] at h
    simp only [AllApart] at hs
    have hfirst := update_alike p q h.1 hs.1
    have hbefore : ∀ x ∈ done, x.name ≠ (ts.updater q).name := by
      intro x hx he
      rw [updater_name] at he
      have hmem : q.name ∈ pre.map Property.name := by
        rw [← hdone, ← he]
        exact List.mem_map_of_mem hx
      rw [List.map_append, List.map_cons, List.nodup_middle, List.nodup_cons] at hn
      exact hn.1 (List.mem_append_left _ hmem)
    have hat : updateAt (ts.updater q) 0 (done ++ p :: ps) =
        (done ++ given true p q :: ps, .ok) := by
      rw [updateAt_first hbefore (by rw [updater_name, h.1.name]), hfirst]
    have hname : (given true p q).name = q.name := by
      have hsteady := (updater_steady ts q).name p
      rw [hfirst] at hsteady
      exact hsteady.trans h.1.name
    have ih := updateNames_alike (done ++ [given true p q]) (pre ++ [q]) ps qs
      (by simp [hdone, hname]) h.2 (by simpa using hn) hs.2
    rw [List.append_assoc, List.append_assoc, List.append_assoc, List.singleton_append,
      List.singleton_append, List.singleton_append] at ih
    rw [List.map_cons, updateNames, updaters_single ts hn]
    simp [updateNamed, hat, ih, allGiven]
  | _, _, [], _ :: _, _, h, _, _ => by simp [AllAlike] at h
  | _, _, _ :: _, [], _, h, _, _ => by simp [AllAlike] at h

end

end OrocosRtt.Marsh
