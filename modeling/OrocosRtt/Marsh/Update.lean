import OrocosRtt.Marsh.PropertyBag

/-! What an update of a bag with another one does to its properties, and that it changes nothing the
second time. -/
namespace OrocosRtt.Marsh

variable {ι τ V : Type}

/-! ### Properties by name and number -/

/-- The `k`-th property of the name. -/
def nth (n : String) (k : ℕ) (ps : List (Property τ V)) : Option (Property τ V) :=
  (ps.filter fun p => p.name = n)[k]?

theorem nth_nil (n : String) (k : ℕ) : nth n k ([] : List (Property τ V)) = none := rfl

theorem nth_cons_zero {n : String} {p : Property τ V} (h : p.name = n) (ps : List (Property τ V)) :
    nth n 0 (p :: ps) = some p := by
  simp [nth, h]

theorem nth_cons_succ {n : String} {p : Property τ V} (h : p.name = n) (k : ℕ)
    (ps : List (Property τ V)) : nth n (k + 1) (p :: ps) = nth n k ps := by
  simp [nth, h]

theorem nth_cons_ne {n : String} {p : Property τ V} (h : p.name ≠ n) (k : ℕ)
    (ps : List (Property τ V)) : nth n k (p :: ps) = nth n k ps := by
  simp [nth, h]

theorem nth_name {n : String} {k : ℕ} {ps : List (Property τ V)} {p : Property τ V}
    (h : nth n k ps = some p) : p.name = n := by
  have hmem := List.mem_of_getElem? h
  simpa using (List.mem_filter.mp hmem).2

/-- All properties of the name with a smaller number are there. -/
def Reaches (n : String) (k : ℕ) (ps : List (Property τ V)) : Prop :=
  ∀ j < k, (nth n j ps).isSome

theorem Reaches.tail {n : String} {k : ℕ} {p : Property τ V} {ps : List (Property τ V)}
    (h : Reaches n (k + 1) (p :: ps)) (hp : p.name = n) : Reaches n k ps := by
  intro j hj
  have hsome := h (j + 1) (by omega)
  rwa [nth_cons_succ hp] at hsome

theorem Reaches.of_ne {n : String} {k : ℕ} {p : Property τ V} {ps : List (Property τ V)}
    (h : Reaches n k (p :: ps)) (hp : p.name ≠ n) : Reaches n k ps := by
  intro j hj
  have hsome := h j hj
  rwa [nth_cons_ne hp] at hsome

/-! ### One update -/

/-- An update keeps the name, and that of a created property succeeds and can be repeated. -/
structure Updater.Steady (u : Updater τ V) : Prop where
  created_name : u.created.name = u.name
  name : ∀ p, (u.update p).1.name = p.name
  created : (u.update u.created).2 = .ok
  remade : u.update (u.update u.created).1 = ((u.update u.created).1, .ok)

/-- An update changes nothing after one that succeeded. -/
def Updater.Repeats (u : Updater τ V) : Prop :=
  ∀ p, (u.update p).2 = .ok → u.update (u.update p).1 = ((u.update p).1, .ok)

/-- What the update makes of the property, or of one that is created. -/
def Updater.result (u : Updater τ V) (p : Option (Property τ V)) : Property τ V × Outcome :=
  u.update (p.getD u.created)

theorem Updater.Steady.result_name {u : Updater τ V} (hu : u.Steady) {p : Option (Property τ V)}
    (h : ∀ q, p = some q → q.name = u.name) : (u.result p).1.name = u.name := by
  rw [Updater.result, hu.name]
  cases p with
  | none => exact hu.created_name
  | some q => exact h q rfl

namespace TypeSystem

/-- The property is updated, or created and updated, and the other ones stay as they are. -/
structure UpdatedAt (u : Updater τ V) (k : ℕ) (ps ps' : List (Property τ V)) : Prop where
  ok : (u.result (nth u.name k ps)).2 = .ok
  result : nth u.name k ps' = some (u.result (nth u.name k ps)).1
  others : ∀ n j, n ≠ u.name ∨ j ≠ k → nth n j ps' = nth n j ps

theorem updateAt_spec {u : Updater τ V} (hu : u.Steady) {k : ℕ} {ps : List (Property τ V)}
    (hk : Reaches u.name k ps) (h : (updateAt u k ps).2 = .ok) :
    UpdatedAt u k ps (updateAt u k ps).1 := by
  induction ps generalizing k with
  | nil =>
    have hzero : k = 0 := by
      by_contra hne
      have hsome := hk 0 (by omega)
      cases hsome
    subst hzero
    have hname : (u.update u.created).1.name = u.name := (hu.name _).trans hu.created_name
    have hfirst : (updateAt u 0 []).1 = [(u.update u.created).1] := by
      rw [updateAt, if_neg (by rw [hu.created]; nofun)]
    refine ⟨hu.created, ?_, ?_⟩
    · rw [hfirst, nth_cons_zero hname]
      rfl
    · intro n j hne
      rw [hfirst]
      by_cases hn : n = u.name
      · subst hn
        obtain ⟨j, rfl⟩ := Nat.exists_eq_succ_of_ne_zero (hne.resolve_left (absurd rfl))
        exact nth_cons_succ hname j []
      · exact nth_cons_ne (fun he => hn (he.symm.trans hname)) j []
  | cons p ps ih =>
    unfold updateAt at h ⊢
    by_cases hp : p.name = u.name
    · rw [if_pos hp] at h ⊢
      have hname : (u.update p).1.name = u.name := (hu.name p).trans hp
      cases k with
      | zero =>
        dsimp only at h ⊢
        refine ⟨?_, ?_, ?_⟩
        · rw [nth_cons_zero hp]
          exact h
        · rw [nth_cons_zero hp, nth_cons_zero hname]
          rfl
        · intro n j hne
          by_cases hn : n = u.name
          · subst hn
            obtain ⟨j, rfl⟩ := Nat.exists_eq_succ_of_ne_zero (hne.resolve_left (absurd rfl))
            rw [nth_cons_succ hname, nth_cons_succ hp]
          · rw [nth_cons_ne (fun he => hn (he.symm.trans hname)),
              nth_cons_ne (fun he => hn (he.symm.trans hp))]
      | succ k =>
        dsimp only at h ⊢
        obtain ⟨hok, hresult, hothers⟩ := ih (hk.tail hp) h
        refine ⟨?_, ?_, ?_⟩
        · rwa [nth_cons_succ hp]
        · rwa [nth_cons_succ hp, nth_cons_succ hp]
        · intro n j hne
          by_cases hn : n = u.name
          · subst hn
            cases j with
            | zero => rw [nth_cons_zero hp, nth_cons_zero hp]
            | succ j =>
              rw [nth_cons_succ hp, nth_cons_succ hp]
              exact hothers _ j (Or.inr fun he => hne.elim (absurd rfl) fun hj => hj (he ▸ rfl))
          · rw [nth_cons_ne (fun he => hn (he.symm.trans hp)),
              nth_cons_ne (fun he => hn (he.symm.trans hp))]
            exact hothers n j (Or.inl hn)
    · rw [if_neg hp] at h ⊢
      obtain ⟨hok, hresult, hothers⟩ := ih (hk.of_ne hp) h
      refine ⟨?_, ?_, ?_⟩
      · rwa [nth_cons_ne hp]
      · rwa [nth_cons_ne hp, nth_cons_ne hp]
      · intro n j hne
        by_cases hn : p.name = n
        · subst hn
          cases j with
          | zero => rw [nth_cons_zero rfl, nth_cons_zero rfl]
          | succ j =>
            rw [nth_cons_succ rfl, nth_cons_succ rfl]
            exact hothers _ j (Or.inl hp)
        · rw [nth_cons_ne hn, nth_cons_ne hn]
          exact hothers n j hne

theorem UpdatedAt.reaches {u : Updater τ V} {k : ℕ} {ps ps' : List (Property τ V)}
    (h : UpdatedAt u k ps ps') (hk : Reaches u.name k ps) : Reaches u.name (k + 1) ps' := by
  intro j hj
  by_cases hjk : j = k
  · rw [hjk, h.result]
    rfl
  · rw [h.others _ j (Or.inr hjk)]
    exact hk j (by omega)

/-- A property that its update leaves as it is. -/
theorem updateAt_same {u : Updater τ V} {k : ℕ} {ps : List (Property τ V)} {p : Property τ V}
    (h : nth u.name k ps = some p) (hp : u.update p = (p, .ok)) : updateAt u k ps = (ps, .ok) := by
  induction ps generalizing k with
  | nil => cases h
  | cons q ps ih =>
    unfold updateAt
    by_cases hq : q.name = u.name
    · rw [if_pos hq]
      cases k with
      | zero =>
        rw [nth_cons_zero hq] at h
        cases h
        rw [hp]
      | succ k =>
        rw [nth_cons_succ hq] at h
        dsimp only
        rw [ih h]
    · rw [nth_cons_ne hq] at h
      rw [if_neg hq, ih h]

/-! ### The sources of one name, and all names -/

/-- The `k`-th source of the name. -/
def sourceAt (us : List (Updater τ V)) (n : String) (k : ℕ) : Option (Updater τ V) :=
  (us.filter fun u => u.name = n)[k]?

/-- The `k`-th property of the name is updated with its source, if there is one. -/
def Taken (u : Option (Updater τ V)) (p p' : Option (Property τ V)) : Prop :=
  match u with
  | some u => (u.result p).2 = .ok ∧ p' = some (u.result p).1
  | none => p' = p

theorem updateNamed_spec {n : String} (us : List (Updater τ V)) (hus : ∀ u ∈ us, u.Steady ∧ u.name = n)
    (k : ℕ) (ps : List (Property τ V)) (hk : Reaches n k ps) (h : (updateNamed us k ps).2 = .ok) :
    (∀ j, Taken us[j]? (nth n (k + j) ps) (nth n (k + j) (updateNamed us k ps).1)) ∧
      ∀ m j, m ≠ n ∨ j < k → nth m j (updateNamed us k ps).1 = nth m j ps := by
  induction us generalizing k ps with
  | nil => exact ⟨fun j => rfl, fun m j _ => rfl⟩
  | cons u us ih =>
    obtain ⟨hu, rfl⟩ := hus u List.mem_cons_self
    rw [updateNamed] at h ⊢
    by_cases hok : (updateAt u k ps).2 = .ok
    · rw [if_pos hok] at h ⊢
      have hone := updateAt_spec hu hk hok
      obtain ⟨htaken, hothers⟩ := ih (fun v hv => hus v (List.mem_cons_of_mem u hv)) (k + 1)
        (updateAt u k ps).1 (hone.reaches hk) h
      constructor
      · intro j
        cases j with
        | zero =>
          refine ⟨hone.ok, ?_⟩
          rw [hothers _ _ (Or.inr (by omega)), Nat.add_zero, hone.result]
        | succ j =>
          have hj := htaken j
          rw [hone.others _ _ (Or.inr (by omega)), show k + 1 + j = k + (j + 1) by omega] at hj
          exact hj
      · intro m j hne
        have hwas : m ≠ u.name ∨ j ≠ k := hne.imp_right fun hlt => by omega
        rw [hothers m j (hne.imp_right fun hlt => by omega), hone.others m j hwas]
    · rw [if_neg hok] at h
      exact absurd h hok

/-- What the update makes of the property is left as it is by another one. -/
def Again (u : Option (Updater τ V)) (p : Option (Property τ V)) : Prop :=
  ∀ v, u = some v → (v.result p).2 = .ok → v.update (v.result p).1 = ((v.result p).1, .ok)

theorem Taken.again {u : Option (Updater τ V)} {p p' p'' : Option (Property τ V)} (hu : Again u p)
    (h : Taken u p p') (h' : Taken u p' p'') : Taken u p p'' := by
  cases u with
  | none => exact Eq.trans h' h
  | some u =>
    obtain ⟨hok, rfl⟩ := h
    obtain ⟨-, rfl⟩ := h'
    have hsame : u.result (some (u.result p).1) = ((u.result p).1, .ok) := hu u rfl hok
    refine ⟨hok, ?_⟩
    rw [hsame]

theorem Taken.repeats {u : Option (Updater τ V)} {p p' : Option (Property τ V)} (hu : Again u p)
    (h : Taken u p p') : Again u p' := by
  cases u with
  | none =>
    rw [show p' = p from h]
    exact hu
  | some u =>
    obtain ⟨hok, rfl⟩ := h
    have hsame : u.result (some (u.result p).1) = ((u.result p).1, .ok) := hu u rfl hok
    rintro v ⟨⟩ -
    rw [hsame]
    exact hsame

theorem mem_sourceAt {us : List (Updater τ V)} {n : String} {u : Updater τ V}
    (h : u ∈ us.filter fun u => u.name = n) : u ∈ us ∧ u.name = n := by
  simpa using List.mem_filter.mp h

theorem sourceAt_mem {us : List (Updater τ V)} {n : String} {k : ℕ} {u : Updater τ V}
    (h : sourceAt us n k = some u) : u ∈ us ∧ u.name = n :=
  mem_sourceAt (List.mem_of_getElem? h)

/-- Each property of the names is updated, and no other one. -/
theorem updateNames_spec {us : List (Updater τ V)} (hus : ∀ u ∈ us, u.Steady) (names : List String)
    (ps : List (Property τ V)) (hps : ∀ n k, Again (sourceAt us n k) (nth n k ps))
    (h : (updateNames us names ps).2 = .ok) (n : String) (k : ℕ) :
    (n ∈ names → Taken (sourceAt us n k) (nth n k ps) (nth n k (updateNames us names ps).1)) ∧
      (n ∉ names → nth n k (updateNames us names ps).1 = nth n k ps) := by
  induction names generalizing ps with
  | nil => exact ⟨nofun, fun _ => rfl⟩
  | cons m names ih =>
    rw [updateNames] at h ⊢
    by_cases hok : (updateNamed (us.filter fun u => u.name = m) 0 ps).2 = .ok
    · rw [if_pos hok] at h ⊢
      have hsteady : ∀ u ∈ us.filter fun u => u.name = m, u.Steady ∧ u.name = m :=
        fun u hu => ⟨hus u (mem_sourceAt hu).1, (mem_sourceAt hu).2⟩
      obtain ⟨htaken, hothers⟩ := updateNamed_spec _ hsteady 0 ps nofun hok
      have hone : ∀ k, Taken (sourceAt us m k) (nth m k ps)
          (nth m k (updateNamed (us.filter fun u => u.name = m) 0 ps).1) := by
        intro k
        have hk := htaken k
        rwa [Nat.zero_add] at hk
      have hagain : ∀ n k, Again (sourceAt us n k)
          (nth n k (updateNamed (us.filter fun u => u.name = m) 0 ps).1) := by
        intro n k
        by_cases hm : n = m
        · subst hm
          exact (hone k).repeats (hps n k)
        · rw [hothers n k (Or.inl hm)]
          exact hps n k
      obtain ⟨hin, hout⟩ := ih _ hagain h
      by_cases hm : n = m
      · subst hm
        refine ⟨fun _ => ?_, fun hno => absurd List.mem_cons_self hno⟩
        by_cases hmem : n ∈ names
        · exact (hone k).again (hps n k) (hin hmem)
        · rw [hout hmem]
          exact hone k
      · have hwas := hothers n k (Or.inl hm)
        rw [← hwas]
        exact ⟨fun hmem => hin ((List.mem_cons.mp hmem).resolve_left hm),
          fun hno => hout fun hmem => hno (List.mem_cons_of_mem m hmem)⟩
    · rw [if_neg hok] at h
      exact absurd h hok

theorem updateNamed_same {n : String} (us : List (Updater τ V)) (k : ℕ) (ps : List (Property τ V))
    (h : ∀ j u, us[j]? = some u → u.name = n ∧ ∃ p, nth n (k + j) ps = some p ∧ u.update p = (p, .ok)) :
    updateNamed us k ps = (ps, .ok) := by
  induction us generalizing k with
  | nil => rfl
  | cons u us ih =>
    obtain ⟨rfl, p, hp, hsame⟩ := h 0 u rfl
    rw [Nat.add_zero] at hp
    rw [updateNamed, updateAt_same hp hsame, if_pos rfl]
    refine ih (k + 1) fun j v hv => ?_
    have hv' := h (j + 1) v hv
    rwa [show k + (j + 1) = k + 1 + j by omega] at hv'

/-- Nothing changes where the properties are what their updates make of them. -/
theorem updateNames_same {us : List (Updater τ V)} {ps : List (Property τ V)}
    (h : ∀ n k u, sourceAt us n k = some u → ∃ p, nth n k ps = some p ∧ u.update p = (p, .ok))
    (names : List String) : updateNames us names ps = (ps, .ok) := by
  induction names with
  | nil => rfl
  | cons n names ih =>
    have hone : updateNamed (us.filter fun u => u.name = n) 0 ps = (ps, .ok) := by
      refine updateNamed_same (n := n) _ 0 ps fun j u hu => ⟨(sourceAt_mem hu).2, ?_⟩
      rw [Nat.zero_add]
      exact h n j u hu
    rw [updateNames, hone, if_pos rfl, ih]

/-- All properties are what the updates of their sources make of them. -/
def Settled (us : List (Updater τ V)) (ps : List (Property τ V)) : Prop :=
  ∀ n k p, nth n k ps = some p → ∃ u, sourceAt us n k = some u ∧ u.update p = (p, .ok)

theorem updateAt_creates {u : Updater τ V} (hu : u.Steady) {k : ℕ} {ps : List (Property τ V)}
    (h : nth u.name k ps = none) : (updateAt u k ps).2 = .ok := by
  induction ps generalizing k with
  | nil => rw [updateAt, if_neg (by rw [hu.created]; nofun)]
  | cons p ps ih =>
    unfold updateAt
    by_cases hp : p.name = u.name
    · rw [if_pos hp]
      cases k with
      | zero =>
        rw [nth_cons_zero hp] at h
        cases h
      | succ k =>
        rw [nth_cons_succ hp] at h
        exact ih h
    · rw [if_neg hp]
      rw [nth_cons_ne hp] at h
      exact ih h

theorem updateAt_settled {us : List (Updater τ V)} {u : Updater τ V} (hu : u.Steady) {k : ℕ}
    {ps : List (Property τ V)} (hs : Settled us ps) (hat : sourceAt us u.name k = some u)
    (hk : Reaches u.name k ps) : (updateAt u k ps).2 = .ok ∧ Settled us (updateAt u k ps).1 := by
  cases hp : nth u.name k ps with
  | some p =>
    obtain ⟨v, hv, hsame⟩ := hs _ _ p hp
    rw [hat] at hv
    cases hv
    rw [updateAt_same hp hsame]
    exact ⟨rfl, hs⟩
  | none =>
    have hok := updateAt_creates hu hp
    have hone := updateAt_spec hu hk hok
    refine ⟨hok, fun n j p hj => ?_⟩
    by_cases hnew : n = u.name ∧ j = k
    · obtain ⟨rfl, rfl⟩ := hnew
      rw [hone.result] at hj
      cases hj
      rw [hp]
      exact ⟨u, hat, hu.remade⟩
    · rw [hone.others n j (by rw [← not_and_or]; exact hnew)] at hj
      exact hs n j p hj

theorem updateNamed_settled {us : List (Updater τ V)} {n : String} (vs : List (Updater τ V))
    (hvs : ∀ v ∈ vs, v.Steady ∧ v.name = n) (k : ℕ)
    (hat : ∀ j, vs[j]? = sourceAt us n (k + j)) (ps : List (Property τ V)) (hs : Settled us ps)
    (hk : Reaches n k ps) : (updateNamed vs k ps).2 = .ok ∧ Settled us (updateNamed vs k ps).1 := by
  induction vs generalizing k ps with
  | nil => exact ⟨rfl, hs⟩
  | cons v vs ih =>
    obtain ⟨hv, rfl⟩ := hvs v List.mem_cons_self
    have hfirst : sourceAt us v.name k = some v := (hat 0).symm
    obtain ⟨hok, hsettled⟩ := updateAt_settled hv hs hfirst hk
    rw [updateNamed, if_pos hok]
    refine ih (fun w hw => hvs w (List.mem_cons_of_mem v hw)) (k + 1) (fun j => ?_) _ hsettled
      ((updateAt_spec hv hk hok).reaches hk)
    have hj := hat (j + 1)
    rwa [show k + (j + 1) = k + 1 + j by omega] at hj

/-- What an update makes of an empty bag. -/
theorem updateNames_settled {us : List (Updater τ V)} (hus : ∀ u ∈ us, u.Steady)
    (names : List String) (ps : List (Property τ V)) (hs : Settled us ps) :
    (updateNames us names ps).2 = .ok := by
  induction names generalizing ps with
  | nil => rfl
  | cons n names ih =>
    have hsteady : ∀ u ∈ us.filter fun u => u.name = n, u.Steady ∧ u.name = n :=
      fun u hu => ⟨hus u (mem_sourceAt hu).1, (mem_sourceAt hu).2⟩
    have hat : ∀ j, (us.filter fun u => u.name = n)[j]? = sourceAt us n (0 + j) :=
      fun j => by rw [Nat.zero_add]; rfl
    obtain ⟨hok, hsettled⟩ := updateNamed_settled _ hsteady 0 hat ps hs nofun
    rw [updateNames, if_pos hok]
    exact ih _ hsettled

/-! ### Bags -/

theorem mem_destutter' (n m : String) (l : List String) (h : n ∈ m :: l) :
    n ∈ l.destutter' (· ≠ ·) m := by
  induction l generalizing m with
  | nil => exact h
  | cons a l ih =>
    by_cases hm : m = a
    · subst hm
      rw [List.destutter'_cons_neg _ (not_not_intro rfl)]
      exact ih m (by simpa using h)
    · rw [List.destutter'_cons_pos _ hm]
      rcases List.mem_cons.mp h with rfl | hmem
      · exact List.mem_cons_self
      · exact List.mem_cons_of_mem m (ih a hmem)

theorem mem_destutter {n : String} {l : List String} (h : n ∈ l) : n ∈ l.destutter (· ≠ ·) := by
  cases l with
  | nil => cases h
  | cons m l => exact mem_destutter' n m l h

section

variable [DecidableEq ι] (ts : TypeSystem ι τ V)

theorem differ_mend (type : String) : ts.differ (mend type) type = false := by
  unfold mend
  split
  · rw [differ, typed, ts.type_bag]
    simp
  · simp [differ]

theorem updateWith_type {us : List (Updater τ V)} {type : String} {t : PropertyBag τ V}
    (h : (ts.updateWith us type t).2 = .ok) : (ts.updateWith us type t).1.type = type := by
  unfold updateWith at h ⊢
  dsimp only at h ⊢
  split at h
  · cases h
  · rename_i hd
    rw [if_neg hd]

/-- Each property that has a source is updated with it, or created, and no other one is touched. -/
theorem updateWith_spec {us : List (Updater τ V)} (hus : ∀ u ∈ us, u.Steady) {type : String}
    {t : PropertyBag τ V} (ht : ∀ n k, Again (sourceAt us n k) (nth n k t.properties))
    (h : (ts.updateWith us type t).2 = .ok) (n : String) (k : ℕ) :
    Taken (sourceAt us n k) (nth n k t.properties)
      (nth n k (ts.updateWith us type t).1.properties) := by
  unfold updateWith at h ⊢
  dsimp only at h ⊢
  split at h
  · cases h
  · rename_i hd
    rw [if_neg hd]
    dsimp only
    obtain ⟨hin, hout⟩ := updateNames_spec hus _ _ ht h n k
    cases hu : sourceAt us n k with
    | none =>
      by_cases hmem : n ∈ (us.map Updater.name).destutter (· ≠ ·)
      · have htaken := hin hmem
        rwa [hu] at htaken
      · exact hout hmem
    | some u =>
      obtain ⟨hmem, hname⟩ := sourceAt_mem hu
      have htaken := hin (mem_destutter (hname ▸ List.mem_map_of_mem hmem))
      rwa [hu] at htaken

theorem updateWith_again {us : List (Updater τ V)} (hus : ∀ u ∈ us, u.Steady) {type : String}
    {t : PropertyBag τ V} (ht : ∀ n k, Again (sourceAt us n k) (nth n k t.properties))
    (h : (ts.updateWith us type t).2 = .ok) :
    ts.updateWith us type (ts.updateWith us type t).1 = ((ts.updateWith us type t).1, .ok) := by
  have hspec := updateWith_spec ts hus ht h
  have htype := updateWith_type ts h
  generalize (ts.updateWith us type t).1 = t' at hspec htype ⊢
  have hfixed : ∀ n k u, sourceAt us n k = some u →
      ∃ p, nth n k t'.properties = some p ∧ u.update p = (p, .ok) := by
    intro n k u hu
    have htaken := hspec n k
    rw [hu] at htaken
    obtain ⟨hok, hnew⟩ := htaken
    exact ⟨_, hnew, ht n k u hu hok⟩
  have hsame := updateNames_same hfixed ((us.map Updater.name).destutter (· ≠ ·))
  subst htype
  unfold updateWith
  dsimp only
  rw [differ_mend, if_neg (by simp), hsame]

theorem updateWith_empty {us : List (Updater τ V)} (hus : ∀ u ∈ us, u.Steady) (type : String) :
    (ts.updateWith us type ⟨"PropertyBag", []⟩).2 = .ok := by
  unfold updateWith
  have hmend : mend "PropertyBag" = "PropertyBag" := by decide
  have hplain : ts.differ "PropertyBag" type = false := by simp [differ, typed, ts.type_bag]
  dsimp only
  rw [hmend, hplain, if_neg (by simp)]
  exact updateNames_settled hus _ [] nofun

theorem again_nil {us : List (Updater τ V)} (hus : ∀ u ∈ us, u.Steady) (n : String) (k : ℕ) :
    Again (sourceAt us n k) (nth n k ([] : List (Property τ V))) :=
  fun u hu _ => (hus u (sourceAt_mem hu).1).remade

theorem again_repeats {us : List (Updater τ V)} (hus : ∀ u ∈ us, u.Repeats) (n : String) (k : ℕ)
    (ps : List (Property τ V)) : Again (sourceAt us n k) (nth n k ps) :=
  fun u hu hok => hus u (sourceAt_mem hu).1 _ hok

end

/-! ### Sources that are properties -/

section

variable [DecidableEq ι] [DecidableEq τ] (ts : TypeSystem ι τ V)

/-- A composition that succeeded gives the same when it is done again. -/
def Recomposes : Prop :=
  ∀ type source v, (ts.composeType type source v).2 = .ok →
    ts.composeType type source (ts.composeType type source v).1 =
      ((ts.composeType type source v).1, .ok)

/-- What is done with a source of another type. -/
def adopted (type : τ) (v : V) (source : Property τ V) : V × Outcome :=
  match ts.convert type source with
  | .value w => (w, .ok)
  | .thrown => (v, .thrown)
  | .none => ts.composeType type source v

omit [DecidableEq ι] in
theorem assign_leaf (type t : τ) (w v : V) (n d : String) :
    ts.assign type w (.leaf n d t v) =
      if t = type then (v, .ok) else ts.adopted type w (.leaf n d t v) := rfl

omit [DecidableEq ι] in
theorem assign_bag (type : τ) (w : V) (n d t : String) (qs : List (Property τ V)) :
    ts.assign type w (.bag n d t qs) = ts.adopted type w (.bag n d t qs) := rfl

variable {ts}

omit [DecidableEq ι] [DecidableEq τ] in
theorem adopted_again (hc : ts.Recomposes) {type : τ} {v : V} {source : Property τ V}
    (h : (ts.adopted type v source).2 = .ok) :
    ts.adopted type (ts.adopted type v source).1 source = ((ts.adopted type v source).1, .ok) := by
  unfold adopted at h ⊢
  cases hconv : ts.convert type source with
  | value w => rfl
  | thrown =>
    rw [hconv] at h
    cases h
  | none =>
    rw [hconv] at h
    exact hc type source v h

omit [DecidableEq ι] in
theorem assign_again (hc : ts.Recomposes) {type : τ} {v : V} {source : Property τ V}
    (h : (ts.assign type v source).2 = .ok) :
    ts.assign type (ts.assign type v source).1 source = ((ts.assign type v source).1, .ok) := by
  cases source with
  | leaf n d t w =>
    by_cases ht : t = type
    · simp only [assign_leaf, if_pos ht]
    · simp only [assign_leaf, if_neg ht] at h ⊢
      exact adopted_again hc h
  | bag n d t qs =>
    simp only [assign_bag] at h ⊢
    exact adopted_again hc h

variable (ts)

theorem updater_name (q : Property τ V) : (ts.updater q).name = q.name := by
  cases q <;> rw [updater] <;> rfl

theorem updaters_eq (qs : List (Property τ V)) : ts.updaters qs = qs.map ts.updater := by
  induction qs with
  | nil => rw [updaters]; rfl
  | cons q qs ih => rw [updaters, ih]; rfl

theorem sourceAt_updaters (qs : List (Property τ V)) (n : String) (k : ℕ) :
    sourceAt (ts.updaters qs) n k = (nth n k qs).map ts.updater := by
  have hnames : ((fun u : Updater τ V => decide (u.name = n)) ∘ ts.updater) =
      fun q => decide (q.name = n) := by
    funext q
    simp [updater_name]
  rw [sourceAt, updaters_eq, List.filter_map, hnames, List.getElem?_map]
  rfl

theorem updater_leaf (n d : String) (t : τ) (v : V) (n' d' : String) (v' : V) :
    (ts.updater (.leaf n d t v)).update (.leaf n' d' t v') =
      (.leaf n' (if d' = "" then d else d') t v, .ok) := by
  simp [updater, assign]

theorem updater_bag (n d type : String) (qs : List (Property τ V)) (n' d' type' : String)
    (ps : List (Property τ V)) :
    (ts.updater (.bag n d type qs)).update (.bag n' d' type' ps) =
      (.bag n' (if d' = "" then d else d') (ts.updateWith (ts.updaters qs) type ⟨type', ps⟩).1.type
        (ts.updateWith (ts.updaters qs) type ⟨type', ps⟩).1.properties,
        (ts.updateWith (ts.updaters qs) type ⟨type', ps⟩).2) := by
  rw [updater]

theorem description_again (d d' : String) :
    (if (if d' = "" then d else d') = "" then d else if d' = "" then d else d') =
      if d' = "" then d else d' := by
  by_cases hd : d' = ""
  · simp [hd]
  · simp [hd]

mutual

theorem updater_steady (q : Property τ V) : (ts.updater q).Steady := by
  have hname : ∀ p, ((ts.updater q).update p).1.name = p.name := by
    intro p
    cases q <;> cases p <;> rw [updater] <;> rfl
  cases q with
  | leaf n d t v =>
    have hcreated : (ts.updater (.leaf n d t v)).created = .leaf n d t (ts.initial t) := by
      rw [updater]
    refine ⟨by rw [updater]; rfl, hname, ?_, ?_⟩
    · rw [hcreated, updater_leaf]
    · rw [hcreated, updater_leaf, updater_leaf, description_again]
  | bag n d type qs =>
    have hcreated : (ts.updater (.bag n d type qs)).created = .bag n d "PropertyBag" [] := by
      rw [updater]
    have hus := updaters_steady qs
    have hok := updateWith_empty ts hus type
    have hagain := updateWith_again ts hus (again_nil hus) hok
    refine ⟨by rw [updater]; rfl, hname, ?_, ?_⟩
    · rw [hcreated, updater_bag]
      exact hok
    · rw [hcreated, updater_bag, updater_bag, hagain, description_again]

theorem updaters_steady (qs : List (Property τ V)) : ∀ u ∈ ts.updaters qs, u.Steady := by
  cases qs with
  | nil =>
    rw [updaters]
    nofun
  | cons q qs =>
    have hq := updater_steady q
    have hqs := updaters_steady qs
    rw [updaters]
    intro u hu
    rcases List.mem_cons.mp hu with rfl | hmem
    · exact hq
    · exact hqs u hmem

end

variable {ts}

mutual

theorem updater_repeats (hc : ts.Recomposes) (q : Property τ V) : (ts.updater q).Repeats := by
  intro p hok
  cases q with
  | leaf n d t v =>
    cases p with
    | leaf n' d' t' v' =>
      by_cases ht : t' = t
      · subst ht
        rw [updater_leaf, updater_leaf, description_again]
      · simp only [updater, ht, false_and, if_false] at hok ⊢
        rw [assign_again hc hok]
    | bag n' d' type ps =>
      rw [updater] at hok
      cases hok
  | bag n d type qs =>
    have hus := updaters_repeats hc qs
    cases p with
    | leaf n' d' t' v' =>
      simp only [updater] at hok ⊢
      rw [assign_again hc hok]
    | bag n' d' type' ps =>
      rw [updater_bag] at hok
      have hagain := updateWith_again ts (updaters_steady ts qs)
        (fun n k => again_repeats hus n k ps) hok
      rw [updater_bag, updater_bag, hagain, description_again]

theorem updaters_repeats (hc : ts.Recomposes) (qs : List (Property τ V)) :
    ∀ u ∈ ts.updaters qs, u.Repeats := by
  cases qs with
  | nil =>
    rw [updaters]
    nofun
  | cons q qs =>
    have hq := updater_repeats hc q
    have hqs := updaters_repeats hc qs
    rw [updaters]
    intro u hu
    rcases List.mem_cons.mp hu with rfl | hmem
    · exact hq
    · exact hqs u hmem

end

/-- A successful update changes nothing the second time. -/
theorem updateProperties_again (hc : ts.Recomposes) {target source : PropertyBag τ V}
    (h : (ts.updateProperties target source).2 = .ok) :
    ts.updateProperties (ts.updateProperties target source).1 source =
      ((ts.updateProperties target source).1, .ok) :=
  updateWith_again ts (updaters_steady ts source.properties)
    (fun n k => again_repeats (updaters_repeats hc source.properties) n k target.properties) h

theorem updateWith_updaters (hc : ts.Recomposes) {qs : List (Property τ V)} {type : String}
    {t : PropertyBag τ V} (h : (ts.updateWith (ts.updaters qs) type t).2 = .ok) (n : String) (k : ℕ) :
    Taken ((nth n k qs).map ts.updater) (nth n k t.properties)
      (nth n k (ts.updateWith (ts.updaters qs) type t).1.properties) := by
  have htaken := updateWith_spec ts (updaters_steady ts qs)
    (fun n k => again_repeats (updaters_repeats hc qs) n k t.properties) h n k
  rwa [sourceAt_updaters] at htaken

/-! ### Paths -/

/-- The property at the end of a path, each step of which is a name and a number. -/
def atPath : List (String × ℕ) → List (Property τ V) → Option (Property τ V)
  | [], _ => none
  | [(n, k)], ps => nth n k ps
  | (n, k) :: path, ps =>
    match nth n k ps with
    | some (.bag _ _ _ qs) => atPath path qs
    | _ => none

omit [DecidableEq ι] [DecidableEq τ] in
theorem atPath_cons {path : List (String × ℕ)} (hp : path ≠ []) (n : String) (k : ℕ)
    (ps : List (Property τ V)) :
    atPath ((n, k) :: path) ps =
      match nth n k ps with
      | some (.bag _ _ _ qs) => atPath path qs
      | _ => none := by
  cases path with
  | nil => exact absurd rfl hp
  | cons => rfl

omit [DecidableEq ι] [DecidableEq τ] in
theorem atPath_nil (path : List (String × ℕ)) : atPath path ([] : List (Property τ V)) = none := by
  cases path with
  | nil => rfl
  | cons step path =>
    obtain ⟨n, k⟩ := step
    by_cases hp : path = []
    · rw [hp, atPath, nth_nil]
    · rw [atPath_cons hp, nth_nil]

variable (ts)

/-- What a property of the target is when it has taken its source, which was of its type or was
adopted by the property there was. -/
inductive Took (old : Option (Property τ V)) : Property τ V → Property τ V → Prop
  | value (n d d' : String) (t : τ) (v : V) : Took old (.leaf n d t v) (.leaf n d' t v)
  | adopted (source : Property τ V) (n d : String) (t : τ) (w w' : V)
      (hold : ∃ d', old = some (.leaf n d' t w)) (htype : ∀ m e v, source ≠ .leaf m e t v)
      (hw : ts.adopted t w source = (w', .ok)) : Took old source (.leaf n d t w')
  | bag (n d d' type : String) (qs ps : List (Property τ V)) :
      Took old (.bag n d type qs) (.bag n d' type ps)

/-- Each property of the source is where it is in the source, unless a property of the target that is
no bag has been composed of a bag that it is in, and what is not in the source is as it was. -/
structure Follows (source target target' : List (Property τ V)) : Prop where
  took : ∀ path q, atPath path source = some q →
    (∃ p, atPath path target' = some p ∧ ts.Took (atPath path target) q p) ∨
      ∃ front rest n d t w, path = front ++ rest ∧ rest ≠ [] ∧
        atPath front target = some (.leaf n d t w)
  kept : ∀ path, atPath path source = none → atPath path target' = atPath path target

variable {ts}

theorem took_result {q : Property τ V} {old : Option (Property τ V)}
    (hname : ∀ p, old = some p → p.name = q.name) (h : ((ts.updater q).result old).2 = .ok) :
    ts.Took old q ((ts.updater q).result old).1 := by
  cases q with
  | leaf n d t v =>
    cases old with
    | none =>
      have hnew : ((ts.updater (.leaf n d t v)).result none).1 = .leaf n d t v := by
        simp [Updater.result, updater, assign]
      rw [hnew]
      exact .value n d d t v
    | some p =>
      cases p with
      | leaf n' d' t' v' =>
        obtain rfl : n' = n := hname _ rfl
        simp only [Updater.result, Option.getD_some, updater, assign_leaf] at h ⊢
        by_cases ht : t = t'
        · subst ht
          rw [if_pos rfl]
          exact .value ..
        · rw [if_neg ht] at h ⊢
          refine .adopted _ _ _ _ v' _ ⟨d', rfl⟩ ?_ (Prod.ext rfl h)
          intro m e w he
          cases he
          exact ht rfl
      | bag n' d' type ps =>
        simp only [Updater.result, Option.getD_some, updater] at h
        cases h
  | bag n d type qs =>
    have htook : ∀ d' type' ps, ((ts.updater (.bag n d type qs)).update (.bag n d' type' ps)).2 = .ok →
        ts.Took old (.bag n d type qs)
          ((ts.updater (.bag n d type qs)).update (.bag n d' type' ps)).1 := by
      intro d' type' ps hok
      rw [updater_bag] at hok ⊢
      dsimp only at hok ⊢
      rw [updateWith_type ts hok]
      exact .bag ..
    cases old with
    | none =>
      have hcreated : (ts.updater (.bag n d type qs)).created = .bag n d "PropertyBag" [] := by
        rw [updater]
      rw [Updater.result, Option.getD_none, hcreated] at h ⊢
      exact htook d "PropertyBag" [] h
    | some p =>
      cases p with
      | leaf n' d' t' v' =>
        obtain rfl : n' = n := hname _ rfl
        simp only [Updater.result, Option.getD_some, updater, assign_bag] at h ⊢
        exact .adopted _ _ _ _ v' _ ⟨d', rfl⟩ (fun m e w he => by cases he) (Prod.ext rfl h)
      | bag n' d' type' ps =>
        obtain rfl : n' = n := hname _ rfl
        exact htook d' type' ps h

/-- A bag of the source is gone through with the bag that the target has in its place, which may be
new. -/
theorem result_bag {n d type : String} {qs : List (Property τ V)} {old p : Option (Property τ V)}
    (h : Taken (some (ts.updater (.bag n d type qs))) old p) :
    (∃ m e t w w', old = some (.leaf m e t w) ∧ p = some (.leaf m e t w')) ∨
      ∃ t m e, (ts.updateWith (ts.updaters qs) type t).2 = .ok ∧
        p = some (.bag m e type (ts.updateWith (ts.updaters qs) type t).1.properties) ∧
        (old = none ∧ t.properties = [] ∨ ∃ m' e' s, old = some (.bag m' e' s t.properties)) := by
  obtain ⟨hok, rfl⟩ := h
  cases old with
  | none =>
    refine Or.inr ⟨⟨"PropertyBag", []⟩, n, if d = "" then d else d, ?_⟩
    simp only [Updater.result, Option.getD_none, updater] at hok ⊢
    rw [updateWith_type ts hok]
    exact ⟨hok, rfl, Or.inl ⟨trivial, trivial⟩⟩
  | some p =>
    cases p with
    | leaf m e t w =>
      refine Or.inl ⟨m, e, t, w, (ts.assign t w (.bag n d type qs)).1, rfl, ?_⟩
      simp only [Updater.result, Option.getD_some, updater]
    | bag m e s ps =>
      refine Or.inr ⟨⟨s, ps⟩, m, if e = "" then d else e, ?_⟩
      simp only [Updater.result, Option.getD_some, updater] at hok ⊢
      rw [updateWith_type ts hok]
      exact ⟨hok, rfl, Or.inr ⟨m, e, s, rfl⟩⟩

theorem updateWith_took (hc : ts.Recomposes) (path : List (String × ℕ)) {qs : List (Property τ V)}
    {type : String} {t : PropertyBag τ V} (h : (ts.updateWith (ts.updaters qs) type t).2 = .ok)
    {q : Property τ V} (hq : atPath path qs = some q) :
    (∃ p, atPath path (ts.updateWith (ts.updaters qs) type t).1.properties = some p ∧
        ts.Took (atPath path t.properties) q p) ∨
      ∃ front rest n d s w, path = front ++ rest ∧ rest ≠ [] ∧
        atPath front t.properties = some (.leaf n d s w) := by
  induction path generalizing qs type t with
  | nil => cases hq
  | cons step path ih =>
    obtain ⟨n, k⟩ := step
    have htaken := updateWith_updaters hc h n k
    by_cases hp : path = []
    · subst hp
      rw [atPath] at hq
      rw [hq] at htaken
      obtain ⟨hok, hnew⟩ := htaken
      refine Or.inl ⟨_, hnew, took_result (fun p hold => ?_) hok⟩
      exact (nth_name hold).trans (nth_name hq).symm
    · rw [atPath_cons hp] at hq
      cases hfirst : nth n k qs with
      | none =>
        rw [hfirst] at hq
        cases hq
      | some r =>
        rw [hfirst] at hq htaken
        cases r with
        | leaf m e s v => cases hq
        | bag m e s inner =>
          rcases result_bag htaken with ⟨m', e', s', w, w', hold, -⟩ |
            ⟨t', m', e', hok, hnew, hold⟩
          · refine Or.inr ⟨[(n, k)], path, m', e', s', w, rfl, hp, ?_⟩
            rw [atPath, hold]
          · have hinner := ih hok hq
            rw [atPath_cons hp, hnew]
            dsimp only
            rcases hold with ⟨hold, hnil⟩ | ⟨m'', e'', s'', hold⟩
            · rw [hnil] at hinner
              have hnone : atPath ((n, k) :: path) t.properties = atPath path [] := by
                rw [atPath_cons hp, hold, atPath_nil]
              rcases hinner with htook | ⟨front, rest, x, y, z, w, -, -, hleaf⟩
              · rw [hnone]
                exact Or.inl htook
              · rw [atPath_nil] at hleaf
                cases hleaf
            · have hsame : ∀ front : List (String × ℕ), front ≠ [] →
                  atPath ((n, k) :: front) t.properties = atPath front t'.properties := by
                intro front hfront
                rw [atPath_cons hfront, hold]
              rcases hinner with htook | ⟨front, rest, x, y, z, w, rfl, hrest, hleaf⟩
              · rw [hsame path hp]
                exact Or.inl htook
              · have hfront : front ≠ [] := by
                  rintro rfl
                  cases hleaf
                exact Or.inr ⟨(n, k) :: front, rest, x, y, z, w, rfl, hrest,
                  (hsame front hfront).trans hleaf⟩

theorem updateWith_kept (hc : ts.Recomposes) (path : List (String × ℕ)) {qs : List (Property τ V)}
    {type : String} {t : PropertyBag τ V} (h : (ts.updateWith (ts.updaters qs) type t).2 = .ok)
    (hq : atPath path qs = none) :
    atPath path (ts.updateWith (ts.updaters qs) type t).1.properties = atPath path t.properties := by
  induction path generalizing qs type t with
  | nil => rfl
  | cons step path ih =>
    obtain ⟨n, k⟩ := step
    have htaken := updateWith_updaters hc h n k
    by_cases hp : path = []
    · subst hp
      rw [atPath] at hq
      rw [hq] at htaken
      exact htaken
    · rw [atPath_cons hp, atPath_cons hp]
      cases hfirst : nth n k qs with
      | none =>
        rw [hfirst] at htaken
        have hsame : nth n k _ = nth n k t.properties := htaken
        rw [hsame]
      | some r =>
        rw [hfirst] at htaken
        cases r with
        | leaf m e s v =>
          obtain ⟨hok, hnew⟩ := htaken
          rw [hnew]
          cases hold : nth n k t.properties with
          | none => simp [Updater.result, updater]
          | some p =>
            cases p with
            | leaf m' e' s' w => simp [Updater.result, updater]
            | bag m' e' s' ps =>
              rw [hold] at hok
              simp only [Updater.result, Option.getD_some, updater] at hok
              cases hok
        | bag m e s inner =>
          rw [atPath_cons hp, hfirst] at hq
          rcases result_bag htaken with ⟨m', e', s', w, w', hold, hnew⟩ |
            ⟨t', m', e', hok, hnew, hold⟩
          · rw [hnew, hold]
          · rw [hnew]
            dsimp only
            rw [ih hok hq]
            rcases hold with ⟨hold, hnil⟩ | ⟨m'', e'', s'', hold⟩
            · rw [hold, hnil, atPath_nil]
            · rw [hold]

/-- An update that succeeds carries the source over into the target. -/
theorem updateProperties_follows (hc : ts.Recomposes) {target source : PropertyBag τ V}
    (h : (ts.updateProperties target source).2 = .ok) :
    ts.Follows source.properties target.properties
      (ts.updateProperties target source).1.properties where
  took path _ hq := updateWith_took hc path h hq
  kept path hq := updateWith_kept hc path h hq

end

end TypeSystem

end OrocosRtt.Marsh
