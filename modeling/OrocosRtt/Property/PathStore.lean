import OrocosRtt.Property.PathUpdate

/-! `storeProperty`, and what it and `updateProperty` by a path leave behind when they do not
succeed. -/
namespace OrocosRtt.PropertyPaths
open Marsh (TypeSystem)

variable {ι τ V : Type}

/-- `ownProperty`, of a property that was in no bag so far; there is none where the pointer is null
or the property is not ready. -/
def ownProperty (item : Option (Marsh.Property τ V)) (ps : List (Marsh.Property τ V)) :
    List (Marsh.Property τ V) × Marsh.Outcome :=
  match item with
  | some p => (ps ++ [p], .ok)
  | none => (ps, .failed)

/-- The name up to the first separator, and what comes after it. -/
def parentName (separator path : Name) : Name × Name :=
  (splitFirst separator path).getD (path, [])

/-- `storeProperty`, if it makes no more than this number of calls. -/
def store (item : Option (Marsh.Property τ V)) (separator : Name) :
    ℕ → Name → List (Marsh.Property τ V) → Option (List (Marsh.Property τ V) × Marsh.Outcome)
  | 0, _, _ => none
  | calls + 1, path, ps =>
    if path = [] ∨ path = separator then some (ownProperty item ps)
    else
      let (pname, rest) := parentName separator path
      if pname = [] ∧ rest ≠ [] then store item separator calls rest ps
      else
        match findToken pname ps with
        | some (.leaf _ _ _ _) => some (ps, .failed)
        | some (.bag _ _ _ qs) =>
          (store item separator calls rest qs).map fun r => changeFirst pname (inside fun _ => r) ps
        | none =>
          (store item separator calls rest []).map fun r =>
            (ps ++ [.bag (String.ofList pname) "" "PropertyBag" r.1], r.2)

/-- `storeProperty` returns this. -/
def Stored (item : Option (Marsh.Property τ V)) (path separator : Name)
    (ps : List (Marsh.Property τ V)) (r : List (Marsh.Property τ V) × Marsh.Outcome) : Prop :=
  ∃ calls, store item separator calls path ps = some r

/-! ### What is expected -/

/-- The property at the end of these names, each of them the first of its name. -/
def propertyAt : List Name → List (Marsh.Property τ V) → Option (Marsh.Property τ V)
  | [], _ => none
  | name :: names, ps =>
    match findToken name ps with
    | none => none
    | some p => if names = [] then some p else propertyAt names (contents (some p))

/-- The path of an item in the bag at a path. -/
def itemPath (separator path name : Name) : Name :=
  if path = [] then name else path ++ separator ++ name

/-- `storeProperty` returns, with the item at its path and nothing else changed, or without a
change. The item is what is found where there was nothing before. -/
def StoresAllOrNothing (item : Option (Marsh.Property τ V)) (path separator : Name)
    (ps : List (Marsh.Property τ V)) : Prop :=
  ∃ r, Stored item path separator ps r ∧
    (r.2 = .ok → ∃ p names, item = some p ∧
      findProperty separator (itemPath separator path p.name.toList) (ofProperties r.1) =
        some names ∧ propertyAt names r.1 = some p ∧ propertyAt names ps = none ∧ Within names ps r.1) ∧
    (r.2 ≠ .ok → r.1 = ps)

/-- An update by a path succeeds with the updated property at the path and nothing else changed, or
changes nothing. -/
def UpdatesAllOrNothing (w : Walker τ V) (separator name : Name)
    (source target : List (Marsh.Property τ V)) : Prop :=
  let r := w.walk separator name source target
  (r.2 = .ok → ∃ names q p, findProperty separator name (ofProperties source) = some names ∧
    propertyAt names source = some q ∧
    (propertyAt names target = some p ∨ propertyAt names target = none ∧ w.create q = some p) ∧
    findProperty separator name (ofProperties r.1) = some names ∧
    propertyAt names r.1 = some (w.item q p).1 ∧ Within names target r.1) ∧
  (r.2 ≠ .ok → r.1 = target)

/-! ### The names of `storeProperty` -/

/-- The names of the bags on the way: separators that follow each other count as one. -/
def componentsUpTo (separator : Name) : ℕ → Name → List Name
  | 0, _ => []
  | calls + 1, path =>
    if path = [] ∨ path = separator then []
    else
      let (pname, rest) := parentName separator path
      if pname = [] ∧ rest ≠ [] then componentsUpTo separator calls rest
      else pname :: componentsUpTo separator calls rest

def components (separator path : Name) : List Name :=
  componentsUpTo separator (path.length + 1) path

/-- With the names of the bags. -/
def storeIn (item : Option (Marsh.Property τ V)) :
    List Name → List (Marsh.Property τ V) → List (Marsh.Property τ V) × Marsh.Outcome
  | [], ps => ownProperty item ps
  | name :: names, ps =>
    match findToken name ps with
    | some (.leaf _ _ _ _) => (ps, .failed)
    | some (.bag _ _ _ qs) => changeFirst name (inside fun _ => storeIn item names qs) ps
    | none =>
      (ps ++ [.bag (String.ofList name) "" "PropertyBag" (storeIn item names []).1],
        (storeIn item names []).2)

/-- A name on the way is that of a property that is no bag. -/
def Blocked : List Name → List (Marsh.Property τ V) → Prop
  | [], _ => False
  | name :: names, ps =>
    match findToken name ps with
    | none => False
    | some (.leaf _ _ _ _) => True
    | some (.bag _ _ _ qs) => Blocked names qs

/-- All bags on the way are there. -/
def Opens : List Name → List (Marsh.Property τ V) → Prop
  | [], _ => True
  | name :: names, ps =>
    match findToken name ps with
    | none => False
    | some (.leaf _ _ _ _) => False
    | some (.bag _ _ _ qs) => Opens names qs

/-- `storeProperty` has an end; a property that is no bag is on the way, or the item can be stored,
is the first of its name and `findProperty` takes its path apart into the same names, or it cannot
and no bag on the way is missing. -/
def Storable (item : Option (Marsh.Property τ V)) (path separator : Name)
    (ps : List (Marsh.Property τ V)) : Prop :=
  (separator ≠ [] ∨ path = []) ∧ (Blocked (components separator path) ps ∨
    match item with
    | none => Opens (components separator path) ps
    | some p =>
      let names := components separator path ++ [p.name.toList]
      let searched := tokens separator (itemPath separator path p.name.toList)
      propertyAt names ps = none ∧
        (searched = names ∨ Walker.isBag p = false ∧ names <+: searched))

/-! ### Where an update leaves something behind -/

/-- The update of the property itself succeeds or changes nothing. -/
def Settles (w : Walker τ V) (q : Marsh.Property τ V) : Option (Marsh.Property τ V) → Prop
  | none => True
  | some p => (w.item q p).2 = .ok ∨ (w.item q p).1 = p

mutual

/-- The way goes to its end where a bag has to be created for it, and the update of the property at
its end succeeds or changes nothing. -/
def Clean (w : Walker τ V) (separator name : Name) (source target : List (Marsh.Property τ V)) :
    Prop :=
  match source with
  | [] => True
  | q :: qs =>
    if q.name.toList = (cut separator name).1 then
      CleanAt w separator (cut separator name).2 q target
    else Clean w separator name qs target

def CleanAt (w : Walker τ V) (separator rest : Name) (source : Marsh.Property τ V)
    (target : List (Marsh.Property τ V)) : Prop :=
  match source with
  | .leaf n d t v => Settles w (.leaf n d t v) (findToken n.toList target)
  | .bag n d type qs =>
    if rest = [] then Settles w (.bag n d type qs) (findToken n.toList target)
    else
      match findToken n.toList target with
      | none => (findProperty separator rest (ofProperties qs)).isSome
      | some (.leaf _ _ _ _) => True
      | some (.bag _ _ _ ps) => Clean w separator rest qs ps

end

/-! ### The calls of `storeProperty` -/

theorem parentName_length {separator path : Name} (hs : separator ≠ []) (hpath : path ≠ []) :
    (parentName separator path).2.length < path.length := by
  have hpos : 0 < separator.length := List.length_pos_of_ne_nil hs
  have hlong : 0 < path.length := List.length_pos_of_ne_nil hpath
  unfold parentName
  cases hsplit : splitFirst separator path with
  | none => exact hlong
  | some p =>
    have hlen := congrArg List.length (splitFirst_eq hsplit)
    rw [List.length_append, List.length_append] at hlen
    dsimp only [Option.getD_some]
    omega

theorem store_components {separator : Name} (hs : separator ≠ [])
    (item : Option (Marsh.Property τ V)) (calls : ℕ) (path : Name)
    (hlen : path.length < calls) (ps : List (Marsh.Property τ V)) :
    store item separator calls path ps =
      some (storeIn item (componentsUpTo separator calls path) ps) := by
  induction calls generalizing path ps with
  | zero => omega
  | succ calls ih =>
    rw [store, componentsUpTo]
    by_cases hend : path = [] ∨ path = separator
    · rw [if_pos hend, if_pos hend]
      rfl
    rw [if_neg hend, if_neg hend]
    have hrest := parentName_length hs (fun hnil => hend (.inl hnil))
    have ih := ih (parentName separator path).2 (by omega)
    dsimp only
    by_cases hroot : (parentName separator path).1 = [] ∧ (parentName separator path).2 ≠ []
    · rw [if_pos hroot, if_pos hroot, ih]
    · rw [if_neg hroot, if_neg hroot, storeIn]
      cases hfind : findToken (parentName separator path).1 ps with
      | none =>
        dsimp only
        rw [ih, Option.map_some]
      | some p =>
        cases p with
        | leaf n d t v => rfl
        | bag n d type qs =>
          dsimp only
          rw [ih, Option.map_some]

theorem store_more {item : Option (Marsh.Property τ V)} {separator : Name} {calls : ℕ} {path : Name}
    {ps : List (Marsh.Property τ V)} {r : List (Marsh.Property τ V) × Marsh.Outcome}
    (h : store item separator calls path ps = some r) :
    store item separator (calls + 1) path ps = some r := by
  induction calls generalizing path ps r with
  | zero => cases h
  | succ calls ih =>
    rw [store] at h ⊢
    by_cases hend : path = [] ∨ path = separator
    · rw [if_pos hend] at h ⊢
      exact h
    rw [if_neg hend] at h ⊢
    dsimp only at h ⊢
    by_cases hroot : (parentName separator path).1 = [] ∧ (parentName separator path).2 ≠ []
    · rw [if_pos hroot] at h ⊢
      exact ih h
    rw [if_neg hroot] at h ⊢
    cases hfind : findToken (parentName separator path).1 ps with
    | none =>
      simp only [hfind] at h ⊢
      obtain ⟨r', hr', rfl⟩ := Option.map_eq_some_iff.mp h
      rw [ih hr', Option.map_some]
    | some p =>
      cases p with
      | leaf n d t v =>
        simp only [hfind] at h ⊢
        exact h
      | bag n d type qs =>
        simp only [hfind] at h ⊢
        obtain ⟨r', hr', rfl⟩ := Option.map_eq_some_iff.mp h
        rw [ih hr', Option.map_some]

theorem store_le {item : Option (Marsh.Property τ V)} {separator : Name} {calls more : ℕ}
    {path : Name} {ps : List (Marsh.Property τ V)}
    {r : List (Marsh.Property τ V) × Marsh.Outcome} (hle : calls ≤ more)
    (h : store item separator calls path ps = some r) :
    store item separator more path ps = some r := by
  induction hle with
  | refl => exact h
  | step _ ih => exact store_more ih

/-- Without a separator the function calls itself with the same path. -/
theorem store_forever (item : Option (Marsh.Property τ V)) {path : Name} (hpath : path ≠ [])
    (calls : ℕ) (ps : List (Marsh.Property τ V)) : store item [] calls path ps = none := by
  induction calls with
  | zero => rfl
  | succ calls ih =>
    have hparent : parentName [] path = ([], path) := by
      cases path with
      | nil => exact absurd rfl hpath
      | cons c s => rfl
    rw [store, if_neg (not_or.mpr ⟨hpath, hpath⟩), hparent]
    dsimp only
    rw [if_pos ⟨rfl, hpath⟩, ih]

/-- With a separator the function returns what it does with the names; without one it calls itself
again and again. -/
theorem stored_iff (item : Option (Marsh.Property τ V)) (path separator : Name)
    (ps : List (Marsh.Property τ V)) (r : List (Marsh.Property τ V) × Marsh.Outcome) :
    Stored item path separator ps r ↔ (separator ≠ [] ∨ path = []) ∧
      r = storeIn item (components separator path) ps := by
  by_cases hpath : path = []
  · subst hpath
    refine ⟨fun ⟨calls, h⟩ => ⟨.inr rfl, ?_⟩, fun h => ⟨1, h.2 ▸ rfl⟩⟩
    cases calls with
    | zero => cases h
    | succ calls => exact (Option.some.inj h).symm
  by_cases hs : separator = []
  · subst hs
    refine iff_of_false (fun ⟨calls, h⟩ => ?_) fun h => h.1.elim (· rfl) hpath
    rw [store_forever item hpath] at h
    cases h
  · refine ⟨fun ⟨calls, h⟩ => ⟨.inl hs, ?_⟩, fun h => ⟨path.length + 1, ?_⟩⟩
    · have hmore := store_le (Nat.le_max_left calls (path.length + 1)) h
      have hfixed := store_le (Nat.le_max_right calls (path.length + 1))
        (store_components hs item _ path (Nat.lt_succ_self _) ps)
      exact Option.some.inj (hmore.symm.trans hfixed)
    · rw [h.2]
      exact store_components hs item _ path (Nat.lt_succ_self _) ps

/-! ### One bag on the way -/

theorem blocked_cons {name : Name} {names : List Name} {ps : List (Marsh.Property τ V)} :
    ¬ Blocked (name :: names) ps →
      (findToken name ps = none ∨ ∃ n d type qs, findToken name ps = some (.bag n d type qs)) ∧
        ¬ Blocked names (contents (findToken name ps)) := by
  intro h
  rw [Blocked] at h
  cases hfind : findToken name ps with
  | none =>
    refine ⟨.inl rfl, ?_⟩
    cases names with
    | nil => exact id
    | cons next names => exact id
  | some p =>
    cases p with
    | leaf n d t v =>
      simp only [hfind] at h
      exact absurd trivial h
    | bag n d type qs =>
      simp only [hfind] at h
      exact ⟨.inr ⟨n, d, type, qs, rfl⟩, h⟩

/-- What becomes of the bag of the first name. -/
theorem storeIn_cons (item : Option (Marsh.Property τ V)) {name : Name} {names : List Name}
    {ps : List (Marsh.Property τ V)} (h : ¬ Blocked (name :: names) ps) :
    (∃ n d type, findToken name (storeIn item (name :: names) ps).1 =
        some (.bag n d type (storeIn item names (contents (findToken name ps))).1) ∧
      ∀ p, findToken name ps = some p → shell p = .bag n d type []) ∧
    SameOthers name ps (storeIn item (name :: names) ps).1 ∧
    (storeIn item (name :: names) ps).2 =
      (storeIn item names (contents (findToken name ps))).2 ∧
    (∀ n d type qs, findToken name ps = some (.bag n d type qs) →
      (storeIn item names qs).1 = qs → (storeIn item (name :: names) ps).1 = ps) := by
  obtain ⟨hfind | ⟨n, d, type, qs, hfind⟩, -⟩ := blocked_cons h
  · have hname : (Marsh.Property.bag (τ := τ) (V := V) (String.ofList name) "" "PropertyBag"
        (storeIn item names []).1).name.toList = name := String.toList_ofList
    obtain ⟨hnew, hothers⟩ := findToken_append hname hfind
    rw [storeIn, hfind]
    dsimp only
    refine ⟨⟨_, _, _, hnew, fun p hp => ?_⟩, hothers, rfl, fun n d type qs hbag => ?_⟩
    · cases hp
    · cases hbag
  · have hkeeps : ∀ p, (inside (fun _ => storeIn item names qs) p).1.name = p.name :=
      inside_name _
    obtain ⟨hnew, hothers, hout, hsame⟩ := changeFirst_spec hkeeps hfind
    rw [storeIn, hfind]
    dsimp only
    refine ⟨⟨n, d, type, hnew, fun p hp => ?_⟩, hothers, hout, fun n' d' type' qs' hbag hkept => ?_⟩
    · cases hp
      rfl
    · cases hbag
      exact hsame (by rw [inside, hkept])

theorem storeIn_blocked (item : Option (Marsh.Property τ V)) {names : List Name}
    {ps : List (Marsh.Property τ V)} (h : Blocked names ps) :
    storeIn item names ps = (ps, .failed) := by
  induction names generalizing ps with
  | nil => exact h.elim
  | cons name names ih =>
    rw [Blocked] at h
    rw [storeIn]
    cases hfind : findToken name ps with
    | none =>
      simp only [hfind] at h
    | some p =>
      cases p with
      | leaf n d t v => rfl
      | bag n d type qs =>
        simp only [hfind] at h
        have hkeeps : ∀ p : Marsh.Property τ V,
            (inside (fun _ => (qs, Marsh.Outcome.failed)) p).1.name = p.name := inside_name _
        obtain ⟨-, -, hout, hsame⟩ := changeFirst_spec hkeeps hfind
        dsimp only
        rw [ih h]
        exact Prod.ext (hsame rfl) hout

theorem storeIn_outcome (item : Option (Marsh.Property τ V)) {names : List Name}
    {ps : List (Marsh.Property τ V)} (h : ¬ Blocked names ps) :
    (storeIn item names ps).2 = (ownProperty item []).2 := by
  induction names generalizing ps with
  | nil => cases item <;> rfl
  | cons name names ih =>
    rw [(storeIn_cons item h).2.2.1, ih (blocked_cons h).2]

/-! ### What is not stored -/

theorem append_ne_self {p : Marsh.Property τ V} (ps : List (Marsh.Property τ V)) :
    ps ++ [p] ≠ ps := by
  intro h
  have hlen := congrArg List.length h
  rw [List.length_append, List.length_singleton] at hlen
  omega

/-- Without an item all stays the same where no bag on the way is missing. -/
theorem storeIn_none_iff {names : List Name} {ps : List (Marsh.Property τ V)}
    (h : ¬ Blocked names ps) : (storeIn none names ps).1 = ps ↔ Opens names ps := by
  induction names generalizing ps with
  | nil => exact iff_of_true rfl trivial
  | cons name names ih =>
    obtain ⟨hway, hinner⟩ := blocked_cons h
    have hcons := storeIn_cons none h
    rw [Opens]
    rcases hway with hfind | ⟨n, d, type, qs, hfind⟩
    · rw [storeIn, hfind]
      exact iff_of_false (append_ne_self ps) id
    · rw [hfind] at hinner hcons ⊢
      obtain ⟨⟨n', d', type', hnew, -⟩, -, -, hsame⟩ := hcons
      refine Iff.trans ⟨fun hkept => ?_, hsame n d type qs rfl⟩ (ih hinner)
      rw [hkept, hfind] at hnew
      exact (Marsh.Property.bag.inj (Option.some.inj hnew)).2.2.2.symm

/-! ### What is stored -/

theorem propertyAt_single (name : Name) (ps : List (Marsh.Property τ V)) :
    propertyAt [name] ps = findToken name ps := by
  rw [propertyAt]
  cases findToken name ps with
  | none => rfl
  | some p => exact if_pos rfl

theorem propertyAt_cons {names : List Name} (hn : names ≠ []) (name : Name)
    (ps : List (Marsh.Property τ V)) :
    propertyAt (name :: names) ps = propertyAt names (contents (findToken name ps)) := by
  rw [propertyAt]
  cases findToken name ps with
  | none =>
    cases names with
    | nil => exact absurd rfl hn
    | cons next names => rfl
  | some p => exact if_neg hn

/-- The item is at its names, and nothing else has changed, where there was nothing. -/
theorem storeIn_within {p : Marsh.Property τ V} {names : List Name} {ps : List (Marsh.Property τ V)}
    (h : ¬ Blocked names ps) (hnew : propertyAt (names ++ [p.name.toList]) ps = none) :
    propertyAt (names ++ [p.name.toList]) (storeIn (some p) names ps).1 = some p ∧
      Within (names ++ [p.name.toList]) ps (storeIn (some p) names ps).1 := by
  induction names generalizing ps with
  | nil =>
    rw [List.nil_append, propertyAt_single] at hnew
    obtain ⟨hfind, hothers⟩ := findToken_append (p := p) rfl hnew
    rw [List.nil_append, propertyAt_single]
    exact ⟨hfind, hothers⟩
  | cons name names ih =>
    have hn : names ++ [p.name.toList] ≠ [] := List.append_ne_nil_of_right_ne_nil _ (by simp)
    obtain ⟨-, hinner⟩ := blocked_cons h
    obtain ⟨⟨n, d, type, hfind, hshell⟩, hothers, -, -⟩ := storeIn_cons (some p) h
    rw [List.cons_append, propertyAt_cons hn] at hnew
    obtain ⟨hat, hin⟩ := ih hinner hnew
    rw [List.cons_append, propertyAt_cons hn, hfind]
    refine ⟨hat, (within_cons hn _ _).mpr ⟨⟨hothers, fun q hq => ?_, fun _ q hq => ?_⟩, ?_⟩⟩
    · exact ⟨_, hfind, (hshell q hq).symm⟩
    · rw [hfind] at hq
      cases hq
      exact ⟨_, _, _, _, rfl⟩
    · rw [hfind]
      exact hin

mutual

/-- How deep bags are in one another. -/
def height (p : Marsh.Property τ V) : ℕ :=
  match p with
  | .leaf .. => 0
  | .bag _ _ _ ps => heights ps + 1

def heights (ps : List (Marsh.Property τ V)) : ℕ :=
  match ps with
  | [] => 0
  | p :: ps => max (height p) (heights ps)

end

theorem height_le {p : Marsh.Property τ V} {ps : List (Marsh.Property τ V)} (h : p ∈ ps) :
    height p ≤ heights ps := by
  induction ps with
  | nil => cases h
  | cons q ps ih =>
    rw [heights]
    rcases List.mem_cons.mp h with rfl | hrest
    · exact Nat.le_max_left _ _
    · exact (ih hrest).trans (Nat.le_max_right _ _)

theorem contents_height {p : Marsh.Property τ V} : heights (contents (some p)) ≤ height p := by
  cases p with
  | leaf n d t v => exact Nat.zero_le _
  | bag n d type qs =>
    rw [height]
    exact Nat.le_succ _

theorem propertyAt_height {names : List Name} {ps : List (Marsh.Property τ V)}
    {p : Marsh.Property τ V} (h : propertyAt names ps = some p) : height p ≤ heights ps := by
  induction names generalizing ps with
  | nil => cases h
  | cons name names ih =>
    by_cases hn : names = []
    · subst hn
      rw [propertyAt_single] at h
      exact height_le (findToken_name h).1
    · rw [propertyAt_cons hn] at h
      cases hfind : findToken name ps with
      | none =>
        rw [hfind] at h
        have hle := ih h
        exact hle.trans (Nat.zero_le _)
      | some q =>
        rw [hfind] at h
        exact (ih h).trans (contents_height.trans (height_le (findToken_name hfind).1))

theorem propertyAt_nil (names : List Name) :
    propertyAt names ([] : List (Marsh.Property τ V)) = none := by
  cases names with
  | nil => rfl
  | cons name names => rfl

theorem propertyAt_inside {names : List Name} {p q : Marsh.Property τ V}
    (h : propertyAt names (contents (some p)) = some q) : height q < height p := by
  cases p with
  | leaf n d t v =>
    rw [contents, propertyAt_nil] at h
    · cases h
    · simp
  | bag n d type qs =>
    rw [height]
    exact Nat.lt_succ_of_le (propertyAt_height h)

theorem storeIn_height {p : Marsh.Property τ V} {names : List Name}
    {ps : List (Marsh.Property τ V)} (h : ¬ Blocked names ps) :
    height p ≤ heights (storeIn (some p) names ps).1 := by
  induction names generalizing ps with
  | nil => exact height_le (List.mem_append_right ps (List.mem_singleton_self p))
  | cons name names ih =>
    obtain ⟨-, hinner⟩ := blocked_cons h
    obtain ⟨⟨n, d, type, hfind, -⟩, -⟩ := storeIn_cons (some p) h
    have hbag := height_le (findToken_name hfind).1
    rw [height] at hbag
    exact (ih hinner).trans (Nat.le_of_succ_le hbag)

theorem findToken_concat (name : Name) (ps : List (Marsh.Property τ V)) (p : Marsh.Property τ V) :
    findToken name (ps ++ [p]) =
      (findToken name ps).or (if p.name.toList = name then some p else none) := by
  rw [findToken, List.find?_append]
  by_cases hp : p.name.toList = name
  · simp [findToken, hp]
  · simp [findToken, hp]

/-- The item is found at its own names only, if nothing was there. -/
theorem storeIn_new {p : Marsh.Property τ V} {names others : List Name}
    {ps : List (Marsh.Property τ V)} (h : ¬ Blocked names ps)
    (hnone : propertyAt others ps = none)
    (hsome : propertyAt others (storeIn (some p) names ps).1 = some p) :
    others = names ++ [p.name.toList] := by
  induction names generalizing others ps with
  | nil =>
    cases others with
    | nil => cases hsome
    | cons other others =>
      rw [storeIn, ownProperty, propertyAt, findToken_concat] at hsome
      rw [propertyAt] at hnone
      cases hfind : findToken other ps with
      | some q =>
        rw [hfind] at hsome hnone
        rw [Option.some_or] at hsome
        exact absurd (hsome.symm.trans hnone) (Option.some_ne_none p)
      | none =>
        rw [hfind, Option.none_or] at hsome
        by_cases hname : p.name.toList = other
        · rw [if_pos hname] at hsome
          by_cases hn : others = []
          · rw [hn, ← hname]
            rfl
          · dsimp only at hsome
            rw [if_neg hn] at hsome
            exact absurd (propertyAt_inside hsome) (Nat.lt_irrefl _)
        · rw [if_neg hname] at hsome
          cases hsome
  | cons name names ih =>
    obtain ⟨-, hinner⟩ := blocked_cons h
    obtain ⟨⟨n, d, type, hfind, -⟩, hothers, -, -⟩ := storeIn_cons (some p) h
    cases others with
    | nil => cases hsome
    | cons other others =>
      have hsame : other = name := by
        by_contra hne
        rw [propertyAt, hothers.findToken hne] at hsome
        rw [propertyAt] at hnone
        exact absurd (hsome.symm.trans hnone) (Option.some_ne_none p)
      subst hsame
      by_cases hn : others = []
      · subst hn
        rw [propertyAt_single, hfind] at hsome
        have hdeep := storeIn_height (p := p) hinner
        have hbag := congrArg height (Option.some.inj hsome)
        rw [height] at hbag
        omega
      · rw [propertyAt_cons hn] at hsome hnone
        rw [hfind] at hsome
        rw [ih hinner hnone hsome]
        rfl

/-! ### What is found -/

/-- The search in the bag of the first name. -/
theorem walk_step (name : Name) (searched : List Name) (ps : List (Marsh.Property τ V)) :
    walk (name :: searched) (ofProperties ps) =
      match findToken name ps with
      | none => none
      | some p =>
        if searched = [] ∨ Walker.isBag p = false then some [name]
        else (walk searched (ofProperties (contents (some p)))).map (name :: ·) := by
  by_cases hn : searched = []
  · subst hn
    rw [walk, find_ofProperties]
    cases findToken name ps with
    | none => rfl
    | some p => simp
  · rw [walk_cons hn, find_ofProperties]
    cases findToken name ps with
    | none => rfl
    | some p =>
      cases p with
      | leaf n d t v => simp [ofProperty, Walker.isBag]
      | bag n d type qs => simp [ofProperty, Walker.isBag, hn, contents]

theorem contents_leaf {p : Marsh.Property τ V} (h : Walker.isBag p = false) :
    contents (some p) = [] := by
  cases p with
  | leaf n d t v => rfl
  | bag n d type qs => cases h

theorem walk_of_propertyAt {names : List Name} {ps : List (Marsh.Property τ V)}
    {p : Marsh.Property τ V} (h : propertyAt names ps = some p) {searched : List Name}
    (hs : searched = names ∨ Walker.isBag p = false ∧ names <+: searched) :
    walk searched (ofProperties ps) = some names := by
  induction names generalizing searched ps with
  | nil => cases h
  | cons name names ih =>
    obtain ⟨rest, rfl, hrest⟩ : ∃ rest, searched = name :: rest ∧
        (rest = names ∨ Walker.isBag p = false ∧ names <+: rest) := by
      rcases hs with rfl | ⟨hleaf, more, rfl⟩
      · exact ⟨names, rfl, .inl rfl⟩
      · exact ⟨names ++ more, rfl, .inr ⟨hleaf, List.prefix_append names more⟩⟩
    rw [walk_step]
    by_cases hn : names = []
    · subst hn
      rw [propertyAt_single] at h
      rw [h]
      exact if_pos (hrest.imp id And.left)
    · rw [propertyAt_cons hn] at h
      cases hfind : findToken name ps with
      | none =>
        rw [hfind, contents, propertyAt_nil] at h
        · cases h
        · simp
      | some q =>
        rw [hfind] at h
        have hbag : ¬ (rest = [] ∨ Walker.isBag q = false) := by
          rintro (rfl | hleaf)
          · rcases hrest with hnil | ⟨-, hnil⟩
            · exact hn hnil.symm
            · exact hn (List.prefix_nil.mp hnil)
          · rw [contents_leaf hleaf, propertyAt_nil] at h
            cases h
        dsimp only
        rw [if_neg hbag, ih h hrest, Option.map_some]

theorem propertyAt_of_walk {names searched : List Name} {ps : List (Marsh.Property τ V)}
    (h : walk searched (ofProperties ps) = some names) :
    ∃ p, propertyAt names ps = some p ∧
      (searched = names ∨ Walker.isBag p = false ∧ names <+: searched) := by
  induction searched generalizing names ps with
  | nil => cases h
  | cons name searched ih =>
    rw [walk_step] at h
    cases hfind : findToken name ps with
    | none =>
      rw [hfind] at h
      cases h
    | some p =>
      rw [hfind] at h
      dsimp only at h
      by_cases hend : searched = [] ∨ Walker.isBag p = false
      · rw [if_pos hend] at h
        cases h
        refine ⟨p, by rw [propertyAt_single, hfind], hend.imp (fun hn => by rw [hn]) ?_⟩
        exact fun hleaf => ⟨hleaf, List.prefix_append [name] searched⟩
      · rw [if_neg hend] at h
        obtain ⟨names, hnames, rfl⟩ := Option.map_eq_some_iff.mp h
        obtain ⟨q, hq, hs⟩ := ih hnames
        have hn : names ≠ [] := by
          rintro rfl
          cases hq
        refine ⟨q, by rw [propertyAt_cons hn, hfind, hq], hs.imp (fun he => by rw [he]) ?_⟩
        exact fun hleaf => ⟨hleaf.1, List.cons_prefix_cons.mpr ⟨rfl, hleaf.2⟩⟩

theorem cut_empty (s : Name) : cut [] s = ([], s) := by
  cases s with
  | nil => rfl
  | cons c s => rfl

/-- The search starts with the first token, also without a separator. -/
theorem findProperty_head {V : Type} {separator s : Name} {ps : List (Property V)}
    {names : List Name} (h : findProperty separator s ps = some names) :
    ∃ rest, names = (cut separator s).1 :: rest := by
  rw [findProperty_eq] at h
  cases hfind : find (cut separator s).1 ps with
  | none =>
    rw [hfind] at h
    cases h
  | some p =>
    obtain ⟨-, hname⟩ := find_name hfind
    rw [hfind] at h
    rw [← hname]
    cases p with
    | leaf n r => exact ⟨[], (Option.some.inj h).symm⟩
    | bag n r qs =>
      dsimp only [Property.search] at h
      by_cases hrest : (cut separator s).2 = []
      · rw [if_pos hrest] at h
        exact ⟨[], (Option.some.inj h).symm⟩
      · rw [if_neg hrest] at h
        obtain ⟨rest, -, rfl⟩ := Option.map_eq_some_iff.mp h
        exact ⟨rest, rfl⟩

theorem findProperty_empty {V : Type} (ps : List (Property V)) :
    findProperty [] [] ps = walk (tokens [] []) ps := by
  have htokens : tokens [] [] = [[]] := rfl
  rw [findProperty_eq, htokens, walk, cut_empty]
  cases hfind : find [] ps with
  | none => rfl
  | some p =>
    obtain ⟨-, hname⟩ := find_name hfind
    cases p with
    | leaf n r => simpa [Property.search, Property.name] using hname
    | bag n r qs => simpa [Property.search, Property.name] using hname

/-- Where the item is stored, it is found if nothing was there and its path is taken apart so. -/
theorem found_iff {separator path : Name} (hs : separator ≠ [] ∨ path = [])
    {p : Marsh.Property τ V} {ps : List (Marsh.Property τ V)}
    (h : ¬ Blocked (components separator path) ps) :
    (∃ names, findProperty separator (itemPath separator path p.name.toList)
        (ofProperties (storeIn (some p) (components separator path) ps).1) = some names ∧
      propertyAt names (storeIn (some p) (components separator path) ps).1 = some p ∧
      propertyAt names ps = none) ↔
      propertyAt (components separator path ++ [p.name.toList]) ps = none ∧
        (tokens separator (itemPath separator path p.name.toList) =
            components separator path ++ [p.name.toList] ∨
          Walker.isBag p = false ∧ components separator path ++ [p.name.toList] <+:
            tokens separator (itemPath separator path p.name.toList)) := by
  by_cases hwalk : separator ≠ [] ∨ itemPath separator path p.name.toList = []
  · have hfind : ∀ r : List (Property (Rest τ V)),
        findProperty separator (itemPath separator path p.name.toList) r =
          walk (tokens separator (itemPath separator path p.name.toList)) r := by
      intro r
      by_cases hsep : separator = []
      · rw [hsep, ← hsep, hwalk.resolve_left (fun hno => hno hsep), hsep, findProperty_empty]
      · exact findProperty_walk hsep _ r
    rw [hfind]
    constructor
    · rintro ⟨names, hfound, hat, hnone⟩
      obtain rfl := storeIn_new h hnone hat
      obtain ⟨q, hq, hsearched⟩ := propertyAt_of_walk hfound
      rw [hat] at hq
      cases hq
      exact ⟨hnone, hsearched⟩
    · rintro ⟨hnone, hsearched⟩
      have hat := (storeIn_within h hnone).1
      exact ⟨_, walk_of_propertyAt hat hsearched, hat, hnone⟩
  · -- without a separator every token is empty, and the item has a name
    obtain ⟨hsep, hitem⟩ := not_or.mp hwalk
    rw [not_not] at hsep
    subst hsep
    obtain rfl : path = [] := hs.resolve_left (fun hno => hno rfl)
    have hname : p.name.toList ≠ [] := hitem
    refine iff_of_false ?_ ?_
    · rintro ⟨names, hfound, hat, hnone⟩
      obtain rfl := storeIn_new h hnone hat
      obtain ⟨rest, hrest⟩ := findProperty_head hfound
      rw [cut_empty] at hrest
      exact hname (List.cons.inj hrest).1
    · rintro ⟨-, hsearched⟩
      have hhead : ∃ rest, tokens [] (itemPath [] [] p.name.toList) = [] :: rest := by
        rw [tokens, tokensUpTo, cut_empty]
        by_cases hend : itemPath [] [] p.name.toList = []
        · exact ⟨[], if_pos hend⟩
        · exact ⟨_, if_neg hend⟩
      obtain ⟨rest, hrest⟩ := hhead
      rw [hrest] at hsearched
      have hcomponents : components [] [] ++ [p.name.toList] = [p.name.toList] := rfl
      rw [hcomponents] at hsearched
      rcases hsearched with heq | ⟨-, hprefix⟩
      · exact hname (List.cons.inj heq).1.symm
      · exact hname (List.cons_prefix_cons.mp hprefix).1

/-- An item is stored with all or nothing changed under these conditions, and no others. -/
theorem stores_iff (item : Option (Marsh.Property τ V)) (path separator : Name)
    (ps : List (Marsh.Property τ V)) :
    StoresAllOrNothing item path separator ps ↔ Storable item path separator ps := by
  unfold StoresAllOrNothing Storable
  by_cases hs : separator ≠ [] ∨ path = []
  swap
  · refine iff_of_false (fun ⟨r, hr, _⟩ => ?_) fun h => hs h.1
    exact hs ((stored_iff item path separator ps r).mp hr).1
  have hreturns : Stored item path separator ps (storeIn item (components separator path) ps) :=
    (stored_iff item path separator ps _).mpr ⟨hs, rfl⟩
  rw [and_iff_right hs]
  by_cases hblocked : Blocked (components separator path) ps
  · refine iff_of_true ⟨_, hreturns, fun hok => ?_, fun _ => ?_⟩ (.inl hblocked)
    · rw [storeIn_blocked item hblocked] at hok
      cases hok
    · rw [storeIn_blocked item hblocked]
  rw [or_iff_right hblocked]
  have hout := storeIn_outcome item hblocked
  have hresult : ∀ r, Stored item path separator ps r →
      r = storeIn item (components separator path) ps :=
    fun r hr => ((stored_iff item path separator ps r).mp hr).2
  cases item with
  | none =>
    dsimp only
    rw [← storeIn_none_iff hblocked]
    constructor
    · rintro ⟨r, hr, -, hfail⟩
      obtain rfl := hresult r hr
      exact hfail (by rw [hout]; exact fun hno => by cases hno)
    · intro hkept
      refine ⟨_, hreturns, fun hok => ?_, fun _ => hkept⟩
      rw [hout] at hok
      cases hok
  | some p =>
    dsimp only
    rw [← found_iff hs hblocked]
    constructor
    · rintro ⟨r, hr, hok, -⟩
      obtain rfl := hresult r hr
      obtain ⟨q, names, hq, hfound, hat, hnone, -⟩ := hok hout
      cases hq
      exact ⟨names, hfound, hat, hnone⟩
    · rintro ⟨names, hfound, hat, hnone⟩
      obtain rfl := storeIn_new hblocked hnone hat
      refine ⟨_, hreturns, fun _ => ?_, fun hno => absurd hout hno⟩
      exact ⟨p, _, rfl, hfound, hat, hnone, (storeIn_within hblocked hnone).2⟩

/-! ### An update by a path -/

/-- The search with the first token of the path, with any separator. -/
theorem findProperty_step (separator s : Name) (ps : List (Marsh.Property τ V)) :
    findProperty separator s (ofProperties ps) =
      match findToken (cut separator s).1 ps with
      | none => none
      | some p =>
        if (cut separator s).2 = [] ∨ Walker.isBag p = false then some [(cut separator s).1]
        else (findProperty separator (cut separator s).2 (ofProperties (contents (some p)))).map
          ((cut separator s).1 :: ·) := by
  rw [findProperty_eq, find_ofProperties]
  cases hfind : findToken (cut separator s).1 ps with
  | none => rfl
  | some p =>
    have hname := (findToken_name hfind).2
    cases p with
    | leaf n d t v =>
      have hname : n.toList = (cut separator s).1 := hname
      simp [ofProperty, Property.search, Walker.isBag, hname]
    | bag n d type qs =>
      have hname : n.toList = (cut separator s).1 := hname
      simp [ofProperty, Property.search, Walker.isBag, contents, hname]

/-- The bag in which the update goes on is less deep. -/
theorem bag_height {n d type : String} {qs ps : List (Marsh.Property τ V)} {k : ℕ}
    (h : .bag n d type qs ∈ ps) (hk : heights ps < k + 1) : heights qs < k := by
  have hle := height_le h
  rw [height] at hle
  omega

theorem clean_eq (w : Walker τ V) (separator name : Name)
    (source target : List (Marsh.Property τ V)) : Clean w separator name source target ↔
      match findToken (cut separator name).1 source with
      | none => True
      | some q => CleanAt w separator (cut separator name).2 q target := by
  induction source with
  | nil =>
    rw [Clean]
    exact Iff.rfl
  | cons q qs ih =>
    rw [Clean, findToken, List.find?_cons]
    by_cases hq : q.name.toList = (cut separator name).1
    · simp [hq]
    · simpa [hq, findToken] using ih

theorem cleanAt_last {w : Walker τ V} {separator rest : Name} {q : Marsh.Property τ V}
    (hend : rest = [] ∨ Walker.isBag q = false) (target : List (Marsh.Property τ V)) :
    CleanAt w separator rest q target ↔ Settles w q (findToken q.name.toList target) := by
  cases q with
  | leaf n d t v => rw [CleanAt]; exact Iff.rfl
  | bag n d type qs =>
    have hrest : rest = [] := hend.resolve_right (by simp [Walker.isBag])
    rw [CleanAt, if_pos hrest]
    exact Iff.rfl

section
variable [DecidableEq ι] [DecidableEq τ] (ts : TypeSystem ι τ V)

theorem walkAt_last {separator rest : Name} {q : Marsh.Property τ V}
    (hend : rest = [] ∨ Walker.isBag q = false) (target : List (Marsh.Property τ V)) :
    (updateWalker ts).walkAt separator rest q target =
      (updateWalker ts).place q ((updateWalker ts).item q) target := by
  cases q with
  | leaf n d t v => rw [Walker.walkAt]
  | bag n d type qs =>
    have hrest : rest = [] := hend.resolve_right (by simp [Walker.isBag])
    rw [Walker.walkAt, if_pos hrest]

theorem place_nil (q : Marsh.Property τ V)
    (f : Marsh.Property τ V → Marsh.Property τ V × Marsh.Outcome) :
    (updateWalker ts).place q f [] =
      ([(f (ts.updater q).created).1], (f (ts.updater q).created).2) := rfl

/-- An update of an empty target goes as far as the path goes in the source. -/
theorem walk_nil_iff (k : ℕ) (separator name : Name) {source : List (Marsh.Property τ V)}
    (hk : heights source < k) : ((updateWalker ts).walk separator name source []).2 = .ok ↔
      (findProperty separator name (ofProperties source)).isSome := by
  induction k generalizing name source with
  | zero => omega
  | succ k ih =>
    have hw := updateWalker_regular ts
    rw [Walker.walk_eq, findProperty_step]
    cases hfind : findToken (cut separator name).1 source with
    | none => simp
    | some q =>
      dsimp only
      by_cases hend : (cut separator name).2 = [] ∨ Walker.isBag q = false
      · rw [if_pos hend, walkAt_last ts hend, place_nil]
        exact iff_of_true (hw.created q _ rfl) rfl
      · rw [if_neg hend]
        obtain ⟨hrest, hbag⟩ := not_or.mp hend
        cases q with
        | leaf n d t v => exact absurd rfl hbag
        | bag n d type qs =>
          obtain ⟨type', hcreated⟩ := hw.created_bag n d type qs _ rfl
          rw [Walker.walkAt, if_neg hrest, place_nil, hcreated, Option.isSome_map]
          exact ih (cut separator name).2 (bag_height (findToken_name hfind).1 hk)

/-- What an update of the property itself leaves behind. -/
theorem place_settles {q : Marsh.Property τ V} {target : List (Marsh.Property τ V)} :
    (((updateWalker ts).place q ((updateWalker ts).item q) target).2 ≠ .ok →
      ((updateWalker ts).place q ((updateWalker ts).item q) target).1 = target) ↔
      Settles (updateWalker ts) q (findToken q.name.toList target) := by
  have hw := updateWalker_regular ts
  rcases Walker.place_cases hw q (hw.name q) target with
    ⟨hnone, -, -⟩ | ⟨p, hp | ⟨hp, hcreate⟩, hnew, -, hout, hsame⟩
  · cases hnone
  · rw [hp, Settles, hout]
    by_cases hok : ((updateWalker ts).item q p).2 = .ok
    · exact iff_of_true (fun hno => absurd hok hno) (.inl hok)
    · rw [or_iff_right hok]
      refine ⟨fun hkept => ?_, fun he _ => hsame hp he⟩
      rw [hkept hok, hp] at hnew
      exact (Option.some.inj hnew).symm
  · rw [hp, hout, hw.created q p hcreate]
    exact iff_of_true (fun hno => absurd rfl hno) trivial

/-- An update that does not succeed leaves the target as it is under these conditions, and no
others. -/
theorem walk_clean_iff (k : ℕ) (separator name : Name) {source : List (Marsh.Property τ V)}
    (hk : heights source < k) (target : List (Marsh.Property τ V)) :
    (((updateWalker ts).walk separator name source target).2 ≠ .ok →
      ((updateWalker ts).walk separator name source target).1 = target) ↔
      Clean (updateWalker ts) separator name source target := by
  induction k generalizing name source target with
  | zero => omega
  | succ k ih =>
    have hw := updateWalker_regular ts
    rw [Walker.walk_eq, clean_eq]
    cases hfind : findToken (cut separator name).1 source with
    | none => exact iff_of_true (fun _ => rfl) trivial
    | some q =>
      dsimp only
      by_cases hend : (cut separator name).2 = [] ∨ Walker.isBag q = false
      · rw [walkAt_last ts hend, cleanAt_last hend]
        exact place_settles ts
      obtain ⟨hrest, hbag⟩ := not_or.mp hend
      cases q with
      | leaf n d t v => exact absurd rfl hbag
      | bag n d type qs =>
        have hqs := bag_height (findToken_name hfind).1 hk
        rw [Walker.walkAt, if_neg hrest, CleanAt, if_neg hrest]
        rcases Walker.place_cases hw (.bag n d type qs) (inside_name
            ((updateWalker ts).walk separator (cut separator name).2 qs)) target with
          ⟨hnone, -, -⟩ | ⟨p, hp | ⟨hp, hcreate⟩, hnew, -, hout, hsame⟩
        · cases hnone
        · have hp' : findToken n.toList target = some p := hp
          rw [hp', hout]
          cases p with
          | leaf n' d' t v => exact iff_of_true (fun _ => hsame hp rfl) trivial
          | bag n' d' type' ps =>
            dsimp only
            rw [← ih (cut separator name).2 hqs ps]
            refine imp_congr_right fun _ => ⟨fun hkept => ?_, fun he => hsame hp ?_⟩
            · rw [hkept, hp] at hnew
              exact (Marsh.Property.bag.inj (Option.some.inj hnew)).2.2.2.symm
            · rw [inside, he]
        · have hp' : findToken n.toList target = none := hp
          obtain ⟨type', rfl⟩ := hw.created_bag n d type qs p hcreate
          rw [hp', hout]
          dsimp only
          rw [← walk_nil_iff ts k separator (cut separator name).2 hqs]
          refine ⟨fun hkept => ?_, fun hok hno => absurd hok hno⟩
          by_contra hno
          rw [hkept hno, hp] at hnew
          cases hnew

/-- The update of a leaf that succeeds leaves one. -/
theorem updated_leaf {n d : String} {t : τ} {v : V} {target : List (Marsh.Property τ V)}
    {p : Marsh.Property τ V} (hp : (updateWalker ts).Meets (.leaf n d t v) target p)
    (hok : ((updateWalker ts).item (.leaf n d t v) p).2 = .ok) :
    Walker.isBag ((updateWalker ts).item (.leaf n d t v) p).1 = false := by
  have hw := updateWalker_regular ts
  rcases hp with - | ⟨-, hcreate⟩
  · cases p with
    | leaf n' d' t' v' => simp [updateWalker, TypeSystem.updater, Walker.isBag]
    | bag n' d' type' ps =>
      rw [hw.leaf_bag] at hok
      cases hok
  · obtain ⟨n', d', t', v', hleaf⟩ := hw.created_leaf n d t v p hcreate
    rw [hleaf]
    rfl

/-- An update that succeeds is found at its path, with nothing else changed. -/
theorem walk_done (k : ℕ) (separator name : Name) {source : List (Marsh.Property τ V)}
    (hk : heights source < k) (target : List (Marsh.Property τ V))
    (hok : ((updateWalker ts).walk separator name source target).2 = .ok) :
    ∃ names q p, findProperty separator name (ofProperties source) = some names ∧
      propertyAt names source = some q ∧
      (propertyAt names target = some p ∨
        propertyAt names target = none ∧ (updateWalker ts).create q = some p) ∧
      findProperty separator name
        (ofProperties ((updateWalker ts).walk separator name source target).1) = some names ∧
      propertyAt names ((updateWalker ts).walk separator name source target).1 =
        some ((updateWalker ts).item q p).1 ∧
      Within names target ((updateWalker ts).walk separator name source target).1 := by
  induction k generalizing name source target with
  | zero => omega
  | succ k ih =>
    have hw := updateWalker_regular ts
    rw [findProperty_step, findProperty_step]
    rw [Walker.walk_eq] at hok ⊢
    cases hfind : findToken (cut separator name).1 source with
    | none =>
      rw [hfind] at hok
      cases hok
    | some q =>
      obtain ⟨hmem, hname⟩ := findToken_name hfind
      rw [hfind] at hok
      dsimp only at hok ⊢
      by_cases hend : (cut separator name).2 = [] ∨ Walker.isBag q = false
      · rw [walkAt_last ts hend] at hok ⊢
        rcases Walker.place_cases hw q (hw.name q) target with
          ⟨hnone, -, -⟩ | ⟨p, hp, hnew, hothers, hout, -⟩
        · cases hnone
        · rw [hname] at hnew hothers
          have hstop : (cut separator name).2 = [] ∨
              Walker.isBag ((updateWalker ts).item q p).1 = false := by
            cases q with
            | leaf n d t v => exact .inr (updated_leaf ts hp (hout ▸ hok))
            | bag n d type qs => exact .inl (hend.resolve_right (by simp [Walker.isBag]))
          rw [Walker.Meets, hname] at hp
          refine ⟨[(cut separator name).1], q, p, if_pos hend, ?_, ?_, ?_, ?_, hothers⟩
          · rw [propertyAt_single, hfind]
          · rw [propertyAt_single]
            exact hp
          · rw [hnew]
            exact if_pos hstop
          · rw [propertyAt_single, hnew]
      obtain ⟨hrest, hbag⟩ := not_or.mp hend
      cases q with
      | leaf n d t v => exact absurd rfl hbag
      | bag n d type qs =>
        rw [Walker.walkAt, if_neg hrest] at hok ⊢
        rcases Walker.place_cases hw (.bag n d type qs) (inside_name
            ((updateWalker ts).walk separator (cut separator name).2 qs)) target with
          ⟨hnone, -, -⟩ | ⟨p, hp, hnew, hothers, hout, -⟩
        · cases hnone
        rw [hout] at hok
        rw [Walker.Meets, hname] at hp
        rw [hname] at hnew hothers
        -- the bag of the target in which the update goes on
        obtain ⟨n', d', type', ps, rfl, hcontents, hmade⟩ : ∃ n' d' type' ps,
            p = .bag n' d' type' ps ∧ contents (findToken (cut separator name).1 target) = ps ∧
              ∀ p', findToken (cut separator name).1 target = some p' →
                p' = .bag n' d' type' ps := by
          rcases hp with hp | ⟨hp, hcreate⟩
          · cases p with
            | leaf n' d' t v => cases hok
            | bag n' d' type' ps =>
              refine ⟨n', d', type', ps, rfl, by rw [hp]; rfl, fun p' hp' => ?_⟩
              exact (Option.some.inj (hp.symm.trans hp')).symm
          · obtain ⟨type', rfl⟩ := hw.created_bag n d type qs p hcreate
            refine ⟨n, d, type', [], rfl, by rw [hp]; rfl, fun p' hp' => ?_⟩
            rw [hp] at hp'
            cases hp'
        obtain ⟨names, q, p, hsource, hq, hold, hfound, hat, hin⟩ :=
          ih (cut separator name).2 (bag_height hmem hk) ps hok
        have hn : names ≠ [] := by
          rintro rfl
          cases hq
        refine ⟨(cut separator name).1 :: names, q, p, ?_, ?_, ?_, ?_, ?_, ?_⟩
        · rw [if_neg hend]
          exact congrArg (Option.map ((cut separator name).1 :: ·)) hsource
        · rw [propertyAt_cons hn, hfind]
          exact hq
        · rw [propertyAt_cons hn, hcontents]
          exact hold
        · rw [hnew]
          dsimp only
          rw [if_neg (not_or.mpr ⟨hrest, by simp [inside, Walker.isBag]⟩)]
          exact congrArg (Option.map ((cut separator name).1 :: ·)) hfound
        · rw [propertyAt_cons hn, hnew]
          exact hat
        · refine (within_cons hn _ _).mpr ⟨⟨hothers, fun p' hp' => ?_, fun _ p' hp' => ?_⟩, ?_⟩
          · rw [hmade p' hp']
            exact ⟨_, hnew, rfl⟩
          · rw [hnew] at hp'
            cases hp'
            exact ⟨_, _, _, _, rfl⟩
          · rw [hcontents, hnew]
            exact hin

theorem updates_iff (separator name : Name) (source target : List (Marsh.Property τ V)) :
    UpdatesAllOrNothing (updateWalker ts) separator name source target ↔
      Clean (updateWalker ts) separator name source target :=
  (and_iff_right (walk_done ts _ separator name (Nat.lt_succ_self _) target)).trans
    (walk_clean_iff ts _ separator name (Nat.lt_succ_self _) target)

/-- `storeProperty` and `updateProperty` by a path do all or nothing under these conditions, and no
others. -/
theorem all_or_nothing_iff (item : Option (Marsh.Property τ V)) (path separator : Name)
    (bag source : List (Marsh.Property τ V)) :
    (StoresAllOrNothing item path separator bag ↔ Storable item path separator bag) ∧
      (UpdatesAllOrNothing (updateWalker ts) separator path source bag ↔
        Clean (updateWalker ts) separator path source bag) :=
  ⟨stores_iff item path separator bag, updates_iff ts separator path source bag⟩

end

/-- Without a separator `storeProperty` does not return, and with no item to store it leaves the bag
behind that it has created. -/
theorem neither_all_nor_nothing :
    ¬ StoresAllOrNothing (some (.leaf "n" "" "int" 1 : Marsh.Property String ℕ)) ['a'] [] [] ∧
      ¬ StoresAllOrNothing (none : Option (Marsh.Property String ℕ)) ['a'] ['.'] [] := by
  constructor
  · rintro ⟨r, ⟨calls, h⟩, -⟩
    rw [store_forever _ (by simp)] at h
    cases h
  · rintro ⟨r, hr, -, hfail⟩
    obtain ⟨-, rfl⟩ := (stored_iff _ _ _ _ _).mp hr
    have hleft : storeIn (none : Option (Marsh.Property String ℕ)) (components ['.'] ['a']) [] =
        ([.bag "a" "" "PropertyBag" []], .failed) := rfl
    rw [hleft] at hfail
    exact absurd (hfail (fun hno => by cases hno)) (by simp)

end OrocosRtt.PropertyPaths
