import Mathlib.Data.List.Basic
import Mathlib.Data.List.Nodup

/-! Nested properties by the path of their names: how `findProperty` and `removeProperty` take a path
apart, and where that leads. -/
namespace OrocosRtt.PropertyPaths

/-- A `std::string` -/
abbrev Name := List Char

/-- What a property has besides its name and the properties in it is of no matter here. -/
inductive Property (V : Type) where
  | leaf (name : Name) (rest : V)
  | bag (name : Name) (rest : V) (properties : List (Property V))

variable {V : Type}

def Property.name : Property V → Name
  | .leaf n _ => n
  | .bag n _ _ => n

/-- What is before and after the first occurrence of the separator. -/
def splitFirst (separator : Name) : Name → Option (Name × Name)
  | [] => if separator = [] then some ([], []) else none
  | c :: s =>
    if separator.isPrefixOf (c :: s) then some ([], (c :: s).drop separator.length)
    else (splitFirst separator s).map fun p => (c :: p.1, p.2)

/-- What is before and after the last occurrence of the separator. -/
def splitLast (separator : Name) : Name → Option (Name × Name)
  | [] => if separator = [] then some ([], []) else none
  | c :: s =>
    match splitLast separator s with
    | some p => some (c :: p.1, p.2)
    | none =>
      if separator.isPrefixOf (c :: s) then some ([], (c :: s).drop separator.length) else none

/-- The first token of a path, after one separator at the begin of it, and what is left to look at;
nothing is where the path ends with a separator. -/
def cut (separator nameSequence : Name) : Name × Name :=
  let s :=
    if separator.isPrefixOf nameSequence then nameSequence.drop separator.length else nameSequence
  (splitFirst separator s).getD (s, [])

mutual

/-- The names on the way to the property that is found. The first property of the name of the token
is looked for, and a property that is no bag is the result whatever comes after it. -/
def findProperty (separator nameSequence : Name) : List (Property V) → Option (List Name)
  | [] => none
  | p :: ps =>
    if p.name = (cut separator nameSequence).1 then
      p.search separator (cut separator nameSequence).2
    else findProperty separator nameSequence ps

def Property.search (separator rest : Name) : Property V → Option (List Name)
  | .leaf name _ => some [name]
  | .bag name _ ps =>
    if rest = [] then some [name] else (findProperty separator rest ps).map (name :: ·)

end

/-- `PropertyBag::find` -/
def find (name : Name) (ps : List (Property V)) : Option (Property V) :=
  ps.find? fun p => p.name = name

/-- The property at the end of these names. -/
def lookup : List Name → List (Property V) → Option (Property V)
  | [], _ => none
  | [name], ps => find name ps
  | name :: names, ps =>
    match find name ps with
    | some (.bag _ _ qs) => lookup names qs
    | _ => none

def Property.mapBag (f : List (Property V) → List (Property V)) : Property V → Property V
  | .leaf n r => .leaf n r
  | .bag n r qs => .bag n r (f qs)

/-- Changes what is in the first property of the name. -/
def modifyBag (name : Name) (f : List (Property V) → List (Property V)) :
    List (Property V) → List (Property V)
  | [] => []
  | p :: ps => if p.name = name then p.mapBag f :: ps else p :: modifyBag name f ps

/-- The bag without the property at the end of these names. -/
def removeAt : List Name → List (Property V) → List (Property V)
  | [], ps => ps
  | [name], ps => ps.eraseP fun p => p.name = name
  | name :: names, ps => modifyBag name (removeAt names) ps

def removeProperty (ps : List (Property V)) (path separator : Name) : Bool × List (Property V) :=
  if path = [] ∨ path = separator then (false, ps)
  else
    match splitLast separator path with
    | none => if (find path ps).isSome then (true, removeAt [path] ps) else (false, ps)
    | some ([], pname) =>
      if (find pname ps).isSome then (true, removeAt [pname] ps) else (false, ps)
    | some (prefixes, pname) =>
      -- the separator is not handed on: this one is the default argument
      match findProperty ['.'] prefixes ps with
      | none => (false, ps)
      | some names =>
        match lookup names ps with
        | some (.bag _ _ qs) =>
          if (find pname qs).isSome then (true, removeAt (names ++ [pname]) ps) else (false, ps)
        | _ => (false, ps)

/-- `removeProperty` removes what `findProperty` finds, and nothing else. -/
def Agrees (ps : List (Property V)) (path separator : Name) : Prop :=
  removeProperty ps path separator =
    match findProperty separator path ps with
    | none => (false, ps)
    | some names => (true, removeAt names ps)

/-- The names of the properties of a bag are unique, and so they are in the bags in it. -/
inductive Unique : List (Property V) → Prop
  | intro {ps : List (Property V)} (h : (ps.map Property.name).Nodup)
      (hbags : ∀ n r qs, .bag n r qs ∈ ps → Unique qs) : Unique ps

theorem Unique.nodup {ps : List (Property V)} (h : Unique ps) : (ps.map Property.name).Nodup := by
  cases h
  assumption

theorem Unique.bags {ps : List (Property V)} (h : Unique ps) :
    ∀ n r qs, .bag n r qs ∈ ps → Unique qs := by
  cases h
  assumption

/-! ### Paths as lists of names -/

def tokensUpTo (separator : Name) : ℕ → Name → List Name
  | 0, _ => []
  | n + 1, s =>
    if (cut separator s).2 = [] then [(cut separator s).1]
    else (cut separator s).1 :: tokensUpTo separator n (cut separator s).2

/-- The tokens into which `findProperty` takes a path apart. -/
def tokens (separator path : Name) : List Name := tokensUpTo separator (path.length + 1) path

/-- The search with these tokens, which ends at the first property that is no bag. -/
def walk : List Name → List (Property V) → Option (List Name)
  | [], _ => none
  | [name], ps => if (find name ps).isSome then some [name] else none
  | name :: names, ps =>
    match find name ps with
    | none => none
    | some (.leaf _ _) => some [name]
    | some (.bag _ _ qs) => (walk names qs).map (name :: ·)

/-- The names of what `removeProperty` removes: the part of the path before its last separator is
taken apart at the dots. -/
def removalNames (path separator : Name) : List Name :=
  match splitLast separator path with
  | none => [path]
  | some ([], pname) => [pname]
  | some (prefixes, pname) => tokens ['.'] prefixes ++ [pname]

/-- These names, up to the first one that leads to a property that is no bag. -/
def reached : List Name → List (Property V) → List Name
  | [], _ => []
  | name :: names, ps =>
    match find name ps with
    | none => name :: names
    | some (.leaf _ _) => [name]
    | some (.bag _ _ qs) => name :: reached names qs

/-- The two functions take the path apart into the same names, or neither of the lists of names
leads to a property. The names after a property that is no bag do not count. -/
def SamePlace (ps : List (Property V)) (path separator : Name) : Prop :=
  removalNames path separator = reached (tokens separator path) ps ∨
    lookup (removalNames path separator) ps = none ∧
      lookup (reached (tokens separator path) ps) ps = none

theorem splitFirst_eq {separator s : Name} {p : Name × Name}
    (h : splitFirst separator s = some p) : s = p.1 ++ separator ++ p.2 := by
  induction s generalizing p with
  | nil =>
    rw [splitFirst] at h
    split at h
    · rename_i hs
      cases h
      rw [hs]
      rfl
    · cases h
  | cons c s ih =>
    rw [splitFirst] at h
    split at h
    · rename_i hs
      cases h
      obtain ⟨t, ht⟩ := List.isPrefixOf_iff_prefix.mp hs
      rw [← ht, List.drop_left]
      rfl
    · obtain ⟨q, hq, rfl⟩ := Option.map_eq_some_iff.mp h
      exact congrArg (c :: ·) (ih hq)

theorem cut_length {separator : Name} (hs : separator ≠ []) (s : Name)
    (hne : (cut separator s).2 ≠ []) : (cut separator s).2.length < s.length := by
  have hpos : 0 < separator.length := List.length_pos_of_ne_nil hs
  have hlen : (if separator.isPrefixOf s then s.drop separator.length else s).length ≤ s.length := by
    split
    · rw [List.length_drop]
      omega
    · exact Nat.le_refl _
  unfold cut at hne ⊢
  dsimp only at hne ⊢
  revert hlen hne
  generalize (if separator.isPrefixOf s then s.drop separator.length else s) = t
  intro hne hlen
  cases hsplit : splitFirst separator t with
  | none =>
    rw [hsplit] at hne
    exact absurd rfl hne
  | some p =>
    have ht := congrArg List.length (splitFirst_eq hsplit)
    rw [List.length_append, List.length_append] at ht
    dsimp only [Option.getD_some]
    omega

theorem tokensUpTo_enough {separator : Name} (hs : separator ≠ []) :
    ∀ (n m : ℕ) (s : Name), s.length < n → s.length < m →
      tokensUpTo separator n s = tokensUpTo separator m s := by
  intro n
  induction n with
  | zero => intro m s hn _; omega
  | succ n ih =>
    intro m s hn hm
    obtain ⟨m, rfl⟩ : ∃ k, m = k + 1 := ⟨m - 1, by omega⟩
    rw [tokensUpTo, tokensUpTo]
    by_cases hrest : (cut separator s).2 = []
    · rw [if_pos hrest, if_pos hrest]
    · have hlen := cut_length hs s hrest
      rw [if_neg hrest, if_neg hrest, ih m _ (by omega) (by omega)]

theorem tokens_eq {separator : Name} (hs : separator ≠ []) (s : Name) :
    tokens separator s =
      if (cut separator s).2 = [] then [(cut separator s).1]
      else (cut separator s).1 :: tokens separator (cut separator s).2 := by
  rw [tokens, tokensUpTo]
  by_cases hrest : (cut separator s).2 = []
  · rw [if_pos hrest, if_pos hrest]
  · have hlen := cut_length hs s hrest
    rw [if_neg hrest, if_neg hrest, tokensUpTo_enough hs _ _ _ hlen (Nat.lt_succ_self _)]
    rfl

theorem tokens_ne_nil (separator s : Name) : tokens separator s ≠ [] := by
  rw [tokens, tokensUpTo]
  split <;> nofun

theorem walk_cons {names : List Name} (hn : names ≠ []) (name : Name) (ps : List (Property V)) :
    walk (name :: names) ps =
      match find name ps with
      | none => none
      | some (.leaf _ _) => some [name]
      | some (.bag _ _ qs) => (walk names qs).map (name :: ·) := by
  cases names with
  | nil => exact absurd rfl hn
  | cons => rfl

theorem lookup_cons {names : List Name} (hn : names ≠ []) (name : Name) (ps : List (Property V)) :
    lookup (name :: names) ps =
      match find name ps with
      | some (.bag _ _ qs) => lookup names qs
      | _ => none := by
  cases names with
  | nil => exact absurd rfl hn
  | cons => rfl

theorem removeAt_cons {names : List Name} (hn : names ≠ []) (name : Name)
    (ps : List (Property V)) : removeAt (name :: names) ps = modifyBag name (removeAt names) ps := by
  cases names with
  | nil => exact absurd rfl hn
  | cons => rfl

theorem find_name {name : Name} {ps : List (Property V)} {p : Property V}
    (h : find name ps = some p) : p ∈ ps ∧ p.name = name := by
  refine ⟨List.mem_of_find?_eq_some h, ?_⟩
  simpa using List.find?_some h

theorem findProperty_eq (separator s : Name) (ps : List (Property V)) :
    findProperty separator s ps =
      match find (cut separator s).1 ps with
      | none => none
      | some p => p.search separator (cut separator s).2 := by
  induction ps with
  | nil => rfl
  | cons p ps ih =>
    rw [findProperty, find, List.find?_cons]
    by_cases hp : p.name = (cut separator s).1
    · simp [hp]
    · simpa [hp, find] using ih

/-- `findProperty` is the search with the tokens of the path. -/
theorem findProperty_walk {separator : Name} (hs : separator ≠ []) (s : Name)
    (ps : List (Property V)) : findProperty separator s ps = walk (tokens separator s) ps := by
  induction hn : s.length using Nat.strongRecOn generalizing s ps with
  | ind n ih =>
    rw [findProperty_eq, tokens_eq hs]
    by_cases hrest : (cut separator s).2 = []
    · rw [if_pos hrest, walk]
      cases hfind : find (cut separator s).1 ps with
      | none => rfl
      | some p =>
        obtain ⟨-, hname⟩ := find_name hfind
        cases p with
        | leaf n r => simpa [Property.search, Property.name] using hname
        | bag n r qs => simpa [Property.search, Property.name, hrest] using hname
    · rw [if_neg hrest, walk_cons (tokens_ne_nil _ _)]
      cases hfind : find (cut separator s).1 ps with
      | none => rfl
      | some p =>
        obtain ⟨-, hname⟩ := find_name hfind
        cases p with
        | leaf n r => simpa [Property.search, Property.name] using hname
        | bag n r qs =>
          have hlen := cut_length hs s hrest
          have hnext := ih _ (by omega) (cut separator s).2 qs rfl
          have hname' : n = (cut separator s).1 := hname
          simp [Property.search, hrest, hnext, hname']

theorem walk_lookup {names found : List Name} {ps : List (Property V)}
    (h : walk names ps = some found) : found ≠ [] ∧ (lookup found ps).isSome := by
  induction names generalizing found ps with
  | nil => cases h
  | cons name names ih =>
    by_cases hn : names = []
    · subst hn
      rw [walk] at h
      split at h
      · rename_i hfind
        cases h
        exact ⟨nofun, hfind⟩
      · cases h
    · rw [walk_cons hn] at h
      cases hfind : find name ps with
      | none =>
        rw [hfind] at h
        cases h
      | some p =>
        rw [hfind] at h
        cases p with
        | leaf n r =>
          cases h
          exact ⟨nofun, by rw [lookup, hfind]; rfl⟩
        | bag n r qs =>
          obtain ⟨inner, hinner, rfl⟩ := Option.map_eq_some_iff.mp h
          obtain ⟨hne, hsome⟩ := ih hinner
          refine ⟨nofun, ?_⟩
          rw [lookup_cons hne, hfind]
          exact hsome

theorem reached_ne_nil {names : List Name} (hn : names ≠ []) (ps : List (Property V)) :
    reached names ps ≠ [] := by
  cases names with
  | nil => exact absurd rfl hn
  | cons name names =>
    rw [reached]
    split <;> nofun

/-- What the search comes to is at the names it reaches. -/
theorem walk_reached {names : List Name} (hn : names ≠ []) (ps : List (Property V)) :
    walk names ps =
      if (lookup (reached names ps) ps).isSome then some (reached names ps) else none := by
  induction names generalizing ps with
  | nil => exact absurd rfl hn
  | cons name names ih =>
    by_cases hne : names = []
    · subst hne
      have hone : reached [name] ps = [name] := by
        rw [reached]
        split <;> rfl
      rw [hone, walk, lookup]
    · rw [walk_cons hne, reached]
      cases hfind : find name ps with
      | none =>
        dsimp only
        rw [lookup_cons hne, hfind]
        rfl
      | some p =>
        cases p with
        | leaf n r =>
          dsimp only
          rw [lookup, hfind]
          rfl
        | bag n r qs =>
          dsimp only
          rw [ih hne, lookup_cons (reached_ne_nil hne _), hfind]
          dsimp only
          split <;> rfl

/-- A property in a bag is found by its name in the bag that the search leads to. -/
theorem lookup_concat {names : List Name} (hn : names ≠ []) (pname : Name)
    (ps : List (Property V)) :
    lookup (names ++ [pname]) ps =
      match walk names ps with
      | none => none
      | some found =>
        match lookup found ps with
        | some (.bag _ _ qs) => find pname qs
        | _ => none := by
  induction names generalizing ps with
  | nil => exact absurd rfl hn
  | cons name names ih =>
    rw [List.cons_append, lookup_cons (by simp)]
    by_cases hne : names = []
    · subst hne
      rw [walk]
      cases hfind : find name ps with
      | none => rfl
      | some p =>
        rw [Option.isSome_some, if_pos rfl]
        dsimp only
        rw [lookup, hfind]
        cases p with
        | leaf n r => rfl
        | bag n r qs => rfl
    · rw [walk_cons hne]
      cases hfind : find name ps with
      | none => rfl
      | some p =>
        cases p with
        | leaf n r =>
          dsimp only
          rw [lookup, hfind]
        | bag n r qs =>
          dsimp only
          rw [ih hne]
          cases hwalk : walk names qs with
          | none => rfl
          | some found =>
            have hfound := (walk_lookup hwalk).1
            rw [Option.map_some]
            dsimp only
            rw [lookup_cons hfound, hfind]

/-- A search that comes to a bag has used up the names. -/
theorem walk_bag {names found : List Name} {ps qs : List (Property V)} {n : Name} {r : V}
    (h : walk names ps = some found) (hbag : lookup found ps = some (.bag n r qs)) :
    found = names := by
  induction names generalizing found ps with
  | nil => cases h
  | cons name names ih =>
    by_cases hn : names = []
    · subst hn
      rw [walk] at h
      split at h
      · cases h
        rfl
      · cases h
    · rw [walk_cons hn] at h
      cases hfind : find name ps with
      | none =>
        rw [hfind] at h
        cases h
      | some p =>
        rw [hfind] at h
        cases p with
        | leaf m t =>
          cases h
          rw [lookup, hfind] at hbag
          cases hbag
        | bag m t inside =>
          obtain ⟨inner, hinner, rfl⟩ := Option.map_eq_some_iff.mp h
          rw [lookup_cons (walk_lookup hinner).1, hfind] at hbag
          exact congrArg (name :: ·) (ih hinner hbag)

theorem removeInside {found names : List Name} (there : Option (Property V)) (pname : Name)
    (ps : List (Property V))
    (hbag : ∀ n r qs, there = some (.bag n r qs) → found = names) :
    (match there with
    | some (.bag _ _ qs) =>
      if (find pname qs).isSome then (true, removeAt (found ++ [pname]) ps) else (false, ps)
    | _ => (false, ps)) =
      if (match there with
        | some (.bag _ _ qs) => find pname qs
        | _ => none).isSome then (true, removeAt (names ++ [pname]) ps)
      else (false, ps) := by
  cases there with
  | none => rfl
  | some p =>
    cases p with
    | leaf n r => rfl
    | bag n r qs => rw [hbag n r qs rfl]

/-- `removeProperty` removes the property of its own names. -/
theorem removeProperty_eq {path separator : Name} (ps : List (Property V)) (hpath : path ≠ [])
    (hsep : path ≠ separator) :
    removeProperty ps path separator =
      if (lookup (removalNames path separator) ps).isSome then
        (true, removeAt (removalNames path separator) ps)
      else (false, ps) := by
  have hgo : ¬ (path = [] ∨ path = separator) := by
    rintro (h | h)
    · exact hpath h
    · exact hsep h
  unfold removeProperty removalNames
  rw [if_neg hgo]
  cases hsplit : splitLast separator path with
  | none => rfl
  | some p =>
    obtain ⟨prefixes, pname⟩ := p
    cases prefixes with
    | nil => rfl
    | cons c front =>
      dsimp only
      rw [findProperty_walk (by simp), lookup_concat (tokens_ne_nil _ _)]
      cases hwalk : walk (tokens ['.'] (c :: front)) ps with
      | none => rfl
      | some found =>
        exact removeInside _ pname ps fun n r qs => walk_bag hwalk

/-! ### What is removed tells the names -/

theorem find_modifyBag {name : Name} {ps qs : List (Property V)} {n : Name} {r : V}
    {f : List (Property V) → List (Property V)} (h : find name ps = some (.bag n r qs)) :
    find name (modifyBag name f ps) = some (.bag n r (f qs)) := by
  induction ps with
  | nil => cases h
  | cons p ps ih =>
    rw [find, List.find?_cons] at h
    by_cases hp : p.name = name
    · rw [modifyBag, if_pos hp]
      have hhead : p = .bag n r qs := by simpa [hp] using h
      subst hhead
      have hname : n = name := hp
      simp [find, Property.name, Property.mapBag, hname]
    · rw [modifyBag, if_neg hp, find, List.find?_cons]
      have htail : find name ps = some (.bag n r qs) := by simpa [hp, find] using h
      simpa [hp, find] using ih htail

theorem find_modifyBag_ne {name other : Name} (hne : other ≠ name) (ps : List (Property V))
    (f : List (Property V) → List (Property V)) :
    find other (modifyBag name f ps) = find other ps := by
  induction ps with
  | nil => rfl
  | cons p ps ih =>
    rw [modifyBag]
    split
    · rename_i hp
      have hname : ∀ q : Property V, q.name = name → find other (q :: ps) = find other ps := by
        intro q hq
        have hno : ¬ q.name = other := fun heq => hne (heq.symm.trans hq)
        simp [find, hno]
      rw [hname p hp]
      cases p with
      | leaf n r => exact hname _ hp
      | bag n r qs => exact hname _ hp
    · rw [find, find, List.find?_cons, List.find?_cons]
      split
      · rfl
      · exact ih

theorem length_modifyBag (name : Name) (f : List (Property V) → List (Property V))
    (ps : List (Property V)) : (modifyBag name f ps).length = ps.length := by
  induction ps with
  | nil => rfl
  | cons p ps ih =>
    rw [modifyBag]
    split
    · rfl
    · rw [List.length_cons, List.length_cons, ih]

theorem length_removeAt {name : Name} {ps : List (Property V)} (h : (find name ps).isSome) :
    (removeAt [name] ps).length + 1 = ps.length := by
  obtain ⟨p, hp⟩ := Option.isSome_iff_exists.mp h
  obtain ⟨hmem, hname⟩ := find_name hp
  have hpos := List.length_pos_of_mem hmem
  rw [removeAt, List.length_eraseP_of_mem hmem (by simpa using hname)]
  omega

theorem find_removeAt_ne {name other : Name} (hne : other ≠ name) (ps : List (Property V)) :
    find other (removeAt [name] ps) = find other ps := by
  induction ps with
  | nil => rfl
  | cons p ps ih =>
    rw [removeAt, List.eraseP_cons]
    by_cases hp : p.name = name
    · have hno : ¬ p.name = other := fun heq => hne (heq.symm.trans hp)
      have hhead : find other (p :: ps) = find other ps := by
        simp [find, hno]
      rw [hhead, decide_eq_true hp]
      rfl
    · have ih' : find other (ps.eraseP fun p => p.name = name) = find other ps := ih
      rw [find] at ih'
      simp [find, List.find?_cons, hp, ih']

theorem find_removeAt (name : Name) {ps : List (Property V)}
    (h : (ps.map Property.name).Nodup) : find name (removeAt [name] ps) = none := by
  induction ps with
  | nil => rfl
  | cons p ps ih =>
    rw [List.map_cons, List.nodup_cons] at h
    rw [removeAt, List.eraseP_cons]
    by_cases hp : p.name = name
    · have hrest : ∀ q ∈ ps, ¬ q.name = name := by
        intro q hq heq
        exact h.1 (List.mem_map.mpr ⟨q, hq, heq.trans hp.symm⟩)
      simpa [find, hp] using hrest
    · have ih' : find name (ps.eraseP fun p => p.name = name) = none := ih h.2
      rw [find] at ih'
      simp [find, hp, ih']

theorem lookup_bag {names : List Name} (hn : names ≠ []) {name : Name} {ps : List (Property V)}
    (h : (lookup (name :: names) ps).isSome) :
    ∃ n r qs, find name ps = some (.bag n r qs) ∧ (lookup names qs).isSome := by
  rw [lookup_cons hn] at h
  cases hfind : find name ps with
  | none =>
    rw [hfind] at h
    cases h
  | some p =>
    rw [hfind] at h
    cases p with
    | leaf n r => cases h
    | bag n r qs => exact ⟨n, r, qs, rfl, h⟩

theorem removeAt_ne {names : List Name} {ps : List (Property V)} (h : (lookup names ps).isSome) :
    removeAt names ps ≠ ps := by
  induction names generalizing ps with
  | nil => cases h
  | cons name names ih =>
    intro heq
    by_cases hn : names = []
    · subst hn
      have hlen := length_removeAt h
      rw [heq] at hlen
      omega
    · obtain ⟨n, r, qs, hfind, hsome⟩ := lookup_bag hn h
      rw [removeAt_cons hn] at heq
      have hmod := find_modifyBag (f := removeAt names) hfind
      rw [heq, hfind] at hmod
      injection hmod with hmod
      injection hmod with _ _ hqs
      exact ih hsome hqs.symm

/-- Different properties leave different bags behind. -/
theorem removeAt_inj {names names' : List Name} {ps : List (Property V)} (hu : Unique ps)
    (h : (lookup names ps).isSome) (h' : (lookup names' ps).isSome)
    (heq : removeAt names ps = removeAt names' ps) : names = names' := by
  induction names generalizing names' ps with
  | nil => cases h
  | cons name names ih =>
    cases names' with
    | nil => cases h'
    | cons name' names' =>
      by_cases hn : names = [] <;> by_cases hn' : names' = []
      · subst hn hn'
        by_contra hne
        have hother : name ≠ name' := fun hsame => hne (by rw [hsame])
        have hgone := find_removeAt name hu.nodup
        rw [heq, find_removeAt_ne hother] at hgone
        rw [lookup, hgone] at h
        cases h
      · subst hn
        have hlen := length_removeAt h
        rw [heq, removeAt_cons hn', length_modifyBag] at hlen
        omega
      · subst hn'
        have hlen := length_removeAt h'
        rw [← heq, removeAt_cons hn, length_modifyBag] at hlen
        omega
      · obtain ⟨n, r, qs, hfind, hsome⟩ := lookup_bag hn h
        obtain ⟨n', r', qs', hfind', hsome'⟩ := lookup_bag hn' h'
        rw [removeAt_cons hn, removeAt_cons hn'] at heq
        have hmod := find_modifyBag (f := removeAt names) hfind
        by_cases hsame : name = name'
        · subst hsame
          rw [hfind] at hfind'
          cases hfind'
          rw [heq, find_modifyBag hfind] at hmod
          injection hmod with hmod
          injection hmod with _ _ hqs
          rw [ih (hu.bags _ _ _ (find_name hfind).1) hsome hsome' hqs.symm]
        · rw [heq, find_modifyBag_ne hsame, hfind] at hmod
          injection hmod with hmod
          injection hmod with _ _ hqs
          exact absurd hqs.symm (removeAt_ne hsome)

/-- `removeProperty` and `findProperty` agree if and only if they come to the same place. -/
theorem agrees_iff {ps : List (Property V)} {path separator : Name} (hu : Unique ps)
    (hpath : path ≠ []) (hsep : separator ≠ []) (hlead : ¬ separator <+: path) :
    Agrees ps path separator ↔ SamePlace ps path separator := by
  have hne : path ≠ separator := by
    rintro rfl
    exact hlead (List.prefix_refl _)
  have htokens := tokens_ne_nil separator path
  unfold Agrees SamePlace
  rw [removeProperty_eq ps hpath hne, findProperty_walk hsep, walk_reached htokens]
  generalize removalNames path separator = names
  generalize reached (tokens separator path) ps = found
  cases hnames : lookup names ps with
  | none =>
    cases hfound : lookup found ps with
    | none => simp
    | some q =>
      simp only [Option.isSome_none, Option.isSome_some, if_true, Bool.false_eq_true, if_false]
      constructor
      · simp
      · rintro (rfl | ⟨-, hno⟩)
        · rw [hnames] at hfound
          cases hfound
        · cases hno
  | some p =>
    cases hfound : lookup found ps with
    | none =>
      simp only [Option.isSome_none, Option.isSome_some, if_true, Bool.false_eq_true, if_false]
      constructor
      · simp
      · rintro (rfl | ⟨hno, -⟩)
        · rw [hnames] at hfound
          cases hfound
        · cases hno
    | some q =>
      simp only [Option.isSome_some, if_true]
      constructor
      · intro h
        injection h with _ h
        exact Or.inl (removeAt_inj hu (Option.isSome_of_eq_some hnames)
          (Option.isSome_of_eq_some hfound) h)
      · rintro (rfl | ⟨hno, -⟩)
        · rfl
        · cases hno

/-- `a/b`, in a bag that has nothing else, is found and removed. -/
theorem agrees_iff_slash :
    Agrees [.bag ['a'] () [.leaf ['b'] ()]] ['a', '/', 'b'] ['/'] := by
  have hinner : Unique [Property.leaf ['b'] ()] := ⟨by simp, by simp⟩
  have hu : Unique [Property.bag ['a'] () [.leaf ['b'] ()]] := by
    refine ⟨by simp, ?_⟩
    intro n r qs hmem
    cases List.mem_singleton.mp hmem
    exact hinner
  exact (agrees_iff hu (by decide) (by decide) (by decide)).mpr (Or.inl (by decide))

/-- `a/b/c` is found and cannot be removed: before the last separator only dots are looked for. -/
theorem not_removed :
    ∃ (ps : List (Property Unit)) (path separator : Name), Unique ps ∧ path ≠ [] ∧ separator ≠ [] ∧
      ¬ separator <+: path ∧ ¬ Agrees ps path separator ∧
      findProperty separator path ps = some [['a'], ['b'], ['c']] ∧
      removeProperty ps path separator = (false, ps) := by
  have hc : Unique [Property.leaf ['c'] ()] := ⟨by simp, by simp⟩
  have hb : Unique [Property.bag ['b'] () [.leaf ['c'] ()]] := by
    refine ⟨by simp, ?_⟩
    intro n r qs hmem
    cases List.mem_singleton.mp hmem
    exact hc
  have ha : Unique [Property.bag ['a'] () [.bag ['b'] () [.leaf ['c'] ()]]] := by
    refine ⟨by simp, ?_⟩
    intro n r qs hmem
    cases List.mem_singleton.mp hmem
    exact hb
  have hfound : findProperty ['/'] ['a', '/', 'b', '/', 'c']
      [Property.bag ['a'] () [.bag ['b'] () [.leaf ['c'] ()]]] = some [['a'], ['b'], ['c']] := by
    rfl
  have hkept : removeProperty [Property.bag ['a'] () [.bag ['b'] () [.leaf ['c'] ()]]]
      ['a', '/', 'b', '/', 'c'] ['/'] =
        (false, [Property.bag ['a'] () [.bag ['b'] () [.leaf ['c'] ()]]]) := by
    rfl
  refine ⟨_, _, _, ha, by decide, by decide, by decide, ?_, hfound, hkept⟩
  unfold Agrees
  rw [hfound, hkept]
  intro h
  injection h with h
  cases h

end OrocosRtt.PropertyPaths
