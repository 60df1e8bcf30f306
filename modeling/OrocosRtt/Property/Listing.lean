import OrocosRtt.Property.Paths
import Mathlib.Data.List.Infix

/-! The paths that `listProperties` lists, against those that `findProperty` finds something at. -/
namespace OrocosRtt.PropertyPaths

variable {V : Type}

/-- The name of an item, under what is before it. -/
def itemname (separator before name : Name) : Name :=
  if before = [] then name else before ++ separator ++ name

mutual

def listPropertiesHelper (separator before : Name) : List (Property V) → List Name
  | [] => []
  | p :: ps => p.listing separator before ++ listPropertiesHelper separator before ps

def Property.listing (separator before : Name) : Property V → List Name
  | .leaf name _ => [itemname separator before name]
  | .bag name _ qs =>
    itemname separator before name ::
      listPropertiesHelper separator (itemname separator before name) qs

end

def listProperties (separator : Name) (ps : List (Property V)) : List Name :=
  listPropertiesHelper separator [] ps

/-- The names, with the separator between them. -/
def joined (separator : Name) : List Name → Name
  | [] => []
  | [name] => name
  | name :: names => name ++ separator ++ joined separator names

/-- The names of the properties are not empty and free of the separator, and so they are in the bags
in it. -/
inductive Named (separator : Name) : List (Property V) → Prop
  | intro {ps : List (Property V)} (h : ∀ p ∈ ps, p.name ≠ [] ∧ ¬ separator <:+: p.name)
      (hbags : ∀ n r qs, .bag n r qs ∈ ps → Named separator qs) : Named separator ps

theorem Named.names {separator : Name} {ps : List (Property V)} (h : Named separator ps) :
    ∀ p ∈ ps, p.name ≠ [] ∧ ¬ separator <:+: p.name := by
  cases h
  assumption

theorem Named.bags {separator : Name} {ps : List (Property V)} (h : Named separator ps) :
    ∀ n r qs, .bag n r qs ∈ ps → Named separator qs := by
  cases h
  assumption

/-- A property is found at the listed paths only, and it is the one at the path. -/
def FindAgrees (ps : List (Property V)) (path separator : Name) : Prop :=
  ((findProperty separator path ps).isSome ↔ path ∈ listProperties separator ps) ∧
    ∀ names, findProperty separator path ps = some names → joined separator names = path

/-- No name before the last one is that of a property that is no bag. -/
def NoLeafBefore (names : List Name) (ps : List (Property V)) : Prop :=
  ∀ front n r, front <+: names → front ≠ names → lookup front ps ≠ some (.leaf n r)

/-- The names into which the path is cut are those that it is made of. -/
structure Straight (ps : List (Property V)) (path separator : Name) : Prop where
  bags : NoLeafBefore (tokens separator path) ps
  /-- A separator that follows another one is skipped. -/
  single : (lookup (tokens separator path) ps).isSome → joined separator (tokens separator path) = path
  /-- A separator may begin in the name before it. -/
  first : ∀ names, (lookup names ps).isSome → joined separator names = path →
    (lookup (tokens separator path) ps).isSome

/-! ### Names and paths -/

theorem joined_cons {separator : Name} {names : List Name} (hn : names ≠ []) (name : Name) :
    joined separator (name :: names) = name ++ separator ++ joined separator names := by
  cases names with
  | nil => exact absurd rfl hn
  | cons => rfl

theorem splitFirst_none {separator s : Name} (h : splitFirst separator s = none) :
    ¬ separator <:+: s := by
  induction s with
  | nil =>
    rw [splitFirst] at h
    split at h
    · cases h
    · rename_i hs
      intro hin
      exact hs (List.eq_nil_of_infix_nil hin)
  | cons c s ih =>
    rw [splitFirst] at h
    split at h
    · cases h
    · rename_i hs
      have hrest : splitFirst separator s = none := by simpa using h
      rw [List.infix_cons_iff]
      rintro (hin | hin)
      · exact hs (List.isPrefixOf_iff_prefix.mpr hin)
      · exact ih hrest hin

/-- The separator does not begin earlier. -/
theorem splitFirst_first {separator s : Name} {p : Name × Name}
    (h : splitFirst separator s = some p) (k : ℕ) (hk : k < p.1.length) :
    ¬ separator <+: s.drop k := by
  induction s generalizing p k with
  | nil =>
    rw [splitFirst] at h
    split at h
    · cases h
      exact absurd hk (Nat.not_lt_zero k)
    · cases h
  | cons c s ih =>
    rw [splitFirst] at h
    split at h
    · cases h
      exact absurd hk (Nat.not_lt_zero k)
    · rename_i hs
      obtain ⟨q, hq, rfl⟩ := Option.map_eq_some_iff.mp h
      cases k with
      | zero => exact fun hin => hs (List.isPrefixOf_iff_prefix.mpr hin)
      | succ k => exact ih hq k (by simpa using hk)

/-- The path without the separator that it begins with. -/
def stripped (separator path : Name) : Name :=
  if separator.isPrefixOf path then path.drop separator.length else path

theorem stripped_eq (separator path : Name) :
    stripped separator path = path ∧ ¬ separator <+: path ∨
      path = separator ++ stripped separator path := by
  unfold stripped
  split
  · rename_i h
    obtain ⟨t, rfl⟩ := List.isPrefixOf_iff_prefix.mp h
    exact Or.inr (by rw [List.drop_left])
  · rename_i h
    exact Or.inl ⟨rfl, fun hin => h (List.isPrefixOf_iff_prefix.mpr hin)⟩

/-- What is cut off: the path ends there but for one separator, or it goes on after the first one. -/
theorem cut_spec (separator path : Name) :
    (cut separator path).2 = [] ∧
        (stripped separator path = (cut separator path).1 ∨
          stripped separator path = (cut separator path).1 ++ separator) ∨
      (cut separator path).2 ≠ [] ∧
        stripped separator path = (cut separator path).1 ++ separator ++ (cut separator path).2 ∧
        ∀ k < (cut separator path).1.length, ¬ separator <+: (stripped separator path).drop k := by
  have hcut : cut separator path =
      (splitFirst separator (stripped separator path)).getD (stripped separator path, []) := rfl
  rw [hcut]
  cases hsplit : splitFirst separator (stripped separator path) with
  | none => exact Or.inl ⟨rfl, Or.inl rfl⟩
  | some p =>
    have hparts := splitFirst_eq hsplit
    rw [Option.getD_some]
    by_cases hrest : p.2 = []
    · refine Or.inl ⟨hrest, Or.inr ?_⟩
      rw [hparts, hrest, List.append_nil]
    · exact Or.inr ⟨hrest, hparts, splitFirst_first hsplit⟩

theorem stripped_length (separator path : Name) :
    (stripped separator path).length ≤ path.length := by
  rcases stripped_eq separator path with ⟨h, -⟩ | h
  · rw [h]
  · rw [congrArg List.length h, List.length_append]
    exact Nat.le_add_left ..

/-- The tokens make no longer path than they were cut from. -/
theorem joined_tokens_length {separator : Name} (hs : separator ≠ []) (path : Name) :
    (joined separator (tokens separator path)).length ≤ path.length := by
  induction hn : path.length using Nat.strongRecOn generalizing path with
  | ind n ih =>
    have hstrip := stripped_length separator path
    rw [tokens_eq hs]
    rcases cut_spec separator path with ⟨hend, hparts⟩ | ⟨hmore, hparts, -⟩
    · rw [if_pos hend, joined]
      rcases hparts with hparts | hparts
      · rw [hparts] at hstrip
        omega
      · rw [hparts, List.length_append] at hstrip
        omega
    · have hlen := cut_length hs path hmore
      have hrest := ih _ (by omega) (cut separator path).2 rfl
      rw [if_neg hmore, joined_cons (tokens_ne_nil _ _)]
      rw [hparts] at hstrip
      simp only [List.length_append] at hstrip ⊢
      omega

theorem joined_front_length {separator : Name} (hs : separator ≠ []) {front names : List Name}
    (h : front <+: names) (hne : front ≠ names) (hfront : front ≠ []) :
    (joined separator front).length < (joined separator names).length := by
  have hpos : 0 < separator.length := List.length_pos_of_ne_nil hs
  induction front generalizing names with
  | nil => exact absurd rfl hfront
  | cons name front ih =>
    obtain ⟨rest, rfl⟩ := h
    rw [List.cons_append] at hne ⊢
    by_cases hnil : front = []
    · subst hnil
      have hrest : rest ≠ [] := by
        rintro rfl
        exact hne rfl
      rw [List.nil_append, joined_cons hrest, joined]
      simp only [List.length_append]
      omega
    · have hmore : front ++ rest ≠ [] := by simp [hnil]
      have hlt := ih (List.prefix_append front rest) (fun he => hne (congrArg (name :: ·) he)) hnil
      rw [joined_cons hnil, joined_cons hmore]
      simp only [List.length_append] at hlt ⊢
      omega

/-! ### Which paths are listed -/

theorem find_mem {ps : List (Property V)} (h : (ps.map Property.name).Nodup) {p : Property V}
    (hp : p ∈ ps) : find p.name ps = some p := by
  induction ps with
  | nil => cases hp
  | cons q ps ih =>
    rw [List.map_cons, List.nodup_cons] at h
    rw [find, List.find?_cons]
    rcases List.mem_cons.mp hp with rfl | hmem
    · simp
    · have hne : q.name ≠ p.name := by
        intro heq
        exact h.1 (heq ▸ List.mem_map_of_mem hmem)
      simpa [hne, find] using ih h.2 hmem

theorem mem_helper {separator before path : Name} (ps : List (Property V)) :
    path ∈ listPropertiesHelper separator before ps ↔ ∃ p ∈ ps, path ∈ p.listing separator before := by
  induction ps with
  | nil => simp [listPropertiesHelper]
  | cons p ps ih => simp [listPropertiesHelper, ih]

theorem itemname_joined {separator before name : Name} (hname : name ≠ []) {names : List Name}
    (hn : names ≠ []) :
    itemname separator (itemname separator before name) (joined separator names) =
      itemname separator before (joined separator (name :: names)) := by
  rw [joined_cons hn]
  unfold itemname
  by_cases hb : before = []
  · rw [if_pos hb, if_pos hb, if_neg hname]
  · simp [hb]

/-- The listed paths are those of the names that lead to a property. -/
theorem mem_listPropertiesHelper {separator : Name} {ps : List (Property V)} (hu : Unique ps)
    (hnamed : Named separator ps) (before path : Name) :
    path ∈ listPropertiesHelper separator before ps ↔
      ∃ names, (lookup names ps).isSome ∧
        path = itemname separator before (joined separator names) := by
  induction hu generalizing before with
  | intro hnodup hbags ih =>
    rename_i ps
    rw [mem_helper]
    constructor
    · rintro ⟨p, hp, hlist⟩
      have hfind := find_mem hnodup hp
      cases p with
      | leaf n r =>
        rw [Property.listing, List.mem_singleton] at hlist
        exact ⟨[n], by rw [lookup]; exact Option.isSome_of_eq_some hfind, hlist⟩
      | bag n r qs =>
        rw [Property.listing, List.mem_cons] at hlist
        rcases hlist with rfl | hlist
        · exact ⟨[n], by rw [lookup]; exact Option.isSome_of_eq_some hfind, rfl⟩
        · obtain ⟨names, hsome, rfl⟩ :=
            (ih n r qs hp (hnamed.bags n r qs hp) (itemname separator before n)).mp hlist
          have hn : names ≠ [] := by
            rintro rfl
            cases hsome
          refine ⟨n :: names, ?_, itemname_joined (hnamed.names _ hp).1 hn⟩
          rw [lookup_cons hn]
          rw [show find n ps = some (.bag n r qs) from hfind]
          exact hsome
    · rintro ⟨names, hsome, rfl⟩
      cases names with
      | nil => cases hsome
      | cons name names =>
        by_cases hn : names = []
        · subst hn
          obtain ⟨p, hp⟩ := Option.isSome_iff_exists.mp hsome
          rw [lookup] at hp
          obtain ⟨hmem, rfl⟩ := find_name hp
          refine ⟨p, hmem, ?_⟩
          cases p with
          | leaf n r => exact List.mem_singleton.mpr rfl
          | bag n r qs => exact List.mem_cons_self
        · obtain ⟨n, r, qs, hfind, hinner⟩ := lookup_bag hn hsome
          obtain ⟨hmem, rfl⟩ := find_name hfind
          refine ⟨_, hmem, ?_⟩
          rw [Property.listing, List.mem_cons]
          refine Or.inr ((ih n r qs hmem (hnamed.bags n r qs hmem) _).mpr ⟨names, hinner, ?_⟩)
          exact (itemname_joined (hnamed.names _ hmem).1 hn).symm

theorem mem_listProperties {separator : Name} {ps : List (Property V)} (hu : Unique ps)
    (hnamed : Named separator ps) (path : Name) :
    path ∈ listProperties separator ps ↔
      ∃ names, (lookup names ps).isSome ∧ joined separator names = path := by
  rw [listProperties, mem_listPropertiesHelper hu hnamed]
  exact exists_congr fun names => and_congr_right fun _ => eq_comm

/-- The names that lead to a property are not empty and free of the separator. -/
theorem lookup_names {separator : Name} {names : List Name} {ps : List (Property V)}
    (hnamed : Named separator ps) (h : (lookup names ps).isSome) :
    ∀ name ∈ names, name ≠ [] ∧ ¬ separator <:+: name := by
  induction names generalizing ps with
  | nil => nofun
  | cons name names ih =>
    have hhead : ∀ p, find name ps = some p → name ≠ [] ∧ ¬ separator <:+: name := by
      intro p hp
      obtain ⟨hmem, rfl⟩ := find_name hp
      exact hnamed.names p hmem
    intro n hn
    by_cases hnil : names = []
    · subst hnil
      obtain ⟨p, hp⟩ := Option.isSome_iff_exists.mp h
      rw [lookup] at hp
      rw [List.mem_singleton.mp hn]
      exact hhead p hp
    · obtain ⟨m, r, qs, hfind, hinner⟩ := lookup_bag hnil h
      rcases List.mem_cons.mp hn with rfl | hmem
      · exact hhead _ hfind
      · exact ih (hnamed.bags m r qs (find_name hfind).1) hinner n hmem

theorem joined_ne_nil (separator : Name) {names : List Name} (hn : names ≠ [])
    (h : ∀ name ∈ names, name ≠ []) : joined separator names ≠ [] := by
  obtain ⟨name, names, rfl⟩ := List.exists_cons_of_ne_nil hn
  have hname := h name List.mem_cons_self
  by_cases hnil : names = []
  · subst hnil
    exact hname
  · rw [joined_cons hnil]
    simp [hname]

/-- Of the names that make up a path, no more are left after its tokens. -/
theorem tokens_unique {separator : Name} (hs : separator ≠ []) {names : List Name}
    (hnames : ∀ name ∈ names, name ≠ [] ∧ ¬ separator <:+: name)
    (hpre : tokens separator (joined separator names) <+: names) :
    tokens separator (joined separator names) = names := by
  induction names with
  | nil => exact List.prefix_nil.mp hpre
  | cons name names ih =>
    by_cases hmore : names = []
    · subst hmore
      rcases List.prefix_cons_iff.mp hpre with hnil | ⟨rest, heq, hrest⟩
      · exact absurd hnil (tokens_ne_nil _ _)
      · rw [heq, List.prefix_nil.mp hrest]
    have hrest : ∀ n ∈ names, n ≠ [] ∧ ¬ separator <:+: n :=
      fun n hn => hnames n (List.mem_cons_of_mem name hn)
    have hjoined := joined_ne_nil separator hmore fun n hn => (hrest n hn).1
    have hpos : 0 < (joined separator names).length := List.length_pos_of_ne_nil hjoined
    have hstrip := stripped_eq separator (joined separator (name :: names))
    rw [tokens_eq hs] at hpre ⊢
    rcases cut_spec separator (joined separator (name :: names)) with
      ⟨hend, hparts⟩ | ⟨hgoes, hparts, hfirst⟩
    · -- the path would end with its first token
      exfalso
      rw [if_pos hend] at hpre
      have hname : (cut separator (joined separator (name :: names))).1 = name :=
        (List.cons_prefix_cons.mp hpre).1
      rw [hname] at hparts
      generalize stripped separator (joined separator (name :: names)) = s at hstrip hparts
      rw [joined_cons hmore] at hstrip
      rcases hstrip with ⟨hwhole, -⟩ | hwhole
      · rcases hparts with rfl | rfl
        · have hlen := congrArg List.length hwhole
          simp only [List.length_append] at hlen
          omega
        · have hlen := congrArg List.length hwhole
          simp only [List.length_append] at hlen
          omega
      · rcases hparts with rfl | rfl
        · have hlen := congrArg List.length hwhole
          simp only [List.length_append] at hlen
          omega
        · have hlen := congrArg List.length hwhole
          have hlast : joined separator names = separator := by
            rw [← List.append_assoc] at hwhole
            refine (List.append_inj' hwhole ?_).2
            simp only [List.length_append] at hlen
            omega
          obtain ⟨n, names, rfl⟩ := List.exists_cons_of_ne_nil hmore
          by_cases hnil : names = []
          · subst hnil
            exact (hrest n List.mem_cons_self).2 (hlast ▸ List.infix_refl _)
          · have htail := joined_ne_nil separator hnil fun m hm =>
              (hrest m (List.mem_cons_of_mem n hm)).1
            have hpos' := List.length_pos_of_ne_nil htail
            rw [joined_cons hnil] at hlast
            have hlen' := congrArg List.length hlast
            simp only [List.length_append] at hlen'
            omega
    · rw [if_neg hgoes] at hpre ⊢
      obtain ⟨hname, hpre⟩ := List.cons_prefix_cons.mp hpre
      rw [hname] at hparts hfirst ⊢
      rcases hstrip with ⟨hwhole, -⟩ | hwhole
      · have hcut : (cut separator (joined separator (name :: names))).2 = joined separator names :=
          List.append_cancel_left (hparts.symm.trans (hwhole.trans (joined_cons hmore name)))
        rw [hcut] at hpre ⊢
        rw [ih hrest hpre]
      · -- a separator at the begin would be found before the first name
        exfalso
        have hfree := hfirst 0 (List.length_pos_of_ne_nil (hnames name List.mem_cons_self).1)
        rw [List.drop_zero, hparts] at hfree
        rw [joined_cons hmore] at hwhole
        have hbegin : separator <+: name ++ separator := by
          have hleft : separator <+: name ++ separator ++ joined separator names := by
            rw [hwhole]
            exact List.prefix_append _ _
          refine List.prefix_of_prefix_length_le hleft (List.prefix_append _ _) ?_
          rw [List.length_append]
          exact Nat.le_add_left ..
        exact hfree (hbegin.trans (List.prefix_append _ _))

/-! ### Where the search ends -/

theorem noLeafBefore_single (name : Name) (ps : List (Property V)) : NoLeafBefore [name] ps := by
  intro front n r hfront hne
  rcases List.prefix_cons_iff.mp hfront with rfl | ⟨t, rfl, ht⟩
  · intro hleaf
    cases hleaf
  · rw [List.prefix_nil.mp ht] at hne
    exact absurd rfl hne

theorem noLeafBefore_none {name : Name} {ps : List (Property V)} (h : find name ps = none)
    (names : List Name) : NoLeafBefore (name :: names) ps := by
  intro front n r hfront hne
  rcases List.prefix_cons_iff.mp hfront with rfl | ⟨rest, rfl, hrest⟩
  · intro hleaf
    cases hleaf
  · by_cases hnil : rest = []
    · subst hnil
      rw [lookup, h]
      intro hleaf
      cases hleaf
    · rw [lookup_cons hnil, h]
      intro hleaf
      cases hleaf

theorem noLeafBefore_bag {name n : Name} {r : V} {ps qs : List (Property V)} {names : List Name}
    (h : find name ps = some (.bag n r qs)) (hrest : NoLeafBefore names qs) :
    NoLeafBefore (name :: names) ps := by
  intro front m s hfront hne
  rcases List.prefix_cons_iff.mp hfront with rfl | ⟨rest, rfl, hpre⟩
  · intro hleaf
    cases hleaf
  · by_cases hnil : rest = []
    · subst hnil
      rw [lookup, h]
      intro hleaf
      cases hleaf
    · rw [lookup_cons hnil, h]
      exact hrest rest m s hpre fun he => hne (congrArg (name :: ·) he)

/-- The names are all gone through, or a property that is no bag stops before. -/
theorem reached_cases {names : List Name} (hn : names ≠ []) (ps : List (Property V)) :
    reached names ps = names ∧ NoLeafBefore names ps ∨
      reached names ps <+: names ∧ reached names ps ≠ names ∧
        ∃ n r, lookup (reached names ps) ps = some (.leaf n r) := by
  induction names generalizing ps with
  | nil => exact absurd rfl hn
  | cons name names ih =>
    by_cases hnames : names = []
    · subst hnames
      refine Or.inl ⟨?_, noLeafBefore_single name ps⟩
      rw [reached]
      split <;> rfl
    · rw [reached]
      cases hfind : find name ps with
      | none => exact Or.inl ⟨rfl, noLeafBefore_none hfind names⟩
      | some p =>
        cases p with
        | leaf m s =>
          refine Or.inr ⟨by simp, by simpa using Ne.symm hnames, m, s, ?_⟩
          rw [lookup, hfind]
        | bag m s qs =>
          dsimp only
          rcases ih hnames qs with ⟨heq, hno⟩ | ⟨hpre, hne, n, r, hleaf⟩
          · rw [heq]
            exact Or.inl ⟨rfl, noLeafBefore_bag hfind hno⟩
          · refine Or.inr ⟨List.cons_prefix_cons.mpr ⟨rfl, hpre⟩, by simpa using hne, n, r, ?_⟩
            rw [lookup_cons (reached_ne_nil hnames qs), hfind]
            exact hleaf

theorem lookup_nil (names : List Name) : lookup names ([] : List (Property V)) = none := by
  cases names with
  | nil => rfl
  | cons name names =>
    by_cases hn : names = []
    · subst hn
      rfl
    · rw [lookup_cons hn]
      rfl

/-- The empty string is in every name. -/
theorem Named.separator_ne_nil {separator : Name} {ps : List (Property V)}
    (h : Named separator ps) (hps : ps ≠ []) : separator ≠ [] := by
  rintro rfl
  obtain ⟨p, hp⟩ := List.exists_mem_of_ne_nil ps hps
  exact (h.names p hp).2 List.nil_infix

theorem straight_nil (path separator : Name) : Straight ([] : List (Property V)) path separator where
  bags := by
    intro front n r _ _
    rw [lookup_nil]
    nofun
  single := by
    rw [lookup_nil]
    nofun
  first := by
    intro names
    rw [lookup_nil]
    nofun

/-- The property found is at the path if and only if its names are the tokens of the path. -/
theorem findAgrees_iff {ps : List (Property V)} {separator : Name} (hu : Unique ps)
    (hnamed : Named separator ps) (path : Name) :
    FindAgrees ps path separator ↔ Straight ps path separator := by
  by_cases hps : ps = []
  · subst hps
    have hagrees : FindAgrees ([] : List (Property V)) path separator := by
      refine ⟨?_, nofun⟩
      rw [mem_listProperties hu hnamed]
      constructor
      · nofun
      · rintro ⟨names, hsome, -⟩
        rw [lookup_nil] at hsome
        cases hsome
    exact iff_of_true hagrees (straight_nil path separator)
  have hs := hnamed.separator_ne_nil hps
  have htokens := tokens_ne_nil separator path
  have hlen := joined_tokens_length hs path
  unfold FindAgrees
  rw [findProperty_walk hs, walk_reached htokens, mem_listProperties hu hnamed]
  rcases reached_cases htokens ps with ⟨heq, hno⟩ | ⟨hpre, hne, n, r, hleaf⟩
  · rw [heq]
    constructor
    · rintro ⟨hiff, hat⟩
      refine ⟨hno, fun hsome => hat _ (if_pos hsome), fun names hsome hpath => ?_⟩
      have hfound := hiff.mpr ⟨names, hsome, hpath⟩
      by_contra hnot
      rw [if_neg hnot] at hfound
      cases hfound
    · intro h
      constructor
      · constructor
        · intro hfound
          have hsome : (lookup (tokens separator path) ps).isSome := by
            by_contra hnot
            rw [if_neg hnot] at hfound
            cases hfound
          exact ⟨_, hsome, h.single hsome⟩
        · rintro ⟨names, hsome, hpath⟩
          rw [if_pos (h.first names hsome hpath)]
          rfl
      · intro names hfound
        split at hfound
        · rename_i hsome
          cases hfound
          exact h.single hsome
        · cases hfound
  · have hshort := joined_front_length hs hpre hne (reached_ne_nil htokens ps)
    constructor
    · rintro ⟨-, hat⟩
      have hpath := hat _ (if_pos (Option.isSome_of_eq_some hleaf))
      rw [hpath] at hshort
      omega
    · intro h
      exact absurd hleaf (h.bags _ n r hpre hne)

/-! ### A separator of one character -/

theorem splitFirst_char {c : Char} {name : Name} (h : c ∉ name) (rest : Name) :
    splitFirst [c] (name ++ [c] ++ rest) = some (name, rest) := by
  induction name with
  | nil => simp [splitFirst, List.isPrefixOf]
  | cons a name ih =>
    have hne : c ≠ a := fun he => h (he ▸ List.mem_cons_self)
    have htail := ih fun hmem => h (List.mem_cons_of_mem a hmem)
    simp only [List.append_assoc, List.cons_append, List.nil_append] at htail ⊢
    rw [splitFirst, if_neg (by simp [List.isPrefixOf, hne]), htail]
    rfl

theorem splitFirst_char_none {c : Char} {name : Name} (h : c ∉ name) :
    splitFirst [c] name = none := by
  induction name with
  | nil => rfl
  | cons a name ih =>
    have hne : c ≠ a := fun he => h (he ▸ List.mem_cons_self)
    rw [splitFirst, if_neg (by simp [List.isPrefixOf, hne]),
      ih fun hmem => h (List.mem_cons_of_mem a hmem)]
    rfl

/-- Names without the character are what their path is cut into. -/
theorem tokens_joined {c : Char} {names : List Name} (hn : names ≠ [])
    (h : ∀ name ∈ names, name ≠ [] ∧ c ∉ name) : tokens [c] (joined [c] names) = names := by
  induction names with
  | nil => exact absurd rfl hn
  | cons name names ih =>
    obtain ⟨hne, hfree⟩ := h name List.mem_cons_self
    obtain ⟨a, tail, rfl⟩ := List.exists_cons_of_ne_nil hne
    have ha : c ≠ a := fun he => hfree (he ▸ List.mem_cons_self)
    rw [tokens_eq (by simp)]
    by_cases hnil : names = []
    · subst hnil
      have hcut : cut [c] (joined [c] [a :: tail]) = (a :: tail, []) := by
        rw [joined, cut, if_neg (by simp [List.isPrefixOf, ha]), splitFirst_char_none hfree]
        rfl
      rw [hcut, if_pos rfl]
    · have hinner := ih hnil fun n hmem => h n (List.mem_cons_of_mem _ hmem)
      have hcut : cut [c] (joined [c] ((a :: tail) :: names)) = (a :: tail, joined [c] names) := by
        rw [joined_cons hnil, cut, if_neg (by simp [List.isPrefixOf, ha]), splitFirst_char hfree]
        rfl
      have hjoined : joined [c] names ≠ [] := by
        intro he
        rw [he] at hinner
        obtain ⟨b, names, rfl⟩ := List.exists_cons_of_ne_nil hnil
        have hb := (h b (by simp)).1
        rw [show tokens [c] [] = [[]] from rfl] at hinner
        cases hinner
        exact hb rfl
      rw [hcut, if_neg hjoined, hinner]

/-- With a separator of one character, the path of a property is cut into its names. -/
theorem first_char {c : Char} {ps : List (Property V)} (hnamed : Named [c] ps) {names : List Name}
    (h : (lookup names ps).isSome) : tokens [c] (joined [c] names) = names := by
  refine tokens_joined ?_ fun name hname => ?_
  · rintro rfl
    cases h
  · obtain ⟨hne, hfree⟩ := lookup_names hnamed h name hname
    refine ⟨hne, fun hmem => hfree ?_⟩
    obtain ⟨s, t, rfl⟩ := List.append_of_mem hmem
    exact ⟨s, t, by simp⟩

end OrocosRtt.PropertyPaths
