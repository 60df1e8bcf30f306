import OrocosRtt.Property.PathUpdate

/-! Which paths `findProperty`, `updateProperty` and `refreshProperty` succeed with, against those that
are listed. -/
namespace OrocosRtt.PropertyPaths
open Marsh (TypeSystem)

variable {ι τ V : Type}

/-- The property at the path is in the source and afterwards in the target, and no other one is
touched; without success no other one than that which the target has at the path. -/
def TouchAgrees (target source : List (Marsh.Property τ V)) (path separator : Name)
    (r : List (Marsh.Property τ V) × Marsh.Outcome) : Prop :=
  (r.2 = .ok → ∃ names, joined separator names = path ∧
    (lookup names (ofProperties source)).isSome ∧ (lookup names (ofProperties r.1)).isSome ∧
    Within names target r.1) ∧
  (r.2 ≠ .ok → r.1 = target ∨ ∃ names, joined separator names = path ∧
    (lookup names (ofProperties target)).isSome ∧ Within names target r.1)

namespace Walker

variable {w : Walker τ V}

/-- A target that has a property at names at which the source has none is left alone. -/
theorem walkTokens_kept (hw : w.Regular) (names : List Name)
    (source target : List (Marsh.Property τ V))
    (htarget : (lookup names (ofProperties target)).isSome)
    (hsource : ¬ (lookup names (ofProperties source)).isSome) :
    (w.walkTokens names source target).1 = target := by
  induction names generalizing source target with
  | nil => cases htarget
  | cons name names ih =>
    rcases walkTokens_cases hw name names source target with
      hmissing | ⟨q, p, hq, hp, hname, hnew, hothers, hout, hsame⟩
    · rw [hmissing]
    obtain ⟨p', hp'⟩ := leads_head htarget
    rw [Meets, hname, hp'] at hp
    obtain rfl : p' = p := by simpa using hp
    refine hsame hp' ?_
    have hn : names ≠ [] := by
      rintro rfl
      exact hsource (leads_single.mpr ⟨q, hq⟩)
    obtain ⟨n, d, type, ps, hbag, hinner⟩ := (leads_cons hn).mp htarget
    rw [hp'] at hbag
    cases hbag
    cases q with
    | leaf n' d' t v => rw [atToken_leaf, hw.leaf_bag]
    | bag n' d' type' qs =>
      have hnone : ¬ (lookup names (ofProperties qs)).isSome :=
        fun hyes => hsource ((leads_cons hn).mpr ⟨_, _, _, _, hq, hyes⟩)
      rw [atToken_bag w hn, inside, ih qs ps hinner hnone]

theorem shell_leaf {p : Marsh.Property τ V} {n d : String} {t : τ} {v : V}
    (h : shell p = shell (.leaf n d t v)) : p = .leaf n d t v := by
  cases p with
  | leaf => exact h
  | bag => cases h

theorem walkTokens_ne_nil (hw : w.Regular) (names : List Name)
    (source target : List (Marsh.Property τ V)) (h : (w.walkTokens names source target).2 = .ok) :
    (w.walkTokens names source target).1 ≠ [] := by
  cases names with
  | nil => cases h
  | cons name names =>
    rcases walkTokens_cases hw name names source target with
      hmissing | ⟨q, p, -, -, -, hnew, -⟩
    · rw [hmissing] at h
      cases h
    · intro hnil
      rw [hnil] at hnew
      cases hnew

/-- Where a change is one of the property at other names, these are on the way of the walk, or the
walk goes to its end on the way of these. -/
theorem walkTokens_place (hw : w.Regular) (names others : List Name)
    (source target : List (Marsh.Property τ V))
    (hne : (w.walkTokens names source target).1 ≠ target)
    (hin : Within others target (w.walkTokens names source target).1)
    (hok : (w.walkTokens names source target).2 = .ok →
      (lookup others (ofProperties source)).isSome)
    (hfail : (w.walkTokens names source target).2 ≠ .ok →
      (lookup others (ofProperties target)).isSome) :
    others <+: names ∨ names <+: others ∧ (lookup names (ofProperties source)).isSome := by
  induction names generalizing others source target with
  | nil => exact absurd rfl hne
  | cons name names ih =>
    rcases walkTokens_cases hw name names source target with
      hmissing | ⟨q, p, hq, hp, hname, hnew, hothers, hout, hsame⟩
    · rw [hmissing] at hne
      exact absurd rfl hne
    rw [Meets, hname] at hp
    have hleads : ∃ ps : List (Marsh.Property τ V), (lookup others (ofProperties ps)).isSome := by
      by_cases hyes : (w.walkTokens (name :: names) source target).2 = .ok
      · exact ⟨source, hok hyes⟩
      · exact ⟨target, hfail hyes⟩
    cases others with
    | nil =>
      obtain ⟨ps, hps⟩ := hleads
      cases hps
    | cons other others =>
      have hsameName : other = name := by
        by_contra hdiffer
        have hkept := (within_others hin).findToken (Ne.symm hdiffer)
        rw [hnew] at hkept
        rcases hp with hp | ⟨hp, -⟩
        · rw [hp] at hkept
          exact hne (hsame hp (Option.some.inj hkept))
        · rw [hp] at hkept
          cases hkept
      subst hsameName
      by_cases hmore : others = []
      · subst hmore
        exact Or.inl (List.cons_prefix_cons.mpr ⟨rfl, List.nil_prefix⟩)
      obtain ⟨honway, hinner⟩ := (within_cons hmore _ _).mp hin
      by_cases hn : names = []
      · subst hn
        exact Or.inr ⟨List.cons_prefix_cons.mpr ⟨rfl, List.nil_prefix⟩,
          leads_single.mpr ⟨q, hq⟩⟩
      have hlonger : (others <+: names ∨ names <+: others ∧
          ∃ n d type qs, q = .bag n d type qs ∧ (lookup names (ofProperties qs)).isSome) →
          other :: others <+: other :: names ∨ other :: names <+: other :: others ∧
            (lookup (other :: names) (ofProperties source)).isSome := by
        rintro (hpre | ⟨hpre, n, d, type, qs, rfl, hyes⟩)
        · exact Or.inl (List.cons_prefix_cons.mpr ⟨rfl, hpre⟩)
        · exact Or.inr ⟨List.cons_prefix_cons.mpr ⟨rfl, hpre⟩,
            (leads_cons hn).mpr ⟨_, _, _, _, hq, hyes⟩⟩
      rcases hp with hp | ⟨hp, hcreate⟩
      · -- a property that was there is another one now
        have hchanged : (w.atToken names q p).1 ≠ p := fun he => hne (hsame hp he)
        obtain ⟨p', hp', hshell⟩ := honway.kept p hp
        rw [hnew] at hp'
        cases hp'
        cases p with
        | leaf n d t v => exact absurd (shell_leaf hshell) hchanged
        | bag n d type ps =>
          cases q with
          | leaf n' d' t v =>
            rw [atToken_leaf, hw.leaf_bag] at hchanged
            exact absurd rfl hchanged
          | bag n' d' type' qs =>
            rw [atToken_bag w hn] at hchanged hout hnew
            rw [hp, hnew] at hinner
            refine hlonger ((ih others qs ps ?_ hinner ?_ ?_).imp_right fun h =>
              ⟨h.1, n', d', type', qs, rfl, h.2⟩)
            · intro he
              exact hchanged (by rw [inside, he])
            · intro hyes
              obtain ⟨_, _, _, _, hbag, hlook⟩ := (leads_cons hmore).mp (hok (hout.trans hyes))
              rw [hq] at hbag
              cases hbag
              exact hlook
            · intro hno
              obtain ⟨_, _, _, _, hbag, hlook⟩ :=
                (leads_cons hmore).mp (hfail fun he => hno (hout.symm.trans he))
              rw [hp] at hbag
              cases hbag
              exact hlook
      · -- a property was created, and so the walk succeeds
        have hyes : (w.walkTokens (other :: names) source target).2 = .ok := by
          by_contra hno
          obtain ⟨p', hp'⟩ := leads_head (hfail hno)
          rw [hp] at hp'
          cases hp'
        obtain ⟨m, e, s, inner, hbag⟩ := honway.made hp _ hnew
        cases q with
        | leaf n d t v =>
          obtain ⟨n', d', t', v', hleaf⟩ := hw.created_leaf n d t v p hcreate
          rw [atToken_leaf, hleaf] at hbag
          cases hbag
        | bag n d type qs =>
          obtain ⟨type', rfl⟩ := hw.created_bag n d type qs p hcreate
          rw [atToken_bag w hn] at hout hnew
          rw [hp, hnew] at hinner
          have hyes' : (w.walkTokens names qs []).2 = .ok := hout.symm.trans hyes
          refine hlonger ((ih others qs [] (walkTokens_ne_nil hw names qs [] hyes') hinner ?_ ?_
            ).imp_right fun h => ⟨h.1, n, d, type, qs, rfl, h.2⟩)
          · intro _
            obtain ⟨_, _, _, _, hbag', hlook⟩ := (leads_cons hmore).mp (hok hyes)
            rw [hq] at hbag'
            cases hbag'
            exact hlook
          · exact fun hno => absurd hyes' hno

/-! ### When nothing happens -/

/-- The walk with the names changes nothing: it does not get as far as a property of the target, but
where one would be created, or what is done with that one leaves it as it is. That this succeeds
is of no harm only if `listed`. -/
def Idle (w : Walker τ V) (listed : Prop) : List Name → List (Marsh.Property τ V) →
    List (Marsh.Property τ V) → Prop
  | [], _, _ => True
  | name :: names, source, target =>
    match findToken name source with
    | none => True
    | some q =>
      match findToken name target with
      | none => w.create q = none
      | some p =>
        if names = [] ∨ isBag q = false then
          (w.item q p).1 = p ∧ ((w.item q p).2 = .ok → listed)
        else
          isBag p = true → Idle w listed names (contents (some q)) (contents (some p))

theorem idle_iff (hw : w.Regular) (listed : Prop) (names : List Name)
    (source target : List (Marsh.Property τ V)) :
    Idle w listed names source target ↔ (w.walkTokens names source target).1 = target ∧
      ((w.walkTokens names source target).2 = .ok → listed) := by
  induction names generalizing source target with
  | nil => exact iff_of_true trivial ⟨rfl, fun hok => by cases hok⟩
  | cons name names ih =>
    rw [Idle]
    cases hq : findToken name source with
    | none =>
      rw [walkTokens_none hq]
      exact iff_of_true trivial ⟨rfl, fun hok => by cases hok⟩
    | some q =>
      obtain ⟨-, hname⟩ := findToken_name hq
      cases hp : findToken name target with
      | none =>
        rw [walkTokens_some hq, place, hname]
        simp only [hp]
        cases hcreate : w.create q with
        | none => exact iff_of_true rfl ⟨rfl, fun hok => by cases hok⟩
        | some c => simp
      | some p =>
        obtain ⟨hnew, hothers, hout, hsame⟩ := changeFirst_spec (atToken_name hw names q) hp
        have hwalk : w.walkTokens (name :: names) source target =
            changeFirst name (w.atToken names q) target := by
          rw [walkTokens_some hq, place, hname]
          simp only [hp]
        have hkept : (changeFirst name (w.atToken names q) target).1 = target ↔
            (w.atToken names q p).1 = p := by
          refine ⟨fun he => ?_, hsame⟩
          rw [he, hp] at hnew
          exact (Option.some.inj hnew).symm
        rw [hwalk, hkept, hout]
        dsimp only
        by_cases hlast : names = [] ∨ isBag q = false
        · rw [if_pos hlast, atToken, if_pos hlast]
        · rw [if_neg hlast, atToken, if_neg hlast]
          cases p with
          | leaf n d t v => exact iff_of_true (fun hbag => by cases hbag) ⟨rfl, fun hok => by cases hok⟩
          | bag n d type ps =>
            have hinner := ih (contents (some q)) ps
            simp only [isBag, contents, inside, Marsh.Property.bag.injEq, true_and] at hinner ⊢
            simpa using hinner

/-- The path is that of a property of both bags. -/
def ListedIn (target source : List (Marsh.Property τ V)) (path separator : Name) : Prop :=
  ∃ names, joined separator names = path ∧ (lookup names (ofProperties source)).isSome ∧
    (lookup names (ofProperties target)).isSome

/-- The source has a property at the names into which the path is cut, and they make up the path; or
nothing happens. -/
def Fits (w : Walker τ V) (target source : List (Marsh.Property τ V)) (path separator : Name) :
    Prop :=
  joined separator (tokens separator path) = path ∧
      (lookup (tokens separator path) (ofProperties source)).isSome ∨
    w.Idle (ListedIn target source path separator) (tokens separator path) source target

theorem idle_nil (listed : Prop) (names : List Name) (target : List (Marsh.Property τ V)) :
    w.Idle listed names [] target := by
  cases names with
  | nil => trivial
  | cons => trivial

/-- A change of another property than the one at the path leaves no way to take it for that one. -/
theorem place_of_touch (hw : w.Regular) {target source : List (Marsh.Property τ V)}
    {path separator : Name} (hs : separator ≠ []) (htarget : Named separator (ofProperties target))
    (hsource : Named separator (ofProperties source)) {names : List Name}
    (hpath : joined separator names = path)
    (hne : (w.walkTokens (tokens separator path) source target).1 ≠ target)
    (hin : Within names target (w.walkTokens (tokens separator path) source target).1)
    (hok : (w.walkTokens (tokens separator path) source target).2 = .ok →
      (lookup names (ofProperties source)).isSome)
    (hfail : (w.walkTokens (tokens separator path) source target).2 ≠ .ok →
      (lookup names (ofProperties target)).isSome) :
    joined separator (tokens separator path) = path ∧
      (lookup (tokens separator path) (ofProperties source)).isSome := by
  have hleads : (lookup names (ofProperties source)).isSome ∨
      (lookup names (ofProperties target)).isSome := by
    by_cases hyes : (w.walkTokens (tokens separator path) source target).2 = .ok
    · exact Or.inl (hok hyes)
    · exact Or.inr (hfail hyes)
  have hnamed : ∀ name ∈ names, name ≠ [] ∧ ¬ separator <:+: name := by
    rcases hleads with h | h
    · exact lookup_names hsource h
    · exact lookup_names htarget h
  have hnonempty : names ≠ [] := by
    rintro rfl
    rcases hleads with h | h <;> cases h
  rcases walkTokens_place hw _ names source target hne hin hok hfail with hpre | ⟨hpre, hsome⟩
  · have heq : names = tokens separator path := by
      by_contra hshort
      have hlt := joined_front_length hs hpre hshort hnonempty
      have hle := joined_tokens_length hs path
      rw [hpath] at hlt
      omega
    refine ⟨heq ▸ hpath, ?_⟩
    by_contra hnone
    by_cases hyes : (w.walkTokens (tokens separator path) source target).2 = .ok
    · exact hnone (heq ▸ hok hyes)
    · exact hne (walkTokens_kept hw _ source target (heq ▸ hfail hyes) hnone)
  · subst hpath
    exact ⟨by rw [tokens_unique hs hnamed hpre], hsome⟩

theorem touchAgrees_iff (hw : w.Regular) {target source : List (Marsh.Property τ V)}
    {separator : Name} (htarget : Named separator (ofProperties target))
    (hsource : Named separator (ofProperties source)) (path : Name) :
    TouchAgrees target source path separator (w.walk separator path source target) ↔
      w.Fits target source path separator := by
  by_cases hempty : source = []
  · subst hempty
    have hwalk : w.walk separator path [] target = (target, .failed) := by rw [walk]
    rw [hwalk]
    exact iff_of_true ⟨fun hok => (by cases hok), fun _ => Or.inl rfl⟩ (Or.inr (idle_nil _ _ target))
  have hs : separator ≠ [] := hsource.separator_ne_nil (by simpa [ofProperties_eq] using hempty)
  rw [walk_tokens w hs]
  constructor
  · rintro ⟨hok, hfail⟩
    by_cases hsame : (w.walkTokens (tokens separator path) source target).1 = target
    · refine Or.inr ((idle_iff hw _ _ source target).mpr ⟨hsame, fun hyes => ?_⟩)
      obtain ⟨names, hpath, hin, hafter, -⟩ := hok hyes
      rw [hsame] at hafter
      exact ⟨names, hpath, hin, hafter⟩
    · refine Or.inl ?_
      by_cases hyes : (w.walkTokens (tokens separator path) source target).2 = .ok
      · obtain ⟨names, hpath, hleads, -, hin⟩ := hok hyes
        exact place_of_touch hw hs htarget hsource hpath hsame hin (fun _ => hleads)
          fun hno => absurd hyes hno
      · obtain ⟨names, hpath, hleads, hin⟩ := (hfail hyes).resolve_left hsame
        exact place_of_touch hw hs htarget hsource hpath hsame hin (fun h => absurd h hyes)
          fun _ => hleads
  · rintro (⟨hpath, hleads⟩ | hidle)
    · obtain ⟨hok, hfail⟩ := walkTokens_within hw _ source target hleads
      constructor
      · intro hyes
        obtain ⟨hafter, hin⟩ := hok hyes
        exact ⟨_, hpath, hleads, hafter, hin⟩
      · intro hno
        rcases hfail hno with hsame | ⟨hbefore, hin⟩
        · exact Or.inl hsame
        · exact Or.inr ⟨_, hpath, hbefore, hin⟩
    · obtain ⟨hsame, hlisted⟩ := (idle_iff hw _ _ source target).mp hidle
      refine ⟨fun hyes => ?_, fun _ => Or.inl hsame⟩
      obtain ⟨names, hpath, hin, hafter⟩ := hlisted hyes
      rw [hsame]
      exact ⟨names, hpath, hin, hafter, within_refl names target⟩

end Walker

/-! ### The two functions -/

section
variable [DecidableEq ι] [DecidableEq τ] (ts : TypeSystem ι τ V)

/-- The functions by path agree with the list of the paths if and only if these are cut into the names
of properties, or come to nothing. -/
theorem paths_agree_iff (separator : Name) (bag target source : List (Marsh.Property τ V))
    (hu : Unique (ofProperties bag)) (hbag : Named separator (ofProperties bag))
    (htarget : Named separator (ofProperties target))
    (hsource : Named separator (ofProperties source)) (path : Name) :
    FindAgrees (ofProperties bag) path separator ∧
        TouchAgrees target source path separator (updateProperty ts target source path separator) ∧
        TouchAgrees target source path separator (refreshProperty ts target source path separator) ↔
      Straight (ofProperties bag) path separator ∧
        (updateWalker ts).Fits target source path separator ∧
        (refreshWalker ts).Fits target source path separator := by
  have hfind := findAgrees_iff hu hbag path
  have hupdate := Walker.touchAgrees_iff (updateWalker_regular ts) htarget hsource path
  have hrefresh := Walker.touchAgrees_iff (refreshWalker_regular ts) htarget hsource path
  exact and_congr hfind (and_congr hupdate hrefresh)

end

/-- Bags are the only type that has a name. -/
def numbers : TypeSystem Bool Unit ℕ where
  type name := if name = "PropertyBag" then some true else none
  bagInfo := true
  type_bag := rfl
  leafType _ := ()
  initial _ := 0
  convert _ _ := .none
  composeType _ _ v := (v, .failed)

/-- A number in a bag. -/
def nested (v : ℕ) : List (Marsh.Property Unit ℕ) :=
  [.bag "a" "" "PropertyBag" [.leaf "b" "" () v]]

theorem nested_unique (v : ℕ) : Unique (ofProperties (nested v)) := by
  have hb : Unique (ofProperties [Marsh.Property.leaf "b" "" () v]) :=
    ⟨by simp [ofProperties], by simp [ofProperties, ofProperty]⟩
  refine ⟨by simp [nested, ofProperties], fun n r qs hmem => ?_⟩
  simp only [nested, ofProperties, ofProperty, List.mem_singleton, Property.bag.injEq] at hmem
  obtain ⟨-, -, rfl⟩ := hmem
  simpa [ofProperties, ofProperty] using hb

theorem nested_named (v : ℕ) : Named ['.'] (ofProperties (nested v)) := by
  have hb : Named ['.'] (ofProperties [Marsh.Property.leaf "b" "" () v]) :=
    ⟨by simp [ofProperties, ofProperty, Property.name, List.infix_cons_iff],
      by simp [ofProperties, ofProperty]⟩
  refine ⟨by simp [nested, ofProperties, ofProperty, Property.name, List.infix_cons_iff],
    fun n r qs hmem => ?_⟩
  simp only [nested, ofProperties, ofProperty, List.mem_singleton, Property.bag.injEq] at hmem
  obtain ⟨-, -, rfl⟩ := hmem
  simpa [ofProperties, ofProperty] using hb

theorem paths_agree_nested :
    FindAgrees (ofProperties (nested 1)) ['a', '.', 'b'] ['.'] ∧
      TouchAgrees (nested 2) (nested 3) ['a', '.', 'b'] ['.']
        (updateProperty numbers (nested 2) (nested 3) ['a', '.', 'b'] ['.']) ∧
      TouchAgrees (nested 2) (nested 3) ['a', '.', 'b'] ['.']
        (refreshProperty numbers (nested 2) (nested 3) ['a', '.', 'b'] ['.']) := by
  have htokens : tokens ['.'] ['a', '.', 'b'] = [['a'], ['b']] := by decide
  have hleads : ∀ v, (lookup [['a'], ['b']] (ofProperties (nested v))).isSome :=
    fun v => (leads_cons (by simp)).mpr ⟨"a", "", "PropertyBag", [.leaf "b" "" () v],
      by simp [findToken, nested, Marsh.Property.name],
      leads_single.mpr ⟨.leaf "b" "" () v, by simp [findToken, Marsh.Property.name]⟩⟩
  have hstraight : Straight (ofProperties (nested 1)) ['a', '.', 'b'] ['.'] := by
    refine ⟨?_, fun _ => by rw [htokens]; rfl, fun names h hpath => ?_⟩
    · rw [htokens]
      have hfind : find ['a'] (ofProperties (nested 1)) = some (.bag ['a'] (.bag "" "PropertyBag")
          (ofProperties [Marsh.Property.leaf "b" "" () 1])) := by
        simp [find_ofProperties, findToken, nested, ofProperty, Marsh.Property.name]
      exact noLeafBefore_bag hfind (noLeafBefore_single _ _)
    · rw [htokens]
      exact hleads 1
  have hfits : ∀ w : Walker Unit ℕ, w.Fits (nested 2) (nested 3) ['a', '.', 'b'] ['.'] := by
    intro w
    rw [Walker.Fits, htokens]
    exact Or.inl ⟨rfl, hleads 3⟩
  exact (paths_agree_iff numbers ['.'] (nested 1) (nested 2) (nested 3) (nested_unique 1)
    (nested_named 1) (nested_named 2) (nested_named 3) ['a', '.', 'b']).mpr
      ⟨hstraight, hfits _, hfits _⟩

/-- `a.b` is no bag, and is what is found at `a.b.c` and updated with it. -/
theorem found_through_leaf :
    Unique (ofProperties (nested 1)) ∧ Named ['.'] (ofProperties (nested 1)) ∧
      findProperty ['.'] ['a', '.', 'b', '.', 'c'] (ofProperties (nested 1)) =
        some [['a'], ['b']] ∧
      ['a', '.', 'b', '.', 'c'] ∉ listProperties ['.'] (ofProperties (nested 1)) ∧
      updateProperty numbers (nested 2) (nested 1) ['a', '.', 'b', '.', 'c'] ['.'] =
        (nested 1, .ok) ∧
      ¬ FindAgrees (ofProperties (nested 1)) ['a', '.', 'b', '.', 'c'] ['.'] := by
  have hfound : findProperty ['.'] ['a', '.', 'b', '.', 'c'] (ofProperties (nested 1)) =
      some [['a'], ['b']] := by
    rfl
  have hlist : listProperties ['.'] (ofProperties (nested 1)) = [['a'], ['a', '.', 'b']] := by
    rfl
  refine ⟨nested_unique 1, nested_named 1, hfound, by rw [hlist]; decide, by rfl, fun h => ?_⟩
  have hpath := h.2 _ hfound
  cases hpath

end OrocosRtt.PropertyPaths
