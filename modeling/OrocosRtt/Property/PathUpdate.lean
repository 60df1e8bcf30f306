import OrocosRtt.Marsh.Restore
import OrocosRtt.Marsh.Update
import OrocosRtt.Property.Listing

/-! `updateProperty` and `refreshProperty` by a path: the way of `findProperty` through two bags at
once, and what happens to the target at its end. -/
namespace OrocosRtt.PropertyPaths
open Marsh (TypeSystem)

variable {ι τ V : Type}

/-- What a property has besides its name and the properties in it. -/
inductive Rest (τ V : Type) where
  | value (description : String) (type : τ) (value : V)
  | bag (description type : String)

mutual

/-- The property, for the functions that are about names only. -/
def ofProperty (p : Marsh.Property τ V) : Property (Rest τ V) :=
  match p with
  | .leaf n d t v => .leaf n.toList (.value d t v)
  | .bag n d type ps => .bag n.toList (.bag d type) (ofProperties ps)

def ofProperties (ps : List (Marsh.Property τ V)) : List (Property (Rest τ V)) :=
  match ps with
  | [] => []
  | p :: ps => ofProperty p :: ofProperties ps

end

/-- `PropertyBag::find` for a token of a path. -/
def findToken (token : Name) (ps : List (Marsh.Property τ V)) : Option (Marsh.Property τ V) :=
  ps.find? fun p => p.name.toList = token

/-- The first property of the name is replaced by what becomes of it. -/
def changeFirst (token : Name) (f : Marsh.Property τ V → Marsh.Property τ V × Marsh.Outcome) :
    List (Marsh.Property τ V) → List (Marsh.Property τ V) × Marsh.Outcome
  | [] => ([], .failed)
  | p :: ps =>
    if p.name.toList = token then ((f p).1 :: ps, (f p).2)
    else (p :: (changeFirst token f ps).1, (changeFirst token f ps).2)

/-- The recursive call, for which the property of the target has to be a bag. -/
def inside (f : List (Marsh.Property τ V) → List (Marsh.Property τ V) × Marsh.Outcome)
    (p : Marsh.Property τ V) : Marsh.Property τ V × Marsh.Outcome :=
  match p with
  | .leaf n d t v => (.leaf n d t v, .failed)
  | .bag n d type ps => (.bag n d type (f ps).1, (f ps).2)

/-- What the two functions do differently: whether a property that the target does not have is
created from that of the source, and `updateOrRefreshProperty`. -/
structure Walker (τ V : Type) where
  create : Marsh.Property τ V → Option (Marsh.Property τ V)
  item : Marsh.Property τ V → Marsh.Property τ V → Marsh.Property τ V × Marsh.Outcome

namespace Walker

variable (w : Walker τ V)

/-- With the property of the target that has the name of the one of the source; a created one is
added to the target before anything is done with it. -/
def place (source : Marsh.Property τ V) (f : Marsh.Property τ V → Marsh.Property τ V × Marsh.Outcome)
    (target : List (Marsh.Property τ V)) : List (Marsh.Property τ V) × Marsh.Outcome :=
  match findToken source.name.toList target with
  | some _ => changeFirst source.name.toList f target
  | none =>
    match w.create source with
    | some p => (target ++ [(f p).1], (f p).2)
    | none => (target, .failed)

mutual

def walk (separator name : Name) (source target : List (Marsh.Property τ V)) :
    List (Marsh.Property τ V) × Marsh.Outcome :=
  match source with
  | [] => (target, .failed)
  | q :: qs =>
    if q.name.toList = (cut separator name).1 then
      walkAt separator (cut separator name).2 q target
    else walk separator name qs target

/-- The source is not looked at for a bag where the path ends, nor the path where the property of the
source is no bag. -/
def walkAt (separator rest : Name) (source : Marsh.Property τ V)
    (target : List (Marsh.Property τ V)) : List (Marsh.Property τ V) × Marsh.Outcome :=
  match source with
  | .leaf n d t v => w.place (.leaf n d t v) (w.item (.leaf n d t v)) target
  | .bag n d type qs =>
    if rest = [] then w.place (.bag n d type qs) (w.item (.bag n d type qs)) target
    else w.place (.bag n d type qs) (inside (walk separator rest qs)) target

end

end Walker

section
variable [DecidableEq ι] [DecidableEq τ] (ts : TypeSystem ι τ V)

def updateWalker : Walker τ V where
  create q := some (ts.updater q).created
  item q p := (ts.updater q).update p

def refreshWalker : Walker τ V where
  create _ := none
  item q p := ts.refreshProperty p q

def updateProperty (target source : List (Marsh.Property τ V)) (name separator : Name) :
    List (Marsh.Property τ V) × Marsh.Outcome :=
  (updateWalker ts).walk separator name source target

def refreshProperty (target source : List (Marsh.Property τ V)) (name separator : Name) :
    List (Marsh.Property τ V) × Marsh.Outcome :=
  (refreshWalker ts).walk separator name source target

end

/-! ### What is not touched -/

/-- The property without what is in it. -/
def shell : Marsh.Property τ V → Marsh.Property τ V
  | .leaf n d t v => .leaf n d t v
  | .bag n d type _ => .bag n d type []

def contents : Option (Marsh.Property τ V) → List (Marsh.Property τ V)
  | some (.bag _ _ _ ps) => ps
  | _ => []

/-- The bags are the same but for the first property of the name. -/
def SameOthers (name : Name) (ps ps' : List (Marsh.Property τ V)) : Prop :=
  ps'.eraseP (fun p => p.name.toList = name) = ps.eraseP fun p => p.name.toList = name

/-- They are the same but for what is in it, or a bag has been created. -/
structure OnWay (name : Name) (ps ps' : List (Marsh.Property τ V)) : Prop where
  others : SameOthers name ps ps'
  kept : ∀ p, findToken name ps = some p → ∃ p', findToken name ps' = some p' ∧ shell p' = shell p
  made : findToken name ps = none → ∀ p', findToken name ps' = some p' →
    ∃ n d type qs, p' = .bag n d type qs

/-- Only the property at the end of the names differs, and the bags on the way may be new. -/
def Within : List Name → List (Marsh.Property τ V) → List (Marsh.Property τ V) → Prop
  | [], ps, ps' => ps' = ps
  | [name], ps, ps' => SameOthers name ps ps'
  | name :: names, ps, ps' =>
    OnWay name ps ps' ∧ Within names (contents (findToken name ps)) (contents (findToken name ps'))

/-! ### The way by tokens -/

theorem ofProperty_name (p : Marsh.Property τ V) : (ofProperty p).name = p.name.toList := by
  cases p <;> rw [ofProperty] <;> rfl

theorem ofProperties_eq (ps : List (Marsh.Property τ V)) : ofProperties ps = ps.map ofProperty := by
  induction ps with
  | nil => rw [ofProperties]; rfl
  | cons p ps ih => rw [ofProperties, ih]; rfl

theorem find_ofProperties (token : Name) (ps : List (Marsh.Property τ V)) :
    find token (ofProperties ps) = (findToken token ps).map ofProperty := by
  have hnames : ((fun p : Property (Rest τ V) => decide (p.name = token)) ∘ ofProperty) =
      fun p : Marsh.Property τ V => decide (p.name.toList = token) := by
    funext p
    simp [ofProperty_name]
  rw [find, ofProperties_eq, List.find?_map, hnames]
  rfl

theorem findToken_name {token : Name} {ps : List (Marsh.Property τ V)} {p : Marsh.Property τ V}
    (h : findToken token ps = some p) : p ∈ ps ∧ p.name.toList = token := by
  refine ⟨List.mem_of_find?_eq_some h, ?_⟩
  simpa using List.find?_some h

namespace Walker

variable (w : Walker τ V)

/-- The way with the tokens of the path. -/
def walkTokens (names : List Name) (source target : List (Marsh.Property τ V)) :
    List (Marsh.Property τ V) × Marsh.Outcome :=
  match names with
  | [] => (target, .failed)
  | name :: names =>
    match findToken name source with
    | none => (target, .failed)
    | some (.leaf n d t v) => w.place (.leaf n d t v) (w.item (.leaf n d t v)) target
    | some (.bag n d type qs) =>
      if names = [] then w.place (.bag n d type qs) (w.item (.bag n d type qs)) target
      else w.place (.bag n d type qs) (inside (walkTokens names qs)) target

theorem walk_eq (separator name : Name) (source target : List (Marsh.Property τ V)) :
    w.walk separator name source target =
      match findToken (cut separator name).1 source with
      | none => (target, .failed)
      | some q => w.walkAt separator (cut separator name).2 q target := by
  induction source with
  | nil => rw [walk]; rfl
  | cons q qs ih =>
    rw [walk, findToken, List.find?_cons]
    by_cases hq : q.name.toList = (cut separator name).1
    · simp [hq]
    · simpa [hq, findToken] using ih

theorem walk_tokens {separator : Name} (hs : separator ≠ []) (name : Name)
    (source target : List (Marsh.Property τ V)) :
    w.walk separator name source target = w.walkTokens (tokens separator name) source target := by
  induction hn : name.length using Nat.strongRecOn generalizing name source target with
  | ind n ih =>
    rw [walk_eq, tokens_eq hs]
    by_cases hrest : (cut separator name).2 = []
    · rw [if_pos hrest, walkTokens]
      cases hfind : findToken (cut separator name).1 source with
      | none => rfl
      | some q =>
        dsimp only
        cases q with
        | leaf m d t v => rw [walkAt]
        | bag m d type qs =>
          rw [walkAt, if_pos hrest]
          exact (if_pos rfl).symm
    · have hlen := cut_length hs name hrest
      have hinner : walk w separator (cut separator name).2 =
          w.walkTokens (tokens separator (cut separator name).2) := by
        funext qs ps
        exact ih _ (by omega) (cut separator name).2 qs ps rfl
      rw [if_neg hrest, walkTokens]
      cases hfind : findToken (cut separator name).1 source with
      | none => rfl
      | some q =>
        dsimp only
        cases q with
        | leaf m d t v => rw [walkAt]
        | bag m d type qs =>
          rw [walkAt, if_neg hrest, hinner]
          exact (if_neg (tokens_ne_nil _ _)).symm

end Walker

/-! ### One bag -/

theorem findToken_eraseP {name other : Name} (hne : other ≠ name)
    (ps : List (Marsh.Property τ V)) :
    findToken other (ps.eraseP fun p => p.name.toList = name) = findToken other ps := by
  induction ps with
  | nil => rfl
  | cons p ps ih =>
    rw [List.eraseP_cons]
    by_cases hp : p.name.toList = name
    · have hno : ¬ p.name.toList = other := fun heq => hne (heq.symm.trans hp)
      rw [decide_eq_true hp]
      simp [findToken, hno]
    · rw [decide_eq_false hp]
      rw [findToken] at ih
      simp [findToken, List.find?_cons, ih]

/-- The properties of other names are the same. -/
theorem SameOthers.findToken {name other : Name} {ps ps' : List (Marsh.Property τ V)}
    (h : SameOthers name ps ps') (hne : other ≠ name) :
    findToken other ps' = findToken other ps := by
  rw [← findToken_eraseP hne ps', h, findToken_eraseP hne]

theorem changeFirst_spec {name : Name} {p : Marsh.Property τ V} {ps : List (Marsh.Property τ V)}
    {f : Marsh.Property τ V → Marsh.Property τ V × Marsh.Outcome} (hf : ∀ p, (f p).1.name = p.name)
    (h : findToken name ps = some p) :
    findToken name (changeFirst name f ps).1 = some (f p).1 ∧
      SameOthers name ps (changeFirst name f ps).1 ∧ (changeFirst name f ps).2 = (f p).2 ∧
      ((f p).1 = p → (changeFirst name f ps).1 = ps) := by
  induction ps with
  | nil => cases h
  | cons q ps ih =>
    rw [findToken, List.find?_cons] at h
    rw [changeFirst]
    by_cases hq : q.name.toList = name
    · obtain rfl : q = p := by simpa [hq] using h
      have hname : (f q).1.name.toList = name := by rw [hf, hq]
      rw [if_pos hq]
      refine ⟨by simp [findToken, hname], ?_, rfl, fun hsame => by rw [hsame]⟩
      simp [SameOthers, hq, hname]
    · obtain ⟨hfind, hothers, hout, hsame⟩ := ih (by simpa [hq, findToken] using h)
      rw [if_neg hq]
      refine ⟨by simpa [findToken, hq] using hfind, ?_, hout, fun he => by rw [hsame he]⟩
      rw [SameOthers] at hothers ⊢
      simp [hq, hothers]

theorem findToken_append {name : Name} {p : Marsh.Property τ V} {ps : List (Marsh.Property τ V)}
    (hp : p.name.toList = name) (h : findToken name ps = none) :
    findToken name (ps ++ [p]) = some p ∧ SameOthers name ps (ps ++ [p]) := by
  have hno : ∀ q ∈ ps, ¬ q.name.toList = name := by simpa [findToken] using h
  constructor
  · rw [findToken] at h ⊢
    rw [List.find?_append, h]
    simp [hp]
  · rw [SameOthers, List.eraseP_append_right _ (by simpa using hno),
      List.eraseP_of_forall_not (l := ps) (by simpa using hno)]
    simp [hp]

/-- What a walker does to properties. -/
structure Walker.Regular (w : Walker τ V) : Prop where
  name : ∀ q p, (w.item q p).1.name = p.name
  leaf_bag : ∀ n d t v n' d' type ps,
    w.item (.leaf n d t v) (.bag n' d' type ps) = (.bag n' d' type ps, .failed)
  creates : (∀ q, ∃ c, w.create q = some c) ∨ ∀ q, w.create q = none
  created_name : ∀ q c, w.create q = some c → c.name = q.name
  created : ∀ q c, w.create q = some c → (w.item q c).2 = .ok
  created_leaf : ∀ n d t v c, w.create (.leaf n d t v) = some c →
    ∃ n' d' t' v', (w.item (.leaf n d t v) c).1 = .leaf n' d' t' v'
  created_bag : ∀ n d type qs c, w.create (.bag n d type qs) = some c → ∃ type', c = .bag n d type' []

theorem inside_name (f : List (Marsh.Property τ V) → List (Marsh.Property τ V) × Marsh.Outcome)
    (p : Marsh.Property τ V) : (inside f p).1.name = p.name := by
  cases p <;> rfl

/-- The property that is found in the target or created for the source. -/
def Walker.Meets (w : Walker τ V) (q : Marsh.Property τ V) (target : List (Marsh.Property τ V))
    (p : Marsh.Property τ V) : Prop :=
  findToken q.name.toList target = some p ∨
    findToken q.name.toList target = none ∧ w.create q = some p

/-- The target without the property, or with what becomes of the property. -/
theorem Walker.place_cases {w : Walker τ V} (hw : w.Regular) (q : Marsh.Property τ V)
    {f : Marsh.Property τ V → Marsh.Property τ V × Marsh.Outcome} (hf : ∀ p, (f p).1.name = p.name)
    (target : List (Marsh.Property τ V)) :
    (w.create q = none ∧ findToken q.name.toList target = none ∧
        w.place q f target = (target, .failed)) ∨
      ∃ p, w.Meets q target p ∧ findToken q.name.toList (w.place q f target).1 = some (f p).1 ∧
        SameOthers q.name.toList target (w.place q f target).1 ∧ (w.place q f target).2 = (f p).2 ∧
        (findToken q.name.toList target = some p → (f p).1 = p → (w.place q f target).1 = target) := by
  unfold Walker.place
  cases hfind : findToken q.name.toList target with
  | some p =>
    obtain ⟨hnew, hothers, hout, hsame⟩ := changeFirst_spec hf hfind
    exact Or.inr ⟨p, Or.inl hfind, hnew, hothers, hout, fun _ => hsame⟩
  | none =>
    cases hcreate : w.create q with
    | none => exact Or.inl ⟨rfl, rfl, rfl⟩
    | some c =>
      have hname : (f c).1.name.toList = q.name.toList := by
        rw [hf, hw.created_name q c hcreate]
      obtain ⟨hnew, hothers⟩ := findToken_append hname hfind
      exact Or.inr ⟨c, Or.inr ⟨hfind, hcreate⟩, hnew, hothers, rfl, nofun⟩

/-! ### Names that lead somewhere -/

theorem leads_single {name : Name} {ps : List (Marsh.Property τ V)} :
    (lookup [name] (ofProperties ps)).isSome ↔ ∃ p, findToken name ps = some p := by
  rw [lookup, find_ofProperties, Option.isSome_map, Option.isSome_iff_exists]

theorem leads_cons {name : Name} {names : List Name} (hn : names ≠ [])
    {ps : List (Marsh.Property τ V)} :
    (lookup (name :: names) (ofProperties ps)).isSome ↔
      ∃ n d type qs, findToken name ps = some (.bag n d type qs) ∧
        (lookup names (ofProperties qs)).isSome := by
  rw [lookup_cons hn, find_ofProperties]
  cases hfind : findToken name ps with
  | none => simp
  | some p =>
    cases p with
    | leaf n d t v => simp [ofProperty]
    | bag n d type qs => simp [ofProperty]

theorem leads_head {name : Name} {names : List Name} {ps : List (Marsh.Property τ V)}
    (h : (lookup (name :: names) (ofProperties ps)).isSome) : ∃ p, findToken name ps = some p := by
  by_cases hn : names = []
  · subst hn
    exact leads_single.mp h
  · obtain ⟨n, d, type, qs, hfind, -⟩ := (leads_cons hn).mp h
    exact ⟨_, hfind⟩

theorem leads_nil (names : List Name) :
    ¬ (lookup names (ofProperties ([] : List (Marsh.Property τ V)))).isSome := by
  rw [ofProperties, lookup_nil]
  nofun

theorem within_refl (names : List Name) (ps : List (Marsh.Property τ V)) : Within names ps ps := by
  induction names generalizing ps with
  | nil => rfl
  | cons name names ih =>
    cases names with
    | nil => exact rfl
    | cons next names =>
      refine ⟨⟨rfl, fun p hp => ⟨p, hp, rfl⟩, fun hnone p hp => ?_⟩, ih _⟩
      rw [hnone] at hp
      cases hp

theorem within_cons {name : Name} {names : List Name} (hn : names ≠ [])
    (ps ps' : List (Marsh.Property τ V)) :
    Within (name :: names) ps ps' ↔ OnWay name ps ps' ∧
      Within names (contents (findToken name ps)) (contents (findToken name ps')) := by
  cases names with
  | nil => exact absurd rfl hn
  | cons => exact Iff.rfl

theorem within_others {name : Name} {names : List Name} {ps ps' : List (Marsh.Property τ V)}
    (h : Within (name :: names) ps ps') : SameOthers name ps ps' := by
  by_cases hn : names = []
  · subst hn
    exact h
  · exact ((within_cons hn ps ps').mp h).1.others

/-! ### The way through both bags -/

namespace Walker

variable {w : Walker τ V}

def isBag : Marsh.Property τ V → Bool
  | .leaf .. => false
  | .bag .. => true

/-- What is done with the property of the target. -/
def atToken (w : Walker τ V) (names : List Name) (q : Marsh.Property τ V) :
    Marsh.Property τ V → Marsh.Property τ V × Marsh.Outcome :=
  if names = [] ∨ isBag q = false then w.item q else inside (w.walkTokens names (contents (some q)))

theorem walkTokens_some {name : Name} {names : List Name} {q : Marsh.Property τ V}
    {source : List (Marsh.Property τ V)} (h : findToken name source = some q)
    (target : List (Marsh.Property τ V)) :
    w.walkTokens (name :: names) source target = w.place q (w.atToken names q) target := by
  rw [walkTokens, atToken]
  cases q with
  | leaf n d t v => simp [h, isBag]
  | bag n d type qs =>
    by_cases hn : names = []
    · simp [h, hn]
    · simp [h, hn, isBag, contents]

theorem walkTokens_none {name : Name} {source : List (Marsh.Property τ V)}
    (h : findToken name source = none) (names : List Name) (target : List (Marsh.Property τ V)) :
    w.walkTokens (name :: names) source target = (target, .failed) := by
  rw [walkTokens]
  simp only [h]

theorem atToken_name (hw : w.Regular) (names : List Name) (q p : Marsh.Property τ V) :
    (w.atToken names q p).1.name = p.name := by
  unfold atToken
  split
  · exact hw.name q p
  · exact inside_name _ p

theorem atToken_last (w : Walker τ V) (q : Marsh.Property τ V) : w.atToken [] q = w.item q :=
  if_pos (Or.inl rfl)

theorem atToken_bag (w : Walker τ V) {names : List Name} (hn : names ≠ []) (n d type : String)
    (qs : List (Marsh.Property τ V)) :
    w.atToken names (.bag n d type qs) = inside (w.walkTokens names qs) := by
  rw [atToken, if_neg (by simp [hn, isBag])]
  rfl

/-- What the walk comes to at the first token. -/
theorem walkTokens_cases (hw : w.Regular) (name : Name) (names : List Name)
    (source target : List (Marsh.Property τ V)) :
    w.walkTokens (name :: names) source target = (target, .failed) ∨
      ∃ q p, findToken name source = some q ∧ w.Meets q target p ∧ q.name.toList = name ∧
        findToken name (w.walkTokens (name :: names) source target).1 =
          some (w.atToken names q p).1 ∧
        SameOthers name target (w.walkTokens (name :: names) source target).1 ∧
        (w.walkTokens (name :: names) source target).2 = (w.atToken names q p).2 ∧
        (findToken name target = some p → (w.atToken names q p).1 = p →
          (w.walkTokens (name :: names) source target).1 = target) := by
  cases hfind : findToken name source with
  | none => exact Or.inl (walkTokens_none hfind names target)
  | some q =>
    obtain ⟨-, rfl⟩ := findToken_name hfind
    rw [walkTokens_some hfind]
    rcases place_cases hw q (atToken_name hw names q) target with ⟨-, -, hmissing⟩ | ⟨p, hp, hplaced⟩
    · exact Or.inl hmissing
    · exact Or.inr ⟨q, p, rfl, hp, rfl, hplaced⟩

/-- Where properties are created, those that the source has at the names are. -/
theorem walkTokens_created (hw : w.Regular) (hc : ∀ q, ∃ c, w.create q = some c)
    (names : List Name) (source : List (Marsh.Property τ V))
    (h : (lookup names (ofProperties source)).isSome) : (w.walkTokens names source []).2 = .ok := by
  induction names generalizing source with
  | nil => cases h
  | cons name names ih =>
    obtain ⟨q, hq⟩ := leads_head h
    obtain ⟨c, hcreate⟩ := hc q
    have hplace : w.walkTokens (name :: names) source [] = ([(w.atToken names q c).1],
        (w.atToken names q c).2) := by
      rw [walkTokens_some hq, place]
      simp [findToken, hcreate]
    rw [hplace]
    by_cases hn : names = []
    · subst hn
      rw [atToken_last]
      exact hw.created q c hcreate
    · obtain ⟨n, d, type, qs, hbag, hinner⟩ := (leads_cons hn).mp h
      rw [hq] at hbag
      cases hbag
      obtain ⟨type', rfl⟩ := hw.created_bag n d type qs c hcreate
      rw [atToken_bag w hn]
      exact ih qs hinner

/-- The source has a property at the names: it is the one of the target there that is changed. -/
theorem walkTokens_within (hw : w.Regular) (names : List Name)
    (source target : List (Marsh.Property τ V))
    (h : (lookup names (ofProperties source)).isSome) :
    ((w.walkTokens names source target).2 = .ok →
      (lookup names (ofProperties (w.walkTokens names source target).1)).isSome ∧
        Within names target (w.walkTokens names source target).1) ∧
    ((w.walkTokens names source target).2 ≠ .ok →
      (w.walkTokens names source target).1 = target ∨
        (lookup names (ofProperties target)).isSome ∧
          Within names target (w.walkTokens names source target).1) := by
  induction names generalizing source target with
  | nil => cases h
  | cons name names ih =>
    rcases walkTokens_cases hw name names source target with
      hmissing | ⟨q, p, hq, hp, hname, hnew, hothers, hout, hsame⟩
    · rw [hmissing]
      exact ⟨nofun, fun _ => Or.inl rfl⟩
    rw [hout]
    rw [Meets, hname] at hp
    by_cases hn : names = []
    · subst hn
      refine ⟨fun _ => ⟨leads_single.mpr ⟨_, hnew⟩, hothers⟩, fun hno => ?_⟩
      rcases hp with hp | ⟨-, hp⟩
      · exact Or.inr ⟨leads_single.mpr ⟨p, hp⟩, hothers⟩
      · rw [atToken_last, hw.created q p hp] at hno
        exact absurd rfl hno
    obtain ⟨n, d, type, qs, hbag, hinner⟩ := (leads_cons hn).mp h
    rw [hq] at hbag
    cases hbag
    rw [atToken_bag w hn] at hnew hout hsame ⊢
    rcases hp with hp | ⟨hp, hcreate⟩
    · cases p with
      | leaf n' d' t v => exact ⟨nofun, fun _ => Or.inl (hsame hp rfl)⟩
      | bag n' d' type' ps =>
        have honway : OnWay name target (w.walkTokens (name :: names) source target).1 := by
          refine ⟨hothers, fun p' hp' => ?_, fun hnone => ?_⟩
          · rw [hp] at hp'
            cases hp'
            exact ⟨_, hnew, rfl⟩
          · rw [hp] at hnone
            cases hnone
        have hwithin : Within names ps (w.walkTokens names qs ps).1 →
            Within (name :: names) target (w.walkTokens (name :: names) source target).1 := by
          intro hin
          refine (within_cons hn _ _).mpr ⟨honway, ?_⟩
          rw [hp, hnew]
          exact hin
        obtain ⟨hok, hfail⟩ := ih qs ps hinner
        constructor
        · intro hyes
          obtain ⟨hleads, hin⟩ := hok hyes
          exact ⟨(leads_cons hn).mpr ⟨_, _, _, _, hnew, hleads⟩, hwithin hin⟩
        · intro hno
          rcases hfail hno with hkept | ⟨hleads, hin⟩
          · exact Or.inl (hsame hp (by rw [inside, hkept]))
          · exact Or.inr ⟨(leads_cons hn).mpr ⟨_, _, _, _, hp, hleads⟩, hwithin hin⟩
    · obtain ⟨type', rfl⟩ := hw.created_bag n d type qs p hcreate
      have hall : ∀ q, ∃ c, w.create q = some c := by
        refine hw.creates.resolve_right fun hno => ?_
        rw [hno] at hcreate
        cases hcreate
      have hmade := walkTokens_created hw hall names qs hinner
      obtain ⟨hok, -⟩ := ih qs [] hinner
      obtain ⟨hleads, hin⟩ := hok hmade
      refine ⟨fun _ => ⟨(leads_cons hn).mpr ⟨_, _, _, _, hnew, hleads⟩, ?_⟩, fun hno => ?_⟩
      · refine (within_cons hn _ _).mpr ⟨⟨hothers, ?_, ?_⟩, ?_⟩
        · intro p' hp'
          rw [hp] at hp'
          cases hp'
        · intro _ p' hp'
          rw [hnew] at hp'
          cases hp'
          exact ⟨_, _, _, _, rfl⟩
        · rw [hp, hnew]
          exact hin
      · exact absurd hmade hno

theorem atToken_leaf (w : Walker τ V) (names : List Name) (n d : String) (t : τ) (v : V) :
    w.atToken names (.leaf n d t v) = w.item (.leaf n d t v) :=
  if_pos (Or.inr rfl)

end Walker

/-! ### The two functions -/

section
variable [DecidableEq ι] [DecidableEq τ] (ts : TypeSystem ι τ V)

theorem updateWalker_regular : (updateWalker ts).Regular where
  name q p := (ts.updater_steady q).name p
  leaf_bag n d t v n' d' type ps := by simp [updateWalker, TypeSystem.updater]
  creates := Or.inl fun q => ⟨_, rfl⟩
  created_name q c h := by
    obtain rfl := Option.some.inj h
    exact (ts.updater_steady q).created_name.trans (ts.updater_name q)
  created q c h := by
    obtain rfl := Option.some.inj h
    exact (ts.updater_steady q).created
  created_leaf n d t v c h := by
    obtain rfl := Option.some.inj h
    simp [updateWalker, TypeSystem.updater]
  created_bag n d type qs c h := by
    obtain rfl := Option.some.inj h
    simp [TypeSystem.updater]

theorem refreshWalker_regular : (refreshWalker ts).Regular where
  name q p := by
    have hsame : Marsh.outline (ts.refreshProperty p q).1 = Marsh.outline p :=
      Marsh.outline_refresh p q
    have h := congrArg Marsh.Property.name hsame
    rwa [Marsh.outline_name, Marsh.outline_name] at h
  leaf_bag n d t v n' d' type ps := by simp [refreshWalker, TypeSystem.refreshProperty]
  creates := Or.inr fun q => rfl
  created_name q c h := by cases h
  created q c h := by cases h
  created_leaf n d t v c h := by cases h
  created_bag n d type qs c h := by cases h

end

end OrocosRtt.PropertyPaths
