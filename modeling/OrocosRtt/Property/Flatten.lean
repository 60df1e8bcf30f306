import OrocosRtt.Property.Paths
import Mathlib.Data.List.Perm.Basic

/-! Flattening a bag moves the properties of the bags in it to its own list, and removing them from
where they were deletes those that are owned there. -/
namespace OrocosRtt.PropertyFlatten
open PropertyPaths (Name)

/-- A property in the list of a bag, with whether that bag owns it. A property of another type than
a bag is known by its object. -/
inductive Item (V : Type) where
  | leaf (name : Name) (owned : Bool) (object : V)
  | bag (name : Name) (owned : Bool) (properties : List (Item V))

variable {V : Type}

namespace Item

def owned : Item V → Bool
  | .leaf _ o _ => o
  | .bag _ o _ => o

/-- The property in a list of another bag, under its new name: `add` does not own it. -/
def moved (before : Name) : Item V → Item V
  | .leaf n _ v => .leaf (before ++ n) false v
  | .bag n _ ps => .bag (before ++ n) false ps

end Item

/-- What comes of a call, whose list may have pointers to deleted properties in it. -/
inductive Flattening (V : Type) where
  | unfinished
  /-- A deleted property was used. -/
  | undefined
  | finished (properties : List (Option (Item V)))

/-- The list of the target after the inner loop, in which each property is renamed, added to the
target and then removed from its bag, or nothing where one was deleted before. -/
def moveAll (before : Name) : List (Option (Item V)) → Option (List (Option (Item V)))
  | [] => some []
  | none :: _ => none
  | some p :: ps =>
    -- the bag deletes what it owns
    (moveAll before ps).map ((if p.owned then none else some (p.moved before)) :: ·)

/-- The loop of `flattenPropertyBag`, where `seen` is in front of the iterator. When properties have
been moved it goes back to the begin. -/
def flatten (separator : Name) : ℕ → List (Option (Item V)) → List (Option (Item V)) → Flattening V
  | 0, _, _ => .unfinished
  | _ + 1, seen, [] => .finished seen
  | _ + 1, _, none :: _ => .undefined
  | fuel + 1, seen, some (.leaf n o v) :: ps =>
    flatten separator fuel (seen ++ [some (.leaf n o v)]) ps
  | fuel + 1, seen, some (.bag n o qs) :: ps =>
    match flatten separator fuel [] (qs.map some) with
    | .unfinished => .unfinished
    | .undefined => .undefined
    | .finished [] => flatten separator fuel (seen ++ [some (.bag n o [])]) ps
    | .finished (q :: inner) =>
      match moveAll (n ++ separator) (q :: inner) with
      | none => .undefined
      | some moved => flatten separator fuel [] (seen ++ some (.bag n o []) :: ps ++ moved)

/-- Enough turns of the loops, and their result. -/
def FlattensTo (separator : Name) (ps : List (Item V)) (result : Flattening V) : Prop :=
  result ≠ .unfinished ∧ ∃ fuel, flatten separator fuel [] (ps.map some) = result

mutual

/-- The paths of the properties that are no bags, with these. -/
def Item.leaves (separator : Name) (p : Item V) : List (Name × V) :=
  match p with
  | .leaf n _ v => [(n, v)]
  | .bag n _ ps => (leaves separator ps).map fun e => (n ++ separator ++ e.1, e.2)

def leaves (separator : Name) (ps : List (Item V)) : List (Name × V) :=
  match ps with
  | [] => []
  | p :: ps => p.leaves separator ++ leaves separator ps

end

/-- The property of the list is no bag, or an empty one. -/
def Item.Flat : Item V → Prop
  | .leaf .. => True
  | .bag _ _ ps => ps = []

/-- The call ends, and each property that is no bag is then in the list under its path and alive;
the bags that are in the list are empty. -/
def Keeps (separator : Name) (ps : List (Item V)) : Prop :=
  ∃ qs : List (Item V), FlattensTo separator ps (.finished (qs.map some)) ∧
    (∀ q ∈ qs, q.Flat) ∧ (leaves separator qs).Perm (leaves separator ps)

mutual

/-- No bag in it owns a property. -/
def Item.Free (p : Item V) : Prop :=
  match p with
  | .leaf .. => True
  | .bag _ _ ps => (∀ q ∈ ps, q.owned = false) ∧ Free ps

def Free (ps : List (Item V)) : Prop :=
  match ps with
  | [] => True
  | p :: ps => p.Free ∧ Free ps

end

/-! ### More turns -/

theorem flatten_more (separator : Name) (fuel : ℕ) (seen ps : List (Option (Item V)))
    {r : Flattening V} (hr : r ≠ .unfinished) (h : flatten separator fuel seen ps = r) :
    flatten separator (fuel + 1) seen ps = r := by
  induction fuel generalizing seen ps r with
  | zero =>
    rw [flatten] at h
    exact absurd h.symm hr
  | succ fuel ih =>
    cases ps with
    | nil =>
      rw [flatten] at h ⊢
      exact h
    | cons p ps =>
      cases p with
      | none =>
        rw [flatten] at h ⊢
        exact h
      | some p =>
        cases p with
        | leaf n o v =>
          rw [flatten] at h ⊢
          exact ih _ _ hr h
        | bag n o qs =>
          rw [flatten] at h
          rw [flatten]
          cases hin : flatten separator fuel [] (qs.map some) with
          | unfinished =>
            rw [hin] at h
            exact absurd h.symm hr
          | undefined =>
            rw [hin] at h
            rw [ih _ _ (by simp) hin]
            exact h
          | finished inner =>
            rw [hin] at h
            rw [ih _ _ (by simp) hin]
            cases inner with
            | nil => exact ih _ _ hr h
            | cons q inner =>
              dsimp only at h ⊢
              cases hmoved : moveAll (n ++ separator) (q :: inner) with
              | none =>
                rw [hmoved] at h
                exact h
              | some moved =>
                rw [hmoved] at h
                exact ih _ _ hr h

theorem flatten_mono (separator : Name) {fuel fuel' : ℕ} (hle : fuel ≤ fuel')
    {seen ps : List (Option (Item V))} {r : Flattening V} (hr : r ≠ .unfinished)
    (h : flatten separator fuel seen ps = r) : flatten separator fuel' seen ps = r := by
  induction hle with
  | refl => exact h
  | step _ ih => exact flatten_more separator _ seen ps hr ih

/-! ### Paths of what is moved -/

theorem leaves_append (separator : Name) (ps qs : List (Item V)) :
    leaves separator (ps ++ qs) = leaves separator ps ++ leaves separator qs := by
  induction ps with
  | nil => rw [leaves]; rfl
  | cons p ps ih => rw [List.cons_append, leaves, ih, leaves, List.append_assoc]

theorem leaves_single (separator : Name) (p : Item V) :
    leaves separator [p] = p.leaves separator := by
  rw [leaves, leaves, List.append_nil]

theorem leaves_empty (separator n : Name) (o : Bool) :
    (Item.bag n o ([] : List (Item V))).leaves separator = [] := by
  rw [Item.leaves, leaves]
  rfl

/-- Moving flat properties puts the name of their bag in front of their paths. -/
theorem leaves_moved (separator n : Name) (ps : List (Item V)) (h : ∀ p ∈ ps, p.Flat) :
    leaves separator (ps.map (Item.moved (n ++ separator))) =
      (leaves separator ps).map fun e => (n ++ separator ++ e.1, e.2) := by
  induction ps with
  | nil => rw [List.map_nil, leaves]; rfl
  | cons p ps ih =>
    have htail := ih fun q hq => h q (List.mem_cons_of_mem p hq)
    have hp := h p List.mem_cons_self
    rw [List.map_cons, leaves, leaves, List.map_append, htail]
    congr 1
    cases p with
    | leaf m o v => simp [Item.moved, Item.leaves]
    | bag m o qs =>
      obtain rfl : qs = [] := hp
      rw [Item.moved, leaves_empty, leaves_empty]
      rfl

theorem moved_flat {n : Name} {p : Item V} (h : p.Flat) : (p.moved n).Flat := by
  cases p with
  | leaf => trivial
  | bag => exact h

theorem moved_owned (n : Name) (p : Item V) : (p.moved n).owned = false := by
  cases p <;> rfl

theorem moveAll_free (n : Name) (ps : List (Item V)) (h : ∀ p ∈ ps, p.owned = false) :
    moveAll n (ps.map some) = some ((ps.map (Item.moved n)).map some) := by
  induction ps with
  | nil => rfl
  | cons p ps ih =>
    rw [List.map_cons, moveAll, ih fun q hq => h q (List.mem_cons_of_mem p hq),
      h p List.mem_cons_self]
    rfl

/-! ### Where no bag inside owns a property -/

/-- What the call makes of the properties, in which no one is owned that was not before. -/
structure Flattened (separator : Name) (ps qs : List (Item V)) : Prop where
  flat : ∀ q ∈ qs, q.Flat
  leaves : (leaves separator qs).Perm (leaves separator ps)
  owned : (∀ p ∈ ps, p.owned = false) → ∀ q ∈ qs, q.owned = false

/-- The number of bags that are not empty. -/
def filled : List (Item V) → ℕ
  | [] => 0
  | .leaf .. :: ps => filled ps
  | .bag _ _ [] :: ps => filled ps
  | .bag _ _ (_ :: _) :: ps => filled ps + 1

theorem filled_append (ps qs : List (Item V)) : filled (ps ++ qs) = filled ps + filled qs := by
  induction ps with
  | nil => simp [filled]
  | cons p ps ih =>
    cases p with
    | leaf => simpa [filled] using ih
    | bag n o inner =>
      cases inner with
      | nil => simpa [filled] using ih
      | cons =>
        simp only [List.cons_append, filled, ih]
        omega

theorem filled_flat {ps : List (Item V)} (h : ∀ p ∈ ps, p.Flat) : filled ps = 0 := by
  induction ps with
  | nil => rfl
  | cons p ps ih =>
    have htail := ih fun q hq => h q (List.mem_cons_of_mem p hq)
    have hp := h p List.mem_cons_self
    cases p with
    | leaf => exact htail
    | bag n o inner =>
      obtain rfl : inner = [] := hp
      exact htail

/-- The bag inside is flattened, and it owns nothing. -/
def Inner (separator : Name) (p : Item V) : Prop :=
  match p with
  | .leaf .. => True
  | .bag _ _ qs => (∀ q ∈ qs, q.owned = false) ∧ ∃ qs' fuel,
    flatten separator fuel [] (qs.map some) = .finished (qs'.map some) ∧ Flattened separator qs qs'

theorem inner_flat {separator : Name} {p : Item V} (h : p.Flat) : Inner separator p := by
  cases p with
  | leaf => trivial
  | bag n o qs =>
    obtain rfl : qs = [] := h
    exact ⟨nofun, [], 1, rfl, nofun, .refl _, fun _ => nofun⟩

theorem bag_leaves_perm {separator n : Name} {o : Bool} {qs qs' : List (Item V)}
    (h : Flattened separator qs qs') :
    (leaves separator (qs'.map (Item.moved (n ++ separator)))).Perm
      ((Item.bag n o qs).leaves separator) := by
  rw [leaves_moved separator n qs' h.flat, Item.leaves]
  exact h.leaves.map _

theorem filled_le_cons (p : Item V) (ps : List (Item V)) : filled ps ≤ filled (p :: ps) := by
  cases p with
  | leaf => exact Nat.le_refl _
  | bag n o inner =>
    cases inner with
    | nil => exact Nat.le_refl _
    | cons => exact Nat.le_succ _

theorem flat_append {ps qs : List (Item V)} (hps : ∀ p ∈ ps, p.Flat) (hqs : ∀ q ∈ qs, q.Flat) :
    ∀ p ∈ ps ++ qs, p.Flat := by
  intro p hp
  rcases List.mem_append.mp hp with hp | hp
  · exact hps p hp
  · exact hqs p hp

theorem flat_single {p : Item V} (h : p.Flat) : ∀ q ∈ [p], q.Flat := by
  intro q hq
  rw [List.mem_singleton.mp hq]
  exact h

/-- An empty list is flattened to an empty one. -/
theorem flatten_nil {separator : Name} {fuel : ℕ} {qs : List (Option (Item V))}
    (h : flatten separator fuel [] [] = .finished qs) : qs = [] := by
  cases fuel with
  | zero => simp [flatten] at h
  | succ fuel =>
    rw [flatten, Flattening.finished.injEq] at h
    exact h.symm

/-- The leaves after one bag was emptied into the target. -/
theorem emptied_perm {separator n : Name} {o : Bool} {inner inner' : List (Item V)}
    (hdone : Flattened separator inner inner') (seen ps : List (Item V)) :
    (leaves separator
      (seen ++ .bag n o [] :: ps ++ inner'.map (Item.moved (n ++ separator)))).Perm
        (leaves separator (seen ++ .bag n o inner :: ps)) := by
  have hbag := bag_leaves_perm (n := n) (o := o) hdone
  simp only [leaves_append, leaves, leaves_empty, List.nil_append, List.append_assoc]
  refine (List.perm_append_left_iff _).mpr ?_
  exact List.perm_append_comm.trans ((List.perm_append_right_iff _).mpr hbag)

theorem emptied_owned {n before : Name} {o : Bool} {inner inner' seen ps : List (Item V)}
    (h : ∀ p ∈ seen ++ Item.bag n o inner :: ps, p.owned = false) :
    ∀ p ∈ seen ++ Item.bag n o [] :: ps ++ inner'.map (Item.moved before), p.owned = false := by
  intro p hp
  simp only [List.append_assoc, List.cons_append, List.mem_append, List.mem_cons,
    List.mem_map] at hp
  rcases hp with hp | rfl | hp | ⟨q, -, rfl⟩
  · exact h p (List.mem_append_left _ hp)
  · exact h (.bag n o inner) (List.mem_append_right _ List.mem_cons_self)
  · exact h p (List.mem_append_right _ (List.mem_cons_of_mem _ hp))
  · exact moved_owned before q

/-- What the rest of the loop makes of the list in which one bag was emptied. -/
theorem Flattened.of_emptied {separator n : Name} {o : Bool}
    {inner inner' seen ps qs : List (Item V)}
    (hdone : Flattened separator inner inner')
    (h : Flattened separator (seen ++ .bag n o [] :: ps ++ inner'.map (Item.moved (n ++ separator)))
      qs) : Flattened separator (seen ++ .bag n o inner :: ps) qs :=
  ⟨h.flat, h.leaves.trans (emptied_perm hdone seen ps), fun hp => h.owned (emptied_owned hp)⟩

/-- Moving what was in the bag leaves one filled bag less. -/
theorem filled_emptied {n before : Name} {o : Bool} {inner inner' seen ps : List (Item V)}
    (hinner : inner ≠ []) (hseen : ∀ p ∈ seen, p.Flat) (hin : ∀ p ∈ inner', p.Flat) :
    filled (seen ++ .bag n o [] :: ps ++ inner'.map (Item.moved before)) <
      filled (.bag n o inner :: ps) := by
  have hmoved : ∀ p ∈ inner'.map (Item.moved before), p.Flat := by
    intro p hp
    obtain ⟨q, hq, rfl⟩ := List.mem_map.mp hp
    exact moved_flat (hin q hq)
  rw [filled_append, filled_append, filled_flat hseen, filled_flat hmoved]
  cases inner with
  | nil => exact absurd rfl hinner
  | cons q inner =>
    simp only [filled]
    omega

/-- The loop goes through the list, and goes back as often as there are bags to be emptied. -/
theorem flatten_loop {separator : Name} (k : ℕ) (seen ps : List (Item V))
    (hk : filled ps ≤ k) (hseen : ∀ p ∈ seen, p.Flat) (hps : ∀ p ∈ ps, Inner separator p) :
    ∃ qs fuel, flatten separator fuel (seen.map some) (ps.map some) = .finished (qs.map some) ∧
      Flattened separator (seen ++ ps) qs := by
  induction k using Nat.strongRecOn generalizing seen ps with
  | ind k ih =>
    induction ps generalizing seen with
    | nil =>
      refine ⟨seen, 1, rfl, hseen, ?_, ?_⟩
      · rw [List.append_nil]
      · rw [List.append_nil]
        exact fun h => h
    | cons p ps ihps =>
      have hrest : ∀ q ∈ ps, Inner separator q := fun q hq => hps q (List.mem_cons_of_mem p hq)
      have hle := Nat.le_trans (filled_le_cons p ps) hk
      have hp := hps p List.mem_cons_self
      cases p with
      | leaf n o v =>
        have hflat := flat_append hseen (flat_single (p := .leaf n o v) trivial)
        obtain ⟨qs, fuel, hrun, hdone⟩ := ihps (seen ++ [.leaf n o v]) hle hflat hrest
        refine ⟨qs, fuel + 1, ?_, ?_⟩
        · rw [List.map_cons, flatten, ← hrun, List.map_append]
          rfl
        · simpa using hdone
      | bag n o inner =>
        obtain ⟨hfree, inner', fuel', hin, hdone'⟩ := hp
        have hempty : (Item.bag n o ([] : List (Item V))).Flat := rfl
        cases inner' with
        | nil =>
          obtain ⟨qs, fuel, hrun, hdone⟩ :=
            ihps (seen ++ [.bag n o []]) hle (flat_append hseen (flat_single hempty)) hrest
          refine ⟨qs, max fuel fuel' + 1, ?_, .of_emptied hdone' (by simpa using hdone)⟩
          rw [List.map_append] at hrun
          rw [List.map_cons, flatten, flatten_mono separator (Nat.le_max_right _ _) (by simp) hin]
          exact flatten_mono separator (Nat.le_max_left _ _) (by simp) hrun
        | cons q inner' =>
          have hinner : inner ≠ [] := by
            rintro rfl
            simpa using flatten_nil hin
          have hall : ∀ p ∈ seen ++ Item.bag n o [] :: ps ++
              (q :: inner').map (Item.moved (n ++ separator)), Inner separator p := by
            intro p hp
            simp only [List.append_assoc, List.cons_append, List.mem_append, List.mem_cons] at hp
            rcases hp with hp | rfl | hp | hp
            · exact inner_flat (hseen p hp)
            · exact inner_flat hempty
            · exact hrest p hp
            · obtain ⟨r, hr, rfl⟩ := List.mem_map.mp hp
              exact inner_flat (moved_flat (hdone'.flat r hr))
          obtain ⟨qs, fuel, hrun, hdone⟩ := ih _
            (Nat.lt_of_lt_of_le (filled_emptied hinner hseen hdone'.flat) hk) [] _
            (Nat.le_refl _) (fun _ hp => absurd hp List.not_mem_nil) hall
          refine ⟨qs, max fuel fuel' + 1, ?_, .of_emptied hdone' hdone⟩
          have hmoved := moveAll_free (n ++ separator) (q :: inner') (hdone'.owned hfree)
          rw [List.map_cons, flatten, flatten_mono separator (Nat.le_max_right _ _) (by simp) hin]
          rw [List.map_cons] at hmoved ⊢
          simp only [hmoved]
          simp only [List.map_append, List.map_cons, List.map_nil] at hrun
          exact flatten_mono separator (Nat.le_max_left _ _) (by simp) (by simpa using hrun)

mutual

theorem Item.free_inner (separator : Name) (p : Item V) (h : p.Free) : Inner separator p := by
  cases p with
  | leaf => trivial
  | bag n o qs =>
    rw [Item.Free] at h
    obtain ⟨qs', fuel, hrun, hdone⟩ :=
      flatten_loop (filled qs) [] qs (Nat.le_refl _) nofun (free_inner separator qs h.2)
    exact ⟨h.1, qs', fuel, hrun, hdone⟩

theorem free_inner (separator : Name) (ps : List (Item V)) (h : Free ps) :
    ∀ p ∈ ps, Inner separator p := by
  cases ps with
  | nil => nofun
  | cons p ps =>
    rw [Free] at h
    intro q hq
    rcases List.mem_cons.mp hq with heq | hq
    · rw [heq]
      exact Item.free_inner separator p h.1
    · exact free_inner separator ps h.2 q hq

end

/-- Where no bag inside owns a property, all of it is kept. -/
theorem free_keeps (separator : Name) {ps : List (Item V)} (h : Free ps) : Keeps separator ps := by
  obtain ⟨qs, fuel, hrun, hdone⟩ :=
    flatten_loop (filled ps) [] ps (Nat.le_refl _) nofun (free_inner separator ps h)
  exact ⟨qs, ⟨by simp, fuel, hrun⟩, hdone.flat, hdone.leaves⟩

/-! ### Where a bag inside owns a property -/

theorem free_iff (ps : List (Item V)) : Free ps ↔ ∀ p ∈ ps, p.Free := by
  induction ps with
  | nil => simp [Free]
  | cons p ps ih => rw [Free, ih, List.forall_mem_cons]

/-- A property that its bag owns is in the list. -/
def HasOwned (ps : List (Option (Item V))) : Prop :=
  ∃ p, some p ∈ ps ∧ p.owned = true

theorem hasOwned_emptied {n : Name} {o : Bool} {qs : List (Item V)}
    {seen ps more : List (Option (Item V))} (h : HasOwned (seen ++ some (.bag n o qs) :: ps)) :
    HasOwned (seen ++ some (.bag n o []) :: ps ++ more) := by
  obtain ⟨p, hp, howned⟩ := h
  rcases List.mem_append.mp hp with hp | hp
  · exact ⟨p, by simp [hp], howned⟩
  · rcases List.mem_cons.mp hp with heq | hp
    · obtain rfl : p = .bag n o qs := Option.some.inj heq
      exact ⟨.bag n o [], by simp, howned⟩
    · exact ⟨p, by simp [hp], howned⟩

/-- The pointer to what was owned is in the target after its deletion. -/
theorem moveAll_owned {before : Name} {ps moved : List (Option (Item V))} (h : HasOwned ps)
    (hmoved : moveAll before ps = some moved) : none ∈ moved := by
  obtain ⟨p, hp, howned⟩ := h
  induction ps generalizing moved with
  | nil => exact absurd hp List.not_mem_nil
  | cons q ps ih =>
    cases q with
    | none => simp [moveAll] at hmoved
    | some q =>
      rw [moveAll, Option.map_eq_some_iff] at hmoved
      obtain ⟨rest, hrest, rfl⟩ := hmoved
      rcases List.mem_cons.mp hp with heq | hp
      · obtain rfl : p = q := Option.some.inj heq
        simp [howned]
      · exact List.mem_cons_of_mem _ (ih hrest hp)

/-- The call only ends where it met no deleted property, and what was owned is still so. -/
theorem flatten_finished {separator : Name} (fuel : ℕ) {seen ps l : List (Option (Item V))}
    (h : flatten separator fuel seen ps = .finished l) :
    (∀ x ∈ ps, ∃ p, x = some p ∧ p.Free) ∧ (HasOwned (seen ++ ps) → HasOwned l) := by
  induction fuel generalizing seen ps l with
  | zero => simp [flatten] at h
  | succ fuel ih =>
    cases ps with
    | nil =>
      rw [flatten, Flattening.finished.injEq] at h
      rw [List.append_nil, h]
      exact ⟨nofun, fun hown => hown⟩
    | cons x ps =>
      cases x with
      | none => simp [flatten] at h
      | some p =>
        cases p with
        | leaf n o v =>
          rw [flatten] at h
          obtain ⟨hfree, howned⟩ := ih h
          rw [List.append_assoc] at howned
          refine ⟨List.forall_mem_cons.mpr ⟨⟨_, rfl, ?_⟩, hfree⟩, howned⟩
          rw [Item.Free]
          trivial
        | bag n o qs =>
          rw [flatten] at h
          cases hin : flatten separator fuel [] (qs.map some) with
          | unfinished => simp [hin] at h
          | undefined => simp [hin] at h
          | finished inner =>
            rw [hin] at h
            obtain ⟨hqs, hqsOwned⟩ := ih hin
            rw [List.nil_append] at hqsOwned
            have hbag (hnone : ¬ HasOwned (qs.map some)) : (Item.bag n o qs).Free := by
              rw [Item.Free, free_iff]
              refine ⟨fun q hq => ?_, fun q hq => ?_⟩
              · by_contra hown
                exact hnone ⟨q, List.mem_map_of_mem hq, by simpa using hown⟩
              · obtain ⟨q', heq, hq'⟩ := hqs _ (List.mem_map_of_mem hq)
                rw [Option.some.inj heq]
                exact hq'
            cases inner with
            | nil =>
              obtain ⟨hfree, howned⟩ := ih h
              have hnone : ¬ HasOwned (qs.map some) := fun hown => by
                obtain ⟨q, hq, -⟩ := hqsOwned hown
                exact absurd hq List.not_mem_nil
              refine ⟨List.forall_mem_cons.mpr ⟨⟨_, rfl, hbag hnone⟩, hfree⟩, fun hown => ?_⟩
              have hown' : HasOwned (seen ++ some (.bag n o []) :: ps ++ []) :=
                hasOwned_emptied hown
              rw [List.append_nil] at hown'
              exact howned (by simpa using hown')
            | cons q inner =>
              dsimp only at h
              cases hmoved : moveAll (n ++ separator) (q :: inner) with
              | none => simp [hmoved] at h
              | some moved =>
                rw [hmoved] at h
                obtain ⟨hfree, howned⟩ := ih h
                -- the next round would use the deleted property
                have hnone : ¬ HasOwned (qs.map some) := fun hown => by
                  have hdeleted := moveAll_owned (hqsOwned hown) hmoved
                  obtain ⟨p, hp, -⟩ := hfree none (List.mem_append_right _ hdeleted)
                  cases hp
                refine ⟨List.forall_mem_cons.mpr ⟨⟨_, rfl, hbag hnone⟩, fun x hx => ?_⟩,
                  fun hown => howned (hasOwned_emptied hown)⟩
                exact hfree x (by simp [hx])

theorem keeps_free {separator : Name} {ps : List (Item V)} (h : Keeps separator ps) : Free ps := by
  obtain ⟨qs, ⟨-, fuel, hrun⟩, -, -⟩ := h
  rw [free_iff]
  intro p hp
  obtain ⟨p', heq, hfree⟩ := (flatten_finished fuel hrun).1 _ (List.mem_map_of_mem hp)
  rw [Option.some.inj heq]
  exact hfree

/-- Exactly where no bag inside owns a property, `flattenPropertyBag` ends with all properties that
are no bags in the list of the target, under their paths and alive. -/
theorem flatten_keeps_iff (separator : Name) (ps : List (Item V)) :
    Keeps separator ps ↔ Free ps :=
  ⟨keeps_free, free_keeps separator⟩

/-- The bag inside owns its property, which is deleted when it has been moved. -/
theorem owned_inside_lost : ¬ Keeps ['.'] [Item.bag ['b'] true [.leaf ['x'] true ()]] := by
  intro h
  simpa [Free, Item.Free, Item.owned] using keeps_free h

end OrocosRtt.PropertyFlatten
