import OrocosRtt.Library.Run
import Mathlib.Data.List.Basic
import Mathlib.Data.List.Count
import Mathlib.Data.List.Nodup

/-! A property bag lists properties that belong to others, and properties that it owns and is going
to delete. -/
namespace OrocosRtt.Property

open Library.Run

/-- A bag, with the properties that were deleted so far, the last one first. -/
structure PropertyBag (P : Type) where
  mproperties : List P
  mownedProps : List P
  type : String
  name : P → String
  ready : P → Bool
  deleted : List P
  /-- A deleted property was used, or an iterator into a list that was changed since. -/
  undefined : Bool

/-- `clear` is also what the destructor does. The lists and types of other bags are given by value. -/
inductive Action (P : Type) where
  | addProperty (p : Option P)
  | ownProperty (p : Option P)
  | removeProperty (p : Option P)
  | clear
  | assign (orig : List P) (type : String)
  | assignSelf
  | merge (source : List P) (type : String)
  | mergeSelf
  | alter (name : P → String) (ready : P → Bool)

namespace PropertyBag

variable {P : Type} [DecidableEq P]

def create (name : P → String) (ready : P → Bool) : PropertyBag P where
  mproperties := []
  mownedProps := []
  type := "PropertyBag"
  name := name
  ready := ready
  deleted := []
  undefined := false

/-- The property is used. -/
def touch (p : P) (b : PropertyBag P) : PropertyBag P :=
  { b with undefined := b.undefined || decide (p ∈ b.deleted) }

def delete (p : P) (b : PropertyBag P) : PropertyBag P :=
  { b.touch p with deleted := p :: b.deleted }

def addProperty (p : Option P) (b : PropertyBag P) : PropertyBag P × Bool :=
  match p with
  | none => (b, false)
  | some p =>
    if b.ready p then ({ b.touch p with mproperties := b.mproperties ++ [p] }, true)
    else (b.touch p, false)

def removeProperty (p : Option P) (b : PropertyBag P) : PropertyBag P × Bool :=
  match p with
  | none => (b, false)
  | some p =>
    if p ∈ b.mproperties then
      if p ∈ b.mownedProps then
        ({ b.delete p with
          mproperties := b.mproperties.erase p, mownedProps := b.mownedProps.erase p }, true)
      else ({ b with mproperties := b.mproperties.erase p }, true)
    else (b, false)

/-- A property that is in the list already is removed from it first. -/
def ownProperty (p : Option P) (b : PropertyBag P) : PropertyBag P × Bool :=
  match p with
  | none => (b, false)
  | some p =>
    if b.ready p then
      let b := ((b.touch p).removeProperty (some p)).1
      ({ b with mproperties := b.mproperties ++ [p], mownedProps := b.mownedProps ++ [p] }, true)
    else (b.touch p, false)

def clear (b : PropertyBag P) : PropertyBag P :=
  { b.mownedProps.foldl (fun b p => b.delete p) { b with mproperties := [] } with
    mownedProps := [] }

/-- The first one of the properties that has the name. -/
def find (n : String) : List P → PropertyBag P → PropertyBag P × Option P
  | [], b => (b, none)
  | p :: ps, b => if b.name p = n then (b.touch p, some p) else find n ps (b.touch p)

/-- `operator=`, for another bag. -/
def assign (orig : List P) (type : String) (b : PropertyBag P) : PropertyBag P :=
  { orig.foldl (fun b p => (b.addProperty (some p)).1) b.clear with type := type }

/-- A turn of the loop in `operator<<=`. -/
def mergeOne (b : PropertyBag P) (p : P) : PropertyBag P :=
  let r := (b.touch p).find (b.name p) b.mproperties
  ((r.1.removeProperty r.2).1.addProperty (some p)).1

/-- `operator<<=`, for another bag. -/
def merge (source : List P) (type : String) (b : PropertyBag P) : PropertyBag P :=
  { source.foldl mergeOne b with type := type }

def step (b : PropertyBag P) (a : Action P) : PropertyBag P :=
  match a with
  | .addProperty p => (b.addProperty p).1
  | .ownProperty p => (b.ownProperty p).1
  | .removeProperty p => (b.removeProperty p).1
  | .clear => b.clear
  | .assign orig type => b.assign orig type
  | .assignSelf => b
  | .merge source type => b.merge source type
  -- the loop changes the list that it goes over
  | .mergeSelf => if b.mproperties = [] then b else { b with undefined := true }
  | .alter name ready => { b with name := name, ready := ready }

/-- No property in the list was deleted, each owned one is there once, and no property was deleted
twice or used after its deletion. -/
structure Sound (b : PropertyBag P) : Prop where
  live : ∀ p ∈ b.mproperties, p ∉ b.deleted
  once : ∀ p ∈ b.mownedProps, b.mproperties.count p = 1
  owned : b.mownedProps.Nodup
  deleted : b.deleted.Nodup
  defined : b.undefined = false

/-- A property that is added is not owned; one that is to be owned is listed once at most, and not
owned; and another bag gives no property that is owned. Arguments were not deleted. -/
def careful (b : PropertyBag P) (a : Action P) : Prop :=
  match a with
  | .addProperty p => ∀ q ∈ p, q ∉ b.deleted ∧ (b.ready q = true → q ∉ b.mownedProps)
  | .ownProperty p => ∀ q ∈ p, q ∉ b.deleted ∧
    (b.ready q = true → q ∉ b.mownedProps ∧ b.mproperties.count q ≤ 1)
  | .assign ps _ | .merge ps _ => ∀ q ∈ ps, q ∉ b.deleted ∧ q ∉ b.mownedProps
  | .mergeSelf => b.mproperties = []
  | .removeProperty _ | .clear | .assignSelf | .alter .. => True

/-! ### What each operation keeps -/

theorem touch_live {p : P} {b : PropertyBag P} (h : p ∉ b.deleted) : b.touch p = b := by
  rw [touch, decide_eq_false h, Bool.or_false]

theorem Sound.owned_listed {b : PropertyBag P} (h : b.Sound) {p : P} (hp : p ∈ b.mownedProps) :
    p ∈ b.mproperties := by
  apply List.count_pos_iff.mp
  rw [h.once p hp]
  exact Nat.one_pos

theorem Sound.owned_live {b : PropertyBag P} (h : b.Sound) {p : P} (hp : p ∈ b.mownedProps) :
    p ∉ b.deleted :=
  h.live p (h.owned_listed hp)

/-- A live property that is not owned is added to the list. -/
theorem Sound.push {b : PropertyBag P} (h : b.Sound) {p : P} (hlive : p ∉ b.deleted)
    (hfree : p ∉ b.mownedProps) : { b with mproperties := b.mproperties ++ [p] }.Sound := by
  constructor
  · intro q hq
    rcases List.mem_append.mp hq with hold | hnew
    · exact h.live q hold
    · rw [List.mem_singleton.mp hnew]
      exact hlive
  · intro q hq
    show (b.mproperties ++ [p]).count q = 1
    have hne : p ≠ q := fun he => hfree (he ▸ hq)
    rw [List.count_append, h.once q hq, List.count_singleton, beq_false_of_ne hne]
    rfl
  · exact h.owned
  · exact h.deleted
  · exact h.defined

theorem Sound.addProperty {b : PropertyBag P} (h : b.Sound) {p : P} (hlive : p ∉ b.deleted)
    (hfree : b.ready p = true → p ∉ b.mownedProps) : (b.addProperty (some p)).1.Sound := by
  rw [PropertyBag.addProperty, touch_live hlive]
  split
  · next hready => exact h.push hlive (hfree hready)
  · exact h

theorem Sound.removeProperty {b : PropertyBag P} (h : b.Sound) (p : Option P) :
    (b.removeProperty p).1.Sound := by
  cases p with
  | none => exact h
  | some p =>
    rw [PropertyBag.removeProperty]
    split
    · split
      · next hlisted howned =>
        have hlive := h.owned_live howned
        rw [PropertyBag.delete, touch_live hlive]
        have hgone : p ∉ b.mproperties.erase p := by
          rw [← List.count_eq_zero, List.count_erase_self, h.once p howned]
        constructor
        · intro q hq hdeleted
          rcases List.mem_cons.mp hdeleted with rfl | hold
          · exact hgone hq
          · exact h.live q (List.mem_of_mem_erase hq) hold
        · intro q hq
          obtain ⟨hne, hold⟩ := (List.Nodup.mem_erase_iff h.owned).mp hq
          show (b.mproperties.erase p).count q = 1
          rw [List.count_erase_of_ne hne, h.once q hold]
        · exact h.owned.erase p
        · exact List.nodup_cons.mpr ⟨hlive, h.deleted⟩
        · exact h.defined
      · next hlisted howned =>
        constructor
        · exact fun q hq => h.live q (List.mem_of_mem_erase hq)
        · intro q hq
          have hne : q ≠ p := fun he => howned (he ▸ hq)
          show (b.mproperties.erase p).count q = 1
          rw [List.count_erase_of_ne hne, h.once q hq]
        · exact h.owned
        · exact h.deleted
        · exact h.defined
    · exact h

theorem Sound.ownProperty {b : PropertyBag P} (h : b.Sound) {p : P} (hlive : p ∉ b.deleted)
    (hfree : b.ready p = true → p ∉ b.mownedProps ∧ b.mproperties.count p ≤ 1) :
    (b.ownProperty (some p)).1.Sound := by
  rw [PropertyBag.ownProperty, touch_live hlive]
  split
  · next hready =>
    obtain ⟨hfree, hcount⟩ := hfree hready
    have hrest : (b.removeProperty (some p)).1 =
        { b with mproperties := b.mproperties.erase p } := by
      rw [PropertyBag.removeProperty, if_neg hfree]
      split
      · rfl
      · next hlisted => rw [List.erase_of_not_mem hlisted]
    have hzero : (b.mproperties.erase p).count p = 0 := by
      rw [List.count_erase_self]
      omega
    rw [hrest]
    constructor
    · intro q hq
      rcases List.mem_append.mp hq with hold | hnew
      · exact h.live q (List.mem_of_mem_erase hold)
      · rw [List.mem_singleton.mp hnew]
        exact hlive
    · intro q hq
      show (b.mproperties.erase p ++ [p]).count q = 1
      by_cases hqp : q = p
      · rw [hqp, List.count_append, hzero, List.count_singleton_self]
      · have hold : q ∈ b.mownedProps := by
          rcases List.mem_append.mp hq with hold | hnew
          · exact hold
          · exact absurd (List.mem_singleton.mp hnew) hqp
        rw [List.count_append, List.count_erase_of_ne hqp, h.once q hold, List.count_singleton,
          beq_false_of_ne (Ne.symm hqp)]
        rfl
    · apply List.nodup_append.mpr
      refine ⟨h.owned, List.nodup_singleton p, ?_⟩
      rintro q hq _ hp rfl
      exact hfree (List.mem_singleton.mp hp ▸ hq)
    · exact h.deleted
    · exact h.defined
  · exact h

/-- The owned properties are deleted one after the other. -/
theorem delete_all (ps : List P) (b : PropertyBag P) (hnodup : ps.Nodup)
    (hlive : ∀ p ∈ ps, p ∉ b.deleted) :
    ps.foldl (fun b p => b.delete p) b = { b with deleted := ps.reverse ++ b.deleted } := by
  induction ps generalizing b with
  | nil => rfl
  | cons p ps ih =>
    obtain ⟨hp, hps⟩ := List.nodup_cons.mp hnodup
    have hdelete : b.delete p = { b with deleted := p :: b.deleted } := by
      rw [delete, touch_live (hlive p List.mem_cons_self)]
    rw [List.foldl_cons, hdelete, ih _ hps]
    · rw [List.reverse_cons, List.append_assoc]
      rfl
    · intro q hq hdeleted
      rcases List.mem_cons.mp hdeleted with rfl | hold
      · exact hp hq
      · exact hlive q (List.mem_cons_of_mem _ hq) hold

theorem Sound.clear_eq {b : PropertyBag P} (h : b.Sound) : b.clear = { b with
    mproperties := [], mownedProps := [], deleted := b.mownedProps.reverse ++ b.deleted } := by
  have hall := delete_all b.mownedProps { b with mproperties := [] } h.owned fun p hp =>
    h.owned_live hp
  rw [PropertyBag.clear, hall]

theorem Sound.clear {b : PropertyBag P} (h : b.Sound) : b.clear.Sound := by
  rw [h.clear_eq]
  constructor
  · exact fun _ => nofun
  · exact fun _ => nofun
  · exact List.nodup_nil
  · apply List.nodup_append.mpr
    refine ⟨List.nodup_reverse.mpr h.owned, h.deleted, ?_⟩
    rintro p hp _ hq rfl
    exact h.owned_live (List.mem_reverse.mp hp) hq
  · exact h.defined

/-- What an addition leaves as it is. -/
theorem addProperty_frame (p : P) (b : PropertyBag P) :
    (b.addProperty (some p)).1.deleted = b.deleted ∧
      (b.addProperty (some p)).1.mownedProps = b.mownedProps := by
  rw [PropertyBag.addProperty]
  split <;> exact ⟨rfl, rfl⟩

theorem Sound.addAll {b : PropertyBag P} (h : b.Sound) (ps : List P)
    (hps : ∀ p ∈ ps, p ∉ b.deleted ∧ p ∉ b.mownedProps) :
    (ps.foldl (fun b p => (b.addProperty (some p)).1) b).Sound := by
  induction ps generalizing b with
  | nil => exact h
  | cons p ps ih =>
    obtain ⟨hlive, hfree⟩ := hps p List.mem_cons_self
    apply ih (h.addProperty hlive fun _ => hfree)
    obtain ⟨hdeleted, howned⟩ := addProperty_frame p b
    intro q hq
    rw [hdeleted, howned]
    exact hps q (List.mem_cons_of_mem _ hq)

theorem find_live (n : String) (ps : List P) {b : PropertyBag P} (h : ∀ p ∈ ps, p ∉ b.deleted) :
    (b.find n ps).1 = b ∧ ∀ p, (b.find n ps).2 = some p → p ∈ ps := by
  induction ps with
  | nil => exact ⟨rfl, fun _ => nofun⟩
  | cons p ps ih =>
    obtain ⟨hsame, hfound⟩ := ih fun q hq => h q (List.mem_cons_of_mem _ hq)
    rw [find, touch_live (h p List.mem_cons_self)]
    split
    · refine ⟨rfl, fun q hq => ?_⟩
      cases hq
      exact List.mem_cons_self
    · exact ⟨hsame, fun q hq => List.mem_cons_of_mem _ (hfound q hq)⟩

/-- A removal deletes only what is owned. -/
theorem removeProperty_frame (p : Option P) (b : PropertyBag P) {q : P} (hlive : q ∉ b.deleted)
    (hfree : q ∉ b.mownedProps) : q ∉ (b.removeProperty p).1.deleted ∧
      q ∉ (b.removeProperty p).1.mownedProps := by
  cases p with
  | none => exact ⟨hlive, hfree⟩
  | some p =>
    rw [PropertyBag.removeProperty]
    split
    · split
      · next howned =>
        refine ⟨fun hq => ?_, fun hq => hfree (List.mem_of_mem_erase hq)⟩
        rcases List.mem_cons.mp hq with rfl | hold
        · exact hfree howned
        · exact hlive hold
      · exact ⟨hlive, hfree⟩
    · exact ⟨hlive, hfree⟩

theorem Sound.mergeOne {b : PropertyBag P} (h : b.Sound) {p : P} (hlive : p ∉ b.deleted)
    (hfree : p ∉ b.mownedProps) : (b.mergeOne p).Sound ∧
      ∀ q, q ∉ b.deleted → q ∉ b.mownedProps →
        q ∉ (b.mergeOne p).deleted ∧ q ∉ (b.mergeOne p).mownedProps := by
  obtain ⟨hsame, -⟩ := find_live (b.name p) b.mproperties h.live
  rw [PropertyBag.mergeOne, touch_live hlive]
  simp only [hsame]
  constructor
  · obtain ⟨hlive', hfree'⟩ :=
      removeProperty_frame (b.find (b.name p) b.mproperties).2 b hlive hfree
    exact (h.removeProperty _).addProperty hlive' fun _ => hfree'
  · intro q hq hq'
    obtain ⟨hdeleted, howned⟩ := addProperty_frame p
      (b.removeProperty (b.find (b.name p) b.mproperties).2).1
    rw [hdeleted, howned]
    exact removeProperty_frame _ b hq hq'

theorem Sound.mergeAll {b : PropertyBag P} (h : b.Sound) (ps : List P)
    (hps : ∀ p ∈ ps, p ∉ b.deleted ∧ p ∉ b.mownedProps) :
    (ps.foldl PropertyBag.mergeOne b).Sound := by
  induction ps generalizing b with
  | nil => exact h
  | cons p ps ih =>
    obtain ⟨hlive, hfree⟩ := hps p List.mem_cons_self
    obtain ⟨hsound, hrest⟩ := h.mergeOne hlive hfree
    apply ih hsound
    intro q hq
    obtain ⟨hl, hf⟩ := hps q (List.mem_cons_of_mem _ hq)
    exact hrest q hl hf

/-- The type of a bag says nothing about its properties. -/
theorem Sound.setType {b : PropertyBag P} (h : b.Sound) (type : String) :
    { b with type := type }.Sound :=
  ⟨h.live, h.once, h.owned, h.deleted, h.defined⟩

theorem Sound.step {b : PropertyBag P} (h : b.Sound) {a : Action P} (hok : b.careful a) :
    (b.step a).Sound := by
  cases a with
  | addProperty p =>
    cases p with
    | none => exact h
    | some p =>
      obtain ⟨hlive, hfree⟩ := hok p rfl
      exact h.addProperty hlive hfree
  | ownProperty p =>
    cases p with
    | none => exact h
    | some p =>
      obtain ⟨hlive, hfree⟩ := hok p rfl
      exact h.ownProperty hlive hfree
  | removeProperty p => exact h.removeProperty p
  | clear => exact h.clear
  | assign orig type =>
    apply Sound.setType
    apply h.clear.addAll
    intro p hp
    obtain ⟨hlive, hfree⟩ := hok p hp
    rw [h.clear_eq]
    refine ⟨fun hdeleted => ?_, List.not_mem_nil⟩
    rcases List.mem_append.mp hdeleted with howned | hold
    · exact hfree (List.mem_reverse.mp howned)
    · exact hlive hold
  | assignSelf => exact h
  | merge source type => exact (h.mergeAll source hok).setType type
  | mergeSelf =>
    have hok : b.mproperties = [] := hok
    rw [PropertyBag.step, if_pos hok]
    exact h
  | alter name ready => exact ⟨h.live, h.once, h.owned, h.deleted, h.defined⟩

instance (b : PropertyBag P) (a : Action P) : Decidable (b.careful a) :=
  match a with
  | .addProperty none | .ownProperty none => .isTrue nofun
  | .addProperty (some p) =>
    decidable_of_iff (p ∉ b.deleted ∧ (b.ready p = true → p ∉ b.mownedProps))
      ⟨fun h _ hq => Option.some.inj hq ▸ h, fun h => h p rfl⟩
  | .ownProperty (some p) =>
    decidable_of_iff (p ∉ b.deleted ∧
        (b.ready p = true → p ∉ b.mownedProps ∧ b.mproperties.count p ≤ 1))
      ⟨fun h _ hq => Option.some.inj hq ▸ h, fun h => h p rfl⟩
  | .assign ps _ | .merge ps _ =>
    inferInstanceAs (Decidable (∀ q ∈ ps, q ∉ b.deleted ∧ q ∉ b.mownedProps))
  | .mergeSelf => inferInstanceAs (Decidable (b.mproperties = []))
  | .removeProperty _ | .clear | .assignSelf | .alter .. => .isTrue trivial

end PropertyBag
end OrocosRtt.Property
