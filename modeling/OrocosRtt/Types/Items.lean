import OrocosRtt.Library.Run
import Mathlib.Data.Int.Notation
import Mathlib.Logic.Function.Basic

/-! The items of sequences and fixed-size arrays as scripts read and assign them, with the static
"not available" objects that stand for an item out of range. -/
namespace OrocosRtt.Types.Items

/-- How `getMember` gets at the items of a variable. -/
inductive Access
  /-- `get_container_item`, which returns a reference. -/
  | sequence
  /-- `get_container_item_copy`, and the overloads for `std::vector<bool>`: the items of such a
  variable cannot be assigned. -/
  | copied
  /-- `ArrayPartDataSource` -/
  | array
  deriving DecidableEq

/-- Variables, with the access to their items and the type of them, and the default value of each
type. -/
structure Signature (ι τ V : Type) where
  access : ι → Access
  type : ι → τ
  default : τ → V

inductive Op (ι V : Type)
  | read (x : ι) (index : BitVec 32)
  | assign (x : ι) (index : BitVec 32) (value : V)

structure State (ι τ V : Type) where
  items : ι → List V
  /-- `NA<T&>::Gna` -/
  reference : τ → V
  /-- `NA<T>::Gna`, of which only copies are handed out. -/
  value : τ → V
  /-- What was executed so far, newest first. -/
  history : List (Op ι V)

variable {ι τ V : Type} [DecidableEq ι] [DecidableEq τ]

def create (g : Signature ι τ V) (items : ι → List V) : State ι τ V where
  items := items
  reference := g.default
  value := g.default
  history := []

/-- Conversion of a size to `int`. -/
def toInt (n : ℕ) : ℤ := (n : ℤ).bmod 4294967296

/-- The test of the index: `index >= (int) cont.size() || index < 0`, or `index >= mmax` with
unsigned integers. -/
def available (g : Signature ι τ V) (s : State ι τ V) (x : ι) (index : BitVec 32) : Bool :=
  match g.access x with
  | .sequence | .copied => !(index.toInt ≥ toInt (s.items x).length || index.toInt < 0)
  | .array => !(index.toNat ≥ (s.items x).length % 4294967296)

/-- The item, or what stands for it. -/
def get (g : Signature ι τ V) (s : State ι τ V) (x : ι) (index : BitVec 32) : V :=
  if available g s x index then (s.items x)[index.toNat]?.getD (g.default (g.type x))
  else
    match g.access x with
    | .sequence => s.reference (g.type x)
    | .copied | .array => s.value (g.type x)

/-- A sequence gets the reference first, and assigns to what it refers to. -/
def set (g : Signature ι τ V) (s : State ι τ V) (x : ι) (index : BitVec 32) (v : V) :
    State ι τ V :=
  match g.access x with
  | .sequence =>
    if available g s x index then
      { s with items := Function.update s.items x ((s.items x).set index.toNat v) }
    else { s with reference := Function.update s.reference (g.type x) v }
  | .array =>
    if available g s x index then
      { s with items := Function.update s.items x ((s.items x).set index.toNat v) }
    else s
  | .copied => s

def step (g : Signature ι τ V) (s : State ι τ V) (op : Op ι V) : State ι τ V :=
  match op with
  | .read .. => { s with history := op :: s.history }
  | .assign x index v => { set g s x index v with history := op :: s.history }

/-! ### What is documented -/

def InRange (items : ι → List V) (x : ι) (index : BitVec 32) : Prop :=
  0 ≤ index.toInt ∧ index.toInt < (items x).length

instance (items : ι → List V) (x : ι) (index : BitVec 32) : Decidable (InRange items x index) :=
  inferInstanceAs (Decidable (_ ∧ _))

/-- The value assigned last to an item, or that which it had at first. -/
def lastAssigned (g : Signature ι τ V) (items : ι → List V) (x : ι) (index : BitVec 32) :
    List (Op ι V) → V
  | [] => (items x)[index.toNat]?.getD (g.default (g.type x))
  | .read .. :: history => lastAssigned g items x index history
  | .assign y j v :: history =>
    if y = x ∧ j = index ∧ g.access x ≠ .copied then v else lastAssigned g items x index history

/-- What a read of an item has to yield, when the variables were `items` at first. -/
def expected (g : Signature ι τ V) (items : ι → List V) (history : List (Op ι V)) (x : ι)
    (index : BitVec 32) : V :=
  if InRange items x index then lastAssigned g items x index history
  else g.default (g.type x)

def Correct (g : Signature ι τ V) (items : ι → List V) (s : State ι τ V) : Op ι V → Prop
  | .read x index => get g s x index = expected g items s.history x index
  | .assign .. => True

/-- The value of the last assignment to an item out of range in a sequence of items of type `t`. -/
def lastLost (g : Signature ι τ V) (items : ι → List V) (t : τ) : List (Op ι V) → V
  | [] => g.default t
  | .read .. :: history => lastLost g items t history
  | .assign x index v :: history =>
    if g.access x = .sequence ∧ g.type x = t ∧ ¬ InRange items x index then v
    else lastLost g items t history

/-- An item out of range of a sequence is read only while no other value than the default one was
assigned last to an item out of range of a sequence of that type. -/
def Clean (g : Signature ι τ V) (items : ι → List V) (s : State ι τ V) : Op ι V → Prop
  | .read x index => g.access x = .sequence → ¬ InRange items x index →
      lastLost g items (g.type x) s.history = g.default (g.type x)
  | .assign .. => True

instance decidableClean [DecidableEq V] (g : Signature ι τ V) (items : ι → List V)
    (s : State ι τ V) : ∀ op, Decidable (Clean g items s op)
  | .read .. => inferInstanceAs (Decidable (_ → _ → _ = _))
  | .assign .. => .isTrue trivial

/-! ### The invariant -/

structure Inv (g : Signature ι τ V) (items : ι → List V) (s : State ι τ V) : Prop where
  length : ∀ x, (s.items x).length = (items x).length
  item : ∀ x index, InRange items x index →
    (s.items x)[index.toNat]?.getD (g.default (g.type x)) = lastAssigned g items x index s.history
  reference : ∀ t, s.reference t = lastLost g items t s.history
  value : s.value = g.default

theorem create_inv (g : Signature ι τ V) (items : ι → List V) : Inv g items (create g items) where
  length _ := rfl
  item _ _ _ := rfl
  reference _ := rfl
  value := rfl

omit [DecidableEq ι] [DecidableEq τ] in
theorem inRange_iff {items : ι → List V} {x : ι} {index : BitVec 32}
    (h : (items x).length < 2147483648) :
    InRange items x index ↔ index.toNat < (items x).length := by
  have hlt := index.isLt
  unfold InRange
  rw [BitVec.toInt_eq_toNat_cond]
  split <;> omega

/-- The tests of the index agree with the documentation. -/
theorem available_iff {g : Signature ι τ V} {items : ι → List V} {s : State ι τ V}
    (hs : Inv g items s) {x : ι} (hfit : (items x).length < 2147483648) (index : BitVec 32) :
    available g s x index = true ↔ InRange items x index := by
  have hint : toInt (items x).length = (items x).length :=
    Int.bmod_eq_of_le_mul_two (by omega) (by omega)
  have hnat : (items x).length % 4294967296 = (items x).length := Nat.mod_eq_of_lt (by omega)
  unfold available
  rw [hs.length x, hint, hnat]
  cases g.access x with
  | sequence | copied =>
    unfold InRange
    simp only [Bool.not_or, Bool.and_eq_true, Bool.not_eq_true', decide_eq_false_iff_not, ge_iff_le]
    omega
  | array =>
    rw [inRange_iff hfit]
    simp only [Bool.not_eq_true', decide_eq_false_iff_not, ge_iff_le]
    omega

theorem set_item {items : ι → List V} {g : Signature ι τ V} {s : State ι τ V}
    (hs : Inv g items s) {x : ι} {index : BitVec 32} (v : V) (hx : g.access x ≠ .copied)
    (hr : InRange items x index) (hfit : ∀ x, (items x).length < 2147483648) :
    Inv g items
      { s with
        items := Function.update s.items x ((s.items x).set index.toNat v)
        history := .assign x index v :: s.history } where
  length y := by
    by_cases hy : y = x
    · subst hy
      simp [hs.length]
    · simp [Function.update_of_ne hy, hs.length]
  item y j hj := by
    dsimp only
    rw [lastAssigned]
    by_cases hy : y = x
    · subst hy
      have hlt := (inRange_iff (hfit y)).mp hr
      rw [Function.update_self, List.getElem?_set]
      by_cases hji : j = index
      · subst hji
        rw [if_pos rfl, hs.length, if_pos hlt, if_pos ⟨rfl, rfl, hx⟩]
        rfl
      · have hne : index.toNat ≠ j.toNat := fun heq => hji (BitVec.eq_of_toNat_eq heq.symm)
        rw [if_neg hne, if_neg fun h => hji h.2.1.symm]
        exact hs.item y j hj
    · rw [Function.update_of_ne hy, if_neg fun h => hy h.1.symm]
      exact hs.item y j hj
  reference t := by
    dsimp only
    rw [lastLost, if_neg fun h => h.2.2 hr]
    exact hs.reference t
  value := hs.value

/-- An assignment out of range leaves the items as they are. -/
theorem set_lost {items : ι → List V} {g : Signature ι τ V} {s : State ι τ V}
    (hs : Inv g items s) {x : ι} {index : BitVec 32} (v : V) {reference : τ → V}
    (hx : ∀ j, InRange items x j → g.access x ≠ .copied → j ≠ index)
    (href : ∀ t, reference t = lastLost g items t (.assign x index v :: s.history)) :
    Inv g items { s with reference := reference, history := .assign x index v :: s.history } where
  length := hs.length
  item y j hj := by
    dsimp only
    rw [lastAssigned]
    have hne : ¬ (x = y ∧ index = j ∧ g.access y ≠ .copied) := by
      rintro ⟨rfl, rfl, hc⟩
      exact hx index hj hc rfl
    rw [if_neg hne]
    exact hs.item y j hj
  reference := href
  value := hs.value

theorem step_inv {items : ι → List V} {g : Signature ι τ V}
    (hfit : ∀ x, (items x).length < 2147483648) (s : State ι τ V) (op : Op ι V)
    (hs : Inv g items s) : Inv g items (step g s op) := by
  cases op with
  | read x index => exact ⟨hs.length, hs.item, hs.reference, hs.value⟩
  | assign x index v =>
    have hav := available_iff hs (hfit x) index
    have hkeep : g.access x ≠ .sequence →
        ∀ t, s.reference t = lastLost g items t (.assign x index v :: s.history) := by
      intro hx t
      rw [lastLost, if_neg fun h => hx h.1]
      exact hs.reference t
    show Inv g items { set g s x index v with history := .assign x index v :: s.history }
    unfold set
    cases hx : g.access x with
    | copied => exact set_lost hs v (fun j _ hc => absurd hx hc) (hkeep (by rw [hx]; nofun))
    | array =>
      dsimp only
      by_cases hyes : available g s x index = true
      · rw [if_pos hyes]
        exact set_item hs v (by rw [hx]; nofun) (hav.mp hyes) hfit
      · rw [if_neg hyes]
        refine set_lost hs v (fun j hj _ => ?_) (hkeep (by rw [hx]; nofun))
        rintro rfl
        exact hyes (hav.mpr hj)
    | sequence =>
      dsimp only
      by_cases hyes : available g s x index = true
      · rw [if_pos hyes]
        exact set_item hs v (by rw [hx]; nofun) (hav.mp hyes) hfit
      · rw [if_neg hyes]
        have hout : ¬ InRange items x index := fun hr => hyes (hav.mpr hr)
        refine set_lost hs v (fun j hj _ => ?_) fun t => ?_
        · rintro rfl
          exact hout hj
        · rw [lastLost]
          dsimp only
          by_cases ht : t = g.type x
          · rw [ht, Function.update_self, if_pos ⟨hx, rfl, hout⟩]
          · rw [Function.update_of_ne ht, if_neg fun h => ht h.2.1.symm]
            exact hs.reference t

/-- What a read yields. -/
theorem get_eq {items : ι → List V} {g : Signature ι τ V} {s : State ι τ V} (hs : Inv g items s)
    {x : ι} (hfit : (items x).length < 2147483648) (index : BitVec 32) :
    get g s x index =
      if g.access x = .sequence ∧ ¬ InRange items x index then lastLost g items (g.type x) s.history
      else expected g items s.history x index := by
  have hav := available_iff hs hfit index
  unfold get expected
  by_cases hr : InRange items x index
  · rw [if_pos (hav.mpr hr), if_neg fun h => h.2 hr, if_pos hr]
    exact hs.item x index hr
  · have hno : ¬ available g s x index = true := fun h => hr (hav.mp h)
    rw [if_neg hno, if_neg hr, hs.value]
    cases hx : g.access x with
    | sequence => simp [hr, hs.reference]
    | copied => simp
    | array => simp

theorem correct_iff {items : ι → List V} {g : Signature ι τ V}
    (hfit : ∀ x, (items x).length < 2147483648) (s : State ι τ V) (op : Op ι V)
    (hs : Inv g items s) : Correct g items s op ↔ Clean g items s op := by
  cases op with
  | assign x index v => exact Iff.rfl
  | read x index =>
    show get g s x index = expected g items s.history x index ↔
      (g.access x = .sequence → ¬ InRange items x index →
        lastLost g items (g.type x) s.history = g.default (g.type x))
    rw [get_eq hs (hfit x)]
    split
    · rename_i h
      rw [expected, if_neg h.2]
      exact ⟨fun heq _ _ => heq, fun heq => heq h.1 h.2⟩
    · rename_i h
      exact ⟨fun _ hx hr => absurd ⟨hx, hr⟩ h, fun _ => rfl⟩

/-- When no variable has more items than an index can count, every read of a run is as documented
if and only if the run is clean. -/
theorem reads_documented (g : Signature ι τ V) (items : ι → List V)
    (hfit : ∀ x, (items x).length < 2147483648) (ops : List (Op ι V)) :
    Library.Run.Along (step g) (Correct g items) (create g items) ops ↔
      Library.Run.Along (step g) (Clean g items) (create g items) ops :=
  Library.Run.along_congr (step_inv hfit) (correct_iff hfit) (create_inv g items)

/-- A sequence of three items. -/
def three : Signature Unit Unit ℕ where
  access _ := .sequence
  type _ := ()
  default _ := 0

theorem reads_documented_three :
    Library.Run.Along (step three) (Correct three fun _ => [1, 2, 3]) (create three fun _ => [1, 2, 3])
      [.read () 3, .assign () 1 7, .read () 1, .assign () 3 0, .read () 3] :=
  (reads_documented three (fun _ => [1, 2, 3]) (fun _ => by decide) _).mpr (by decide)

theorem lost_item_read :
    ¬ Library.Run.Along (step three) (Correct three fun _ => [1, 2, 3])
      (create three fun _ => [1, 2, 3]) [.assign () 3 7, .read () 4] := by
  rintro ⟨-, h, -⟩
  have hseven : 7 = 0 := h
  cases hseven

end OrocosRtt.Types.Items
