import Mathlib.Data.List.Induction
import OrocosRtt.DataSource.Storage

/-! Paths into a script variable: `.` binds a C++ reference when the script is parsed, `[]` of
a sequence looks for its item at each access. -/
namespace OrocosRtt.DataSource

/-- The variable and all else that an index expression may read. -/
structure State (E : Type) where
  value : Value
  env : E

/-- An index expression. -/
abbrev Index (E : Type) := State E → ℤ

/-- A selection as the script writes it; the type of what it is applied to tells items of a
fixed-size array from those of a sequence. -/
inductive Selection (E : Type) where
  | member (name : String)
  | arrayItem (size : ℕ) (index : Index E)
  | sequenceItem (index : Index E)

/-- The data sources of a path. A reference is `none` where it refers to the `NA` object,
which is part of no variable. -/
inductive PathSource (E : Type) where
  /-- `ValueDataSource`: the variable itself. -/
  | value
  /-- `PartDataSource` -/
  | part (mref : Option Location)
  /-- `ArrayPartDataSource`; `mref` is the array whose first element it refers to. -/
  | arrayPart (mref : Option Location) (mindex : Index E) (mmax : ℕ)
  /-- `FusedFunctorDataSource` of `get_container_item` -/
  | containerItem (item : PathSource E) (index : Index E)

variable {E : Type}

/-- `get_container_item`: a reference to an item of `cont`. -/
def getContainerItem (cont : Value) (index : ℤ) : Option Step :=
  match cont with
  | .sequence b xs => if index ≥ xs.length ∨ index < 0 then none else some (.cell b index.toNat)
  | _ => none

namespace PathSource

/-- `set()`: the reference that an access goes through. -/
def set (s : State E) : PathSource E → Option Location
  | value => some []
  | part mref => mref
  | arrayPart mref mindex mmax =>
    -- a negative index is a large one when it is unsigned
    if mindex s < 0 ∨ mindex s ≥ mmax then none else mref.map (· ++ [.item (mindex s).toNat])
  | containerItem item index =>
    (item.set s).bind fun l => (Location.get l s.value).bind fun c =>
      (getContainerItem c (index s)).map fun t => l ++ [t]

/-- What `get()` reads of the variable. -/
def get (ds : PathSource E) (s : State E) : Option Value :=
  (ds.set s).bind fun l => Location.get l s.value

/-- The variable after `set(x)`. -/
def assign (ds : PathSource E) (x : Value) (s : State E) : Value :=
  match ds.set s with
  | some l => Location.set x l s.value
  | none => s.value

/-- `getMember` of the type of `item`, when the state is `s`. -/
def getMember (s : State E) (item : PathSource E) : Selection E → PathSource E
  | .member name => part ((item.set s).map (· ++ [.member name]))
  | .arrayItem size index => arrayPart (item.set s) index size
  | .sequenceItem index => containerItem item index

/-- The data source of a path that is parsed when the state is `s`. -/
def parse (s : State E) (path : List (Selection E)) : PathSource E :=
  path.foldl (getMember s) value

end PathSource

/-- The step to the part of `v` that a selection names. -/
def Selection.step (s : State E) : Selection E → Value → Option Step
  | .member name, .struct ms => (findMember name ms).map fun _ => .member name
  | .arrayItem _ index, .array xs =>
    if 0 ≤ index s ∧ index s < xs.length then some (.item (index s).toNat) else none
  | .sequenceItem index, .sequence b xs =>
    if 0 ≤ index s ∧ index s < xs.length then some (.cell b (index s).toNat) else none
  | _, _ => none

/-- The component of `v` that is selected by the values the indexes have in `s`. -/
def select (s : State E) : List (Selection E) → Value → Option Location
  | [], _ => some []
  | sel :: path, v =>
    (sel.step s v).bind fun t => ((t.get v).bind (select s path)).map (t :: ·)

/-- The path is one for the type of the variable, which has this value. -/
def Fits : List (Selection E) → Value → Prop
  | [], _ => True
  | .member name :: path, v =>
    ∃ ms, v = .struct ms ∧ ∃ c, findMember name ms = some c ∧ Fits path c
  | .arrayItem size _ :: path, v =>
    ∃ xs, v = .array xs ∧ xs.length = size ∧ ∀ x ∈ xs, Fits path x
  | .sequenceItem _ :: path, v => ∃ b xs, v = .sequence b xs ∧ ∀ x ∈ xs, Fits path x

/-- Members and array items refer to what the path before them was when it was parsed. -/
def Selection.binds : Selection E → Bool
  | .member _ => true
  | .arrayItem _ _ => true
  | .sequenceItem _ => false

/-- The path before its last selection that binds. -/
def boundPrefix : List (Selection E) → List (Selection E)
  | [] => []
  | sel :: path => if path.any Selection.binds then sel :: boundPrefix path else []

theorem boundPrefix_append (path : List (Selection E)) (sel : Selection E) :
    boundPrefix (path ++ [sel]) = if sel.binds then path else boundPrefix path := by
  induction path with
  | nil => cases h : sel.binds <;> simp [boundPrefix]
  | cons x path ih =>
    rw [List.cons_append]
    unfold boundPrefix
    rw [ih]
    cases h : sel.binds <;> simp [h]

theorem boundPrefix_length_le (path : List (Selection E)) :
    (boundPrefix path).length ≤ path.length := by
  induction path with
  | nil => exact Nat.le_refl 0
  | cons x path ih =>
    unfold boundPrefix
    split
    · simpa using ih
    · simp

theorem Selection.step_get {s : State E} {sel : Selection E} {v : Value} {t : Step}
    (h : sel.step s v = some t) : ∃ c, t.get v = some c := by
  unfold Selection.step at h
  split at h
  · next name ms =>
    obtain ⟨c, hc, rfl⟩ := Option.map_eq_some_iff.mp h
    exact ⟨c, hc⟩
  · next index xs =>
    split at h
    · next hi =>
      cases h
      have hlt : (index s).toNat < xs.length := by omega
      exact ⟨xs[(index s).toNat], by simp [Step.get, hlt]⟩
    · cases h
  · next index b xs =>
    split at h
    · next hi =>
      cases h
      have hlt : (index s).toNat < xs.length := by omega
      exact ⟨xs[(index s).toNat], by simp [Step.get, hlt]⟩
    · cases h
  · cases h

/-- One more selection. -/
theorem select_append (s : State E) (path : List (Selection E)) (sel : Selection E) :
    ∀ v, select s (path ++ [sel]) v = (select s path v).bind fun l =>
      (Location.get l v).bind fun c => (sel.step s c).map fun t => l ++ [t] := by
  induction path with
  | nil =>
    intro v
    simp only [List.nil_append, select, Location.get, Option.bind_some]
    cases h : sel.step s v with
    | none => rfl
    | some t =>
      obtain ⟨c, hc⟩ := Selection.step_get h
      simp [hc]
  | cons x path ih =>
    intro v
    simp only [List.cons_append, select]
    cases x.step s v with
    | none => rfl
    | some t =>
      cases hg : t.get v with
      | none => simp [hg]
      | some w =>
        simp only [hg, ih w, Option.bind_some]
        cases select s path w with
        | none => rfl
        | some l =>
          simp only [Location.get, hg, Option.bind_some, Option.map_some]
          cases Location.get l w with
          | none => rfl
          | some c => simp [Function.comp_def]

theorem select_length {s : State E} {path : List (Selection E)} :
    ∀ {v : Value} {l : Location}, select s path v = some l → l.length = path.length := by
  induction path with
  | nil => intro v l h; cases h; rfl
  | cons x path ih =>
    intro v l h
    obtain ⟨t, -, ht⟩ := Option.bind_eq_some_iff.mp h
    obtain ⟨l', hl', rfl⟩ := Option.map_eq_some_iff.mp ht
    obtain ⟨w, -, hw⟩ := Option.bind_eq_some_iff.mp hl'
    simp [ih hw]

/-- What a path selects has the type that the rest of the path is for. -/
theorem Fits.get {s : State E} {path rest : List (Selection E)} :
    ∀ {v : Value} {l : Location}, Fits (path ++ rest) v → select s path v = some l →
      ∃ c, Location.get l v = some c ∧ Fits rest c := by
  induction path with
  | nil => intro v l hf h; cases h; exact ⟨v, rfl, hf⟩
  | cons x path ih =>
    intro v l hf h
    obtain ⟨t, ht, htail⟩ := Option.bind_eq_some_iff.mp h
    obtain ⟨l', hl', rfl⟩ := Option.map_eq_some_iff.mp htail
    obtain ⟨w, hw, hselect⟩ := Option.bind_eq_some_iff.mp hl'
    have hrest : Fits (path ++ rest) w := by
      cases x with
      | member name =>
        obtain ⟨ms, rfl, c, hc, hf⟩ := hf
        obtain ⟨c', hc', rfl⟩ := Option.map_eq_some_iff.mp ht
        have : some w = some c := hw.symm.trans hc
        rw [Option.some.inj this]
        exact hf
      | arrayItem size index =>
        obtain ⟨xs, rfl, -, hf⟩ := hf
        simp only [Selection.step, Option.ite_none_right_eq_some] at ht
        obtain ⟨-, ht⟩ := ht
        cases ht
        exact hf w (List.mem_of_getElem? hw)
      | sequenceItem index =>
        obtain ⟨b, xs, rfl, hf⟩ := hf
        simp only [Selection.step, Option.ite_none_right_eq_some] at ht
        obtain ⟨-, ht⟩ := ht
        cases ht
        simp only [Step.get, if_true] at hw
        exact hf w (List.mem_of_getElem? hw)
    obtain ⟨c, hc, hfit⟩ := ih hrest hselect
    exact ⟨c, by unfold Location.get; rw [hw]; exact hc, hfit⟩

theorem getContainerItem_eq_step (s : State E) (index : Index E) (c : Value) :
    getContainerItem c (index s) = (Selection.sequenceItem index).step s c := by
  cases c with
  | sequence b xs =>
    unfold getContainerItem Selection.step
    dsimp only
    by_cases h : index s ≥ xs.length ∨ index s < 0
    · rw [if_pos h, if_neg (by omega)]
    · rw [if_neg h, if_pos (by omega)]
  | _ => rfl

namespace PathSource

variable {s₀ s : State E} {path : List (Selection E)} {sel : Selection E} {ds : PathSource E}

theorem parse_append (s₀ : State E) (path : List (Selection E)) (sel : Selection E) :
    parse s₀ (path ++ [sel]) = getMember s₀ (parse s₀ path) sel := by
  simp [parse]

/-- A selection that binds goes to the selected component if what it is bound to has been. -/
theorem getMember_set_bound (hb : sel.binds = true) (hf : Fits (path ++ [sel]) s.value)
    (h : ds.set s₀ = select s path s.value) :
    (getMember s₀ ds sel).set s = select s (path ++ [sel]) s.value := by
  rw [select_append]
  cases sel with
  | sequenceItem index => cases hb
  | member name =>
    unfold getMember set
    rw [h]
    cases hl : select s path s.value with
    | none => rfl
    | some l =>
      obtain ⟨c, hc, ms, rfl, d, hd, -⟩ := hf.get hl
      simp [hc, Selection.step, hd]
  | arrayItem size index =>
    unfold getMember set
    rw [h]
    cases hl : select s path s.value with
    | none => simp
    | some l =>
      obtain ⟨c, hc, xs, rfl, rfl, -⟩ := hf.get hl
      simp only [Option.bind_some, hc, Selection.step, Option.map_some]
      by_cases hi : index s < 0 ∨ index s ≥ xs.length
      · rw [if_pos hi, if_neg (by omega)]
        rfl
      · rw [if_neg hi, if_pos (by omega)]
        rfl

/-- The item of a sequence is looked for where the sequence is now. -/
theorem getMember_set_lazy (hb : sel.binds = false) (h : ds.set s = select s path s.value) :
    (getMember s₀ ds sel).set s = select s (path ++ [sel]) s.value := by
  rw [select_append]
  cases sel with
  | member name => cases hb
  | arrayItem size index => cases hb
  | sequenceItem index =>
    unfold getMember
    rw [set, h]
    simp only [getContainerItem_eq_step]

theorem Fits.left {rest : List (Selection E)} :
    ∀ {path : List (Selection E)} {v : Value}, Fits (path ++ rest) v → Fits path v := by
  intro path
  induction path with
  | nil => intro v _; exact trivial
  | cons x path ih =>
    intro v h
    cases x with
    | member name =>
      obtain ⟨ms, rfl, c, hc, h⟩ := h
      exact ⟨ms, rfl, c, hc, ih h⟩
    | arrayItem size index =>
      obtain ⟨xs, rfl, hs, h⟩ := h
      exact ⟨xs, rfl, hs, fun x hx => ih (h x hx)⟩
    | sequenceItem index =>
      obtain ⟨b, xs, rfl, h⟩ := h
      exact ⟨b, xs, rfl, fun x hx => ih (h x hx)⟩

/-- While nothing changes, a path goes to the component that it selects. -/
theorem set_parse_self (h : Fits path s.value) :
    (parse s path).set s = select s path s.value := by
  induction path using List.reverseRecOn with
  | nil => rfl
  | append_singleton path sel ih =>
    rw [parse_append]
    have hpath := ih (Fits.left h)
    cases hb : sel.binds with
    | true => exact getMember_set_bound hb h hpath
    | false => exact getMember_set_lazy hb hpath

theorem set_parse (h₀ : Fits path s₀.value) (h : Fits path s.value)
    (hbound : select s₀ (boundPrefix path) s₀.value = select s (boundPrefix path) s.value) :
    (parse s₀ path).set s = select s path s.value := by
  induction path using List.reverseRecOn with
  | nil => rfl
  | append_singleton path sel ih =>
    rw [boundPrefix_append] at hbound
    rw [parse_append]
    cases hb : sel.binds with
    | true =>
      rw [hb, if_pos rfl] at hbound
      apply getMember_set_bound hb h
      rw [set_parse_self (Fits.left h₀), hbound]
    | false =>
      rw [hb, if_neg (by simp)] at hbound
      exact getMember_set_lazy hb (ih (Fits.left h₀) (Fits.left h) hbound)

/-- An access goes through what the path was bound to when it was parsed. -/
theorem set_parse_bound (h₀ : Fits path s₀.value) {l : Location}
    (hl : (parse s₀ path).set s = some l) : l.length = path.length ∧
      select s₀ (boundPrefix path) s₀.value = some (l.take (boundPrefix path).length) := by
  induction path using List.reverseRecOn generalizing l with
  | nil => cases hl; exact ⟨rfl, rfl⟩
  | append_singleton path sel ih =>
    rw [parse_append] at hl
    rw [boundPrefix_append]
    have hself := set_parse_self (Fits.left h₀)
    cases sel with
    | member name =>
      unfold getMember set at hl
      obtain ⟨l', hl', rfl⟩ := Option.map_eq_some_iff.mp hl
      rw [hself] at hl'
      have hlen := select_length hl'
      simp only [Selection.binds, if_true]
      rw [hl', ← hlen]
      simp [hlen]
    | arrayItem size index =>
      unfold getMember set at hl
      split at hl
      · cases hl
      · obtain ⟨l', hl', rfl⟩ := Option.map_eq_some_iff.mp hl
        rw [hself] at hl'
        have hlen := select_length hl'
        simp only [Selection.binds, if_true]
        rw [hl', ← hlen]
        simp [hlen]
    | sequenceItem index =>
      unfold getMember set at hl
      obtain ⟨l', hl', hl⟩ := Option.bind_eq_some_iff.mp hl
      obtain ⟨c, -, hl⟩ := Option.bind_eq_some_iff.mp hl
      obtain ⟨t, -, rfl⟩ := Option.map_eq_some_iff.mp hl
      obtain ⟨hlen, hbound⟩ := ih (Fits.left h₀) hl'
      have hle := boundPrefix_length_le path
      rw [if_neg (by simp [Selection.binds]), List.take_append_of_le_length (by omega)]
      exact ⟨by simp [hlen], hbound⟩

end PathSource

theorem select_boundPrefix {s : State E} {path : List (Selection E)} {v : Value} {l : Location}
    (h : select s path v = some l) :
    select s (boundPrefix path) v = some (l.take (boundPrefix path).length) := by
  induction path using List.reverseRecOn generalizing l with
  | nil => cases h; rfl
  | append_singleton path sel ih =>
    rw [select_append] at h
    obtain ⟨l', hl', h⟩ := Option.bind_eq_some_iff.mp h
    obtain ⟨c, -, h⟩ := Option.bind_eq_some_iff.mp h
    obtain ⟨t, -, rfl⟩ := Option.map_eq_some_iff.mp h
    have hlen := select_length hl'
    rw [boundPrefix_append]
    cases sel.binds with
    | true => simp [hl', ← hlen]
    | false =>
      have hle := boundPrefix_length_le path
      rw [if_neg (by simp), List.take_append_of_le_length (by omega)]
      exact ih hl'

theorem exists_ne (c : Value) : ∃ x : Value, x ≠ c := by
  by_cases h : c = .primitive 0
  · exact ⟨.primitive 1, by rw [h]; simp⟩
  · exact ⟨.primitive 0, fun hc => h hc.symm⟩

namespace PathSource

/-- A read yields and an assignment changes the selected component, and nothing else, exactly
when the path before its last member or array item selects the same as when it was parsed.
Where an index is out of range, an assignment changes nothing. -/
theorem access_iff (path : List (Selection E)) (s₀ s : State E) (h₀ : Fits path s₀.value)
    (h : Fits path s.value) :
    (∀ l, select s path s.value = some l →
      (((parse s₀ path).get s = Location.get l s.value ∧
          ∀ x, (parse s₀ path).assign x s = Location.set x l s.value) ↔
        select s₀ (boundPrefix path) s₀.value = select s (boundPrefix path) s.value)) ∧
      (select s path s.value = none →
        select s₀ (boundPrefix path) s₀.value = select s (boundPrefix path) s.value →
          ∀ x, (parse s₀ path).assign x s = s.value) := by
  constructor
  · intro l hl
    constructor
    · rintro ⟨-, hset⟩
      have hfit : Fits (path ++ []) s.value := by rwa [List.append_nil]
      obtain ⟨c, hc, -⟩ := hfit.get hl
      obtain ⟨x, hx⟩ := exists_ne c
      have hwritten : Location.get l ((parse s₀ path).assign x s) = some x := by
        rw [hset x]
        exact Location.get_set_self hc
      -- an access to another place would leave the component as it was
      have hsame : (parse s₀ path).set s = some l := by
        unfold assign at hwritten
        cases hp : (parse s₀ path).set s with
        | none =>
          rw [hp] at hwritten
          exact absurd (Option.some.inj (hwritten.symm.trans hc)) hx
        | some l' =>
          rw [hp] at hwritten
          by_cases hll : l = l'
          · rw [hll]
          · have hlen : l.length = l'.length := by
              rw [select_length hl, (set_parse_bound h₀ hp).1]
            have hkept : Location.get l s.value = some x := by
              rw [← Location.get_set_ne hlen hll]
              exact hwritten
            exact absurd (Option.some.inj (hkept.symm.trans hc)) hx
      rw [(set_parse_bound h₀ hsame).2, select_boundPrefix hl]
    · intro hbound
      have hset := (set_parse h₀ h hbound).trans hl
      unfold get assign
      rw [hset]
      exact ⟨rfl, fun x => rfl⟩
  · intro hnone hbound x
    unfold assign
    rw [set_parse h₀ h hbound, hnone]

/-- An item that the loop variable selects. -/
def loopItem : Selection ℤ := .sequenceItem State.env

/-- `line.points[i]` goes to the item that `i` selects now. -/
theorem access_iff_loop :
    let points (i : ℤ) : State ℤ :=
      ⟨.struct [("points", .sequence 0 [.primitive 3, .primitive 4])], i⟩
    let path := [.member "points", loopItem]
    (parse (points 0) path).get (points 1) =
        Location.get [.member "points", .cell 0 1] (points 1).value ∧
      ∀ x, (parse (points 0) path).assign x (points 1) =
        Location.set x [.member "points", .cell 0 1] (points 1).value := by
  intro points path
  have hfit : ∀ i, Fits path (points i).value := fun i =>
    ⟨_, rfl, _, rfl, 0, _, rfl, fun _ _ => trivial⟩
  exact ((access_iff path (points 0) (points 1) (hfit 0) (hfit 1)).1 _ rfl).mpr rfl

/-- `points[i].x` stays with the item that `i` selected when it was parsed, and after a
resize, which gives the sequence another buffer, with none at all. -/
theorem access_stale :
    let point (n : ℤ) : Value := .struct [("x", .primitive n)]
    let points (b : ℕ) (i : ℤ) : State ℤ := ⟨.sequence b [point 3, point 4], i⟩
    let path := [loopItem, .member "x"]
    (parse (points 0 0) path).get (points 0 1) = some (.primitive 3) ∧
      (parse (points 0 0) path).assign (.primitive 7) (points 0 1) =
        .sequence 0 [point 7, point 4] ∧
      select (points 0 1) path (points 0 1).value = some [.cell 0 1, .member "x"] ∧
      Location.get [.cell 0 1, .member "x"] (points 0 1).value = some (.primitive 4) ∧
      (parse (points 0 0) path).get (points 1 0) = none :=
  ⟨rfl, rfl, rfl, rfl, rfl⟩

end PathSource
end OrocosRtt.DataSource
