import Mathlib.Data.Int.Notation
import Mathlib.Data.List.Basic

/-! The storage of a variable, and C++ references into it. -/
namespace OrocosRtt.DataSource

/-- What a variable holds. The items of a sequence stand in a buffer of their own, which the
sequence may give up for another when it is assigned or resized. -/
inductive Value where
  | primitive (n : ℤ)
  | struct (members : List (String × Value))
  | array (items : List Value)
  | sequence (buffer : ℕ) (items : List Value)

/-- One step from an object to a part of it. -/
inductive Step where
  | member (name : String)
  | item (k : ℕ)
  | cell (buffer : ℕ) (k : ℕ)
  deriving DecidableEq, Repr

/-- A place in the storage of a variable. -/
abbrev Location := List Step

/-- The member of this name. -/
def findMember (name : String) : List (String × Value) → Option Value
  | [] => none
  | m :: ms => if m.1 = name then some m.2 else findMember name ms

/-- The part of `v` one step away; a reference into a buffer that the sequence has given up
refers to nothing. -/
def Step.get : Step → Value → Option Value
  | .member name, .struct ms => findMember name ms
  | .item k, .array xs => xs[k]?
  | .cell b k, .sequence b' xs => if b = b' then xs[k]? else none
  | _, _ => none

/-- Changes that part. -/
def Step.modify (f : Value → Value) : Step → Value → Value
  | .member name, .struct ms =>
    .struct (ms.map fun m => if m.1 = name then (m.1, f m.2) else m)
  | .item k, .array xs => .array (xs.modify k f)
  | .cell b k, .sequence b' xs => .sequence b' (if b = b' then xs.modify k f else xs)
  | _, v => v

/-- What is at a place. -/
def Location.get : Location → Value → Option Value
  | [], v => some v
  | s :: l, v => (s.get v).bind (Location.get l)

/-- Writes to a place. -/
def Location.set (x : Value) : Location → Value → Value
  | [], _ => x
  | s :: l, v => s.modify (Location.set x l) v

theorem findMember_modify_self (name : String) (f : Value → Value) (ms : List (String × Value)) :
    findMember name (ms.map fun m => if m.1 = name then (m.1, f m.2) else m) =
      (findMember name ms).map f := by
  induction ms with
  | nil => rfl
  | cons m ms ih =>
    by_cases h : m.1 = name
    · simp [findMember, h]
    · simpa [findMember, h] using ih

theorem findMember_modify_ne {name name' : String} (h : name ≠ name') (f : Value → Value)
    (ms : List (String × Value)) :
    findMember name (ms.map fun m => if m.1 = name' then (m.1, f m.2) else m) =
      findMember name ms := by
  induction ms with
  | nil => rfl
  | cons m ms ih =>
    by_cases h' : m.1 = name'
    · have hm : m.1 ≠ name := fun hm => h (hm.symm.trans h')
      simpa [findMember, h', h.symm] using ih
    · simp [findMember, h', ih]

theorem Step.get_modify_self (s : Step) (f : Value → Value) (v : Value) :
    s.get (s.modify f v) = (s.get v).map f := by
  cases s with
  | member name =>
    cases v with
    | struct ms => exact findMember_modify_self name f ms
    | _ => rfl
  | item k =>
    cases v with
    | array xs => simp [Step.get, Step.modify]
    | _ => rfl
  | cell b k =>
    cases v with
    | sequence b' xs =>
      by_cases h : b = b'
      · simp [Step.get, Step.modify, h]
      · simp [Step.get, Step.modify, h]
    | _ => rfl

theorem Step.get_modify_ne {s s' : Step} (h : s ≠ s') (f : Value → Value) (v : Value) :
    s.get (s'.modify f v) = s.get v := by
  cases v with
  | primitive n => cases s' <;> rfl
  | struct ms =>
    cases s' with
    | member name' =>
      cases s with
      | member name => exact findMember_modify_ne (fun hn => h (by rw [hn])) f ms
      | _ => rfl
    | _ => rfl
  | array xs =>
    cases s' with
    | item k' =>
      cases s with
      | item k =>
        have hk : k' ≠ k := fun hk => h (by rw [hk])
        simp [Step.get, Step.modify, hk]
      | _ => rfl
    | _ => rfl
  | sequence b xs =>
    cases s' with
    | cell b' k' =>
      cases s with
      | cell b₁ k =>
        by_cases hb' : b' = b
        · by_cases hb : b₁ = b
          · have hk : k' ≠ k := fun hk => h (by rw [hb, hb', hk])
            simp [Step.get, Step.modify, hb, hb', hk]
          · simp [Step.get, Step.modify, hb]
        · simp [Step.get, Step.modify, hb']
      | _ => rfl
    | _ => rfl

namespace Location

/-- A place that is there holds what has been written to it. -/
theorem get_set_self {x : Value} {l : Location} :
    ∀ {v c : Value}, Location.get l v = some c → Location.get l (Location.set x l v) = some x := by
  induction l with
  | nil => intro v c _; rfl
  | cons s l ih =>
    intro v c h
    have h : (s.get v).bind (Location.get l) = some c := h
    unfold Location.get Location.set
    rw [Step.get_modify_self]
    cases hs : s.get v with
    | none => rw [hs] at h; cases h
    | some w => rw [hs] at h; exact ih h

/-- Writing to one place leaves the places beside it as they are. -/
theorem get_set_ne {x : Value} {l : Location} :
    ∀ {l' : Location} {v : Value}, l.length = l'.length → l ≠ l' →
      Location.get l (Location.set x l' v) = Location.get l v := by
  induction l with
  | nil =>
    intro l' v hlen hne
    exact absurd (List.length_eq_zero_iff.mp hlen.symm).symm hne
  | cons s l ih =>
    intro l' v hlen hne
    cases l' with
    | nil => simp at hlen
    | cons s' l' =>
      unfold Location.get Location.set
      by_cases hs : s = s'
      · subst hs
        rw [Step.get_modify_self]
        cases hg : s.get v with
        | none => rfl
        | some w =>
          have hlen' : l.length = l'.length := by simpa using hlen
          exact ih hlen' fun hl => hne (by rw [hl])
      · rw [Step.get_modify_ne hs]

end Location
end OrocosRtt.DataSource
