import Mathlib.Data.Int.Order.Basic
import Mathlib.Data.Nat.ModEq
import Mathlib.Logic.Function.Basic

/-! Rings of slots, read at one index and written at another. One slot stays unused, so that
equal indexes mean an empty ring. -/
namespace Library.Ring

variable {α : Type*} {size r w : ℕ} {buf : ℕ → Option α} {cells : List (Option α)}

/-- The slot that is `j` after the read index. -/
def slot (size r j : ℕ) : ℕ := (r + j) % size

theorem slot_zero (h : r < size) : slot size r 0 = r := Nat.mod_eq_of_lt h

theorem slot_lt (h : r < size) (j : ℕ) : slot size r j < size :=
  Nat.mod_lt _ (Nat.zero_lt_of_lt h)

/-- Different places in the ring have different slots. -/
theorem slot_inj {i j : ℕ} (hi : i < size) (hj : j < size) (h : slot size r i = slot size r j) :
    i = j := by
  have hm : i % size = j % size := Nat.ModEq.add_left_cancel' r h
  rwa [Nat.mod_eq_of_lt hi, Nat.mod_eq_of_lt hj] at hm

theorem slot_succ (j : ℕ) : (slot size r j + 1) % size = slot size r (j + 1) := by
  rw [slot, Nat.mod_add_mod, Nat.add_assoc, slot]

theorem slot_next (j : ℕ) : slot size ((r + 1) % size) j = slot size r (j + 1) := by
  rw [slot, Nat.mod_add_mod, Nat.add_assoc, Nat.add_comm 1 j, slot]

theorem slot_cases (hr : r < size) {j : ℕ} (hj : j < size) :
    slot size r j = r + j ∧ r + j < size ∨ slot size r j + size = r + j ∧ size ≤ r + j := by
  rw [slot]
  by_cases h : r + j < size
  · exact .inl ⟨Nat.mod_eq_of_lt h, h⟩
  · refine .inr ⟨?_, by omega⟩
    rw [Nat.mod_eq_sub_mod (by omega), Nat.mod_eq_of_lt (by omega)]
    omega

/-- The slots from the read to the write index hold the cells, and the others nothing. -/
structure Laid (size : ℕ) (buf : ℕ → Option α) (r w : ℕ) (cells : List (Option α)) : Prop where
  read : r < size
  write : w = slot size r cells.length
  length : cells.length < size
  content : ∀ j, j < size → buf (slot size r j) = cells[j]?.join

namespace Laid

theorem empty (h : 0 < size) : Laid size (fun _ => (none : Option α)) 0 0 [] :=
  ⟨h, (slot_zero h).symm, h, fun _ _ => rfl⟩

theorem write_lt (h : Laid size buf r w cells) : w < size := by
  rw [h.write]
  exact slot_lt h.read _

/-- The write index is behind the read index when all slots but one are in use. -/
theorem full_iff (h : Laid size buf r w cells) :
    (w : ℤ) = r - 1 ∨ (w : ℤ) = r + size - 1 ↔ cells.length + 1 = size := by
  have hr := h.read
  have hl := h.length
  rw [h.write]
  rcases slot_cases hr hl with ⟨hs, hb⟩ | ⟨hs, hb⟩ <;> omega

theorem distance (h : Laid size buf r w cells) :
    (if 0 ≤ (w : ℤ) - r then (w : ℤ) - r else w - r + size) = cells.length := by
  have hr := h.read
  have hl := h.length
  rw [h.write]
  rcases slot_cases hr hl with ⟨hs, hb⟩ | ⟨hs, hb⟩ <;> split <;> omega

/-- The write index is advanced over an empty slot. -/
theorem push (h : Laid size buf r w cells) (hroom : cells.length + 1 < size) :
    Laid size buf r ((w + 1) % size) (cells ++ [none]) := by
  refine ⟨h.read, ?_, ?_, fun j hj => ?_⟩
  · rw [h.write, slot_succ, List.length_append, List.length_singleton]
  · rw [List.length_append, List.length_singleton]
    exact hroom
  · rw [h.content j hj]
    by_cases hlt : j < cells.length
    · rw [List.getElem?_append_left hlt]
    · have hend : cells[j]? = none := List.getElem?_eq_none (Nat.le_of_not_lt hlt)
      rw [hend, List.getElem?_append_right (Nat.le_of_not_lt hlt)]
      cases j - cells.length with
      | zero => rfl
      | succ k => rw [List.getElem?_cons_succ, List.getElem?_nil]

/-- The content of a slot in use is changed. -/
theorem set (h : Laid size buf r w cells) {j : ℕ} (hj : j < cells.length) (x : Option α) :
    Laid size (Function.update buf (slot size r j) x) r w (cells.set j x) := by
  have hl := h.length
  refine ⟨h.read, ?_, ?_, fun i hi => ?_⟩
  · rw [List.length_set]
    exact h.write
  · rw [List.length_set]
    exact hl
  · by_cases hij : i = j
    · subst hij
      simp [hj]
    · have hne : slot size r i ≠ slot size r j := fun he => hij (slot_inj hi (by omega) he)
      rw [Function.update_of_ne hne, h.content i hi, List.getElem?_set_ne (Ne.symm hij)]

/-- The first slot is given up, once it is empty. -/
theorem pop (h : Laid size buf r w (none :: cells)) : Laid size buf ((r + 1) % size) w cells := by
  have hr := h.read
  have hl := h.length
  rw [List.length_cons] at hl
  refine ⟨Nat.mod_lt _ (by omega), ?_, by omega, fun j hj => ?_⟩
  · rw [slot_next]
    exact h.write
  · rw [slot_next]
    by_cases hlast : j + 1 < size
    · rw [h.content (j + 1) hlast, List.getElem?_cons_succ]
    · -- the slot given up is the last one now
      have he : slot size r (j + 1) = slot size r 0 := by
        have hs : j + 1 = size := by omega
        rw [slot, slot, hs, Nat.add_mod_right, Nat.add_zero]
      have hend : cells[j]? = none := List.getElem?_eq_none (by omega)
      rw [he, h.content 0 (by omega), hend]
      rfl

end Laid
end Library.Ring
