import Mathlib.Data.Int.Order.Basic

/-! The write and the read index of the queues over an array of slots. -/
namespace OrocosRtt.LockFree

/-- `SIndexes`: the write and the read index, which are read and written as one word. -/
structure Indexes where
  w : ℕ
  r : ℕ
  deriving DecidableEq

/-- The comparison of indexes by which a writer and `isFull` find the queue full. -/
def Indexes.full (size : ℕ) (i : Indexes) : Prop :=
  (i.w : ℤ) = i.r - 1 ∨ (i.w : ℤ) = i.r + size - 1

instance (size : ℕ) (i : Indexes) : Decidable (i.full size) :=
  inferInstanceAs (Decidable (_ ∨ _))

end OrocosRtt.LockFree
