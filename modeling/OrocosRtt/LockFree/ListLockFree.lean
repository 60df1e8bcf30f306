import OrocosRtt.Library.Linearize
import OrocosRtt.Library.Interleaving
import Mathlib.Data.Int.DivMod

/-! The lock-free list: a writer copies the active buffer into an empty one, changes the copy, and
makes it the active one if no other writer did so before. A counter for each buffer says how often
it is in use. -/
namespace OrocosRtt.LockFree

open Library.Linearize

/-- A buffer is known by its index. -/
structure ListLockFree (α : Type) where
  /-- `BufNum()` -/
  bufNum : ℕ
  /-- `data.capacity()`, which is the same for all buffers -/
  capacity : ℕ
  count : ℕ → ℤ
  data : ℕ → List α
  active : ℕ

namespace ListLockFree

variable {α : Type}

def create (lsize threads : ℕ) : ListLockFree α where
  bufNum := threads * 2
  capacity := lsize
  count := fun b => if b = 0 then 0 else -1
  data := fun _ => []
  active := 0

def inc (b : ℕ) (l : ListLockFree α) : ListLockFree α :=
  { l with count := Function.update l.count b (l.count b + 1) }

def dec (b : ℕ) (l : ListLockFree α) : ListLockFree α :=
  { l with count := Function.update l.count b (l.count b - 1) }

def write (b : ℕ) (items : List α) (l : ListLockFree α) : ListLockFree α :=
  { l with data := Function.update l.data b items }

/-- Conversion to `int`. -/
def toInt (n : ℤ) : ℤ := n.bmod 4294967296

theorem toInt_eq {n : ℕ} (h : n < 2147483648) : toInt n = n := by
  apply Int.bmod_eq_of_le_mul_two <;> omega

inductive Operation (α : Type) where
  | append (item : α)
  | appendAll (items : List α)
  | erase (item : α)
  | clear
  | deleteIf (pred : α → Bool)
  | apply
  | findIf (func : α → Bool) (blank : α)

/-- What an operation returns; for `apply` the elements in the order in which the function was applied
to them. An element that was read where there is none is `none`. -/
inductive Result (α : Type) where
  | done (success : Bool)
  | count (n : ℤ)
  | cleared
  | applied (items : List α)
  | found (item : Option α)
  deriving DecidableEq

/-- Where a thread is in an operation, before the next access to what is shared: `orig` is the buffer
that it found active, and `using` the one it writes. -/
inductive Place (α : Type) where
  | read
  | lock (orig : ℕ)
  | check (orig : ℕ)
  | unlock (orig : ℕ)
  | locked (orig : ℕ)
  | scan (orig start : ℕ)
  | skip (orig start : ℕ)
  | clean (orig nextbuf : ℕ)
  /-- The element with index `it`; `hit` says that an element was left out. -/
  | copy (orig nextbuf it : ℕ) (hit : Bool)
  | extend (orig nextbuf : ℕ)
  | cas (orig nextbuf : ℕ)
  | retryOrig (orig nextbuf : ℕ)
  | retryNext (nextbuf : ℕ)
  | dropLock (orig : ℕ) (r : Result α)
  | dropRef (orig : ℕ) (r : Result α)
  | giveUp (orig nextbuf : ℕ)
  | giveBack (nextbuf : ℕ)
  | release (orig : ℕ) (r : Result α)
  | traverse (orig : ℕ) (items : List α)
  | seek (orig it : ℕ)
  | seekRelease (orig it : ℕ)
  | seekRead (orig it : ℕ)
  deriving DecidableEq

/-- What a turn leads to: the operation goes on, with `towrite` as it is then, or it returns, or what
it does is not defined. -/
inductive Next (α : Type) where
  | go (towrite : ℤ) (p : Place α)
  | done (r : Result α)
  | undefined

section Turn

variable [DecidableEq α]

/-- The element is copied by the operation. -/
def keeps (op : Operation α) (hit : Bool) (a : α) : Bool :=
  match op with
  | .erase item => hit || !decide (a = item)
  | .deleteIf pred => !pred a
  | .append _ | .appendAll _ | .clear | .apply | .findIf .. => true

/-- After all elements were looked at. -/
def copied (op : Operation α) (orig nextbuf : ℕ) (hit : Bool) : Place α :=
  match op with
  | .erase _ | .deleteIf _ => if hit then .cas orig nextbuf else .giveUp orig nextbuf
  | .append _ | .appendAll _ | .clear | .apply | .findIf .. => .extend orig nextbuf

/-- What an operation that changes the list returns. -/
def success (op : Operation α) (towrite : ℤ) : Result α :=
  match op with
  | .append _ | .erase _ | .deleteIf _ | .apply | .findIf .. => .done true
  | .appendAll _ => .count towrite
  | .clear => .cleared

/-- The first use of `orig->data`. -/
def entered (op : Operation α) (towrite : ℤ) (orig : ℕ) (l : ListLockFree α) : Next α :=
  match op with
  | .append _ =>
    if (l.data orig).length = l.capacity then .go towrite (.release orig (.done false))
    else .go towrite (.scan orig 0)
  | .appendAll _ =>
    let maxwrite := toInt (l.capacity - (l.data orig).length)
    if maxwrite = 0 then .go towrite (.release orig (.count 0))
    else .go (if maxwrite < towrite then maxwrite else towrite) (.scan orig 0)
  | .erase _ | .clear | .deleteIf _ => .go towrite (.scan orig 0)
  | .apply => .go towrite (.traverse orig [])
  | .findIf .. => .go towrite (.seek orig 0)

/-- What is added to the copy; an iterator before `items.begin()` is not defined. -/
def extended (op : Operation α) (towrite : ℤ) (orig nextbuf : ℕ) (l : ListLockFree α) :
    ListLockFree α × Next α :=
  match op with
  | .append item => (l.write nextbuf (l.data nextbuf ++ [item]), .go towrite (.cas orig nextbuf))
  | .appendAll items =>
    if towrite < 0 then (l, .undefined)
    else (l.write nextbuf (l.data nextbuf ++ items.take towrite.toNat),
      .go towrite (.cas orig nextbuf))
  | .clear | .erase _ | .deleteIf _ | .apply | .findIf .. =>
    (l.write nextbuf [], .go towrite (.cas orig nextbuf))

/-- A turn of `find_if` at an element. -/
def sought (op : Operation α) (towrite : ℤ) (orig it : ℕ) (l : ListLockFree α) : Next α :=
  match op, (l.data orig)[it]? with
  | .findIf func _, some a =>
    if func a then .go towrite (.seekRelease orig it) else .go towrite (.seek orig (it + 1))
  | .findIf _ blank, none => .go towrite (.release orig (.found (some blank)))
  | _, _ => .undefined

/-- A turn in an operation. -/
def advance (op : Operation α) (towrite : ℤ) (p : Place α) (l : ListLockFree α) :
    ListLockFree α × Next α :=
  match p with
  | .read => (l, .go towrite (.lock l.active))
  | .lock orig => (l.inc orig, .go towrite (.check orig))
  | .check orig => (l, .go towrite (if l.active = orig then .locked orig else .unlock orig))
  | .unlock orig => (l.dec orig, .go towrite .read)
  | .locked orig => (l, entered op towrite orig l)
  | .scan orig start =>
    (l.inc start, .go towrite (if l.count start = -1 then .clean orig start else .skip orig start))
  | .skip orig start =>
    (l.dec start, .go towrite (.scan orig (if start + 1 = l.bufNum then 0 else start + 1)))
  | .clean orig nextbuf =>
    (l.write nextbuf [], .go towrite (match op with
      | .clear => .extend orig nextbuf
      | _ => .copy orig nextbuf 0 false))
  | .copy orig nextbuf it hit =>
    match (l.data orig)[it]? with
    | some a =>
      if keeps op hit a then
        (l.write nextbuf (l.data nextbuf ++ [a]), .go towrite (.copy orig nextbuf (it + 1) hit))
      else (l, .go towrite (.copy orig nextbuf (it + 1) true))
    | none => (l, .go towrite (copied op orig nextbuf hit))
  | .extend orig nextbuf => extended op towrite orig nextbuf l
  | .cas orig nextbuf =>
    if l.active = orig then
      ({ l with active := nextbuf }, .go towrite (.dropLock orig (success op towrite)))
    else (l, .go towrite (.retryOrig orig nextbuf))
  | .retryOrig orig nextbuf => (l.dec orig, .go towrite (.retryNext nextbuf))
  | .retryNext nextbuf => (l.dec nextbuf, .go towrite .read)
  | .dropLock orig r => (l.dec orig, .go towrite (.dropRef orig r))
  | .dropRef orig r => (l.dec orig, .done r)
  | .giveUp orig nextbuf => (l.dec orig, .go towrite (.giveBack nextbuf))
  | .giveBack nextbuf => (l.dec nextbuf, .done (.done false))
  | .release orig r => (l.dec orig, .done r)
  | .traverse orig items =>
    match (l.data orig)[items.length]? with
    | some a => (l, .go towrite (.traverse orig (items ++ [a])))
    | none => (l, .go towrite (.release orig (.applied items)))
  | .seek orig it => (l, sought op towrite orig it l)
  | .seekRelease orig it => (l.dec orig, .go towrite (.seekRead orig it))
  | .seekRead orig it => (l, .done (.found (l.data orig)[it]?))

/-! ### The list for a single thread -/

/-- What an operation does to a list of bounded capacity. -/
def perform (capacity : ℕ) (items : List α) (op : Operation α) : List α × Result α :=
  match op with
  | .append item =>
    if items.length = capacity then (items, .done false) else (items ++ [item], .done true)
  | .appendAll new =>
    (items ++ new.take (capacity - items.length),
      .count (min new.length (capacity - items.length) : ℕ))
  | .erase item => (items.erase item, .done (decide (item ∈ items)))
  | .clear => ([], .cleared)
  | .deleteIf pred => (items.filter (fun a => !pred a), .done (items.any pred))
  | .apply => (items, .applied items)
  | .findIf func blank => (items, .found (some ((items.find? func).getD blank)))

end Turn

end ListLockFree
end OrocosRtt.LockFree
