import Mathlib.Algebra.Group.Int.Defs
import Mathlib.Algebra.GroupWithZero.Nat
import Mathlib.Data.Int.Notation
import Mathlib.Data.List.Basic

/-! The binary archive of the message queue transport: what it writes for a value, the size that it
reports without writing, and what it reads back. Boost.Serialization, which takes a composite value
apart and hands the parts to the archive, is a parameter. -/
namespace OrocosRtt.Mqueue

/-- The object of a `std::string`: where its characters are, and the characters. -/
structure StdString where
  buffer : ℕ
  text : List UInt8
deriving DecidableEq, Repr

inductive Ty
  | primitive (size : ℕ)
  | string
  | vector (item : Ty)
  | array (count : ℕ) (item : Ty)
  | struct (fields : List Ty)

namespace Ty

mutual

/-- A primitive is its bytes, and the size of a vector is a `size_t`. -/
def Val : Ty → Type
  | primitive n => { bs : List UInt8 // bs.length = n }
  | string => StdString
  | vector t => { xs : List t.Val // xs.length < 2 ^ 64 }
  | array n t => { xs : List t.Val // xs.length = n }
  | struct ts => Fields ts

def Fields : List Ty → Type
  | [] => Unit
  | t :: ts => t.Val × Fields ts

end

mutual

def depth : Ty → ℕ
  | primitive _ | string => 0
  | vector t | array _ t => t.depth + 1
  | struct ts => depths ts + 1

def depths : List Ty → ℕ
  | [] => 0
  | t :: ts => max t.depth (depths ts)

end

mutual

def StringFree : Ty → Prop
  | primitive _ => True
  | string => False
  | vector t | array _ t => t.StringFree
  | struct ts => AllFree ts

def AllFree : List Ty → Prop
  | [] => True
  | t :: ts => t.StringFree ∧ AllFree ts

end

theorem depth_le_depths {t : Ty} : ∀ {ts : List Ty}, t ∈ ts → t.depth ≤ depths ts := by
  intro ts
  induction ts with
  | nil => intro h; cases h
  | cons u us ih =>
    intro h
    rw [depths]
    rcases List.mem_cons.mp h with rfl | h
    · exact Nat.le_max_left _ _
    · exact Nat.le_trans (ih h) (Nat.le_max_right _ _)

theorem AllFree.mem {t : Ty} : ∀ {ts : List Ty}, AllFree ts → t ∈ ts → t.StringFree := by
  intro ts
  induction ts with
  | nil => intro _ h; cases h
  | cons u us ih =>
    intro hts h
    rw [AllFree] at hts
    rcases List.mem_cons.mp h with rfl | h
    · exact hts.1
    · exact ih hts.2 h

end Ty

/-- What the serialization of a composite type may hand to the archive: the parts of the value, and
numbers, such as how many there are. -/
inductive Part : Ty → Ty → Prop
  | number {n : ℕ} {t : Ty} : 0 < t.depth → Part (.primitive n) t
  | item {t : Ty} : Part t (.vector t)
  | element {n : ℕ} {t : Ty} : Part t (.array n t)
  | field {t : Ty} {ts : List Ty} : t ∈ ts → Part t (.struct ts)

theorem Part.depth_lt {u t : Ty} (h : Part u t) : u.depth < t.depth := by
  cases h with
  | number h => rwa [Ty.depth]
  | item => rw [Ty.depth]; exact Nat.lt_succ_self _
  | element => rw [Ty.depth]; exact Nat.lt_succ_self _
  | field h => rw [Ty.depth]; exact Nat.lt_succ_of_le (Ty.depth_le_depths h)

theorem Part.lt_of_lt_succ {u t : Ty} {n : ℕ} (h : Part u t) (ht : t.depth < n + 1) :
    u.depth < n :=
  Nat.lt_of_lt_of_le h.depth_lt (Nat.le_of_lt_succ ht)

theorem Part.stringFree {u t : Ty} (h : Part u t) (ht : t.StringFree) : u.StringFree := by
  cases h with
  | number _ => trivial
  | item => rwa [Ty.StringFree] at ht
  | element => rwa [Ty.StringFree] at ht
  | field h => rw [Ty.StringFree] at ht; exact ht.mem h

/-- What follows `<<` while a `t` is saved. -/
inductive Operand (t : Ty)
  | object (u : Ty) (part : Part u t) (x : u.Val)
  | nvp (name : String) (x : Operand t)
  | array (u : Ty) (part : Part u t) (xs : List u.Val)
  | version (n : ℕ)
  | itemVersion (n : ℕ)

/-- What follows `>>` while a `t` is loaded. -/
inductive Request (t : Ty)
  | object (u : Ty) (part : Part u t)
  | nvp (name : String) (r : Request t)
  | array (u : Ty) (part : Part u t) (count : ℕ)

def Request.Reply {t : Ty} : Request t → Type
  | object u _ => u.Val
  | nvp _ r => r.Reply
  | array u _ _ => List u.Val

/-- Loading goes on with what the archive has read, until the value is complete. -/
inductive Loading (t : Ty) (α : Type)
  | done (x : α)
  | get (r : Request t) (next : r.Reply → Loading t α)

/-- What the compiler and Boost.Serialization know of the types. -/
structure Boost where
  /-- `implementation_level<T>::value == primitive_type` -/
  primitiveType : Ty → Bool
  /-- `is_bitwise_serializable<T>` -/
  bitwise : Ty → Bool
  sizeof : Ty → ℕ
  /-- The bytes of an object in memory. -/
  object : (t : Ty) → t.Val → List UInt8
  /-- The object that such bytes have been copied to. -/
  overwritten : (t : Ty) → List UInt8 → t.Val
  /-- `save_only::invoke` -/
  save : (t : Ty) → t.Val → List (Operand t)
  /-- `load_only::invoke`, for a library version -/
  load : ℕ → (t : Ty) → Loading t t.Val

inductive ArchiveException
  | outputStreamError
  | inputStreamError
deriving DecidableEq, Repr

/-- `sizeof(Elem)` -/
def sizeofElem : ℕ := 1

/-- `get_library_version()` of both archives. -/
def getLibraryVersion : ℕ := 0

/-- A stream buffer that is written to, with room for so many bytes more. -/
structure Sink where
  written : List UInt8
  room : ℕ
deriving DecidableEq, Repr

def Sink.sputn (sb : Sink) (s : List UInt8) : ℕ × Sink :=
  (min s.length sb.room, ⟨sb.written ++ s.take sb.room, sb.room - s.length⟩)

/-- `binary_data_oarchive` -/
structure OArchive where
  sb : Sink
  dataWritten : Int32
  mdoSave : Bool

namespace OArchive

def create (sb : Sink) (doSave : Bool) : OArchive := ⟨sb, 0, doSave⟩

def saveBinary (ar : OArchive) (address : List UInt8) (count : ℕ) :
    Except ArchiveException OArchive :=
  let count := (count + sizeofElem - 1) / sizeofElem
  if ar.mdoSave then
    let (scount, sb) := ar.sb.sputn (address.take count)
    if count ≠ scount then .error .outputStreamError
    else .ok { ar with sb := sb, dataWritten := ar.dataWritten + .ofNat count }
  else .ok { ar with dataWritten := ar.dataWritten + .ofNat count }

def saveArray (ar : OArchive) (B : Boost) (u : Ty) (xs : List u.Val) :
    Except ArchiveException OArchive :=
  ar.saveBinary (xs.flatMap (B.object u)) (xs.length * B.sizeof u)

def getArchiveSize (ar : OArchive) : ℤ := ar.dataWritten.toInt

end OArchive

/-- `operator<<` with what Boost hands to the archive. The value of a name-value pair is saved like
any other, an array at once or one element after the other, and version types are ignored. -/
def Operand.output (B : Boost) {t : Ty}
    (saveAType : (u : Ty) → Part u t → OArchive → u.Val → Except ArchiveException OArchive) :
    Operand t → OArchive → Except ArchiveException OArchive
  | object u part x, ar => saveAType u part ar x
  | nvp _ x, ar => x.output B saveAType ar
  | array u part xs, ar =>
    if B.bitwise u then ar.saveArray B u xs else xs.foldlM (saveAType u part) ar
  | version _, ar => .ok ar
  | itemVersion _, ar => .ok ar

/-- `save_a_type` for types that are nested less than `n` deep. -/
def saveAType (B : Boost) : (n : ℕ) → (t : Ty) → t.depth < n → OArchive → t.Val →
    Except ArchiveException OArchive
  | n + 1, t, ht, ar, x =>
    if B.primitiveType t then ar.saveBinary (B.object t x) (B.sizeof t)
    else
      (B.save t x).foldlM (fun ar op =>
        op.output B (fun u part => saveAType B n u (part.lt_of_lt_succ ht)) ar) ar

/-- `operator<<` -/
def OArchive.output (B : Boost) {t : Ty} (x : t.Val) (ar : OArchive) :
    Except ArchiveException OArchive :=
  saveAType B (t.depth + 1) t (Nat.lt_succ_self _) ar x

/-- `binary_data_iarchive`, with what the stream buffer still has. -/
structure IArchive where
  sb : List UInt8
  dataRead : Int32

abbrev Loader (α : Type) := IArchive → Except ArchiveException (α × IArchive)

namespace IArchive

def create (sb : List UInt8) : IArchive := ⟨sb, 0⟩

/-- What `count % sizeof(Elem)` leaves over, nothing, is not read. -/
def loadBinary (count : ℕ) : Loader (List UInt8) := fun ar =>
  let s := count / sizeofElem
  let address := ar.sb.take s
  if address.length ≠ s then .error .inputStreamError
  else .ok (address, { sb := ar.sb.drop s, dataRead := ar.dataRead + .ofNat count })

def getArchiveSize (ar : IArchive) : ℤ := ar.dataRead.toInt

end IArchive

/-- The elements of an array whose bytes have been read. -/
def Boost.overwrittenArray (B : Boost) (u : Ty) : ℕ → List UInt8 → List u.Val
  | 0, _ => []
  | n + 1, bs =>
    B.overwritten u (bs.take (B.sizeof u)) :: B.overwrittenArray u n (bs.drop (B.sizeof u))

def loadArray (B : Boost) (u : Ty) (count : ℕ) : Loader (List u.Val) := fun ar => do
  let (bs, ar) ← IArchive.loadBinary (count * B.sizeof u) ar
  pure (B.overwrittenArray u count bs, ar)

/-- The elements of an array, one after the other. -/
def loadElements {α : Type} (load : Loader α) : ℕ → Loader (List α)
  | 0, ar => pure ([], ar)
  | n + 1, ar => do
    let (x, ar) ← load ar
    let (xs, ar) ← loadElements load n ar
    pure (x :: xs, ar)

/-- The elements of an array at once, or one after the other. -/
def loadWrapper (B : Boost) (u : Ty) (load : Loader u.Val) (count : ℕ) : Loader (List u.Val) :=
  if B.bitwise u then loadArray B u count else loadElements load count

def Request.loadOverride (B : Boost) {t : Ty}
    (loadAType : (u : Ty) → Part u t → Loader u.Val) : (r : Request t) → Loader r.Reply
  | object u part => loadAType u part
  | nvp _ r => r.loadOverride B loadAType
  | array u part count => loadWrapper B u (loadAType u part) count

def Loading.run (B : Boost) {t : Ty} {α : Type}
    (loadAType : (u : Ty) → Part u t → Loader u.Val) : Loading t α → Loader α
  | done x => fun ar => pure (x, ar)
  | get r next => fun ar => do
    let (x, ar) ← r.loadOverride B loadAType ar
    (next x).run B loadAType ar

/-- `load_a_type` for types that are nested less than `n` deep. -/
def loadAType (B : Boost) : (n : ℕ) → (t : Ty) → t.depth < n → Loader t.Val
  | n + 1, t, ht =>
    if B.primitiveType t then fun ar => do
      let (bs, ar) ← IArchive.loadBinary (B.sizeof t) ar
      pure (B.overwritten t bs, ar)
    else
      (B.load getLibraryVersion t).run B fun u part => loadAType B n u (part.lt_of_lt_succ ht)

/-- `operator>>` -/
def IArchive.input (B : Boost) (t : Ty) : Loader t.Val :=
  loadAType B (t.depth + 1) t (Nat.lt_succ_self _)

end OrocosRtt.Mqueue
