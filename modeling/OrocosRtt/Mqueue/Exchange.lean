import OrocosRtt.Mqueue.BinaryDataArchive

/-! What the binary archive writes is what it reads. The first part is for any Boost.Serialization
that hands over the same parts in the same order when it saves and when it loads; the second is what
it does on a machine of 64 bits. -/
namespace OrocosRtt.Mqueue

/-! What is written. -/

/-- Everything is put behind what has been written, or the archive throws; without saving, only the
size grows. -/
def OArchive.write (ar : OArchive) (bs : List UInt8) : Except ArchiveException OArchive :=
  if ar.mdoSave then
    if bs.length ≤ ar.sb.room then
      .ok { ar with
        sb := ⟨ar.sb.written ++ bs, ar.sb.room - bs.length⟩
        dataWritten := ar.dataWritten + .ofNat bs.length }
    else .error .outputStreamError
  else .ok { ar with dataWritten := ar.dataWritten + .ofNat bs.length }

theorem OArchive.write_nil (ar : OArchive) : ar.write [] = .ok ar := by
  simp [write]

theorem OArchive.write_append (ar : OArchive) (bs cs : List UInt8) :
    ar.write (bs ++ cs) = ar.write bs >>= fun ar => ar.write cs := by
  unfold write
  cases hsave : ar.mdoSave with
  | false => simp [Bind.bind, Except.bind, Int32.ofNat_add, Int32.add_assoc]
  | true =>
    by_cases hbs : bs.length ≤ ar.sb.room
    · have hroom : bs.length + cs.length ≤ ar.sb.room ↔ cs.length ≤ ar.sb.room - bs.length := by
        omega
      simp [Bind.bind, Except.bind, hbs, hroom, Int32.ofNat_add, Int32.add_assoc, Nat.sub_sub]
    · have hroom : ¬ (bs ++ cs).length ≤ ar.sb.room := by
        rw [List.length_append]
        omega
      simp only [if_neg hbs, if_neg hroom, if_true]
      rfl

theorem OArchive.create_write {sb : Sink} {bs : List UInt8} (h : bs.length ≤ sb.room) :
    (create sb true).write bs =
      .ok ⟨⟨sb.written ++ bs, sb.room - bs.length⟩, .ofNat bs.length, true⟩ := by
  simp [write, create, h]

theorem OArchive.saveBinary_eq (ar : OArchive) {bs : List UInt8} {count : ℕ}
    (h : bs.length = count) : ar.saveBinary bs count = ar.write bs := by
  subst h
  have hcount : (bs.length + sizeofElem - 1) / sizeofElem = bs.length := by simp [sizeofElem]
  unfold saveBinary write
  rw [hcount]
  dsimp only [Sink.sputn]
  rw [List.take_length]
  by_cases hroom : bs.length ≤ ar.sb.room
  · have hmin : ¬ bs.length ≠ min bs.length ar.sb.room := by omega
    rw [if_neg hmin, if_pos hroom, List.take_of_length_le hroom]
  · have hmin : bs.length ≠ min bs.length ar.sb.room := by omega
    rw [if_pos hmin, if_neg hroom]

theorem foldlM_write {α : Type} {save : OArchive → α → Except ArchiveException OArchive}
    {f : α → List UInt8} (h : ∀ ar x, save ar x = ar.write (f x)) (xs : List α) :
    ∀ ar : OArchive, xs.foldlM save ar = ar.write (xs.flatMap f) := by
  induction xs with
  | nil => intro ar; exact ar.write_nil.symm
  | cons x xs ih =>
    intro ar
    rw [List.foldlM_cons, List.flatMap_cons, ar.write_append, h]
    exact bind_congr ih

/-- The bytes that stand for an operand, given those of the parts of the value. -/
def Operand.bytes (B : Boost) {t : Ty} (f : (u : Ty) → Part u t → u.Val → List UInt8) :
    Operand t → List UInt8
  | object u part x => f u part x
  | nvp _ x => x.bytes B f
  | array u part xs => if B.bitwise u then xs.flatMap (B.object u) else xs.flatMap (f u part)
  | version _ | itemVersion _ => []

def bytes (B : Boost) : (n : ℕ) → (t : Ty) → t.depth < n → t.Val → List UInt8
  | n + 1, t, ht, x =>
    if B.primitiveType t then B.object t x
    else
      (B.save t x).flatMap
        (Operand.bytes B fun u part => bytes B n u (part.lt_of_lt_succ ht))

/-- Operands and requests for the same parts in the same order, that lead to the value `y`. Version
types are only saved. -/
inductive Follows {t : Ty} {α : Type} : List (Operand t) → Loading t α → α → Prop
  | done (y : α) : Follows [] (.done y) y
  | version {n : ℕ} {ops : List (Operand t)} {l : Loading t α} {y : α} :
    Follows ops l y → Follows (.version n :: ops) l y
  | itemVersion {n : ℕ} {ops : List (Operand t)} {l : Loading t α} {y : α} :
    Follows ops l y → Follows (.itemVersion n :: ops) l y
  | nvpSaved {name : String} {op : Operand t} {ops : List (Operand t)} {l : Loading t α} {y : α} :
    Follows (op :: ops) l y → Follows (.nvp name op :: ops) l y
  | nvpLoaded {name : String} {ops : List (Operand t)} {r : Request t}
    {next : r.Reply → Loading t α} {y : α} :
    Follows ops (.get r next) y → Follows ops (.get (.nvp name r) next) y
  | object {u : Ty} {part : Part u t} {x : u.Val} {ops : List (Operand t)}
    {next : u.Val → Loading t α} {y : α} :
    Follows ops (next x) y → Follows (.object u part x :: ops) (.get (.object u part) next) y
  | array {u : Ty} {part : Part u t} {xs : List u.Val} {ops : List (Operand t)}
    {next : List u.Val → Loading t α} {y : α} :
    Follows ops (next xs) y →
      Follows (.array u part xs :: ops) (.get (.array u part xs.length) next) y

/-- What the archive relies on. The bytes of a `std::string` object do not give the string back, so
that nothing is said of it. -/
structure Boost.Documented (B : Boost) : Prop where
  length_object : ∀ t, B.primitiveType t ∨ B.bitwise t → ∀ x, (B.object t x).length = B.sizeof t
  plain : ∀ t, t.StringFree → B.primitiveType t ∨ B.bitwise t →
    ∀ x, B.overwritten t (B.object t x) = x
  follows : ∀ t, t.StringFree → B.primitiveType t = false →
    ∀ x, Follows (B.save t x) (B.load 0 t) x

section
variable {B : Boost}

theorem length_flatMap_object (hB : B.Documented) {u : Ty} (hu : B.bitwise u) (xs : List u.Val) :
    (xs.flatMap (B.object u)).length = xs.length * B.sizeof u := by
  induction xs with
  | nil => exact (Nat.zero_mul _).symm
  | cons x xs ih =>
    rw [List.flatMap_cons, List.length_append, ih, hB.length_object u (.inr hu), List.length_cons,
      Nat.succ_mul, Nat.add_comm]

theorem Operand.output_eq (hB : B.Documented) {t : Ty}
    {save : (u : Ty) → Part u t → OArchive → u.Val → Except ArchiveException OArchive}
    {f : (u : Ty) → Part u t → u.Val → List UInt8}
    (h : ∀ u part ar x, save u part ar x = ar.write (f u part x)) (op : Operand t) :
    ∀ ar : OArchive, op.output B save ar = ar.write (op.bytes B f) := by
  induction op with
  | object u part x => exact fun ar => h u part ar x
  | nvp name x ih => exact ih
  | array u part xs =>
    intro ar
    unfold output bytes
    by_cases hu : B.bitwise u = true
    · rw [if_pos hu, if_pos hu]
      exact ar.saveBinary_eq (length_flatMap_object hB hu xs)
    · rw [if_neg hu, if_neg hu]
      exact foldlM_write (h u part) xs ar
  | version n => exact fun ar => ar.write_nil.symm
  | itemVersion n => exact fun ar => ar.write_nil.symm

theorem saveAType_eq (hB : B.Documented) : ∀ (n : ℕ) (t : Ty) (ht : t.depth < n) (ar : OArchive)
    (x : t.Val), saveAType B n t ht ar x = ar.write (bytes B n t ht x) := by
  intro n
  induction n with
  | zero => intro t ht; exact absurd ht (Nat.not_lt_zero _)
  | succ n ih =>
    intro t ht ar x
    unfold saveAType bytes
    by_cases hprim : B.primitiveType t = true
    · rw [if_pos hprim, if_pos hprim]
      exact ar.saveBinary_eq (hB.length_object t (.inl hprim) x)
    · rw [if_neg hprim, if_neg hprim]
      exact foldlM_write
        (fun ar op => op.output_eq hB (fun u part => ih u (part.lt_of_lt_succ ht)) ar) _ ar

end

/-! What is read. -/

/-- Wherever these bytes come first, they are read, nothing else is, and give `x`. -/
def Restores {α : Type} (l : Loader α) (bs : List UInt8) (x : α) : Prop :=
  ∀ (rest : List UInt8) (n : Int32),
    l ⟨bs ++ rest, n⟩ = .ok (x, ⟨rest, n + .ofNat bs.length⟩)

section
variable {α β : Type} {l : Loader α} {bs cs : List UInt8} {x : α} {y : β}

theorem restores_pure (x : α) : Restores (fun ar => pure (x, ar)) [] x := by
  intro rest n
  simp [pure, Except.pure]

theorem Restores.bind {k : α → Loader β} (h : Restores l bs x) (hk : Restores (k x) cs y) :
    Restores (fun ar => l ar >>= fun r => k r.1 r.2) (bs ++ cs) y := by
  intro rest n
  show l _ >>= _ = _
  rw [List.append_assoc, h (cs ++ rest) n]
  show k x _ = _
  rw [hk rest, List.length_append, Int32.ofNat_add, Int32.add_assoc]

theorem Restores.map (f : α → β) (h : Restores l bs x) :
    Restores (fun ar => l ar >>= fun r => pure (f r.1, r.2)) bs (f x) := by
  have hmap := h.bind (k := fun x ar => pure (f x, ar)) (restores_pure (f x))
  rwa [List.append_nil] at hmap

theorem restores_loadBinary {count : ℕ} (h : bs.length = count) :
    Restores (IArchive.loadBinary count) bs bs := by
  subst h
  intro rest n
  have hcount : bs.length / sizeofElem = bs.length := by simp [sizeofElem]
  unfold IArchive.loadBinary
  simp [hcount]

theorem restores_loadElements {f : α → List UInt8} (h : ∀ x, Restores l (f x) x) (xs : List α) :
    Restores (loadElements l xs.length) (xs.flatMap f) xs := by
  induction xs with
  | nil => exact restores_pure []
  | cons x xs ih =>
    exact (h x).bind
      (k := fun x ar => loadElements l xs.length ar >>= fun r => pure (x :: r.1, r.2))
      (ih.map (x :: ·))

end

section
variable {B : Boost}

theorem overwrittenArray_object (hB : B.Documented) {u : Ty} (hfree : u.StringFree)
    (hu : B.bitwise u) (xs : List u.Val) :
    B.overwrittenArray u xs.length (xs.flatMap (B.object u)) = xs := by
  induction xs with
  | nil => rfl
  | cons x xs ih =>
    have hlen := hB.length_object u (.inr hu) x
    rw [List.flatMap_cons, List.length_cons, Boost.overwrittenArray, List.take_left' hlen,
      List.drop_left' hlen, ih, hB.plain u hfree (.inr hu)]

theorem restores_loadArray (hB : B.Documented) {u : Ty} (hfree : u.StringFree)
    (hu : B.bitwise u) (xs : List u.Val) :
    Restores (loadArray B u xs.length) (xs.flatMap (B.object u)) xs := by
  have hread := (restores_loadBinary (length_flatMap_object hB hu xs)).map
    (B.overwrittenArray u xs.length)
  rwa [overwrittenArray_object hB hfree hu] at hread

theorem restores_loadWrapper (hB : B.Documented) {u : Ty} (hfree : u.StringFree)
    {load : Loader u.Val} {f : u.Val → List UInt8} (hload : ∀ x, Restores load (f x) x)
    (xs : List u.Val) :
    Restores (loadWrapper B u load xs.length)
      (if B.bitwise u then xs.flatMap (B.object u) else xs.flatMap f) xs := by
  unfold loadWrapper
  by_cases hbit : B.bitwise u = true
  · rw [if_pos hbit, if_pos hbit]
    exact restores_loadArray hB hfree hbit xs
  · rw [if_neg hbit, if_neg hbit]
    exact restores_loadElements hload xs

theorem Follows.restores (hB : B.Documented) {t : Ty} {α : Type} (ht : t.StringFree)
    {load : (u : Ty) → Part u t → Loader u.Val} {f : (u : Ty) → Part u t → u.Val → List UInt8}
    (hload : ∀ u part, u.StringFree → ∀ x, Restores (load u part) (f u part x) x)
    {ops : List (Operand t)} {l : Loading t α} {y : α} (h : Follows ops l y) :
    Restores (l.run B load) (ops.flatMap (Operand.bytes B f)) y := by
  induction h with
  | done y => exact restores_pure y
  | version _ ih => exact ih
  | itemVersion _ ih => exact ih
  | nvpSaved _ ih => exact ih
  | nvpLoaded _ ih => exact ih
  | @object u part x ops next y _ ih =>
    exact (hload u part (part.stringFree ht) x).bind (k := fun x => (next x).run B load) ih
  | @array u part xs ops next y _ ih =>
    have hu := part.stringFree ht
    exact (restores_loadWrapper hB hu (hload u part hu) xs).bind
      (k := fun xs => (next xs).run B load) ih

theorem restores_loadAType (hB : B.Documented) : ∀ (n : ℕ) (t : Ty) (ht : t.depth < n),
    t.StringFree → ∀ x, Restores (loadAType B n t ht) (bytes B n t ht x) x := by
  intro n
  induction n with
  | zero => intro t ht; exact absurd ht (Nat.not_lt_zero _)
  | succ n ih =>
    intro t ht hfree x
    unfold loadAType bytes
    by_cases hprim : B.primitiveType t = true
    · rw [if_pos hprim, if_pos hprim]
      have hread := (restores_loadBinary (hB.length_object t (.inl hprim) x)).map (B.overwritten t)
      rwa [hB.plain t hfree (.inl hprim)] at hread
    · rw [if_neg hprim, if_neg hprim]
      have hfollows := hB.follows t hfree (Bool.not_eq_true _ ▸ hprim) x
      exact hfollows.restores hB hfree fun u part hu =>
        ih u (part.lt_of_lt_succ ht) hu

end

/-! Boost.Serialization on a 64-bit machine. -/

def littleEndian : ℕ → ℕ → List UInt8
  | 0, _ => []
  | k + 1, n => .ofNat n :: littleEndian k (n / 256)

def fromLittleEndian : List UInt8 → ℕ
  | [] => 0
  | b :: bs => b.toNat + 256 * fromLittleEndian bs

theorem length_littleEndian (k : ℕ) : ∀ n, (littleEndian k n).length = k := by
  induction k with
  | zero => exact fun _ => rfl
  | succ k ih => exact fun n => congrArg Nat.succ (ih _)

theorem fromLittleEndian_littleEndian (k : ℕ) :
    ∀ n, n < 256 ^ k → fromLittleEndian (littleEndian k n) = n := by
  induction k with
  | zero => intro n hn; exact (Nat.lt_one_iff.mp hn).symm
  | succ k ih =>
    intro n hn
    have hdiv : n / 256 < 256 ^ k := by
      rw [pow_succ] at hn
      exact Nat.div_lt_of_lt_mul (by rwa [Nat.mul_comm] at hn)
    rw [littleEndian, fromLittleEndian, ih _ hdiv, UInt8.toNat_ofNat']
    exact Nat.mod_add_div n 256

def sizeT (n : ℕ) : (Ty.primitive 8).Val :=
  show { bs : List UInt8 // bs.length = 8 } from ⟨littleEndian 8 n, length_littleEndian 8 n⟩

mutual

/-- A value as its constructor leaves it. -/
def Ty.initial : (t : Ty) → t.Val
  | .primitive n => show { bs : List UInt8 // bs.length = n } from
      ⟨List.replicate n 0, List.length_replicate⟩
  | .string => show StdString from ⟨0, []⟩
  | .vector t => show { xs : List t.Val // xs.length < 2 ^ 64 } from ⟨[], Nat.two_pow_pos 64⟩
  | .array n t => show { xs : List t.Val // xs.length = n } from
      ⟨List.replicate n t.initial, List.length_replicate⟩
  | .struct ts => Ty.initials ts

def Ty.initials : (ts : List Ty) → Ty.Fields ts
  | [] => ()
  | t :: ts => (t.initial, Ty.initials ts)

end

def isArithmetic : Ty → Bool
  | .primitive _ => true
  | _ => false

/-- A vector is its size, and its elements at once or, behind their version, one by one. -/
def saveVector (item : Ty) (xs : List item.Val) : List (Operand (.vector item)) :=
  .nvp "count" (.object (.primitive 8) (.number (Nat.succ_pos _)) (sizeT xs.length)) ::
    if isArithmetic item then
      if xs.isEmpty then [] else [.array item .item xs]
    else
      .nvp "item_version" (.itemVersion 0) ::
        xs.map fun x => .nvp "item" (.object item .item x)

def saveFields {t : Ty} : (ts : List Ty) → (∀ u ∈ ts, Part u t) → Ty.Fields ts → List (Operand t)
  | [], _, _ => []
  | u :: us, part, x =>
    .object u (part u List.mem_cons_self) x.1 ::
      saveFields us (fun v hv => part v (List.mem_cons_of_mem u hv)) x.2

def toVector (item : Ty) (xs : List item.Val) : (Ty.vector item).Val :=
  if h : xs.length < 2 ^ 64 then show { xs : List item.Val // xs.length < 2 ^ 64 } from ⟨xs, h⟩
  else Ty.initial (.vector item)

def toArray (n : ℕ) (item : Ty) (xs : List item.Val) : (Ty.array n item).Val :=
  if h : xs.length = n then show { xs : List item.Val // xs.length = n } from ⟨xs, h⟩
  else Ty.initial (.array n item)

def loadItems (item : Ty) : ℕ → (List item.Val → Loading (.vector item) (Ty.vector item).Val) →
    Loading (.vector item) (Ty.vector item).Val
  | 0, next => next []
  | n + 1, next =>
    .get (.nvp "item" (.object item .item)) fun (x : item.Val) =>
      loadItems item n fun xs => next (x :: xs)

def loadVector (libraryVersion : ℕ) (item : Ty) : Loading (.vector item) (Ty.vector item).Val :=
  .get (.nvp "count" (.object (.primitive 8) (.number (Nat.succ_pos _))))
    fun (count : (Ty.primitive 8).Val) =>
      let n := fromLittleEndian count.1
      let items := loadItems item n fun xs => .done (toVector item xs)
      if isArithmetic item then
        if n = 0 then .done (toVector item [])
        else .get (.array item .item n) fun (xs : List item.Val) => .done (toVector item xs)
      else if 3 < libraryVersion then
        .get (.nvp "item_version" (.object (.primitive 4) (.number (Nat.succ_pos _)))) fun _ => items
      else items

def loadFields {t : Ty} {α : Type} : (ts : List Ty) → (∀ u ∈ ts, Part u t) →
    (Ty.Fields ts → Loading t α) → Loading t α
  | [], _, next => next ()
  | u :: us, part, next =>
    .get (.object u (part u List.mem_cons_self)) fun (x : u.Val) =>
      loadFields us (fun v hv => part v (List.mem_cons_of_mem u hv)) fun xs => next (x, xs)

/-- A string is at primitive level, an object of a pointer and a size; `memory` is what the process
that reads finds at an address. -/
def boost (memory : ℕ → ℕ → List UInt8) : Boost where
  primitiveType
    | .primitive _ | .string => true
    | _ => false
  bitwise := isArithmetic
  sizeof
    | .primitive n => n
    | .string => 16
    | _ => 0
  object
    | .primitive _, x => x.1
    | .string, x => littleEndian 8 x.buffer ++ littleEndian 8 x.text.length
    | .vector _, _ | .array _ _, _ | .struct _, _ => []
  overwritten
    | .primitive n, bs =>
      if h : bs.length = n then show { bs : List UInt8 // bs.length = n } from ⟨bs, h⟩
      else Ty.initial (.primitive n)
    | .string, bs =>
      let buffer := fromLittleEndian (bs.take 8)
      show StdString from ⟨buffer, memory buffer (fromLittleEndian (bs.drop 8))⟩
    | t, _ => t.initial
  save
    | .primitive _, _ | .string, _ => []
    | .vector item, xs => saveVector item xs.1
    | .array _ item, xs => [.array item .element xs.1]
    | .struct ts, x => saveFields ts (fun _ => .field) x
  load v
    | .primitive n => .done (Ty.initial (.primitive n))
    | .string => .done (Ty.initial .string)
    | .vector item => loadVector v item
    | .array n item =>
      .get (.array item .element n) fun (xs : List item.Val) => .done (toArray n item xs)
    | .struct ts => loadFields ts (fun _ => .field) .done

theorem toVector_val (item : Ty) (xs : (Ty.vector item).Val) : toVector item xs.1 = xs :=
  dif_pos xs.2

theorem follows_items (item : Ty) {y : (Ty.vector item).Val} (xs : List item.Val) :
    ∀ next : List item.Val → Loading (.vector item) (Ty.vector item).Val,
      Follows [] (next xs) y →
        Follows (xs.map fun x => .nvp "item" (.object item .item x))
          (loadItems item xs.length next) y := by
  induction xs with
  | nil => exact fun next h => h
  | cons x xs ih =>
    intro next h
    exact .nvpSaved (.nvpLoaded (.object (ih (fun xs => next (x :: xs)) h)))

theorem follows_vector (item : Ty) (xs : (Ty.vector item).Val) :
    Follows (saveVector item xs.1) (loadVector 0 item) xs := by
  have hcount : fromLittleEndian (sizeT xs.1.length).1 = xs.1.length :=
    fromLittleEndian_littleEndian 8 _ (Nat.lt_of_lt_of_eq xs.2 (by decide))
  have hxs := toVector_val item xs
  refine .nvpSaved (.nvpLoaded (.object ?_))
  dsimp only
  rw [hcount]
  by_cases hitem : isArithmetic item = true
  · rw [if_pos hitem, if_pos hitem]
    cases hval : xs.1 with
    | nil =>
      rw [← hxs, hval]
      exact .done _
    | cons x rest =>
      rw [← hxs, hval]
      exact .array (.done _)
  · rw [if_neg hitem, if_neg hitem, if_neg (Nat.not_lt_zero 3)]
    refine .nvpSaved (.itemVersion (follows_items item xs.1 _ ?_))
    rw [hxs]
    exact .done xs

theorem follows_fields {t : Ty} {α : Type} {y : α} : ∀ (ts : List Ty)
    (part : ∀ u ∈ ts, Part u t) {next : Ty.Fields ts → Loading t α} (x : Ty.Fields ts),
      Follows [] (next x) y → Follows (saveFields ts part x) (loadFields ts part next) y
  | [], _, _, _, h => h
  | _ :: us, part, _, x, h =>
    .object (follows_fields us (fun v hv => part v (List.mem_cons_of_mem _ hv)) x.2 h)

theorem boost_documented (memory : ℕ → ℕ → List UInt8) : (boost memory).Documented where
  length_object t ht x := by
    cases t with
    | primitive n => exact x.2
    | string => simp [boost, length_littleEndian]
    | vector | array | struct => simp [boost, isArithmetic] at ht
  plain t hfree ht x := by
    cases t with
    | primitive n => exact dif_pos x.2
    | string => rw [Ty.StringFree] at hfree; exact hfree.elim
    | vector | array | struct => simp [boost, isArithmetic] at ht
  follows t hfree ht x := by
    cases t with
    | primitive | string => simp [boost] at ht
    | vector item => exact follows_vector item x
    | array n item =>
      obtain ⟨xs, hn⟩ := x
      subst hn
      have hxs : toArray xs.length item xs = ⟨xs, rfl⟩ := dif_pos rfl
      refine .array ?_
      rw [hxs]
      exact .done _
    | struct ts => exact follows_fields ts _ x (.done x)

/-! The exchange of a value. -/

/-- Saving `x` writes these bytes if there is room for them, and reading them gives `x` back,
whatever follows. -/
structure Exchanged (B : Boost) (t : Ty) (x : t.Val) (bs : List UInt8) : Prop where
  saved : ∀ sb : Sink, bs.length ≤ sb.room → (OArchive.create sb true).output B x =
    .ok ⟨⟨sb.written ++ bs, sb.room - bs.length⟩, .ofNat bs.length, true⟩
  refused : ∀ sb : Sink, sb.room < bs.length →
    (OArchive.create sb true).output B x = .error .outputStreamError
  restored : ∀ rest, IArchive.input B t (.create (bs ++ rest)) =
    .ok (x, ⟨rest, .ofNat bs.length⟩)

/-- The size that an archive reports which does not save. -/
def Reported (B : Boost) (t : Ty) (x : t.Val) (size : ℤ) : Prop :=
  ∀ sb : Sink, ((OArchive.create sb false).output B x).map (fun ar => (ar.sb, ar.getArchiveSize)) =
    .ok (sb, size)

/-- A value that contains no `std::string` is exchanged, and the reported size is that of its bytes
as long as an `int` can hold it. -/
theorem archive_exchanges {B : Boost} (hB : B.Documented) {t : Ty} (ht : t.StringFree) (x : t.Val) :
    ∃ bs, Exchanged B t x bs ∧ (bs.length < 2 ^ 31 → Reported B t x bs.length) := by
  let bs := bytes B (t.depth + 1) t (Nat.lt_succ_self _) x
  have hwrite (ar : OArchive) : ar.output B x = ar.write bs := saveAType_eq hB _ t _ ar x
  refine ⟨bs, ⟨fun sb hroom => ?_, fun sb hroom => ?_, fun rest => ?_⟩, fun hsize sb => ?_⟩
  · rw [hwrite, OArchive.create_write hroom]
  · rw [hwrite]
    simp [OArchive.write, OArchive.create, Nat.not_le.mpr hroom]
  · have hread := restores_loadAType hB _ t (Nat.lt_succ_self _) ht x rest 0
    rwa [Int32.zero_add] at hread
  · rw [hwrite]
    simp only [OArchive.write, OArchive.create, OArchive.getArchiveSize, Except.map,
      Bool.false_eq_true, if_false, Int32.zero_add]
    rw [Int32.toInt_ofNat_of_lt hsize]

/-- Numbers, fixed arrays, structs and vectors in one another. -/
def sampleType : Ty :=
  .struct [.primitive 4, .vector (.struct [.primitive 1, .array 2 (.primitive 2)])]

def sample : sampleType.Val :=
  let number (n : ℕ) (bs : List UInt8) (h : bs.length = n) : (Ty.primitive n).Val :=
    show { bs : List UInt8 // bs.length = n } from ⟨bs, h⟩
  let element (b : UInt8) : (Ty.struct [.primitive 1, .array 2 (.primitive 2)]).Val :=
    (number 1 [b] rfl, toArray 2 _ [number 2 [b, 0] rfl, number 2 [0, b] rfl], ())
  (number 4 [1, 2, 3, 4] rfl, toVector _ [element 5, element 6], ())

theorem archive_exchanges_sample :
    ∃ bs, Exchanged (boost fun _ _ => []) sampleType sample bs ∧
      (bs.length < 2 ^ 31 → Reported (boost fun _ _ => []) sampleType sample bs.length) :=
  archive_exchanges (boost_documented _)
    (show sampleType.StringFree from ⟨trivial, ⟨trivial, trivial, trivial⟩, trivial⟩) sample

theorem Exchanged.eq_bytes {B : Boost} (hB : B.Documented) {t : Ty} {x : t.Val} {bs : List UInt8}
    (h : Exchanged B t x bs) : bs = bytes B (t.depth + 1) t (Nat.lt_succ_self _) x := by
  let cs := bytes B (t.depth + 1) t (Nat.lt_succ_self _) x
  let sb : Sink := ⟨[], max bs.length cs.length⟩
  have hwrite : (OArchive.create sb true).output B x = (OArchive.create sb true).write cs :=
    saveAType_eq hB _ t _ _ x
  rw [OArchive.create_write (Nat.le_max_right _ _), h.saved sb (Nat.le_max_left _ _)] at hwrite
  exact congrArg (fun ar => ar.sb.written) (Except.ok.inj hwrite)

theorem Reported.lt {B : Boost} {t : Ty} {x : t.Val} {size : ℤ} (h : Reported B t x size) :
    size < 2 ^ 31 := by
  have hsize := h ⟨[], 0⟩
  cases hsaved : (OArchive.create ⟨[], 0⟩ false).output B x with
  | error e => rw [hsaved] at hsize; cases hsize
  | ok ar =>
    rw [hsaved] at hsize
    have hreport : ar.getArchiveSize = size := congrArg Prod.snd (Except.ok.inj hsize)
    rw [← hreport]
    exact ar.dataWritten.toInt_lt

theorem length_array_of_bytes (memory : ℕ → ℕ → List UInt8) (n : ℕ)
    (x : (Ty.array n (.primitive 1)).Val) (h : (Ty.array n (.primitive 1)).depth < 2) :
    (bytes (boost memory) 2 (.array n (.primitive 1)) h x).length = n := by
  obtain ⟨xs, hn⟩ := x
  show (xs.flatMap ((boost memory).object (.primitive 1)) ++ []).length = n
  rw [List.append_nil, length_flatMap_object (boost_documented memory) (u := .primitive 1) rfl, hn]
  exact Nat.mul_one n

/-- Whether every value of a type is exchanged, and its size reported. -/
def Faithful (B : Boost) (t : Ty) : Prop :=
  ∀ x : t.Val, ∃ bs, Exchanged B t x bs ∧ Reported B t x bs.length

/-- Two strings of one size that are at the same address, one after the other or in different
processes, are saved as the same bytes; and an array of `2^31` bytes is too large for an `int`. -/
theorem string_not_restored :
    (¬ ∃ memory, Faithful (boost memory) .string) ∧
      ¬ ∃ memory, Faithful (boost memory) (.array (2 ^ 31) (.primitive 1)) := by
  constructor
  · rintro ⟨memory, h⟩
    obtain ⟨bs, hbs, -⟩ := h (⟨0, [1]⟩ : StdString)
    obtain ⟨cs, hcs, -⟩ := h (⟨0, [2]⟩ : StdString)
    have hsame : bs = cs :=
      (hbs.eq_bytes (boost_documented memory)).trans (hcs.eq_bytes (boost_documented memory)).symm
    have hread := (hbs.restored []).symm.trans (hsame ▸ hcs.restored [])
    have hstring : (⟨0, [1]⟩ : StdString) = ⟨0, [2]⟩ :=
      congrArg Prod.fst (Except.ok.inj hread)
    exact absurd hstring (by decide)
  · rintro ⟨memory, h⟩
    obtain ⟨bs, hbs, hsize⟩ := h (Ty.initial _)
    have hlen : bs.length = 2 ^ 31 :=
      hbs.eq_bytes (boost_documented memory) ▸ length_array_of_bytes memory _ _ _
    have hlt := hsize.lt
    omega

end OrocosRtt.Mqueue
